import SqlGist.Proofs.Tree.Clauses

/-!
# Parentheses of Built Trees

A parenthesis is grouped before anything around it, so between its marks stands
what the passes make of a run of their own. Whether that run is a list in any
case depends on the keyword in front: behind `VALUES` it is, and anywhere else a
comma has to ask for it.

The parentheses of a clause are those that were nested there, as long as no pass
has joined them with what stands beside them. Each pass replaces some stretches
by groups of one shape and leaves the rest, which is what `Regrouped` says. So a
stretch of its result without such a group was a stretch before, and a clause of
tuples can be followed back through all of them.

## Main definitions

* `Node.Regrouped`: A list with some stretches replaced by groups of a shape.
* `Node.IsEnclosed`: A parenthesis around a run, listed.
* `Node.isTuplePart`: What a clause of tuples is made of.

## Theorems

* `Regrouped.stretch`: A stretch without new groups was there before.
* `enclosed_node`: A nested pair of marks encloses a run.
* `enclosed_of_mem_rootNodes`, `call_of_mem_rootNodes`: So do the parentheses of
  a statement, and those of its calls.
* `enclosed_behind_values`: Behind `VALUES` parentheses are lists.
-/

namespace SqlGist

namespace Node

/-- A list of nodes with some stretches replaced by groups of one shape. -/
inductive Regrouped (shape : Shape) : List Node → List Node → Prop
  | nil : Regrouped shape [] []
  | keep (n : Node) {ns ms : List Node} (h : Regrouped shape ns ms) :
      Regrouped shape (n :: ns) (n :: ms)
  | join (taken children : List Node) {ns ms : List Node} (h : Regrouped shape ns ms) :
      Regrouped shape (taken ++ ns) (.group shape children :: ms)

theorem regrouped_groupCalls (ns : List Node) : Regrouped .functionCall ns (groupCalls ns) := by
  fun_induction groupCalls ns with
  | case1 => exact .nil
  | case2 n => exact .keep n .nil
  | case3 n p ns _ ih => exact .join [n, p] _ ih
  | case4 n p ns _ ih => exact .keep n ih

theorem regrouped_groupNames (ns : List Node) : Regrouped .nameRef ns (groupNames ns) := by
  induction ns with
  | nil => exact .nil
  | cons n ns ih =>
      rw [groupNames_cons]
      split
      · exact .join [n] _ ih
      · exact .keep n ih

theorem regrouped_groupComparisons (ns : List Node) :
    Regrouped .comparison ns (groupComparisons ns) := by
  fun_induction groupComparisons ns with
  | case1 => exact .nil
  | case2 left ns taken rest htaken ih =>
      split at htaken
      · rw [← (comparisonRest?_append htaken).1, ← List.cons_append]
        exact .join (left :: taken) _ ih
      · simp only [reduceCtorEq] at htaken
  | case3 n ns _ ih => exact .keep n ih

/-- What the result begins with, up to the first new group, is what the list
    began with. -/
theorem Regrouped.begins {shape : Shape} {ns ms run : List Node} (h : Regrouped shape ns ms)
    (hrun : run <+: ms) (hfree : ∀ n ∈ run, n.isGroup shape = false) : run <+: ns := by
  induction h generalizing run with
  | nil => exact hrun
  | keep n _ ih =>
      cases run with
      | nil => exact List.nil_prefix
      | cons m run =>
          rw [List.cons_prefix_cons] at hrun ⊢
          exact ⟨hrun.1, ih hrun.2 fun k hk => hfree k (List.mem_cons_of_mem m hk)⟩
  | join taken children _ _ =>
      cases run with
      | nil => exact List.nil_prefix
      | cons m run =>
          have hm := hfree m List.mem_cons_self
          rw [(List.cons_prefix_cons.1 hrun).1] at hm
          exact absurd (hm.symm.trans (decide_eq_true rfl)) Bool.false_ne_true

/-- A stretch of the result without a new group was a stretch of the list. -/
theorem Regrouped.stretch {shape : Shape} {ns ms run : List Node} (h : Regrouped shape ns ms)
    (hrun : run <:+: ms) (hfree : ∀ n ∈ run, n.isGroup shape = false) : run <:+: ns := by
  induction h with
  | nil => exact hrun
  | keep n h ih =>
      rcases List.infix_cons_iff.1 hrun with hrun | hrun
      · exact ((Regrouped.keep n h).begins hrun hfree).isInfix
      · exact (ih hrun).trans (List.suffix_cons n _).isInfix
  | join taken children h ih =>
      rcases List.infix_cons_iff.1 hrun with hrun | hrun
      · exact ((Regrouped.join taken children h).begins hrun hfree).isInfix
      · exact (ih hrun).trans (List.suffix_append taken _).isInfix

/-- The node is a parenthesis around a run of tidy nodes, none of them a list,
    and the run is a list in any case if `forced`. -/
def IsEnclosed (forced : Bool) (n : Node) : Prop :=
  ∃ opening run closing,
    n = .group .parenthesis (.leaf opening :: (listRun forced run ++ [.leaf closing])) ∧
      opening.isMark "(" = true ∧ closing.isMark ")" = true ∧
      ∀ m ∈ run, m.Tidy ∧ m.isGroup .nameList = false

/-- Whether the node can be part of a clause of tuples: a blank, a comma or a
    parenthesis. -/
def isTuplePart (n : Node) : Bool :=
  n.isWhitespace || n.isMark "," || n.isGroup .parenthesis

theorem isTuplePart_iff {n : Node} :
    n.isTuplePart = true ↔
      n.isWhitespace = true ∨ n.isMark "," = true ∨ n.isGroup .parenthesis = true := by
  rw [isTuplePart, Bool.or_eq_true, Bool.or_eq_true, or_assoc]

theorem keyword?_of_isMark {n : Node} {mark : String} (h : n.isMark mark = true) :
    n.keyword? = none := by
  cases n with
  | leaf t => exact SqlGist.keyword?_of_isMark (t := t) h
  | group => rfl

theorem keyword?_of_isTuplePart {n : Node} (h : n.isTuplePart = true) : n.keyword? = none := by
  rcases isTuplePart_iff.1 h with h | h | h
  · exact keyword?_of_isWhitespace h
  · exact keyword?_of_isMark h
  · exact keyword?_of_isGroup h

theorem not_group_of_isTuplePart {n : Node} {shape : Shape} (h : n.isTuplePart = true)
    (hne : shape ≠ .parenthesis) : n.isGroup shape = false := by
  cases n with
  | leaf t => rfl
  | group found children =>
      rcases isTuplePart_iff.1 h with h | h | h
      · exact absurd h Bool.false_ne_true
      · exact absurd h Bool.false_ne_true
      · have hfound : found = .parenthesis := Option.some.inj (of_decide_eq_true h)
        rw [hfound]
        exact decide_eq_false fun hshape => hne (Option.some.inj hshape).symm

end Node

namespace Nested

theorem not_list_node (forced : Bool) (item : Nested) :
    (item.node forced).isGroup .nameList = false := by
  cases item <;> rfl

theorem exists_of_mem_nodes {items : List Nested} {n : Node} (h : n ∈ nodes items) :
    ∃ item ∈ items, n = item.node false := by
  induction items with
  | nil => exact absurd h List.not_mem_nil
  | cons item items ih =>
      rw [nodes] at h
      rcases List.mem_cons.1 h with rfl | h
      · exact ⟨item, List.mem_cons_self, rfl⟩
      · rcases ih h with ⟨other, hother, hn⟩
        exact ⟨other, List.mem_cons_of_mem _ hother, hn⟩

/-- A nested pair of marks encloses the run between them. -/
theorem enclosed_node {forced : Bool} {item : Nested} (h : item.Matched)
    (hshape : (item.node forced).isGroup .parenthesis = true) :
    (item.node forced).IsEnclosed forced := by
  cases h with
  | token => exact absurd hshape Bool.false_ne_true
  | @parens opening closing inner hopen hclose hinner =>
      refine ⟨opening, Node.groupLevel (nodes inner), closing, rfl, hopen, hclose, fun m hm => ?_⟩
      have htidy : ∀ m ∈ Node.groupLevel (nodes inner), m.Tidy :=
        Node.tidy_groupComparisons (Node.tidy_groupNames
          (Node.raw_groupCalls (nodes_raw inner hinner)))
      refine ⟨htidy m hm, ?_⟩
      -- The passes make no list, and nesting makes leaves and parentheses.
      rcases Node.mem_groupComparisons hm with hm | ⟨_, _, _, _, _, rfl, -⟩
      · rcases Node.mem_groupNames hm with ⟨hm, -⟩ | ⟨_, -, -, rfl⟩
        · rcases Node.mem_groupCalls hm with hm | ⟨_, _, -, -, -, -, rfl⟩
          · rcases exists_of_mem_nodes hm with ⟨item, -, rfl⟩
            exact not_list_node false item
          · rfl
        · rfl
      · rfl

theorem exists_of_mem_outerNodes {afterValues : Bool} {items : List Nested} {n : Node}
    (h : n ∈ outerNodes afterValues items) : ∃ item ∈ items, ∃ forced, n = item.node forced := by
  induction items generalizing afterValues with
  | nil => exact absurd h List.not_mem_nil
  | cons item items ih =>
      rw [outerNodes] at h
      rcases List.mem_cons.1 h with rfl | h
      · exact ⟨item, List.mem_cons_self, _, rfl⟩
      · rcases ih h with ⟨other, hother, hn⟩
        exact ⟨other, List.mem_cons_of_mem _ hother, hn⟩

/-- Behind `VALUES` the items are forced, up to the next keyword. -/
theorem exists_of_prefix_outerNodes {items : List Nested} {run : List Node}
    (h : run <+: outerNodes true items) (hrun : ∀ n ∈ run, n.keyword? = none) :
    ∀ n ∈ run, ∃ item ∈ items, n = item.node true := by
  induction items generalizing run with
  | nil =>
      rw [List.prefix_nil.1 h]
      exact fun n hn => absurd hn List.not_mem_nil
  | cons item items ih =>
      cases run with
      | nil => exact fun n hn => absurd hn List.not_mem_nil
      | cons m run =>
          have hm := (List.cons_prefix_cons.1 h).1
          have hkeyword : item.keyword? = none := by
            have hnone := hrun m List.mem_cons_self
            rwa [hm, keyword?_node] at hnone
          -- A node that is no keyword keeps what the last keyword has decided.
          rw [outerNodes, hkeyword] at h
          rcases List.cons_prefix_cons.1 h with ⟨rfl, hrest⟩
          intro n hn
          rcases List.mem_cons.1 hn with rfl | hn
          · exact ⟨item, List.mem_cons_self, rfl⟩
          · rcases ih hrest (fun k hk => hrun k (List.mem_cons_of_mem _ hk)) n hn with
              ⟨other, hother, hn⟩
            exact ⟨other, List.mem_cons_of_mem _ hother, hn⟩

theorem exists_of_infix_outerNodes {items : List Nested} {afterValues : Bool} {opening : Node}
    {run : List Node} (h : opening :: run <:+: outerNodes afterValues items)
    (hopens : opening.keyword? = some .values) (hrun : ∀ n ∈ run, n.keyword? = none) :
    ∀ n ∈ run, ∃ item ∈ items, n = item.node true := by
  induction items generalizing afterValues with
  | nil => exact absurd (List.eq_nil_of_infix_nil h) (List.cons_ne_nil _ _)
  | cons item items ih =>
      rw [outerNodes] at h
      intro n hn
      have hfound : ∃ other ∈ items, n = other.node true := by
        rcases List.infix_cons_iff.1 h with h | h
        · rcases List.cons_prefix_cons.1 h with ⟨rfl, hrest⟩
          rw [keyword?_node] at hopens
          rw [hopens] at hrest
          exact exists_of_prefix_outerNodes hrest hrun n hn
        · exact ih h n hn
      rcases hfound with ⟨other, hother, hn⟩
      exact ⟨other, List.mem_cons_of_mem _ hother, hn⟩

end Nested

theorem Node.ne_group_of_isGroup {n : Node} {shape other : Shape} (h : n.isGroup shape = true)
    (hne : other ≠ shape) (children : List Node) : n ≠ .group other children := by
  rintro rfl
  exact hne (Option.some.inj (of_decide_eq_true h))

section Level

variable {items : List Nested} {n : Node} {shape : Shape} (hshape : n.isGroup shape = true)
  (hcases : shape = .parenthesis ∨ shape = .functionCall)

include hshape hcases

/-- A parenthesis of a level was nested there, and a call is a name and such a
    parenthesis. -/
theorem mem_outerNodes_or_call_of_level (hlevel : n ∈ levelNodes items) :
    n ∈ Nested.outerNodes false items ∨ shape = .functionCall ∧ ∃ name p, name.isName = true ∧
      p ∈ Nested.outerNodes false items ∧ p.isGroup .parenthesis = true ∧
        n = .group .functionCall [Node.nameRef name, p] := by
  -- No other pass makes a group of either shape.
  have hother (other : Shape) (hne : other ≠ .parenthesis ∧ other ≠ .functionCall) :=
    Node.ne_group_of_isGroup hshape (hcases.elim (fun h => h ▸ hne.1) fun h => h ▸ hne.2)
  rcases Node.mem_groupComparisons hlevel with hlevel | ⟨_, _, _, _, _, hn, -⟩
  · rcases Node.mem_groupNames hlevel with ⟨hlevel, -⟩ | ⟨_, -, -, hn⟩
    · split at hlevel
      · exact Or.inl hlevel
      · rcases Node.mem_groupCalls hlevel with hlevel | ⟨name, p, -, hp, hname, hparens, rfl⟩
        · exact Or.inl hlevel
        · exact Or.inr ⟨(Option.some.inj (of_decide_eq_true hshape)).symm, name, p, hname, hp,
            hparens, rfl⟩
    · exact absurd hn (hother .nameRef ⟨Shape.noConfusion, Shape.noConfusion⟩ _)
  · exact absurd hn (hother .comparison ⟨Shape.noConfusion, Shape.noConfusion⟩ _)

/-- So was a parenthesis of a statement, and so is a call of it. -/
theorem mem_outerNodes_or_call (hn : n ∈ rootNodes items) :
    n ∈ Nested.outerNodes false items ∨ shape = .functionCall ∧ ∃ name p, name.isName = true ∧
      p ∈ Nested.outerNodes false items ∧ p.isGroup .parenthesis = true ∧
        n = .group .functionCall [Node.nameRef name, p] := by
  have hother (other : Shape) (hne : other ≠ .parenthesis ∧ other ≠ .functionCall) :=
    Node.ne_group_of_isGroup hshape (hcases.elim (fun h => h ▸ hne.1) fun h => h ▸ hne.2)
  refine mem_outerNodes_or_call_of_level hshape hcases ?_
  rw [rootNodes_eq_groupWhere] at hn
  rcases Node.mem_groupWhere hn with hn | ⟨_, _, hn, -⟩
  · rcases Node.mem_groupLists hn with hn | ⟨_, hn, -⟩
    · exact hn
    · exact absurd hn (hother .nameList ⟨Shape.noConfusion, Shape.noConfusion⟩ _)
  · exact absurd hn (hother .whereClause ⟨Shape.noConfusion, Shape.noConfusion⟩ _)

end Level

section Statement

variable {items : List Nested} (h : ∀ item ∈ items, item.Matched)

include h

theorem enclosed_of_mem_outerNodes {p : Node} (hp : p ∈ Nested.outerNodes false items)
    (hshape : p.isGroup .parenthesis = true) : ∃ forced, p.IsEnclosed forced := by
  rcases Nested.exists_of_mem_outerNodes hp with ⟨item, hitem, forced, rfl⟩
  exact ⟨forced, Nested.enclosed_node (h item hitem) hshape⟩

/-- A parenthesis of a statement encloses a run. -/
theorem enclosed_of_mem_rootNodes {p : Node} (hp : p ∈ rootNodes items)
    (hshape : p.isGroup .parenthesis = true) : ∃ forced, p.IsEnclosed forced := by
  rcases mem_outerNodes_or_call hshape (Or.inl rfl) hp with hp | ⟨hcall, -⟩
  · exact enclosed_of_mem_outerNodes h hp hshape
  · exact absurd hcall Shape.noConfusion

/-- A call of a statement is a name and a parenthesis that encloses a run. -/
theorem call_of_mem_rootNodes {n : Node} (hn : n ∈ rootNodes items)
    (hshape : n.isGroup .functionCall = true) :
    ∃ (name : Token) (p : Node) (forced : Bool), name.isName = true ∧ p.IsEnclosed forced ∧
      n = .group .functionCall [Node.nameRef (.leaf name), p] := by
  rcases mem_outerNodes_or_call hshape (Or.inr rfl) hn with hn | ⟨-, name, p, hname, hp, hp', rfl⟩
  · rcases Nested.exists_of_mem_outerNodes hn with ⟨item, -, forced, rfl⟩
    cases item <;> exact absurd hshape Bool.false_ne_true
  · rcases Node.eq_leaf_of_isName hname with ⟨t, rfl, ht⟩
    rcases enclosed_of_mem_outerNodes h hp hp' with ⟨forced, henclosed⟩
    exact ⟨t, p, forced, ht, henclosed, rfl⟩

/-- In a clause of tuples behind `VALUES` every parenthesis is a list. -/
theorem enclosed_behind_values {opening : Node} {run : List Node}
    (hrun : opening :: run <:+: levelNodes items) (hopens : opening.keyword? = some .values)
    (hparts : ∀ n ∈ run, n.isTuplePart = true) {p : Node} (hp : p ∈ run)
    (hshape : p.isGroup .parenthesis = true) : p.IsEnclosed true := by
  have hleaf : ∀ shape, opening.isGroup shape = false := by
    intro shape
    cases opening with
    | leaf t => rfl
    | group => exact absurd hopens.symm (Option.some_ne_none _)
  have hfree : ∀ shape, shape ≠ .parenthesis →
      ∀ n ∈ opening :: run, n.isGroup shape = false := by
    intro shape hne n hn
    rcases List.mem_cons.1 hn with rfl | hn
    · exact hleaf shape
    · exact Node.not_group_of_isTuplePart (hparts n hn) hne
  -- None of the passes has touched the clause.
  have houter : opening :: run <:+: Nested.outerNodes false items := by
    have hnamed := ((Node.regrouped_groupComparisons _).stretch hrun
      (hfree _ Shape.noConfusion))
    have hcalled := (Node.regrouped_groupNames _).stretch hnamed (hfree _ Shape.noConfusion)
    split at hcalled
    · exact hcalled
    · exact (Node.regrouped_groupCalls _).stretch hcalled (hfree _ Shape.noConfusion)
  rcases Nested.exists_of_infix_outerNodes houter hopens
    (fun n hn => Node.keyword?_of_isTuplePart (hparts n hn)) p hp with ⟨item, hitem, rfl⟩
  exact Nested.enclosed_node (h item hitem) hshape

end Statement

end SqlGist
