import SqlGist.Proofs.Tree.Clauses
import SqlGist.Proofs.Tree.Depth

/-!
# Leaves Outside Parentheses

The keywords of a finished level can be found again among the leaves below it,
without the level: they are the keywords at depth zero, less those that a
comparison has taken. So no pass hides a keyword in any other group. A name
holds none, an argument list holds its own inside parentheses, and a list is
made of what stands between keywords.

Depth is that of the tokens, so a leaf is known to be outside by what was read
before it and not by its path. Each node of a level ends at the depth it began
at, and the leaves of the level are gone through node by node.

## Main definitions

* `outerTokens`, `outerLeaves`: The tokens and the leaves at depth zero.
* `Leaf.isCompared`: A comparison has taken this keyword.
* `uncomparedKeywords`: The keywords at depth zero that no comparison has taken.
* `Node.Transparent`: A node hides no keyword.

## Theorems

* `mem_of_outerKeywords`: The other keywords are the four a comparison can take.
* `Tidy.outerTokens_inside`: Inside parentheses nothing is at depth zero.
* `Tidy.transparent`, `IsList.transparent`: What hides no keyword.
* `uncomparedKeywords_leavesFrom`: So the keywords of a level are found among
  its leaves.
* `transparent_of_mem_ungroupedNodes`: The nodes of a statement hide none.
-/

namespace SqlGist

/-- The tokens at depth zero, in order, when `depth` parentheses are open before
    them. -/
def outerTokens (depth : Nat) : List Token → List Token
  | [] => []
  | t :: ts => (if depth = 0 then [t] else []) ++ outerTokens (depthAfter depth t) ts

/-- The leaves at depth zero, in order, when `depth` parentheses are open before
    them. -/
def outerLeaves (depth : Nat) : List Leaf → List Leaf
  | [] => []
  | l :: ls => (if depth = 0 then [l] else []) ++ outerLeaves (depthAfter depth l.token) ls

/-- Whether the leaf is a keyword that the comparison around it has taken, for
    an operator or an operand. -/
def Leaf.isCompared (l : Leaf) : Bool :=
  -- Blanks aside, nothing but operands and an operator stands in a comparison itself.
  l.keyword?.any comparisonKeywords.contains && l.parent?.any fun f => f.shape = .comparison

/-- The keywords at depth zero that no comparison has taken, in order. -/
def uncomparedKeywords (depth : Nat) (ls : List Leaf) : List Keyword :=
  ((outerLeaves depth ls).filter fun l => !l.isCompared).filterMap Leaf.keyword?

theorem outerLeaves_append (depth : Nat) (as bs : List Leaf) :
    outerLeaves depth (as ++ bs) =
      outerLeaves depth as ++ outerLeaves (depthBehind depth (as.map Leaf.token)) bs := by
  induction as generalizing depth with
  | nil => rfl
  | cons a as ih =>
      rw [List.cons_append, outerLeaves, ih, outerLeaves, List.append_assoc, List.map_cons,
        depthBehind_cons]

theorem outerLeaves_sublist (depth : Nat) (ls : List Leaf) : (outerLeaves depth ls).Sublist ls := by
  induction ls generalizing depth with
  | nil => exact List.Sublist.refl []
  | cons l ls ih =>
      rw [outerLeaves]
      split
      · exact (ih _).cons_cons l
      · exact (ih _).cons l

theorem outerTokens_append (depth : Nat) (as bs : List Token) :
    outerTokens depth (as ++ bs) =
      outerTokens depth as ++ outerTokens (depthBehind depth as) bs := by
  induction as generalizing depth with
  | nil => rfl
  | cons a as ih =>
      rw [List.cons_append, outerTokens, ih, outerTokens, List.append_assoc, depthBehind_cons]

theorem tokens_outerLeaves (depth : Nat) (ls : List Leaf) :
    (outerLeaves depth ls).map Leaf.token = outerTokens depth (ls.map Leaf.token) := by
  induction ls generalizing depth with
  | nil => rfl
  | cons l ls ih =>
      rw [outerLeaves, List.map_append, ih, List.map_cons, outerTokens]
      split <;> rfl

theorem keywords_outerTokens (depth : Nat) (ts : List Token) :
    (outerTokens depth ts).filterMap Token.keyword? = outerKeywords depth ts := by
  induction ts generalizing depth with
  | nil => rfl
  | cons t ts ih =>
      rw [outerTokens, List.filterMap_append, ih, outerKeywords]
      congr 1
      split
      · rw [List.filterMap_cons, List.filterMap_nil]
        cases t.keyword? <;> rfl
      · rfl

theorem keywords_outerLeaves (depth : Nat) (ls : List Leaf) :
    (outerLeaves depth ls).filterMap Leaf.keyword? = outerKeywords depth (ls.map Leaf.token) := by
  rw [← keywords_outerTokens, ← tokens_outerLeaves, List.filterMap_map]
  rfl

/-- A keyword at depth zero is one of the four that a comparison can take, or no
    comparison has taken it. -/
theorem mem_of_outerKeywords {depth : Nat} {ls : List Leaf} {k : Keyword}
    (h : k ∈ outerKeywords depth (ls.map Leaf.token)) :
    k ∈ comparisonKeywords ∨ k ∈ uncomparedKeywords depth ls := by
  rw [← keywords_outerLeaves] at h
  rcases List.mem_filterMap.1 h with ⟨l, hl, hk⟩
  cases hcompared : l.isCompared with
  | true =>
      rw [Leaf.isCompared, hk, Option.any_some, Bool.and_eq_true, List.contains_iff_mem]
        at hcompared
      exact Or.inl hcompared.1
  | false =>
      refine Or.inr (List.mem_filterMap.2 ⟨l, List.mem_filter.2 ⟨hl, ?_⟩, hk⟩)
      rw [hcompared, Bool.not_false]

theorem uncomparedKeywords_append (depth : Nat) (as bs : List Leaf) :
    uncomparedKeywords depth (as ++ bs) =
      uncomparedKeywords depth as ++
        uncomparedKeywords (depthBehind depth (as.map Leaf.token)) bs := by
  rw [uncomparedKeywords, outerLeaves_append, List.filter_append, List.filterMap_append]
  rfl

theorem uncomparedKeywords_eq_nil {depth : Nat} {ls : List Leaf}
    (h : outerKeywords depth (ls.map Leaf.token) = []) : uncomparedKeywords depth ls = [] := by
  rw [← keywords_outerLeaves, List.filterMap_eq_nil_iff] at h
  exact List.filterMap_eq_nil_iff.2 fun l hl => h l (List.mem_filter.1 hl).1

namespace Node

/-- What stands outside parentheses in a level stands so in one of its nodes. -/
theorem outerTokens_tokensOf {ns : List Node} (htidy : ∀ n ∈ ns, n.Tidy) (depth : Nat) :
    outerTokens depth (tokensOf ns) = ns.flatMap fun n => outerTokens depth n.tokens := by
  induction ns with
  | nil => rfl
  | cons n ns ih =>
      rw [tokensOf, outerTokens_append, (htidy n List.mem_cons_self).depthBehind,
        ih fun m hm => htidy m (List.mem_cons_of_mem _ hm), List.flatMap_cons]

theorem outerTokens_tokensOf_eq_nil {ns : List Node} (htidy : ∀ n ∈ ns, n.Tidy) {depth : Nat}
    (h : ∀ n ∈ ns, outerTokens depth n.tokens = []) : outerTokens depth (tokensOf ns) = [] := by
  rw [outerTokens_tokensOf htidy]
  exact List.flatMap_eq_nil_iff.2 h

theorem outerTokens_parens {opening : Token} {inner : List Node}
    (hopen : opening.isMark "(" = true) (htidy : ∀ n ∈ inner, n.Tidy) {depth : Nat}
    {closing : Token} (h : ∀ n ∈ inner, outerTokens (depth + 1) n.tokens = []) :
    outerTokens depth (group .parenthesis (.leaf opening :: (inner ++ [.leaf closing]))).tokens =
      if depth = 0 then [opening] else [] := by
  rw [tokens, tokensOf, tokensOf_append, tokens, List.singleton_append, outerTokens,
    depthAfter_open hopen, outerTokens_append, outerTokens_tokensOf_eq_nil htidy h,
    depthBehind_tokensOf fun m hm => (htidy m hm).depthBehind]
  exact List.append_nil _

/-- Inside parentheses nothing of a tidy node stands at depth zero. -/
theorem Tidy.outerTokens_inside {n : Node} (h : n.Tidy) (depth : Nat) :
    outerTokens (depth + 1) n.tokens = [] := by
  induction h generalizing depth with
  | leaf => rfl
  | name => rfl
  | @call t p hname _ hp ih =>
      rw [tokens, tokensOf, tokensOf, tokensOf, List.append_nil, outerTokens_append,
        (Tidy.name hname).depthBehind, ih]
      rfl
  | comparison _ _ _ _ _ hall ih => exact outerTokens_tokensOf_eq_nil hall fun m hm => ih m hm depth
  | list _ _ hall ih => exact outerTokens_tokensOf_eq_nil hall fun m hm => ih m hm depth
  | parens hopen _ hall ih => exact outerTokens_parens hopen hall fun m hm => ih m hm (depth + 1)

/-- Of a pair of parentheses the opening mark does. -/
theorem Tidy.outerTokens_parenthesis {n : Node} (h : n.Tidy)
    (hshape : n.isGroup .parenthesis = true) :
    ∃ opening : Token, opening.isMark "(" = true ∧ outerTokens 0 n.tokens = [opening] := by
  cases h with
  | parens hopen _ hall =>
      exact ⟨_, hopen, outerTokens_parens hopen hall fun m hm => (hall m hm).outerTokens_inside 0⟩
  | _ => exact absurd hshape Bool.false_ne_true

/-- Of a call, its name and that mark. -/
theorem outerTokens_call {t : Token} {p : Node} (hname : t.isName = true) (hp : p.Tidy)
    (hshape : p.isGroup .parenthesis = true) :
    ∃ opening : Token, opening.isMark "(" = true ∧
      outerTokens 0 (Node.group .functionCall [nameRef (.leaf t), p]).tokens = [t, opening] := by
  rcases hp.outerTokens_parenthesis hshape with ⟨opening, hopen, houter⟩
  refine ⟨opening, hopen, ?_⟩
  rw [tokens, tokensOf, tokensOf, tokensOf, List.append_nil, outerTokens_append,
    (Tidy.name hname).depthBehind, houter]
  rfl

theorem outerKeywords_parenthesis {n : Node} (h : n.Tidy) (hshape : n.isGroup .parenthesis = true) :
    outerKeywords 0 n.tokens = [] := by
  rcases h.outerTokens_parenthesis hshape with ⟨opening, hopen, houter⟩
  rw [← keywords_outerTokens, houter, List.filterMap_cons_none (SqlGist.keyword?_of_isMark hopen)]
  rfl

theorem outerKeywords_name {t : Token} (h : t.isName = true) :
    outerKeywords 0 (nameRef (.leaf t)).tokens = [] := by
  rw [← keywords_outerTokens, show outerTokens 0 (nameRef (.leaf t)).tokens = [t] from rfl,
    List.filterMap_cons_none (show t.keyword? = none from keyword?_of_isName (n := .leaf t) h)]
  rfl

theorem outerKeywords_call {t : Token} {p : Node} (hname : t.isName = true) (hp : p.Tidy)
    (hshape : p.isGroup .parenthesis = true) :
    outerKeywords 0 (Node.group .functionCall [nameRef (.leaf t), p]).tokens = [] := by
  rcases outerTokens_call hname hp hshape with ⟨opening, hopen, houter⟩
  rw [← keywords_outerTokens, houter,
    List.filterMap_cons_none (show t.keyword? = none from keyword?_of_isName (n := .leaf t) hname),
    List.filterMap_cons_none (SqlGist.keyword?_of_isMark hopen)]
  rfl

/-- The keywords found among the leaves of some nodes are those found in each. -/
theorem uncomparedKeywords_flatMap {g : Group} {path : List Frame} {ns : List Node}
    {found : Node → List Keyword} (htidy : ∀ n ∈ ns, n.Tidy)
    (h : ∀ n ∈ ns, ∀ index, uncomparedKeywords 0 (n.leaves (⟨g, index⟩ :: path)) = found n)
    (index : Nat) : uncomparedKeywords 0 (leavesFrom g path index ns) = ns.flatMap found := by
  induction ns generalizing index with
  | nil => rfl
  | cons n ns ih =>
      rw [leavesFrom, uncomparedKeywords_append, h n List.mem_cons_self, leaves_tokens,
        (htidy n List.mem_cons_self).depthBehind, List.flatMap_cons]
      exact congrArg _ (ih (fun m hm => htidy m (List.mem_cons_of_mem _ hm))
        (fun m hm => h m (List.mem_cons_of_mem _ hm)) (index + 1))

/-- A tidy node that hides no keyword: wherever it stands outside of comparisons,
    those found among its leaves are the node itself, if it is one. -/
structure Transparent (n : Node) : Prop where
  tidy : n.Tidy
  shows : ∀ g : Group, g.shape ≠ .comparison → ∀ path index,
    uncomparedKeywords 0 (n.leaves (⟨g, index⟩ :: path)) = n.keyword?.toList

theorem shows_leaf (t : Token) {g : Group} (hg : g.shape ≠ .comparison) (path : List Frame)
    (index : Nat) :
    uncomparedKeywords 0 ((leaf t).leaves (⟨g, index⟩ :: path)) = (leaf t).keyword?.toList := by
  have hfree : Leaf.isCompared ⟨t, ⟨g, index⟩ :: path⟩ = false := by
    rw [Leaf.isCompared, Bool.and_eq_false_iff]
    exact Or.inr (decide_eq_false hg)
  rw [leaves, uncomparedKeywords, outerLeaves, outerLeaves, if_pos rfl, List.append_nil,
    List.filter_cons_of_pos (by rw [hfree, Bool.not_false]), List.filter_nil, List.filterMap_cons,
    List.filterMap_nil]
  cases hk : t.keyword? with
  | none => simp only [Leaf.keyword?, hk, keyword?, leaf?, Option.bind_some, Option.toList_none]
  | some k => simp only [Leaf.keyword?, hk, keyword?, leaf?, Option.bind_some, Option.toList_some]

theorem Tidy.transparent_of_outerKeywords {n : Node} (h : n.Tidy) (hnone : n.keyword? = none)
    (hkeywords : outerKeywords 0 n.tokens = []) : n.Transparent := by
  refine ⟨h, fun g _ path index => ?_⟩
  rw [uncomparedKeywords_eq_nil (by rw [leaves_tokens, hkeywords]), hnone, Option.toList_none]

/-- A keyword among the parts of a comparison has been taken by it. -/
theorem isCompared_of_part {t : Token}
    (hpart : (leaf t).isOperand = true ∨ (leaf t).isComparisonOperator = true ∨
      (leaf t).isWhitespace = true)
    {k : Keyword} (hk : t.keyword? = some k) {g : Group} (hg : g.shape = .comparison)
    (path : List Frame) (index : Nat) : Leaf.isCompared ⟨t, ⟨g, index⟩ :: path⟩ = true := by
  have htaken : k ∈ comparisonKeywords := by
    rcases hpart with hpart | hpart | hpart
    · exact mem_comparisonKeywords_of_isOperand hpart hk
    · exact mem_comparisonKeywords_of_isComparisonOperator hpart hk
    · exact absurd (hk.symm.trans (keyword?_of_isWhitespace hpart)) (Option.some_ne_none k)
  rw [Leaf.isCompared, show Leaf.keyword? ⟨t, ⟨g, index⟩ :: path⟩ = some k from hk, Option.any_some,
    List.contains_iff_mem.2 htaken, Bool.true_and]
  exact decide_eq_true hg

/-- Whatever a comparison takes is an operand, the operator or a blank. -/
theorem part_of_comparison {left operator right : Node} {gap gap' : List Node}
    (hleft : left.isOperand = true) (hgap : ∀ m ∈ gap, m.isWhitespace = true)
    (hoperator : operator.isComparisonOperator = true) (hgap' : ∀ m ∈ gap', m.isWhitespace = true)
    (hright : right.isOperand = true) : ∀ m ∈ left :: (gap ++ operator :: (gap' ++ [right])),
      m.isOperand = true ∨ m.isComparisonOperator = true ∨ m.isWhitespace = true := by
  intro m hm
  simp only [List.mem_cons, List.mem_append, List.not_mem_nil, or_false] at hm
  rcases hm with rfl | hm | rfl | hm | rfl
  · exact Or.inl hleft
  · exact Or.inr (Or.inr (hgap m hm))
  · exact Or.inr (Or.inl hoperator)
  · exact Or.inr (Or.inr (hgap' m hm))
  · exact Or.inl hright

/-- A part of a comparison shows no keyword there: a leaf has been taken, and a
    name or a call has none. -/
theorem uncomparedKeywords_compared {n : Node} (htidy : n.Tidy)
    (hpart : n.isOperand = true ∨ n.isComparisonOperator = true ∨ n.isWhitespace = true)
    {g : Group} (hg : g.shape = .comparison) (path : List Frame) (index : Nat) :
    uncomparedKeywords 0 (n.leaves (⟨g, index⟩ :: path)) = [] := by
  cases n with
  | leaf t =>
      refine List.filterMap_eq_nil_iff.2 fun l hl => ?_
      refine Option.eq_none_iff_forall_ne_some.2 fun k hk => ?_
      rcases List.mem_filter.1 hl with ⟨hl, hfree⟩
      obtain rfl := List.mem_singleton.1 ((outerLeaves_sublist 0 _).subset hl)
      rw [isCompared_of_part hpart hk hg] at hfree
      exact Bool.false_ne_true hfree
  | group shape children =>
      refine uncomparedKeywords_eq_nil ?_
      rw [leaves_tokens]
      have hoperand : (group shape children).isOperand = true := by
        rcases hpart with hpart | hpart | hpart
        · exact hpart
        · exact absurd hpart Bool.false_ne_true
        · exact absurd hpart Bool.false_ne_true
      cases htidy with
      | name hname => exact outerKeywords_name hname
      | call hname hshape hp => exact outerKeywords_call hname hp hshape
      | _ => exact absurd hoperand Bool.false_ne_true

theorem Tidy.transparent {n : Node} (h : n.Tidy) (hlist : n.isGroup .nameList = false) :
    n.Transparent := by
  cases h with
  | @leaf t hname hopen hclose =>
      exact ⟨.leaf hname hopen hclose, fun g hg path index => shows_leaf t hg path index⟩
  | name hname =>
      exact (Tidy.name hname).transparent_of_outerKeywords rfl (outerKeywords_name hname)
  | call hname hshape hp =>
      exact (Tidy.call hname hshape hp).transparent_of_outerKeywords rfl
        (outerKeywords_call hname hp hshape)
  | list => exact absurd hlist Bool.false_ne_true.symm
  | parens hopen hclose hall =>
      have htidy := Tidy.parens hopen hclose hall
      exact htidy.transparent_of_outerKeywords rfl (outerKeywords_parenthesis htidy rfl)
  | @comparison left operator right gap gap' hleft hgap hoperator hgap' hright hall =>
      refine ⟨.comparison hleft hgap hoperator hgap' hright hall, fun g _ path index => ?_⟩
      have hpart := part_of_comparison hleft hgap hoperator hgap' hright
      rw [leaves, uncomparedKeywords_flatMap hall fun m hm =>
        uncomparedKeywords_compared (hall m hm) (hpart m hm) rfl _]
      exact List.flatMap_eq_nil_iff.2 fun _ _ => rfl

/-- A list shows no keyword if it is made of nodes that are none. -/
theorem IsList.transparent {ns : List Node} {n : Node} (hn : IsList ns n)
    (h : ∀ m ∈ ns, m.Transparent) (hnone : ∀ m ∈ ns, m.keyword? = none) : n.Transparent := by
  refine ⟨hn.tidy fun m hm => (h m hm).tidy, fun g _ path index => ?_⟩
  rcases hn with ⟨items, rfl, -, -, hmem⟩
  rw [leaves, uncomparedKeywords_flatMap (fun m hm => (h m (hmem m hm)).tidy) fun m hm =>
    (h m (hmem m hm)).shows ⟨.nameList, items⟩ Shape.noConfusion _]
  exact List.flatMap_eq_nil_iff.2 fun m hm => by rw [hnone m (hmem m hm), Option.toList_none]

/-- The keywords of a level are found among its leaves. -/
theorem uncomparedKeywords_leavesFrom {g : Group} (hg : g.shape ≠ .comparison) {ns : List Node}
    (h : ∀ n ∈ ns, n.Transparent) (path : List Frame) (index : Nat) :
    uncomparedKeywords 0 (leavesFrom g path index ns) = ns.filterMap keyword? := by
  rw [uncomparedKeywords_flatMap (fun n hn => (h n hn).tidy) fun n hn => (h n hn).shows g hg path,
    List.filterMap_eq_flatMap_toList]

end Node

theorem transparent_of_mem_ungroupedNodes {items : List Nested}
    (h : ∀ item ∈ items, item.Matched) : ∀ n ∈ ungroupedNodes items, n.Transparent := by
  have hlevel : ∀ n ∈ levelNodes items, n.Transparent :=
    fun n hn => (tidy_levelNodes h n hn).transparent (not_list_of_mem_levelNodes hn)
  intro n hn
  rcases Node.exists_run_of_mem_groupLists hn with hn | ⟨forced, run, hn, hrun⟩
  · exact hlevel n hn
  · rcases Node.mem_listRun hn with hn | hn
    · exact hlevel n (hrun n hn).1
    · exact hn.transparent (fun m hm => hlevel m (hrun m hm).1) fun m hm => (hrun m hm).2

end SqlGist
