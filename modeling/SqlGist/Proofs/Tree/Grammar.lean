import Mathlib.Data.List.TakeWhile
import SqlGist.Tree.Build

/-!
# The Grammar of Built Trees

What the passes make of a statement obeys one grammar, whatever the statement.
It is said in two steps. First, what a single pass can put into its result is
read off the pass once: a node that was there before, or one new group of known
parts. Then `Tidy` is shown to survive every pass, and nothing after that opens
a pass again.

A name is the one thing that changes its standing on the way. It is a bare leaf
until `groupNames`, and wrapped behind it, so the passes before work on `Raw`
nodes, which are tidy or a bare name.

The group of the condition is no case of `Tidy`. It is made last, and at the
outermost level alone, so nothing tidy contains one.

## Main definitions

* `Nested.Matched`: Parentheses stand around items and nowhere else.
* `Node.Tidy`: The grammar.
* `Node.Raw`: A tidy node, or a name that has not been wrapped.
* `Node.IsList`: A node is a list made of some of these.
* `Node.IsClause`: A node is the group of a condition made of some of these.
* `Node.SplitAtWhere`: A level with a condition, in parts.
* `levelNodes`, `ungroupedNodes`: The nodes of a statement before its runs are
  listed, and before its condition is grouped.

## Theorems

* `matched_nest`: Nesting matches the parentheses.
* `nest_tokensOf`: Matched items are nested back from their tokens.
* `mem_groupCalls`, `mem_groupNames`, `mem_groupComparisons`, `mem_listRun`,
  `mem_groupLists`, `mem_groupWhere`: What a pass can put into its result.
* `groupWhere_cases`: All that grouping a condition can do.
* `node_raw`: A nested item becomes a raw node.
* `mem_rootNodes`: The nodes of a statement are tidy, but for the group of its
  condition.
-/

namespace SqlGist

namespace Nested

/-- The parentheses of an item are the marks around its pairs, and no other
    token of it is one. -/
inductive Matched : Nested → Prop
  | token {t : Token} (hopen : t.isMark "(" = false) (hclose : t.isMark ")" = false) :
      Matched (.token t)
  | parens {opening closing : Token} {inner : List Nested} (hopen : opening.isMark "(" = true)
      (hclose : closing.isMark ")" = true) (hinner : ∀ item ∈ inner, Matched item) :
      Matched (.parens opening inner closing)

theorem matched_nestFrom {stack : List (Token × List Nested)} {current items : List Nested}
    {ts : List Token} (h : nestFrom stack current ts = .ok items)
    (hstack : ∀ frame ∈ stack, frame.1.isMark "(" = true ∧ ∀ item ∈ frame.2, Matched item)
    (hcurrent : ∀ item ∈ current, Matched item) : ∀ item ∈ items, Matched item := by
  fun_induction nestFrom stack current ts with
  | case1 current =>
      rw [Except.ok.injEq] at h
      intro item hitem
      rw [← h, List.mem_reverse] at hitem
      exact hcurrent item hitem
  | case2 => simp only [reduceCtorEq] at h
  | case3 stack current t ts hopen ih =>
      refine ih h ?_ fun item hitem => absurd hitem List.not_mem_nil
      intro frame hframe
      rcases List.mem_cons.1 hframe with rfl | hframe
      · exact ⟨hopen, hcurrent⟩
      · exact hstack frame hframe
  | case4 => simp only [reduceCtorEq] at h
  | case5 current t ts hopen hclose opening before outer ih =>
      -- What was read since the opening mark becomes one item.
      have htop := hstack (opening, before) List.mem_cons_self
      refine ih h (fun frame hframe => hstack frame (List.mem_cons_of_mem _ hframe)) ?_
      intro item hitem
      rcases List.mem_cons.1 hitem with rfl | hitem
      · exact .parens htop.1 hclose fun i hi => hcurrent i (List.mem_reverse.1 hi)
      · exact htop.2 item hitem
  | case6 stack current t ts hopen hclose ih =>
      refine ih h hstack ?_
      intro item hitem
      rcases List.mem_cons.1 hitem with rfl | hitem
      · exact .token (Bool.eq_false_iff.2 hopen) (Bool.eq_false_iff.2 hclose)
      · exact hcurrent item hitem

theorem matched_nest {ts : List Token} {items : List Nested} (h : nest ts = .ok items) :
    ∀ item ∈ items, Matched item :=
  matched_nestFrom h (fun _ hframe => absurd hframe List.not_mem_nil)
    fun _ hitem => absurd hitem List.not_mem_nil

mutual

theorem nestFrom_tokens : (item : Nested) → item.Matched → (stack : List (Token × List Nested)) →
    (current : List Nested) → (ts : List Token) →
    nestFrom stack current (item.tokens ++ ts) = nestFrom stack (item :: current) ts
  | .token t, h, stack, current, ts => by
      cases h with
      | token hopen hclose => exact nestFrom_token hopen hclose stack current ts
  | .parens opening inner closing, h, stack, current, ts => by
      cases h with
      | parens hopen hclose hinner =>
          rw [tokens, List.cons_append, List.append_assoc, nestFrom_open hopen,
            nestFrom_tokensOf inner hinner, List.singleton_append,
            nestFrom_close (Token.not_open_of_close hclose) hclose, List.append_nil,
            List.reverse_reverse]

theorem nestFrom_tokensOf : (items : List Nested) → (∀ item ∈ items, item.Matched) →
    (stack : List (Token × List Nested)) → (current : List Nested) → (ts : List Token) →
    nestFrom stack current (tokensOf items ++ ts) = nestFrom stack (items.reverse ++ current) ts
  | [], _, stack, current, ts => rfl
  | item :: items, h, stack, current, ts => by
      rw [tokensOf, List.append_assoc, nestFrom_tokens item (h item List.mem_cons_self),
        nestFrom_tokensOf items fun i hi => h i (List.mem_cons_of_mem _ hi), List.reverse_cons,
        List.append_assoc, List.singleton_append]

end

theorem nest_tokensOf {items : List Nested} (h : ∀ item ∈ items, item.Matched) :
    nest (tokensOf items) = .ok items := by
  have hall := nestFrom_tokensOf items h [] [] []
  rw [List.append_nil, List.append_nil, nestFrom, List.reverse_reverse] at hall
  exact hall

end Nested

namespace Node

/-- The list of items does not begin with a blank and does not end with one. -/
def Trimmed (items : List Node) : Prop :=
  (∀ n, items.head? = some n → n.isWhitespace = false) ∧
    ∀ n, items.getLast? = some n → n.isWhitespace = false

/-- The node is a list, not empty and without blanks at either end, of nodes
    from `ns`. -/
def IsList (ns : List Node) (n : Node) : Prop :=
  ∃ items, n = .group .nameList items ∧ items ≠ [] ∧ Trimmed items ∧ ∀ m ∈ items, m ∈ ns

/-- The node is the group of a condition: a `WHERE` and nodes from `ns` behind
    it, none of which ends the condition, without blanks at the end. -/
def IsClause (ns : List Node) (n : Node) : Prop :=
  ∃ clause condition, n = .group .whereClause (clause :: condition) ∧
    clause.keyword? = some .whereKw ∧ (∀ m ∈ clause :: condition, m ∈ ns) ∧
    (∀ m ∈ condition, m.endsCondition = false) ∧
    ∀ m, condition.getLast? = some m → m.isWhitespace = false

theorem mem_groupCalls {n : Node} {ns : List Node} (h : n ∈ groupCalls ns) :
    n ∈ ns ∨ ∃ name p, name ∈ ns ∧ p ∈ ns ∧ name.isName = true ∧ p.isGroup .parenthesis = true ∧
      n = .group .functionCall [nameRef name, p] := by
  fun_induction groupCalls ns with
  | case1 => exact Or.inl h
  | case2 => exact Or.inl h
  | case3 name p ns hcall ih =>
      rcases List.mem_cons.1 h with rfl | h
      · rw [Bool.and_eq_true] at hcall
        exact Or.inr ⟨name, p, List.mem_cons_self,
          List.mem_cons_of_mem _ List.mem_cons_self, hcall.1, hcall.2, rfl⟩
      · rcases ih h with hmem | ⟨m, q, hm, hq, hrest⟩
        · exact Or.inl (List.mem_cons_of_mem _ (List.mem_cons_of_mem _ hmem))
        · exact Or.inr ⟨m, q, List.mem_cons_of_mem _ (List.mem_cons_of_mem _ hm),
            List.mem_cons_of_mem _ (List.mem_cons_of_mem _ hq), hrest⟩
  | case4 m p ns _ ih =>
      rcases List.mem_cons.1 h with rfl | h
      · exact Or.inl List.mem_cons_self
      · rcases ih h with hmem | ⟨m', q, hm, hq, hrest⟩
        · exact Or.inl (List.mem_cons_of_mem _ hmem)
        · exact Or.inr ⟨m', q, List.mem_cons_of_mem _ hm, List.mem_cons_of_mem _ hq, hrest⟩

theorem mem_groupNames {n : Node} {ns : List Node} (h : n ∈ groupNames ns) :
    n ∈ ns ∧ n.isName = false ∨ ∃ name, name ∈ ns ∧ name.isName = true ∧ n = nameRef name := by
  rcases List.mem_map.1 h with ⟨m, hm, hn⟩
  by_cases hname : m.isName = true
  · rw [if_pos hname] at hn
    exact Or.inr ⟨m, hm, hname, hn.symm⟩
  · rw [if_neg hname] at hn
    rw [← hn]
    exact Or.inl ⟨hm, Bool.eq_false_iff.2 hname⟩

theorem isWhitespace_of_isOperand {n : Node} (h : n.isOperand = true) : n.isWhitespace = false := by
  cases n with
  | leaf t =>
      rw [← Bool.not_eq_true]
      intro hblank
      simp only [isWhitespace, leaf?, Option.any_some, Token.isWhitespace,
        decide_eq_true_eq] at hblank
      simp only [isOperand, Token.isValue, Token.isLiteral, hblank, reduceCtorEq, decide_false,
        Bool.or_self, Bool.false_eq_true] at h
  | group => rfl

theorem isComparisonOperator_iff {n : Node} :
    n.isComparisonOperator = true ↔ ∃ t, n = .leaf t ∧
      (t.kind = .operator ∧ t.text ∈ comparisonOperators ∨ t.kind = .keyword .like) := by
  cases n with
  | leaf t =>
      simp only [isComparisonOperator, leaf?, Option.any_some, Bool.or_eq_true, Bool.and_eq_true,
        decide_eq_true_eq, List.contains_iff_mem, Node.leaf.injEq, exists_eq_left']
  | group =>
      simp only [isComparisonOperator, leaf?, Option.any_none, Bool.false_eq_true, reduceCtorEq,
        false_and, exists_false]

theorem isWhitespace_of_isComparisonOperator {n : Node} (h : n.isComparisonOperator = true) :
    n.isWhitespace = false := by
  rcases isComparisonOperator_iff.1 h with ⟨t, rfl, ⟨hkind, -⟩ | hkind⟩ <;>
    simp only [isWhitespace, leaf?, Option.any_some, Token.isWhitespace, hkind, reduceCtorEq,
      decide_false]

theorem nextVisible?_gap {ns gap rest : List Node} {n : Node}
    (h : nextVisible? ns = some (gap, n, rest)) : ∀ m ∈ gap, m.isWhitespace = true := by
  rw [nextVisible?] at h
  split at h
  · simp only [reduceCtorEq] at h
  · simp only [Option.some.injEq, Prod.mk.injEq] at h
    intro m hm
    rw [← h.1] at hm
    exact List.mem_takeWhile_imp hm

/-- What is taken behind a left operand: an operator and a right operand, with
    blanks before either. -/
theorem comparisonRest?_parts {ns taken rest : List Node}
    (h : comparisonRest? ns = some (taken, rest)) :
    ∃ gap operator gap' right, taken = gap ++ operator :: (gap' ++ [right]) ∧
      (∀ m ∈ gap, m.isWhitespace = true) ∧ operator.isComparisonOperator = true ∧
      (∀ m ∈ gap', m.isWhitespace = true) ∧ right.isOperand = true := by
  rcases Option.bind_eq_some_iff.1 h with ⟨⟨gap, operator, behind⟩, hfirst, h⟩
  simp only at h
  split at h
  · rename_i hoperator
    rcases Option.bind_eq_some_iff.1 h with ⟨⟨gap', right, behind'⟩, hsecond, h⟩
    simp only at h
    split at h
    · rename_i hright
      simp only [Option.some.injEq, Prod.mk.injEq] at h
      exact ⟨gap, operator, gap', right, h.1.symm, nextVisible?_gap hfirst, hoperator,
        nextVisible?_gap hsecond, hright⟩
    · simp only [reduceCtorEq] at h
  · simp only [reduceCtorEq] at h

/-- The node is a comparison whose parts come from `ns`. -/
def IsComparison (ns : List Node) (n : Node) : Prop :=
  ∃ left gap operator gap' right,
    n = .group .comparison (left :: (gap ++ operator :: (gap' ++ [right]))) ∧
    (∀ m ∈ left :: (gap ++ operator :: (gap' ++ [right])), m ∈ ns) ∧ left.isOperand = true ∧
    (∀ m ∈ gap, m.isWhitespace = true) ∧ operator.isComparisonOperator = true ∧
    (∀ m ∈ gap', m.isWhitespace = true) ∧ right.isOperand = true

theorem IsComparison.mono {ns ms : List Node} {n : Node} (h : IsComparison ns n)
    (hsub : ∀ m ∈ ns, m ∈ ms) : IsComparison ms n := by
  rcases h with ⟨left, gap, operator, gap', right, hn, hmem, hrest⟩
  exact ⟨left, gap, operator, gap', right, hn, fun m hm => hsub m (hmem m hm), hrest⟩

theorem mem_groupComparisons {n : Node} {ns : List Node} (h : n ∈ groupComparisons ns) :
    n ∈ ns ∨ IsComparison ns n := by
  fun_induction groupComparisons ns with
  | case1 => exact Or.inl h
  | case2 left ns taken rest htaken ih =>
      split at htaken
      · rename_i hleft
        -- What is taken and what is left were there before.
        have happ := (comparisonRest?_append htaken).1
        have hrest : ∀ m ∈ rest, m ∈ left :: ns := by
          intro m hm
          rw [← happ]
          exact List.mem_cons_of_mem _ (List.mem_append_right _ hm)
        rcases List.mem_cons.1 h with rfl | h
        · rcases comparisonRest?_parts htaken with ⟨gap, operator, gap', right, rfl, hparts⟩
          refine Or.inr ⟨left, gap, operator, gap', right, rfl, ?_, hleft, hparts⟩
          intro m hm
          rw [← happ]
          rcases List.mem_cons.1 hm with rfl | hm
          · exact List.mem_cons_self
          · exact List.mem_cons_of_mem _ (List.mem_append_left _ hm)
        · rcases ih h with hmem | hcomp
          · exact Or.inl (hrest n hmem)
          · exact Or.inr (hcomp.mono hrest)
      · simp only [reduceCtorEq] at htaken
  | case3 m ns _ ih =>
      rcases List.mem_cons.1 h with rfl | h
      · exact Or.inl List.mem_cons_self
      · rcases ih h with hmem | hcomp
        · exact Or.inl (List.mem_cons_of_mem _ hmem)
        · exact Or.inr (hcomp.mono fun k hk => List.mem_cons_of_mem _ hk)

theorem isWhitespace_of_head?_dropWhile {ns : List Node} {n : Node}
    (h : (ns.dropWhile isWhitespace).head? = some n) : n.isWhitespace = false := by
  have hhead := List.head?_dropWhile_not isWhitespace ns
  rwa [h] at hhead

theorem mem_wrapList {n : Node} {ns : List Node} (h : n ∈ wrapList ns) : n ∈ ns ∨ IsList ns n := by
  rw [wrapList] at h
  split at h
  · exact Or.inl h
  · rename_i items blanks hne heq
    have happ := cutTrailing_append isWhitespace (ns.dropWhile isWhitespace)
    have hlast := cutTrailing_getLast isWhitespace (ns.dropWhile isWhitespace)
    rw [heq] at happ hlast
    have hsub : ∀ m ∈ items ++ blanks, m ∈ ns := by
      intro m hm
      rw [happ] at hm
      exact List.dropWhile_subset _ hm
    rcases List.mem_append.1 h with h | h
    · exact Or.inl (List.takeWhile_subset _ h)
    · rcases List.mem_cons.1 h with rfl | h
      · -- The items begin where the blanks in front of them end.
        have hfirst : ∀ m, items.head? = some m → m.isWhitespace = false := by
          intro m hm
          have hhead : (ns.dropWhile isWhitespace).head? = some m := by
            rw [← happ, List.head?_append, hm, Option.some_or]
          exact isWhitespace_of_head?_dropWhile hhead
        exact Or.inr ⟨items, rfl, hne, ⟨hfirst, hlast⟩,
          fun m hm => hsub m (List.mem_append_left _ hm)⟩
      · exact Or.inl (hsub n (List.mem_append_right _ h))

theorem mem_listRun {forced : Bool} {n : Node} {run : List Node} (h : n ∈ listRun forced run) :
    n ∈ run ∨ IsList run n := by
  rw [listRun] at h
  split at h
  · exact mem_wrapList h
  · exact Or.inl h

theorem IsList.mono {ns ms : List Node} {n : Node} (h : IsList ns n) (hsub : ∀ m ∈ ns, m ∈ ms) :
    IsList ms n := by
  rcases h with ⟨items, hn, hne, htrim, hmem⟩
  exact ⟨items, hn, hne, htrim, fun m hm => hsub m (hmem m hm)⟩

/-- The runs between keywords and the keywords hold nothing but the nodes. -/
theorem mem_of_sections (ns : List Node) :
    (∀ n ∈ (sections ns).1, n ∈ ns) ∧
      ∀ part ∈ (sections ns).2, part.1 ∈ ns ∧ ∀ n ∈ part.2, n ∈ ns := by
  induction ns with
  | nil =>
      exact ⟨fun n hn => absurd hn List.not_mem_nil, fun p hp => absurd hp List.not_mem_nil⟩
  | cons m ns ih =>
      have htail : ∀ part ∈ (sections ns).2, part.1 ∈ m :: ns ∧ ∀ n ∈ part.2, n ∈ m :: ns := by
        intro part hpart
        have hmem := ih.2 part hpart
        exact ⟨List.mem_cons_of_mem _ hmem.1, fun n hn => List.mem_cons_of_mem _ (hmem.2 n hn)⟩
      simp only [sections]
      split
      · refine ⟨fun n hn => absurd hn List.not_mem_nil, ?_⟩
        intro part hpart
        rcases List.mem_cons.1 hpart with rfl | hpart
        · exact ⟨List.mem_cons_self, fun n hn => List.mem_cons_of_mem _ (ih.1 n hn)⟩
        · exact htail part hpart
      · refine ⟨?_, htail⟩
        intro n hn
        rcases List.mem_cons.1 hn with rfl | hn
        · exact List.mem_cons_self
        · exact List.mem_cons_of_mem _ (ih.1 n hn)

theorem keyword?_sections (ns : List Node) :
    (∀ n ∈ (sections ns).1, n.keyword? = none) ∧
      ∀ part ∈ (sections ns).2, ∀ n ∈ part.2, n.keyword? = none := by
  induction ns with
  | nil =>
      exact ⟨fun n hn => absurd hn List.not_mem_nil, fun p hp => absurd hp List.not_mem_nil⟩
  | cons m ns ih =>
      rw [sections]
      split
      · refine ⟨fun n hn => absurd hn List.not_mem_nil, ?_⟩
        intro part hpart
        rcases List.mem_cons.1 hpart with rfl | hpart
        · exact ih.1
        · exact ih.2 part hpart
      · rename_i hm
        refine ⟨?_, ih.2⟩
        intro n hn
        rcases List.mem_cons.1 hn with rfl | hn
        · exact Option.not_isSome_iff_eq_none.1 hm
        · exact ih.1 n hn

/-- Listing keeps a node, or puts it into a list with others of its own run, none
    of which is a keyword. -/
theorem exists_run_of_mem_groupLists {n : Node} {ns : List Node} (h : n ∈ groupLists ns) :
    n ∈ ns ∨ ∃ forced run, n ∈ listRun forced run ∧ ∀ m ∈ run, m ∈ ns ∧ m.keyword? = none := by
  have hmem := mem_of_sections ns
  have hnone := keyword?_sections ns
  rcases List.mem_append.1 h with h | h
  · exact Or.inr ⟨_, _, h, fun m hm => ⟨hmem.1 m hm, hnone.1 m hm⟩⟩
  · rcases List.mem_flatMap.1 h with ⟨part, hpart, h⟩
    rcases List.mem_cons.1 h with rfl | h
    · exact Or.inl (hmem.2 part hpart).1
    · exact Or.inr ⟨_, _, h, fun m hm => ⟨(hmem.2 part hpart).2 m hm, hnone.2 part hpart m hm⟩⟩

theorem mem_groupLists {n : Node} {ns : List Node} (h : n ∈ groupLists ns) :
    n ∈ ns ∨ IsList ns n := by
  rcases exists_run_of_mem_groupLists h with h | ⟨forced, run, h, hrun⟩
  · exact Or.inl h
  · rcases mem_listRun h with h | h
    · exact Or.inl (hrun n h).1
    · exact Or.inr (h.mono fun m hm => (hrun m hm).1)

/-- How a level with a condition reads: what stands before its first `WHERE`,
    the condition up to its last visible node, and what stands behind. -/
structure SplitAtWhere (ns before : List Node) (clause : Node) (condition after : List Node) :
    Prop where
  eq_append : ns = before ++ clause :: (condition ++ after)
  first : ∀ m ∈ before, m.keyword? ≠ some .whereKw
  opens : clause.keyword? = some .whereKw
  inside : ∀ m ∈ condition, m.endsCondition = false
  visible_last : ∀ m, condition.getLast? = some m → m.isWhitespace = false
  ends : ∃ blanks rest, after = blanks ++ rest ∧ (∀ m ∈ blanks, m.isWhitespace = true) ∧
    ∀ m, rest.head? = some m → m.endsCondition = true

/-- Without a `WHERE` the nodes stay as they are, and with one it and its
    condition become a group between what stands around them. -/
theorem groupWhere_cases (ns : List Node) :
    (∀ n ∈ ns, n.keyword? ≠ some .whereKw) ∧ groupWhere ns = ns ∨
      ∃ before clause condition after, SplitAtWhere ns before clause condition after ∧
        groupWhere ns = before ++ .group .whereClause (clause :: condition) :: after := by
  simp only [groupWhere]
  have hns := List.takeWhile_append_dropWhile (l := ns)
    (p := fun n => !decide (n.keyword? = some .whereKw))
  have hpass : ∀ n : Node, (!decide (n.keyword? = some .whereKw)) = true →
      n.keyword? ≠ some .whereKw := by
    intro n hn
    simpa only [Bool.not_eq_true', decide_eq_false_iff_not] using hn
  split
  · rename_i heq
    exact Or.inl ⟨fun n hn => hpass n (List.dropWhile_eq_nil_iff.1 heq n hn), rfl⟩
  · rename_i clause rest heq
    rw [heq] at hns
    have hclause : clause.keyword? = some .whereKw := by
      have hhead := List.head?_dropWhile_not
        (fun n => !decide (n.keyword? = some .whereKw)) ns
      rw [heq] at hhead
      simpa only [List.head?_cons, Bool.not_eq_false', decide_eq_true_eq] using hhead
    -- The condition and its blanks are what comes before a keyword that ends it.
    have hcut := cutTrailing_append isWhitespace (rest.takeWhile fun m => !m.endsCondition)
    have hrest := List.takeWhile_append_dropWhile (l := rest) (p := fun m => !m.endsCondition)
    refine Or.inr ⟨_, clause, _, _, ⟨?_, ?_, hclause, ?_, cutTrailing_getLast isWhitespace _, _, _,
      rfl, cutTrailing_snd isWhitespace _, ?_⟩, rfl⟩
    · rw [← List.append_assoc, hcut, hrest, hns]
    · intro m hm
      have hm := List.mem_takeWhile_imp hm
      exact hpass m hm
    · intro m hm
      have htake := List.mem_append_left (cutTrailing isWhitespace
        (rest.takeWhile fun m => !m.endsCondition)).2 hm
      rw [hcut] at htake
      simpa only [Bool.not_eq_true'] using List.mem_takeWhile_imp htake
    · intro m hm
      have hhead := List.head?_dropWhile_not (fun m => !m.endsCondition) rest
      rw [hm] at hhead
      simpa only [Bool.not_eq_false'] using hhead

theorem SplitAtWhere.isClause {ns before condition after : List Node} {clause : Node}
    (h : SplitAtWhere ns before clause condition after) :
    IsClause ns (.group .whereClause (clause :: condition)) := by
  refine ⟨clause, condition, rfl, h.opens, ?_, h.inside, h.visible_last⟩
  intro m hm
  rw [h.eq_append, ← List.cons_append]
  exact List.mem_append_right _ (List.mem_append_left _ hm)

theorem mem_groupWhere {n : Node} {ns : List Node} (h : n ∈ groupWhere ns) :
    n ∈ ns ∨ IsClause ns n := by
  rcases groupWhere_cases ns with ⟨-, heq⟩ | ⟨before, clause, condition, after, hsplit, heq⟩
  · exact Or.inl (heq ▸ h)
  · rw [heq] at h
    rcases List.mem_append.1 h with h | h
    · rw [hsplit.eq_append]
      exact Or.inl (List.mem_append_left _ h)
    · rcases List.mem_cons.1 h with rfl | h
      · exact Or.inr hsplit.isClause
      · rw [hsplit.eq_append]
        exact Or.inl (List.mem_append_right _ (List.mem_cons_of_mem _
          (List.mem_append_right _ h)))

/-- The grammar of a node below the outermost level of a built tree. -/
inductive Tidy : Node → Prop
  | leaf {t : Token} (hname : t.isName = false) (hopen : t.isMark "(" = false)
      (hclose : t.isMark ")" = false) : Tidy (.leaf t)
  | name {t : Token} (hname : t.isName = true) : Tidy (nameRef (.leaf t))
  | call {t : Token} {p : Node} (hname : t.isName = true) (hshape : p.isGroup .parenthesis = true)
      (hp : Tidy p) : Tidy (.group .functionCall [nameRef (.leaf t), p])
  | comparison {left operator right : Node} {gap gap' : List Node}
      (hleft : left.isOperand = true) (hgap : ∀ m ∈ gap, m.isWhitespace = true)
      (hoperator : operator.isComparisonOperator = true)
      (hgap' : ∀ m ∈ gap', m.isWhitespace = true) (hright : right.isOperand = true)
      (hall : ∀ m ∈ left :: (gap ++ operator :: (gap' ++ [right])), Tidy m) :
      Tidy (.group .comparison (left :: (gap ++ operator :: (gap' ++ [right]))))
  | list {items : List Node} (hne : items ≠ []) (htrim : Trimmed items)
      (hall : ∀ m ∈ items, Tidy m) : Tidy (.group .nameList items)
  | parens {opening closing : Token} {inner : List Node} (hopen : opening.isMark "(" = true)
      (hclose : closing.isMark ")" = true) (hall : ∀ m ∈ inner, Tidy m) :
      Tidy (.group .parenthesis (.leaf opening :: (inner ++ [.leaf closing])))

/-- A tidy node, or a name that has not been wrapped yet. -/
def Raw (n : Node) : Prop :=
  n.Tidy ∨ ∃ t : Token, n = .leaf t ∧ t.isName = true

theorem Raw.tidy {n : Node} (h : n.Raw) (hname : n.isName = false) : n.Tidy := by
  rcases h with h | ⟨t, rfl, ht⟩
  · exact h
  · simp only [isName, leaf?, Option.any_some, ht, Bool.true_eq_false] at hname

theorem eq_leaf_of_isName {n : Node} (h : n.isName = true) :
    ∃ t : Token, n = .leaf t ∧ t.isName = true := by
  cases n with
  | leaf t => exact ⟨t, rfl, h⟩
  | group shape children => simp only [isName, leaf?, Option.any_none, Bool.false_eq_true] at h

theorem raw_groupCalls {ns : List Node} (h : ∀ n ∈ ns, n.Raw) : ∀ n ∈ groupCalls ns, n.Raw := by
  intro n hn
  rcases mem_groupCalls hn with hn | ⟨name, p, -, hp, hname, hshape, rfl⟩
  · exact h n hn
  · rcases eq_leaf_of_isName hname with ⟨t, rfl, ht⟩
    -- What is a group is no bare name, so the parenthesis is tidy already.
    have htidy : p.Tidy := by
      refine (h p hp).tidy ?_
      cases p with
      | leaf u =>
          simp only [isGroup, shape?, reduceCtorEq, decide_false, Bool.false_eq_true] at hshape
      | group shape children => rfl
    exact Or.inl (.call ht hshape htidy)

theorem tidy_groupNames {ns : List Node} (h : ∀ n ∈ ns, n.Raw) : ∀ n ∈ groupNames ns, n.Tidy := by
  intro n hn
  rcases mem_groupNames hn with ⟨hn, hname⟩ | ⟨m, -, hname, rfl⟩
  · exact (h n hn).tidy hname
  · rcases eq_leaf_of_isName hname with ⟨t, rfl, ht⟩
    exact .name ht

theorem tidy_groupComparisons {ns : List Node} (h : ∀ n ∈ ns, n.Tidy) :
    ∀ n ∈ groupComparisons ns, n.Tidy := by
  intro n hn
  rcases mem_groupComparisons hn with hn |
    ⟨left, gap, operator, gap', right, rfl, hmem, hleft, hgap, hoperator, hgap', hright⟩
  · exact h n hn
  · exact .comparison hleft hgap hoperator hgap' hright fun m hm => h m (hmem m hm)

theorem IsList.tidy {ns : List Node} {n : Node} (hn : IsList ns n) (h : ∀ m ∈ ns, m.Tidy) :
    n.Tidy := by
  rcases hn with ⟨items, rfl, hne, htrim, hmem⟩
  exact .list hne htrim fun m hm => h m (hmem m hm)

theorem tidy_listRun {forced : Bool} {run : List Node} (h : ∀ n ∈ run, n.Tidy) :
    ∀ n ∈ listRun forced run, n.Tidy := by
  intro n hn
  rcases mem_listRun hn with hn | hn
  · exact h n hn
  · exact hn.tidy h

theorem tidy_groupLists {ns : List Node} (h : ∀ n ∈ ns, n.Tidy) : ∀ n ∈ groupLists ns, n.Tidy := by
  intro n hn
  rcases mem_groupLists hn with hn | hn
  · exact h n hn
  · exact hn.tidy h

end Node

theorem tidy_groupInner {forced : Bool} {ns : List Node} (h : ∀ n ∈ ns, n.Raw) :
    ∀ n ∈ groupInner forced ns, n.Tidy :=
  Node.tidy_listRun (Node.tidy_groupComparisons (Node.tidy_groupNames (Node.raw_groupCalls h)))

namespace Nested

mutual

theorem node_raw (forced : Bool) : (item : Nested) → item.Matched → (item.node forced).Raw
  | .token t, h => by
      by_cases hname : t.isName = true
      · exact Or.inr ⟨t, rfl, hname⟩
      · cases h with
        | token hopen hclose => exact Or.inl (.leaf (Bool.eq_false_iff.2 hname) hopen hclose)
  | .parens opening inner closing, h => by
      cases h with
      | parens hopen hclose hinner =>
          rw [node]
          exact Or.inl (.parens hopen hclose (tidy_groupInner (nodes_raw inner hinner)))

theorem nodes_raw : (items : List Nested) → (∀ item ∈ items, item.Matched) →
    ∀ n ∈ nodes items, n.Raw
  | [], _ => fun n hn => absurd hn List.not_mem_nil
  | item :: items, h => by
      intro n hn
      rw [nodes] at hn
      rcases List.mem_cons.1 hn with rfl | hn
      · exact node_raw false item (h item List.mem_cons_self)
      · exact nodes_raw items (fun i hi => h i (List.mem_cons_of_mem _ hi)) n hn

end

theorem outerNodes_raw {afterValues : Bool} {items : List Nested}
    (h : ∀ item ∈ items, item.Matched) : ∀ n ∈ outerNodes afterValues items, n.Raw := by
  induction items generalizing afterValues with
  | nil => exact fun n hn => absurd hn List.not_mem_nil
  | cons item items ih =>
      intro n hn
      rw [outerNodes] at hn
      rcases List.mem_cons.1 hn with rfl | hn
      · exact node_raw _ item (h item List.mem_cons_self)
      · exact ih (fun i hi => h i (List.mem_cons_of_mem _ hi)) n hn

end Nested

/-- The nodes of a statement before its runs are listed. -/
def levelNodes (items : List Nested) : List Node :=
  let called :=
    if definesTable items then Nested.outerNodes false items
    else Node.groupCalls (Nested.outerNodes false items)
  Node.groupComparisons (Node.groupNames called)

/-- The nodes of a statement before its condition is grouped. -/
def ungroupedNodes (items : List Nested) : List Node :=
  Node.groupLists (levelNodes items)

theorem rootNodes_eq_groupWhere (items : List Nested) :
    rootNodes items = Node.groupWhere (ungroupedNodes items) := rfl

theorem tidy_levelNodes {items : List Nested} (h : ∀ item ∈ items, item.Matched) :
    ∀ n ∈ levelNodes items, n.Tidy := by
  refine Node.tidy_groupComparisons (Node.tidy_groupNames ?_)
  split
  · exact Nested.outerNodes_raw h
  · exact Node.raw_groupCalls (Nested.outerNodes_raw h)

theorem tidy_ungroupedNodes {items : List Nested} (h : ∀ item ∈ items, item.Matched) :
    ∀ n ∈ ungroupedNodes items, n.Tidy :=
  Node.tidy_groupLists (tidy_levelNodes h)

/-- The nodes of a statement are tidy, or the group of its condition, which is
    made of tidy nodes. -/
theorem mem_rootNodes {items : List Nested} {n : Node} (h : ∀ item ∈ items, item.Matched)
    (hn : n ∈ rootNodes items) : n.Tidy ∨ Node.IsClause (ungroupedNodes items) n := by
  rw [rootNodes_eq_groupWhere] at hn
  rcases Node.mem_groupWhere hn with hn | hn
  · exact Or.inl (tidy_ungroupedNodes h n hn)
  · exact Or.inr hn

end SqlGist
