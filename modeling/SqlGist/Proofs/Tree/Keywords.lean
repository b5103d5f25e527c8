import SqlGist.Proofs.Tree.Levels

/-!
# Keywords Stay Outside

A keyword outside all parentheses of a statement ends up outside all groups of
its tree, in the same order, but for two fates. `LIKE`, `NULL`, `TRUE` and
`FALSE` can be taken into a comparison, and what belongs to the condition is
taken into its group. The passes before that last one are followed here by the
keywords of a level that no comparison takes.

In the tokens, outside means at depth zero. `outerKeywords` reads them off a
list of tokens with the depth carried along, and nesting keeps them.

## Main definitions

* `Node.clauseKeywords`: The keywords of a level that no comparison takes.
* `outerKeywords`: The keywords at depth zero.

## Theorems

* `clauseKeywords_groupCalls`, `clauseKeywords_groupNames`,
  `clauseKeywords_groupComparisons`, `clauseKeywords_groupLists`: Each pass keeps
  the keywords of a level.
* `outerKeywords_tokensOf`: The keywords of nested items stand at depth zero.
* `clauseKeywords_ungroupedNodes`: So those of a level are the tokens' own.
* `find?_clause`: The group of the condition is there if its keyword is.
-/

namespace SqlGist

/-- The keywords that a comparison can take: an operator and three values. -/
def comparisonKeywords : List Keyword :=
  [.like, .null, .trueKw, .falseKw]

/-- The keywords without those that a comparison can take. -/
def clausesOf (ks : List Keyword) : List Keyword :=
  ks.filter fun k => !comparisonKeywords.contains k

namespace Node

/-- The keywords of a level that no comparison takes, in order. -/
def clauseKeywords (ns : List Node) : List Keyword :=
  clausesOf (ns.filterMap keyword?)

theorem clauseKeywords_append (as bs : List Node) :
    clauseKeywords (as ++ bs) = clauseKeywords as ++ clauseKeywords bs := by
  simp only [clauseKeywords, clausesOf, List.filterMap_append, List.filter_append]

theorem clauseKeywords_cons (n : Node) (ns : List Node) :
    clauseKeywords (n :: ns) = clauseKeywords [n] ++ clauseKeywords ns :=
  clauseKeywords_append [n] ns

theorem clauseKeywords_of_none {n : Node} (h : n.keyword? = none) : clauseKeywords [n] = [] := by
  rw [clauseKeywords, List.filterMap_cons_none h]
  rfl

theorem clauseKeywords_of_taken {n : Node} (h : ∀ k, n.keyword? = some k → k ∈ comparisonKeywords) :
    clauseKeywords [n] = [] := by
  cases hk : n.keyword? with
  | none => exact clauseKeywords_of_none hk
  | some k =>
      rw [clauseKeywords, List.filterMap_cons_some hk, List.filterMap_nil, clausesOf,
        List.filter_cons_of_neg]
      · rfl
      · rw [List.contains_iff_mem.2 (h k hk)]
        exact Bool.false_ne_true

theorem keyword?_of_isName {n : Node} (h : n.isName = true) : n.keyword? = none := by
  rcases eq_leaf_of_isName h with ⟨t, rfl, ht⟩
  simp only [Token.isName, decide_eq_true_eq] at ht
  simp only [keyword?, leaf?, Option.bind_some, Token.keyword?, ht]

theorem keyword?_of_isGroup {n : Node} {shape : Shape} (h : n.isGroup shape = true) :
    n.keyword? = none := by
  cases n with
  | leaf t => exact absurd h (by simp only [isGroup, shape?, reduceCtorEq, decide_false,
      Bool.false_eq_true, not_false_eq_true])
  | group => rfl

theorem clauseKeywords_groupCalls (ns : List Node) :
    clauseKeywords (groupCalls ns) = clauseKeywords ns := by
  fun_induction groupCalls ns with
  | case1 => rfl
  | case2 => rfl
  | case3 n p ns hcall ih =>
      rw [Bool.and_eq_true] at hcall
      -- Neither a name nor a parenthesis is a keyword, and the call is none.
      rw [clauseKeywords_cons, ih, clauseKeywords_cons n, clauseKeywords_cons p,
        clauseKeywords_of_none (keyword?_of_isName hcall.1),
        clauseKeywords_of_none (keyword?_of_isGroup hcall.2)]
      rfl
  | case4 n p ns _ ih => rw [clauseKeywords_cons, ih, ← clauseKeywords_cons]

theorem clauseKeywords_groupNames (ns : List Node) :
    clauseKeywords (groupNames ns) = clauseKeywords ns := by
  induction ns with
  | nil => rfl
  | cons n ns ih =>
      rw [groupNames_cons, clauseKeywords_cons, ih, clauseKeywords_cons n]
      split
      · rename_i hname
        rw [clauseKeywords_of_none (keyword?_of_isName hname)]
        rfl
      · rfl

theorem keyword?_of_isWhitespace {n : Node} (h : n.isWhitespace = true) : n.keyword? = none := by
  cases n with
  | leaf t =>
      simp only [isWhitespace, leaf?, Option.any_some, Token.isWhitespace, decide_eq_true_eq] at h
      simp only [keyword?, leaf?, Option.bind_some, Token.keyword?, h]
  | group => rfl

theorem mem_comparisonKeywords_of_isOperand {n : Node} {k : Keyword} (h : n.isOperand = true)
    (hk : n.keyword? = some k) : k ∈ comparisonKeywords := by
  cases n with
  | leaf t =>
      simp only [isOperand, Token.isValue, Token.isLiteral, Bool.or_eq_true,
        decide_eq_true_eq] at h
      rcases h with (((h | h) | h) | h) | h <;>
        simp only [keyword?, leaf?, Option.bind_some, Token.keyword?, h, reduceCtorEq,
          Option.some.injEq] at hk <;> rw [← hk] <;> decide
  | group => exact absurd hk.symm (Option.some_ne_none k)

theorem mem_comparisonKeywords_of_isComparisonOperator {n : Node} {k : Keyword}
    (h : n.isComparisonOperator = true) (hk : n.keyword? = some k) : k ∈ comparisonKeywords := by
  cases n with
  | leaf t =>
      simp only [isComparisonOperator, leaf?, Option.any_some, Bool.or_eq_true, Bool.and_eq_true,
        decide_eq_true_eq] at h
      rcases h with ⟨h, -⟩ | h <;>
        simp only [keyword?, leaf?, Option.bind_some, Token.keyword?, h, reduceCtorEq,
          Option.some.injEq] at hk
      rw [← hk]
      decide
  | group => exact absurd hk.symm (Option.some_ne_none k)

theorem clauseKeywords_of_blank {gap : List Node} (h : ∀ m ∈ gap, m.isWhitespace = true) :
    clauseKeywords gap = [] := by
  have hnone : gap.filterMap keyword? = [] :=
    List.filterMap_eq_nil_iff.2 fun m hm => keyword?_of_isWhitespace (h m hm)
  rw [clauseKeywords, hnone]
  rfl

theorem clauseKeywords_groupComparisons (ns : List Node) :
    clauseKeywords (groupComparisons ns) = clauseKeywords ns := by
  fun_induction groupComparisons ns with
  | case1 => rfl
  | case2 left ns taken rest htaken ih =>
      split at htaken
      · rename_i hleft
        -- What a comparison takes are blanks, two operands and an operator.
        rcases comparisonRest?_parts htaken with
          ⟨gap, operator, gap', right, rfl, hgap, hoperator, hgap', hright⟩
        have hparts : clauseKeywords (left :: (gap ++ operator :: (gap' ++ [right]))) = [] := by
          rw [clauseKeywords_cons, clauseKeywords_append, clauseKeywords_cons operator,
            clauseKeywords_append, clauseKeywords_of_blank hgap, clauseKeywords_of_blank hgap',
            clauseKeywords_of_taken fun k => mem_comparisonKeywords_of_isOperand hleft,
            clauseKeywords_of_taken fun k => mem_comparisonKeywords_of_isOperand hright,
            clauseKeywords_of_taken fun k =>
              mem_comparisonKeywords_of_isComparisonOperator hoperator]
          rfl
        rw [clauseKeywords_cons, ih, clauseKeywords_of_none rfl,
          ← (comparisonRest?_append htaken).1, ← List.cons_append, clauseKeywords_append, hparts]
      · simp only [reduceCtorEq] at htaken
  | case3 n ns _ ih => rw [clauseKeywords_cons, ih, ← clauseKeywords_cons]

/-- A run without keywords makes no keyword of its own. -/
theorem keyword?_of_mem_listRun {forced : Bool} {run : List Node} {n : Node}
    (h : ∀ m ∈ run, m.keyword? = none) (hn : n ∈ listRun forced run) : n.keyword? = none := by
  rcases mem_listRun hn with hn | ⟨items, rfl, -⟩
  · exact h n hn
  · rfl

theorem keywords_listRun {forced : Bool} {run : List Node} (h : ∀ n ∈ run, n.keyword? = none) :
    (listRun forced run).filterMap keyword? = [] :=
  List.filterMap_eq_nil_iff.2 fun _ hn => keyword?_of_mem_listRun h hn

/-- Lists are made of what stands between keywords, and hold none. -/
theorem keywords_groupLists (ns : List Node) :
    (groupLists ns).filterMap keyword? = ns.filterMap keyword? := by
  have hnone := keyword?_sections ns
  have hparts : ∀ part ∈ (sections ns).2,
      (part.1 :: listRun part.1.opensProjection part.2).filterMap keyword? =
        (part.1 :: part.2).filterMap keyword? := by
    intro part hpart
    rw [List.filterMap_cons, List.filterMap_cons, keywords_listRun (hnone.2 part hpart),
      List.filterMap_eq_nil_iff.2 (hnone.2 part hpart)]
  conv => rhs; rw [← sections_flatten ns]
  rw [groupLists_eq, groupListsBehind, List.filterMap_append, List.filterMap_append,
    keywords_listRun hnone.1, List.filterMap_eq_nil_iff.2 hnone.1, List.filterMap_flatMap,
    List.filterMap_flatMap]
  exact congrArg ([] ++ ·) (List.flatMap_congr hparts)

theorem clauseKeywords_groupLists (ns : List Node) :
    clauseKeywords (groupLists ns) = clauseKeywords ns := by
  rw [clauseKeywords, keywords_groupLists, clauseKeywords]

theorem clauseKeywords_groupLevel (ns : List Node) :
    clauseKeywords (groupLevel ns) = clauseKeywords ns := by
  rw [groupLevel, clauseKeywords_groupComparisons, clauseKeywords_groupNames,
    clauseKeywords_groupCalls]

end Node

/-- The keywords at depth zero, in order, when `depth` parentheses are open
    before the tokens. -/
def outerKeywords (depth : Nat) : List Token → List Keyword
  | [] => []
  | t :: ts =>
    (if depth = 0 then t.keyword?.toList else []) ++ outerKeywords (depthAfter depth t) ts

theorem keyword?_of_isMark {t : Token} {mark : String} (h : t.isMark mark = true) :
    t.keyword? = none := by
  simp only [Token.isMark, Bool.and_eq_true, decide_eq_true_eq] at h
  simp only [Token.keyword?, h.1]

theorem outerKeywords_mark {t : Token} {mark : String} (h : t.isMark mark = true) (depth : Nat)
    (ts : List Token) :
    outerKeywords depth (t :: ts) = outerKeywords (depthAfter depth t) ts := by
  rw [outerKeywords, keyword?_of_isMark h]
  split <;> rfl

namespace Nested

mutual

theorem outerKeywords_tokens : (item : Nested) → item.Matched → (depth : Nat) →
    (ts : List Token) → outerKeywords depth (item.tokens ++ ts) =
      (if depth = 0 then item.keyword?.toList else []) ++ outerKeywords depth ts
  | .token t, h, depth, ts => by
      cases h with
      | token hopen hclose =>
          rw [tokens, List.singleton_append, outerKeywords, depthAfter_of_not_mark hopen hclose]
          rfl
  | .parens opening inner closing, h, depth, ts => by
      cases h with
      | parens hopen hclose hinner =>
          -- Inside the parentheses nothing is at depth zero.
          rw [tokens, List.cons_append, List.append_assoc, outerKeywords_mark hopen,
            depthAfter_open hopen, outerKeywords_tokensOf inner hinner,
            if_neg (Nat.succ_ne_zero depth), List.singleton_append, outerKeywords_mark hclose,
            depthAfter_close hclose, keyword?]
          split <;> rfl

theorem outerKeywords_tokensOf : (items : List Nested) → (∀ item ∈ items, item.Matched) →
    (depth : Nat) → (ts : List Token) → outerKeywords depth (tokensOf items ++ ts) =
      (if depth = 0 then items.filterMap keyword? else []) ++ outerKeywords depth ts
  | [], _, depth, ts => by
      rw [tokensOf, List.nil_append, List.filterMap_nil, ite_self, List.nil_append]
  | item :: items, h, depth, ts => by
      rw [tokensOf, List.append_assoc, outerKeywords_tokens item (h item List.mem_cons_self),
        outerKeywords_tokensOf items fun i hi => h i (List.mem_cons_of_mem _ hi),
        ← List.append_assoc]
      congr 1
      split
      · cases hk : item.keyword? with
        | none => rw [List.filterMap_cons_none hk]; rfl
        | some k => rw [List.filterMap_cons_some hk]; rfl
      · rfl

end

/-- The keywords of nested items are those at depth zero of their tokens. -/
theorem outerKeywords_eq {items : List Nested} (h : ∀ item ∈ items, item.Matched) :
    outerKeywords 0 (tokensOf items) = items.filterMap keyword? := by
  have hall := outerKeywords_tokensOf items h 0 []
  rw [List.append_nil, if_pos rfl, outerKeywords, List.append_nil] at hall
  exact hall

theorem keyword?_node (forced : Bool) (item : Nested) :
    (item.node forced).keyword? = item.keyword? := by
  cases item <;> rfl

theorem keywords_nodes (items : List Nested) :
    (nodes items).filterMap Node.keyword? = items.filterMap keyword? := by
  induction items with
  | nil => rfl
  | cons item items ih => simp only [nodes, List.filterMap_cons, keyword?_node, ih]

theorem keywords_outerNodes (afterValues : Bool) (items : List Nested) :
    (outerNodes afterValues items).filterMap Node.keyword? = items.filterMap keyword? := by
  induction items generalizing afterValues with
  | nil => rfl
  | cons item items ih =>
      simp only [outerNodes, List.filterMap_cons, keyword?_node, ih]

end Nested

/-- The keywords of the outermost level that no comparison takes are those of
    the statement at depth zero. -/
theorem clauseKeywords_ungroupedNodes {items : List Nested} (h : ∀ item ∈ items, item.Matched) :
    Node.clauseKeywords (ungroupedNodes items) =
      clausesOf (outerKeywords 0 (Nested.tokensOf items)) := by
  rw [Nested.outerKeywords_eq h, ← Nested.keywords_outerNodes false, ungroupedNodes,
    Node.clauseKeywords_groupLists, levelNodes, Node.clauseKeywords_groupComparisons,
    Node.clauseKeywords_groupNames]
  split
  · rfl
  · exact Node.clauseKeywords_groupCalls _

theorem Node.mem_clauseKeywords_iff {k : Keyword} (hk : k ∉ comparisonKeywords) {ns : List Node} :
    k ∈ clauseKeywords ns ↔ ∃ n ∈ ns, n.keyword? = some k := by
  have hfree : (!comparisonKeywords.contains k) = true := by
    rw [Bool.not_eq_true', ← Bool.not_eq_true, List.contains_iff_mem]
    exact hk
  rw [clauseKeywords, clausesOf, List.mem_filter, List.mem_filterMap]
  exact and_iff_left hfree

/-- Nothing tidy is the group of a condition. -/
theorem Node.Tidy.shape?_ne {n : Node} (h : n.Tidy) : n.shape? ≠ some .whereClause := by
  cases h <;> simp only [shape?, nameRef, ne_eq, reduceCtorEq, Option.some.injEq,
    not_false_eq_true]

/-- What stands from the first `WHERE` on begins with it, so the pass makes a
    group. -/
theorem Node.mem_groupWhere_of_where {n : Node} {ns : List Node} (hn : n ∈ ns)
    (hkeyword : n.keyword? = some .whereKw) :
    ∃ children, group .whereClause children ∈ groupWhere ns := by
  cases hdrop : ns.dropWhile fun m => !decide (m.keyword? = some .whereKw) with
  | nil =>
      have hpass := List.dropWhile_eq_nil_iff.1 hdrop n hn
      rw [hkeyword] at hpass
      exact absurd hpass (by decide)
  | cons clause rest =>
      simp only [groupWhere, hdrop]
      exact ⟨_, List.mem_append_right _ List.mem_cons_self⟩

/-- What is no group of a shape is passed in the search for one. -/
theorem Group.find?_append {outer shape : Shape} {before : List Node}
    (h : ∀ n ∈ before, n.isGroup shape = false) (tail : List Node) :
    Group.find? ⟨outer, before ++ tail⟩ shape = Group.find? ⟨outer, tail⟩ shape := by
  rw [Group.find?, List.filterMap_append, List.find?_append, List.find?_eq_none.2, Option.none_or]
  · rfl
  · intro child hchild
    rcases List.mem_filterMap.1 hchild with ⟨n, hn, hgroup⟩
    cases n with
    | leaf t => exact absurd hgroup.symm (Option.some_ne_none child)
    | group found children =>
        obtain rfl := Option.some.inj hgroup
        have hshape := of_decide_eq_false (h _ hn)
        rw [decide_eq_true_eq]
        exact fun heq => hshape (congrArg some heq)

theorem Group.mem_of_find? {g clause : Group} {shape : Shape} (h : g.find? shape = some clause) :
    Node.group shape clause.children ∈ g.children := by
  have hshape := List.find?_some h
  rw [decide_eq_true_eq] at hshape
  rcases List.mem_filterMap.1 (List.mem_of_find?_eq_some h) with ⟨n, hn, hgroup⟩
  cases n with
  | leaf t => exact absurd hgroup.symm (Option.some_ne_none clause)
  | group s children =>
      rw [Node.group?, Option.some.injEq] at hgroup
      rw [← hgroup] at hshape ⊢
      rw [← hshape]
      exact hn

/-- The group of a condition is made of its keyword and of tidy nodes. -/
theorem find?_clause {items : List Nested} {clause : Group} (h : ∀ item ∈ items, item.Matched)
    (hfind : Group.find? ⟨.statement, rootNodes items⟩ .whereClause = some clause) :
    ∃ keyword condition, clause.children = keyword :: condition ∧
      keyword.keyword? = some .whereKw ∧ keyword ∈ ungroupedNodes items ∧
        ∀ n ∈ condition, n.Tidy := by
  rcases mem_rootNodes h (Group.mem_of_find? hfind) with htidy | hclause
  · exact absurd rfl htidy.shape?_ne
  · rcases hclause with ⟨keyword, condition, heq, hkeyword, hmem, -⟩
    rw [Node.group.injEq] at heq
    exact ⟨keyword, condition, heq.2, hkeyword, hmem keyword List.mem_cons_self,
      fun n hn => tidy_ungroupedNodes h n (hmem n (List.mem_cons_of_mem _ hn))⟩

/-- The group of the condition is there exactly if its keyword stands at depth
    zero. -/
theorem find?_clause_isSome {items : List Nested} (h : ∀ item ∈ items, item.Matched) :
    (Group.find? ⟨.statement, rootNodes items⟩ .whereClause).isSome = true ↔
      .whereKw ∈ outerKeywords 0 (Nested.tokensOf items) := by
  have hfree : Keyword.whereKw ∉ comparisonKeywords := by decide
  have hiff : .whereKw ∈ outerKeywords 0 (Nested.tokensOf items) ↔
      ∃ n ∈ ungroupedNodes items, n.keyword? = some .whereKw := by
    rw [← Node.mem_clauseKeywords_iff hfree, clauseKeywords_ungroupedNodes h, clausesOf,
      List.mem_filter]
    exact (and_iff_left rfl).symm
  -- The keyword opens the clause, and whoever finds a keyword finds a clause.
  rw [hiff]
  constructor
  · intro hsome
    rcases Option.isSome_iff_exists.1 hsome with ⟨clause, hfind⟩
    rcases find?_clause h hfind with ⟨keyword, -, -, hkeyword, hmem, -⟩
    exact ⟨keyword, hmem, hkeyword⟩
  · rintro ⟨n, hn, hkeyword⟩
    rcases Node.mem_groupWhere_of_where hn hkeyword with ⟨children, hmem⟩
    rw [Group.find?, List.find?_isSome]
    exact ⟨⟨.whereClause, children⟩, List.mem_filterMap.2 ⟨_, hmem, rfl⟩, decide_eq_true rfl⟩

end SqlGist
