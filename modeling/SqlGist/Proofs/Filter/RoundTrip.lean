import SqlGist.Proofs.Extraction.Scanning
import SqlGist.Proofs.Filter.Reading
import SqlGist.Proofs.Tree.Keywords
import SqlGist.Proofs.Tree.Lossless

/-!
# Filters Decode and Encode

A query has a filter exactly if its statement has a `WHERE` outside all
parentheses, and every filter that is read can be written down again. The other
way round, a filter that can be written is read back as it was, whatever its
columns and values are and however deep it goes.

`selectWhere` writes a filter down behind `SELECT * FROM t WHERE`. Its tree is
known from the passes, and reading the tree gives the filter, so between the
two there is nothing left to look at but the name and the columns of the query.

## Main definitions

* `selectWhere`: A query with a filter.
* `selectTree`: Its tree.

## Theorems

* `rootNodes_selectWhere`: The passes turn the query into its tree.
* `classify_selectWhere`: The query is read back.
* `filter_of_classify`: The filter of a statement.
* `filter_roundTrip`: Filters decode and encode.
-/

namespace SqlGist

/-- A query for everything in `t` that passes a filter. -/
def selectWhere (nodes : List FilterNode) : List Nested :=
  .token (.ofKeyword .select) ::
    (Nested.spaced [.bare .wildcard "*", .ofKeyword .fromKw, .bare .name "t",
        .ofKeyword .whereKw] ++
      FilterItem.spellingOf (nodes.map FilterNode.toItem))

/-- The part of its tree that stands before the condition. -/
def selectFront : List Node :=
  [.leaf (.ofKeyword .select), .leaf .space, .group .nameList [.leaf (.bare .wildcard "*")],
    .leaf .space, .leaf (.ofKeyword .fromKw), .leaf .space,
    Node.nameRef (.leaf (.bare .name "t")), .leaf .space]

/-- The tree of a query with a filter. -/
def selectTree (nodes : List FilterNode) : Group :=
  ⟨.statement, selectFront ++ [.group .whereClause (.leaf (.ofKeyword .whereKw) ::
    FilterItem.treeOf (nodes.map FilterNode.toItem))]⟩

theorem toItem_injective : Function.Injective FilterNode.toItem := by
  rintro ⟨k, items⟩ ⟨k', items'⟩ heq
  simp only [FilterNode.toItem, FilterItem.node.injEq] at heq
  rw [heq.1, heq.2]

section Query

variable {nodes : List FilterNode} (h : WellFormed nodes)

include h

theorem formed_toItem : ∀ item ∈ nodes.map FilterNode.toItem, item.Formed := by
  intro item hitem
  rcases List.mem_map.1 hitem with ⟨n, hn, rfl⟩
  exact h.2 n hn

theorem groupLevel_selectWhere :
    Node.groupLevel (Nested.nodes (selectWhere nodes)) =
      [.leaf (.ofKeyword .select), .leaf .space, .leaf (.bare .wildcard "*"), .leaf .space,
          .leaf (.ofKeyword .fromKw), .leaf .space, Node.nameRef (.leaf (.bare .name "t")),
          .leaf .space, .leaf (.ofKeyword .whereKw)] ++
        FilterItem.treeOf (nodes.map FilterNode.toItem) := by
  have hnodes : Nested.nodes (selectWhere nodes) =
      .leaf (.ofKeyword .select) :: .leaf .space :: .leaf (.bare .wildcard "*") :: .leaf .space ::
        .leaf (.ofKeyword .fromKw) :: .leaf .space :: .leaf (.bare .name "t") :: .leaf .space ::
          .leaf (.ofKeyword .whereKw) ::
            (Nested.nodes (FilterItem.spellingOf (nodes.map FilterNode.toItem)) ++ []) := by
    rw [selectWhere, Nested.nodes, Nested.nodes_append, List.append_nil]
    rfl
  have hfilter := FilterItem.groupLevel_spellingOf
    (fun item hitem ns => FilterItem.groupLevel_spelling (formed_toItem h item hitem) ns) []
  rw [Node.groupLevel_nil] at hfilter
  rw [hnodes, Node.groupLevel_pass rfl rfl, Node.groupLevel_space, Node.groupLevel_pass rfl rfl,
    Node.groupLevel_space, Node.groupLevel_pass rfl rfl, Node.groupLevel_space,
    Node.groupLevel_name rfl, Node.groupLevel_space, Node.groupLevel_pass rfl rfl, hfilter,
    List.append_nil]
  · rfl
  · intro p hp
    rw [List.head?_cons, Option.some.injEq] at hp
    rw [← hp]
    rfl
  · exact Node.noOperatorNext_cons rfl fun _ =>
      Node.noOperatorNext_cons rfl fun hblank => absurd hblank Bool.false_ne_true

/-- What stands behind `WHERE` holds no keyword that ends the condition. -/
theorem isPart_filter :
    ∀ n ∈ FilterItem.treeOf (nodes.map FilterNode.toItem), FilterItem.IsPart n :=
  FilterItem.isPart_treeOf (formed_toItem h)

theorem groupLists_selectWhere :
    Node.groupLists (Node.groupLevel (Nested.nodes (selectWhere nodes))) =
      selectFront ++ .leaf (.ofKeyword .whereKw) ::
        FilterItem.treeOf (nodes.map FilterNode.toItem) := by
  have hbehind : Node.groupListsBehind false ([.leaf .space,
      Node.nameRef (.leaf (.bare .name "t")), .leaf .space, .leaf (.ofKeyword .whereKw)] ++
        FilterItem.treeOf (nodes.map FilterNode.toItem)) =
      [.leaf .space, Node.nameRef (.leaf (.bare .name "t")), .leaf .space,
        .leaf (.ofKeyword .whereKw)] ++ FilterItem.treeOf (nodes.map FilterNode.toItem) := by
    refine Node.groupLists_of_no_comma fun n hn => ?_
    rcases List.mem_append.1 hn with hn | hn
    · simp only [List.mem_cons, List.not_mem_nil, or_false] at hn
      rcases hn with rfl | rfl | rfl | rfl <;> exact ⟨rfl, rfl⟩
    · have hpart := (isPart_filter h n hn).plain
      exact ⟨hpart.1, hpart.2.1⟩
  have hsplit : Node.groupLevel (Nested.nodes (selectWhere nodes)) =
      [] ++ .leaf (.ofKeyword .select) ::
        ([.leaf .space, .leaf (.bare .wildcard "*"), .leaf .space] ++
          .leaf (.ofKeyword .fromKw) ::
            ([.leaf .space, Node.nameRef (.leaf (.bare .name "t")), .leaf .space,
              .leaf (.ofKeyword .whereKw)] ++
                FilterItem.treeOf (nodes.map FilterNode.toItem))) :=
    groupLevel_selectWhere h
  -- Only what stands behind `SELECT` is a list, although it has one item.
  rw [hsplit, Node.groupLists_eq,
    Node.groupListsBehind_append (fun m hm => absurd hm List.not_mem_nil) rfl,
    Node.groupListsBehind_append ?_ rfl,
    show Node.opensProjection (.leaf (.ofKeyword .fromKw)) = false from rfl, hbehind]
  · rfl
  · intro m hm
    simp only [List.mem_cons, List.not_mem_nil, or_false] at hm
    rcases hm with rfl | rfl | rfl <;> rfl

theorem not_values_selectWhere : ∀ item ∈ selectWhere nodes, item.keyword? ≠ some .values := by
  intro item hitem
  rcases List.mem_cons.1 hitem with rfl | hitem
  · exact fun hk => absurd hk (by decide)
  · rcases List.mem_append.1 hitem with hitem | hitem
    · simp only [Nested.spaced, List.flatMap_cons, List.flatMap_nil, List.append_nil,
        List.cons_append, List.nil_append, List.mem_cons, List.not_mem_nil, or_false] at hitem
      rcases hitem with rfl | rfl | rfl | rfl | rfl | rfl | rfl | rfl <;>
        exact fun hk => absurd hk (by decide)
    · exact FilterItem.not_values_spellingOf (formed_toItem h) item hitem

/-- The last part of a filter is a group. -/
theorem getLast_treeOf : ∀ n,
    (FilterItem.treeOf (nodes.map FilterNode.toItem)).getLast? = some n →
      n.isWhitespace = false :=
  FilterItem.getLast_treeOf (formed_toItem h)

/-- The passes turn a query with a filter into its tree. -/
theorem rootNodes_selectWhere :
    (⟨.statement, rootNodes (selectWhere nodes)⟩ : Group) = selectTree nodes := by
  have hdefines : definesTable (selectWhere nodes) = false := rfl
  have hbefore : ∀ m ∈ selectFront, m.keyword? ≠ some .whereKw := by decide
  rw [rootNodes, hdefines, groupRoot_false_eq,
    Nested.outerNodes_eq_nodes (not_values_selectWhere h), groupLists_selectWhere h,
    Node.groupWhere_append hbefore rfl (fun m hm => (isPart_filter h m hm).plain.2.2)
      (getLast_treeOf h)]
  rfl

theorem chunk_selectWhere :
    ∃ ts, Nested.tokensOf (selectWhere nodes) = .ofKeyword .select :: ts ∧ Token.Chunk ts := by
  refine ⟨Nested.tokensOf (Nested.spaced [.bare .wildcard "*", .ofKeyword .fromKw,
    .bare .name "t", .ofKeyword .whereKw] ++
      FilterItem.spellingOf (nodes.map FilterNode.toItem)), rfl, ?_⟩
  rw [Nested.tokensOf_append]
  refine Token.chunk_append (Nested.chunk_spacedWords ?_) (FilterItem.chunk_spellingOf
    fun item hitem => FilterItem.chunk_spelling (formed_toItem h item hitem))
  intro t ht e
  simp only [List.mem_cons, List.not_mem_nil, or_false] at ht
  rcases ht with rfl | rfl | rfl | rfl
  · exact Token.word_wildcard e
  · exact Token.word_ofKeyword e (by decide) (by decide)
  · exact Token.word_bareName e (by decide +kernel) (by decide +kernel) (by decide +kernel)
  · exact Token.word_ofKeyword e (by decide) (by decide)

theorem plain_selectWhere : ∀ item ∈ selectWhere nodes, item.Plain := by
  intro item hitem
  rcases List.mem_cons.1 hitem with rfl | hitem
  · exact .token (Token.plain_ofKeyword .select)
  · rcases List.mem_append.1 hitem with hitem | hitem
    · refine Nested.plain_spaced ?_ item hitem
      intro t ht
      simp only [List.mem_cons, List.not_mem_nil, or_false] at ht
      rcases ht with rfl | rfl | rfl | rfl
      · exact Token.plain_bare "*" TokenKind.noConfusion TokenKind.noConfusion
          fun _ => TokenKind.noConfusion
      · exact Token.plain_ofKeyword .fromKw
      · exact Token.plain_name "t"
      · exact Token.plain_ofKeyword .whereKw
    · exact FilterItem.plain_spellingOf
        (fun i hi => FilterItem.plain_spelling (formed_toItem h i hi)) item hitem

theorem filterOf_selectTree : filterOf (selectTree nodes) = .ok (some nodes) := by
  have hfind : (selectTree nodes).find? .whereClause =
      some ⟨.whereClause, .leaf (.ofKeyword .whereKw) ::
        FilterItem.treeOf (nodes.map FilterNode.toItem)⟩ := rfl
  have hintroduces : introduces? (.leaf (.ofKeyword .whereKw)) = some .and := rfl
  have hend : collect [] = .ok [] := rfl
  rcases FilterItem.collect_treeOf h.1 (formed_toItem h)
    (fun item hitem => FilterItem.introduced_tree (formed_toItem h item hitem))
    hintroduces hend with ⟨found, hfound, hmap⟩
  -- A filter is determined by its items.
  rw [List.append_nil] at hfound
  rw [filterOf, hfind]
  simp only [hfound, List.map_injective_iff.2 toItem_injective hmap]

end Query

theorem leaves_selectTree (nodes : List FilterNode) :
    ∃ front back, (selectTree nodes).leaves = front ++ back ∧
      (∃ l, front.filter Leaf.isTarget = [l] ∧ l.value = "t") ∧
      (∀ l ∈ front, l.isColumn = false) ∧ ∀ l ∈ back, l.inWhere = true := by
  refine ⟨Node.leavesFrom (selectTree nodes) [] 0 selectFront,
    Node.leavesFrom (selectTree nodes) [] 8 [.group .whereClause (.leaf (.ofKeyword .whereKw) ::
      FilterItem.treeOf (nodes.map FilterNode.toItem))], ?_, ⟨_, rfl, ?_⟩, ?_, ?_⟩
  · exact Node.leavesFrom_append _ [] 0 _ _
  · exact show (Token.bare .name "t").value = "t" by decide +kernel
  · simp only [selectFront, Node.leavesFrom, Node.leaves, Node.nameRef, List.cons_append,
      List.nil_append, List.append_nil, List.mem_cons, List.not_mem_nil, or_false]
    rintro l (rfl | rfl | rfl | rfl | rfl | rfl | rfl | rfl) <;> rfl
  · intro l hl
    rw [Node.leavesFrom, Node.leavesFrom, List.append_nil] at hl
    exact Node.hasAncestor_of_mem_group hl

/-- A query with a filter is read back with that filter, and has no column. -/
theorem classify_selectWhere {nodes : List FilterNode} (h : WellFormed nodes) :
    classify (Token.spell (Nested.tokensOf (selectWhere nodes))) =
      .ok (.table ⟨"t", .select, [], some nodes⟩) := by
  rcases chunk_selectWhere h with ⟨ts, htokens, hchunk⟩
  have hkeywords : (selectTree nodes).keywords = [.select, .fromKw] := rfl
  have hcommand : Command.ofTag? (normalizeTag (commandTag (selectTree nodes))) =
      some .select := by
    rw [commandTag, hkeywords]
    decide +kernel
  rcases leaves_selectTree nodes with ⟨front, back, hleaves, ⟨l, htarget, hvalue⟩, hfront, hback⟩
  have hname : target (selectTree nodes).leaves = .ok "t" := by
    rw [target, hleaves, List.filter_append, htarget]
    exact congrArg Except.ok hvalue
  have hcolumns : mentionedColumns .select (selectTree nodes).leaves = .ok [] := by
    rw [mentionedColumns, gather, gatherFrom_of_no_column]
    · intro m hm
      rw [hleaves] at hm
      rcases List.mem_append.1 hm with hm | hm
      · exact hfront m hm
      · -- Inside the condition nothing is a column.
        rw [Leaf.isColumn, hback m hm, Bool.not_true, Bool.and_false]
        rfl
    · exact fun m _ => rfl
  rw [classify_spell htokens (plain_selectWhere h)
    (Token.word_ofKeyword true (by decide) (by decide)) hchunk, rootNodes_selectWhere h]
  simp only [classifyTree, hcommand, Command.extract, Command.extraction, Extraction.run]
  rw [map_eq_ok]
  exact ⟨_, tableOf_eq_ok_iff.2 ⟨"t", [], some nodes, hname, hcolumns, filterOf_selectTree h, rfl⟩,
    rfl⟩

/-- A query, an update or a deletion has a filter exactly if its statement has a
    `WHERE` at depth zero, and the filter can be written. -/
theorem filter_of_classify {sql : String} {t : Table} (h : classify sql = .ok (.table t))
    (haction : t.action ∈ [Action.select, Action.update, Action.delete]) :
    ∃ before statement after, tokenize sql = before ++ (statement ++ after) ∧
      IsFirstStatement before statement after ∧
        (t.filter.isSome = true ↔ .whereKw ∈ outerKeywords 0 statement) ∧
          ∀ nodes, t.filter = some nodes → WellFormed nodes := by
  rcases classify_eq_ok_iff.1 h with ⟨root, c, hroot, -, hextract⟩
  have hfilter := filterOf_of_extract hextract haction
  rcases ofText_eq_ok_iff.1 hroot with ⟨statement, items, hread, hnest, rfl⟩
  rcases (isFirstStatement_of_readStatement hread).2 with ⟨before, after, htokens, hfirst⟩
  have hmatched := Nested.matched_nest hnest
  have hclause := find?_clause_isSome hmatched
  rw [Nested.tokens_of_nest hnest] at hclause
  refine ⟨before, statement, after, htokens, hfirst, ?_, ?_⟩
  -- There is a filter exactly if the passes made a clause.
  · rw [← hclause]
    cases hfind : Group.find? ⟨.statement, rootNodes items⟩ .whereClause with
    | none =>
        rw [filterOf, hfind, Except.ok.injEq] at hfilter
        rw [← hfilter]
        exact Iff.rfl
    | some clause =>
        rw [filterOf, hfind] at hfilter
        simp only at hfilter
        split at hfilter
        · rw [Except.ok.injEq] at hfilter
          rw [← hfilter]
          exact Iff.rfl
        · simp only [reduceCtorEq] at hfilter
  · intro nodes hnodes
    rw [hnodes] at hfilter
    cases hfind : Group.find? ⟨.statement, rootNodes items⟩ .whereClause with
    | none =>
        rw [filterOf, hfind, Except.ok.injEq] at hfilter
        exact absurd hfilter.symm (Option.some_ne_none nodes)
    | some clause =>
        rcases find?_clause hmatched hfind with
          ⟨keyword, condition, hchildren, hkeyword, -, htidy⟩
        rw [filterOf, hfind] at hfilter
        simp only at hfilter
        split at hfilter
        · rename_i found hfound
          rw [Except.ok.injEq, Option.some.injEq] at hfilter
          rw [← hfilter]
          rw [hchildren] at hfound
          -- The keyword of the clause introduces the first node.
          have hintroduces : introduces? keyword = some .and := by
            rw [introduces?, hkeyword]
          refine ⟨opensWithAnd_collect hintroduces hfound, ?_⟩
          refine formed_collect (keyword :: condition) ?_ hfound
          intro n hn
          rcases List.mem_cons.1 hn with rfl | hn
          · cases n with
            | leaf t => exact Or.inr ⟨t, rfl⟩
            | group => exact absurd hkeyword.symm (Option.some_ne_none _)
          · exact Or.inl (htidy n hn)
        · simp only [reduceCtorEq] at hfilter

/-- Filters decode and encode. What is read can be written, and is there exactly
    if a `WHERE` stands at depth zero. What can be written is read back as it
    was, one deeper than its parentheses, and its conditions stand in order. -/
theorem filter_roundTrip :
    (∀ (sql : String) (t : Table), classify sql = .ok (.table t) →
      t.action ∈ [Action.select, Action.update, Action.delete] →
      ∃ before statement after, tokenize sql = before ++ (statement ++ after) ∧
        IsFirstStatement before statement after ∧
          (t.filter.isSome = true ↔ .whereKw ∈ outerKeywords 0 statement) ∧
            ∀ nodes, t.filter = some nodes → WellFormed nodes) ∧
    ∀ nodes : List FilterNode, WellFormed nodes →
      classify (Token.spell (Nested.tokensOf (selectWhere nodes))) =
          .ok (.table ⟨"t", .select, [], some nodes⟩) ∧
        FilterItem.depthOf (nodes.map FilterNode.toItem) =
          1 + Nested.depthOf (selectWhere nodes) ∧
        (Nested.tokensOf (selectWhere nodes)).filter FilterItem.isOfCondition =
          .bare .name "t" ::
            (FilterItem.conditionsOf (nodes.map FilterNode.toItem)).flatMap Condition.tokens := by
  refine ⟨fun sql t h haction => filter_of_classify h haction, fun nodes h => ?_⟩
  have hformed := formed_toItem h
  refine ⟨classify_selectWhere h, ?_, ?_⟩
  · rw [selectWhere, Nested.depthOf, Nested.depthOf_append, Nested.depthOf_spaced, Nested.depth,
      Nat.zero_max, Nat.zero_max]
    exact FilterItem.depth_spellingOf h.1.ne_nil
      fun item hitem => FilterItem.depth_spelling (hformed item hitem)
  · have hconditions := FilterItem.conditions_spellingOf
      fun item hitem => FilterItem.conditions_spelling (hformed item hitem)
    rw [selectWhere, Nested.tokensOf, Nested.tokensOf_append, List.filter_append,
      List.filter_append, hconditions]
    rfl

/-- A filter in parentheses, and an apostrophe in a value. -/
theorem filter_roundTrip_nested :
    ∃ nodes : List FilterNode,
      nodes = [⟨.and, [.node .and [.condition ⟨"a", "<>", "1"⟩]]⟩,
        ⟨.or, [.condition ⟨"b", "LIKE", "it's"⟩]⟩] ∧ WellFormed nodes ∧
      (classify (Token.spell (Nested.tokensOf (selectWhere nodes))) =
          .ok (.table ⟨"t", .select, [], some nodes⟩) ∧
        FilterItem.depthOf (nodes.map FilterNode.toItem) =
          1 + Nested.depthOf (selectWhere nodes) ∧
        (Nested.tokensOf (selectWhere nodes)).filter FilterItem.isOfCondition =
          .bare .name "t" ::
            (FilterItem.conditionsOf (nodes.map FilterNode.toItem)).flatMap Condition.tokens) ∧
      ∃ before statement after,
        tokenize (Token.spell (Nested.tokensOf (selectWhere nodes))) =
            before ++ (statement ++ after) ∧
          IsFirstStatement before statement after ∧
            ((some nodes).isSome = true ↔ .whereKw ∈ outerKeywords 0 statement) ∧
              ∀ nodes', some nodes = some nodes' → WellFormed nodes' := by
  have hwell : WellFormed [⟨.and, [.node .and [.condition ⟨"a", "<>", "1"⟩]]⟩,
      ⟨.or, [.condition ⟨"b", "LIKE", "it's"⟩]⟩] := by
    refine ⟨⟨_, _, rfl⟩, fun n hn => ?_⟩
    simp only [List.mem_cons, List.not_mem_nil, or_false] at hn
    rcases hn with rfl | rfl
    · refine .nested ⟨_, _, rfl⟩ fun item hitem => ?_
      rw [List.mem_singleton] at hitem
      rw [hitem]
      exact .condition (by decide)
    · exact .condition (by decide)
  have hback := filter_roundTrip.2 _ hwell
  exact ⟨_, rfl, hwell, hback,
    filter_roundTrip.1 _ ⟨"t", .select, [], some _⟩ hback.1 List.mem_cons_self⟩

example :
    Token.spell (Nested.tokensOf (selectWhere
      [⟨.and, [.node .and [.condition ⟨"a", "<>", "1"⟩]]⟩,
        ⟨.or, [.condition ⟨"b", "LIKE", "it's"⟩]⟩])) =
      "SELECT * FROM t WHERE ( \"a\" <> '1' ) OR \"b\" LIKE 'it''s'" := by
  decide +kernel

end SqlGist
