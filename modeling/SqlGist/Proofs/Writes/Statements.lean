import SqlGist.Proofs.Tree.Clauses
import SqlGist.Proofs.Writes.Spelling

/-!
# Insertions and Updates

The statements that change a table, and their trees. An insertion is settled
once its names and calls are grouped: what it lists stands between parentheses.
In an update nothing does, so its assignments are a clause, and the passes over
lists and conditions have work to do. How many assignments there are decides
whether the clause holds a list, and `Node.listRun` says which without a look at
their number.

## Main definitions

* `insertItems`, `updateItems`: How the statements are written.
* `insertTree`, `updateTree`: Their trees.
* `updateRun`: The run behind `SET`.

## Theorems

* `rootNodes_insert`, `rootNodes_update`: The passes turn each into its tree.
* `chunk_insert`, `chunk_update`: The statements are read back.
-/

namespace SqlGist

/-- An insertion as it is written. -/
def insertItems (i : IntoSpec) (values : List DefaultValue) : List Nested :=
  .token (.ofKeyword .insert) :: .token .space :: .token (.ofKeyword .into) :: .token .space ::
    (i.items ++ [.token .space, .token (.ofKeyword .values), .token .space,
      DefaultValue.tuple values])

/-- The tree of an insertion. -/
def insertTree (i : IntoSpec) (values : List DefaultValue) : Group :=
  ⟨.statement, .leaf (.ofKeyword .insert) :: .leaf .space :: .leaf (.ofKeyword .into) ::
    .leaf .space :: (i.tree ++ [.leaf .space, .leaf (.ofKeyword .values), .leaf .space,
      .group .parenthesis (DefaultValue.tupleParts values)])⟩

section Insert

variable (i : IntoSpec) (values : List DefaultValue)

theorem outerNodes_insert (hne : values ≠ []) :
    Nested.outerNodes false (insertItems i values) =
      .leaf (.ofKeyword .insert) :: .leaf .space :: .leaf (.ofKeyword .into) :: .leaf .space ::
        (Nested.nodes i.items ++ [.leaf .space, .leaf (.ofKeyword .values), .leaf .space,
          .group .parenthesis (DefaultValue.tupleParts values)]) := by
  rw [← DefaultValue.node_tuple hne]
  cases i <;> rfl

/-- The passes over calls and names make the tree. -/
theorem groupNames_insert :
    Node.groupNames (Node.groupCalls (.leaf (.ofKeyword .insert) :: .leaf .space ::
      .leaf (.ofKeyword .into) :: .leaf .space ::
        (Nested.nodes i.items ++ [.leaf .space, .leaf (.ofKeyword .values), .leaf .space,
          .group .parenthesis (DefaultValue.tupleParts values)]))) =
      (insertTree i values).children := by
  cases i with
  | alone table => rfl
  | apart table columns =>
      rw [insertTree, IntoSpec.tree, ← node_nameList]
      rfl
  | joined table columns =>
      rw [insertTree, IntoSpec.tree, ← node_nameList]
      rfl

theorem settled_insertTree : ∀ n ∈ (insertTree i values).children, n.Settled := by
  intro n hn
  simp only [insertTree, List.mem_cons, List.mem_append, List.not_mem_nil, or_false] at hn
  rcases hn with rfl | rfl | rfl | rfl | hn | rfl | rfl | rfl | rfl
  · decide
  · decide
  · decide
  · decide
  · exact i.settled_tree n hn
  · decide
  · decide
  · decide
  · exact Node.settled_group _ _

/-- The passes turn an insertion into its tree. -/
theorem rootNodes_insert (hne : values ≠ []) :
    (⟨.statement, rootNodes (insertItems i values)⟩ : Group) = insertTree i values := by
  have hdefines : definesTable (insertItems i values) = false := rfl
  rw [rootNodes, hdefines, groupRoot_false_eq, outerNodes_insert i values hne, Node.groupLevel,
    groupNames_insert, Node.groupBehind_of_settled (settled_insertTree i values)]
  rfl

theorem chunk_insert :
    ∃ ts, Nested.tokensOf (insertItems i values) = .ofKeyword .insert :: ts ∧ Token.Chunk ts := by
  have hinto : Token.Chunk [Token.space, .ofKeyword .into] := Token.chunk_spaced
    fun operandExpected => Token.word_ofKeyword operandExpected (by decide) (by decide)
  have hvalues : Token.Chunk [Token.space, .ofKeyword .values] := Token.chunk_spaced
    fun operandExpected => Token.word_ofKeyword operandExpected (by decide) (by decide)
  have htuple := Token.chunk_space (DefaultValue.phrase_tuple values)
  have htokens : Nested.tokensOf (insertItems i values) = .ofKeyword .insert ::
      ([.space, .ofKeyword .into] ++ .space :: (Nested.tokensOf i.items ++
        ([.space, .ofKeyword .values] ++ .space :: (DefaultValue.tuple values).tokens))) := by
    simp only [insertItems, Nested.tokensOf, Nested.tokens, Nested.tokensOf_append,
      List.cons_append, List.nil_append, List.append_nil]
  exact ⟨_, htokens, Token.chunk_append hinto (Token.chunk_space
    (Token.phrase_append i.phrase_items (Token.chunk_append hvalues htuple)))⟩

theorem plain_insert : ∀ item ∈ insertItems i values, item.Plain := by
  intro item hitem
  simp only [insertItems, List.mem_cons, List.mem_append, List.not_mem_nil, or_false] at hitem
  rcases hitem with rfl | rfl | rfl | rfl | hitem | rfl | rfl | rfl | rfl
  · exact .token (Token.plain_ofKeyword .insert)
  · exact .token Token.plain_space
  · exact .token (Token.plain_ofKeyword .into)
  · exact .token Token.plain_space
  · exact i.plain_items item hitem
  · exact .token Token.plain_space
  · exact .token (Token.plain_ofKeyword .values)
  · exact .token Token.plain_space
  · exact DefaultValue.plain_tuple values

end Insert

/-- The condition of an update as it is written. -/
def whereItems : Option ComparisonSpec → List Nested
  | none => []
  | some c => .token .space :: .token (.ofKeyword .whereKw) :: .token .space :: c.items

/-- An update as it is written. -/
def updateItems (table : String) (sets : List AssignmentSpec) (condition : Option ComparisonSpec) :
    List Nested :=
  .token (.ofKeyword .update) :: .token .space :: .token (.quotedName table) :: .token .space ::
    .token (.ofKeyword .set) :: .token .space ::
      (Nested.commas (sets.map AssignmentSpec.items) ++ whereItems condition)

/-- What stands in front of `SET`. -/
def updateFront (table : String) : List Node :=
  [.leaf (.ofKeyword .update), .leaf .space, Node.nameRef (.leaf (.quotedName table)),
    .leaf .space]

/-- What stands behind it, up to the condition. -/
def updateRun (sets : List AssignmentSpec) (condition : Option ComparisonSpec) : List Node :=
  .leaf .space :: (Node.commas (sets.map AssignmentSpec.tree) ++
    if condition.isSome then [.leaf .space] else [])

/-- The condition of an update, with its keyword. -/
def whereNodes (c : ComparisonSpec) : List Node :=
  .leaf (.ofKeyword .whereKw) :: .leaf .space :: c.tree

/-- The group of the condition. -/
def updateTail : Option ComparisonSpec → List Node
  | none => []
  | some c => [.group .whereClause (whereNodes c)]

/-- The tree of an update. -/
def updateTree (table : String) (sets : List AssignmentSpec) (condition : Option ComparisonSpec) :
    Group :=
  ⟨.statement, updateFront table ++ .leaf (.ofKeyword .set) ::
    (Node.listRun false (updateRun sets condition) ++ updateTail condition)⟩

section Update

variable (table : String) (sets : List AssignmentSpec) (condition : Option ComparisonSpec)

/-- The run of an update holds its comparisons, and what stands between them. -/
theorem mem_updateRun {n : Node} (h : n ∈ updateRun sets condition) :
    n = .leaf .space ∨ n = .leaf (.mark ",") ∨ ∃ parts, n = .group .comparison parts := by
  rcases List.mem_cons.1 h with rfl | h
  · exact Or.inl rfl
  · rcases List.mem_append.1 h with h | h
    · rcases mem_intercalate h with h | ⟨part, hpart, h⟩
      · simp only [Node.comma, List.mem_cons, List.not_mem_nil, or_false] at h
        rcases h with rfl | rfl
        · exact Or.inr (Or.inl rfl)
        · exact Or.inl rfl
      · rcases List.mem_map.1 hpart with ⟨a, -, rfl⟩
        rw [List.mem_singleton.1 h]
        exact Or.inr (Or.inr ⟨_, rfl⟩)
    · split at h
      · exact Or.inl (List.mem_singleton.1 h)
      · exact absurd h List.not_mem_nil

theorem keyword?_updateRun : ∀ n ∈ updateRun sets condition, n.keyword? = none := by
  intro n hn
  rcases mem_updateRun sets condition hn with rfl | rfl | ⟨parts, rfl⟩ <;> rfl

/-- The passes that act on neighbours make the assignments and the condition. -/
theorem groupLevel_update :
    Node.groupLevel (Nested.nodes (updateItems table sets condition)) =
      updateFront table ++ .leaf (.ofKeyword .set) ::
        (updateRun sets condition ++ (condition.elim [] whereNodes)) := by
  have hnodes : Nested.nodes (updateItems table sets condition) =
      .leaf (.ofKeyword .update) :: .leaf .space :: .leaf (.quotedName table) :: .leaf .space ::
        .leaf (.ofKeyword .set) :: .leaf .space ::
          (Nested.nodes (Nested.commas (sets.map AssignmentSpec.items)) ++
            Nested.nodes (whereItems condition)) := by
    rw [← Nested.nodes_append]
    rfl
  have hwhere : Node.groupLevel (Nested.nodes (whereItems condition)) =
      (if condition.isSome then [.leaf .space] else []) ++ condition.elim [] whereNodes := by
    cases condition with
    | none => exact Node.groupLevel_nil
    | some c =>
        have hcondition := c.groupLevel_items []
        rw [List.append_nil, Node.groupLevel_nil, List.append_nil] at hcondition
        have hitems : Nested.nodes (whereItems (some c)) = .leaf .space ::
            .leaf (.ofKeyword .whereKw) :: .leaf .space :: Nested.nodes c.items := rfl
        rw [hitems, Node.groupLevel_space, Node.groupLevel_pass rfl rfl, Node.groupLevel_space,
          hcondition]
        rfl
  have hcommas := @Node.groupLevel_commas_append AssignmentSpec AssignmentSpec.items
    AssignmentSpec.tree sets (fun _ => True) (fun _ => trivial)
    (fun a _ ns _ => a.comparison.groupLevel_items ns) (Nested.nodes (whereItems condition)) trivial
  rw [hnodes, Node.groupLevel_pass rfl rfl, Node.groupLevel_space, Node.groupLevel_name rfl,
    Node.groupLevel_space, Node.groupLevel_pass rfl rfl, Node.groupLevel_space, hcommas, hwhere,
    ← List.append_assoc]
  · rfl
  · intro p hp
    rw [← Option.some.inj hp]
    rfl
  · exact Node.noOperatorNext_cons rfl fun _ =>
      Node.noOperatorNext_cons rfl fun hblank => absurd hblank Bool.false_ne_true

/-- The clause of an update is the list of its run. -/
theorem groupLists_update :
    Node.groupLists (Node.groupLevel (Nested.nodes (updateItems table sets condition))) =
      updateFront table ++ .leaf (.ofKeyword .set) ::
        (Node.listRun false (updateRun sets condition) ++ condition.elim [] whereNodes) := by
  have hrun := keyword?_updateRun sets condition
  have hclause : Node.groupListsBehind false
      (updateRun sets condition ++ condition.elim [] whereNodes) =
        Node.listRun false (updateRun sets condition) ++ condition.elim [] whereNodes := by
    cases condition with
    | none =>
        rw [Option.elim_none, List.append_nil, List.append_nil,
          Node.groupListsBehind_of_no_keyword hrun]
    | some c =>
        have hwhere : Node.groupListsBehind false (.leaf .space :: c.tree) =
            .leaf .space :: c.tree := by
          refine Node.groupLists_of_no_comma fun n hn => ?_
          rcases List.mem_cons.1 hn with rfl | hn
          · exact ⟨rfl, rfl⟩
          · rw [List.mem_singleton.1 hn]
            exact ⟨rfl, rfl⟩
        rw [Option.elim_some, whereNodes, Node.groupListsBehind_append hrun rfl,
          show Node.opensProjection (.leaf (.ofKeyword .whereKw)) = false from rfl, hwhere]
  have hfront : ∀ n ∈ [Node.leaf .space, Node.nameRef (.leaf (.quotedName table)), .leaf .space],
      n.keyword? = none := by
    intro n hn
    simp only [List.mem_cons, List.not_mem_nil, or_false] at hn
    rcases hn with rfl | rfl | rfl <;> rfl
  rw [groupLevel_update, Node.groupLists_eq,
    show ∀ rest, updateFront table ++ .leaf (.ofKeyword .set) :: rest =
      [] ++ .leaf (.ofKeyword .update) :: ([.leaf .space, Node.nameRef (.leaf (.quotedName table)),
        .leaf .space] ++ .leaf (.ofKeyword .set) :: rest) from fun rest => rfl,
    Node.groupListsBehind_append (fun n hn => absurd hn List.not_mem_nil) rfl,
    Node.groupListsBehind_append hfront rfl,
    show Node.opensProjection (.leaf (.ofKeyword .set)) = false from rfl, hclause]
  rfl

theorem not_values_update :
    ∀ item ∈ updateItems table sets condition, item.keyword? ≠ some .values := by
  have hwhere : ∀ item ∈ whereItems condition, item.keyword? ≠ some .values := by
    cases condition with
    | none => exact fun item hitem => absurd hitem List.not_mem_nil
    | some c =>
        intro item hitem
        simp only [whereItems, List.mem_cons] at hitem
        rcases hitem with rfl | rfl | rfl | hitem
        · exact fun hk => Option.some_ne_none _ hk.symm
        · exact fun hk => absurd hk (by decide)
        · exact fun hk => Option.some_ne_none _ hk.symm
        · exact c.not_values_items item hitem
  have hcommas : ∀ item ∈ Nested.commas (sets.map AssignmentSpec.items),
      item.keyword? ≠ some .values := by
    intro item hitem
    rcases mem_intercalate hitem with hitem | ⟨part, hpart, hitem⟩
    · simp only [Nested.comma, List.mem_cons, List.not_mem_nil, or_false] at hitem
      rcases hitem with rfl | rfl <;> exact fun hk => Option.some_ne_none _ hk.symm
    · rcases List.mem_map.1 hpart with ⟨a, -, rfl⟩
      exact a.comparison.not_values_items item hitem
  intro item hitem
  simp only [updateItems, List.mem_cons, List.mem_append] at hitem
  rcases hitem with rfl | rfl | rfl | rfl | rfl | rfl | hitem | hitem
  · exact fun hk => absurd hk (by decide)
  · exact fun hk => Option.some_ne_none _ hk.symm
  · exact fun hk => Option.some_ne_none _ hk.symm
  · exact fun hk => Option.some_ne_none _ hk.symm
  · exact fun hk => absurd hk (by decide)
  · exact fun hk => Option.some_ne_none _ hk.symm
  · exact hcommas item hitem
  · exact hwhere item hitem

/-- In front of the condition no node has its keyword. -/
theorem not_where_update : ∀ n ∈ updateFront table ++ .leaf (.ofKeyword .set) ::
    Node.listRun false (updateRun sets condition), n.keyword? ≠ some .whereKw := by
  intro n hn hk
  rcases List.mem_append.1 hn with hn | hn
  · simp only [updateFront, List.mem_cons, List.not_mem_nil, or_false] at hn
    rcases hn with rfl | rfl | rfl | rfl
    · exact absurd hk (by decide)
    · exact Option.some_ne_none _ hk.symm
    · exact Option.some_ne_none _ hk.symm
    · exact Option.some_ne_none _ hk.symm
  · rcases List.mem_cons.1 hn with rfl | hn
    · exact absurd hk (by decide)
    · rw [Node.keyword?_of_mem_listRun (keyword?_updateRun sets condition) hn] at hk
      exact Option.some_ne_none _ hk.symm

/-- The passes turn an update into its tree. -/
theorem rootNodes_update :
    (⟨.statement, rootNodes (updateItems table sets condition)⟩ : Group) =
      updateTree table sets condition := by
  have hdefines : definesTable (updateItems table sets condition) = false := rfl
  have hbefore := not_where_update table sets condition
  rw [rootNodes, hdefines, groupRoot_false_eq,
    Nested.outerNodes_eq_nodes (not_values_update table sets condition), groupLists_update,
    updateTree]
  cases condition with
  | none =>
      rw [Option.elim_none, updateTail, List.append_nil, Node.groupWhere_of_no_where hbefore]
  | some c =>
      rw [Option.elim_some, updateTail, ← List.cons_append, ← List.append_assoc, whereNodes,
        Node.groupWhere_append hbefore rfl, List.append_assoc]
      · rfl
      · intro n hn
        rcases List.mem_cons.1 hn with rfl | hn
        · rfl
        · rw [List.mem_singleton.1 hn]
          rfl
      · intro n hn
        rw [← Option.some.inj hn]
        rfl

theorem chunk_update (hne : sets ≠ []) :
    ∃ ts, Nested.tokensOf (updateItems table sets condition) = .ofKeyword .update :: ts ∧
      Token.Chunk ts := by
  have hfront : Token.Chunk (Nested.tokensOf
      (Nested.spaced [.quotedName table, .ofKeyword .set])) := by
    refine Nested.chunk_spacedWords fun t ht operandExpected => ?_
    simp only [List.mem_cons, List.not_mem_nil, or_false] at ht
    rcases ht with rfl | rfl
    · exact Token.word_quotedName operandExpected table
    · exact Token.word_ofKeyword operandExpected (by decide) (by decide)
  have hassignments : Token.Phrase (Nested.tokensOf
      (Nested.commas (sets.map AssignmentSpec.items))) := by
    refine Nested.phrase_commas (fun hnil => hne (List.map_eq_nil_iff.1 hnil)) fun part hpart => ?_
    rcases List.mem_map.1 hpart with ⟨a, -, rfl⟩
    exact a.comparison.phrase_items
  have hwhere : Token.Chunk (Nested.tokensOf (whereItems condition)) := by
    cases condition with
    | none => exact Token.chunk_nil
    | some c =>
        have hkeyword : Token.Chunk [Token.space, .ofKeyword .whereKw] := Token.chunk_spaced
          fun operandExpected => Token.word_ofKeyword operandExpected (by decide) (by decide)
        have hcondition := Token.chunk_append hkeyword (Token.chunk_space c.phrase_items)
        exact hcondition
  have htokens : Nested.tokensOf (updateItems table sets condition) = .ofKeyword .update ::
      (Nested.tokensOf (Nested.spaced [.quotedName table, .ofKeyword .set]) ++
        .space :: (Nested.tokensOf (Nested.commas (sets.map AssignmentSpec.items)) ++
          Nested.tokensOf (whereItems condition))) := by
    rw [← Nested.tokensOf_append]
    rfl
  exact ⟨_, htokens, Token.chunk_append hfront
    (Token.chunk_space (Token.phrase_append hassignments hwhere))⟩

theorem plain_update : ∀ item ∈ updateItems table sets condition, item.Plain := by
  have hwhere : ∀ item ∈ whereItems condition, item.Plain := by
    cases condition with
    | none => exact fun item hitem => absurd hitem List.not_mem_nil
    | some c =>
        intro item hitem
        simp only [whereItems, List.mem_cons] at hitem
        rcases hitem with rfl | rfl | rfl | hitem
        · exact .token Token.plain_space
        · exact .token (Token.plain_ofKeyword .whereKw)
        · exact .token Token.plain_space
        · exact c.plain_items item hitem
  intro item hitem
  simp only [updateItems, List.mem_cons, List.mem_append] at hitem
  rcases hitem with rfl | rfl | rfl | rfl | rfl | rfl | hitem | hitem
  · exact .token (Token.plain_ofKeyword .update)
  · exact .token Token.plain_space
  · exact .token (Token.plain_name _)
  · exact .token Token.plain_space
  · exact .token (Token.plain_ofKeyword .set)
  · exact .token Token.plain_space
  · refine Nested.plain_commas (fun part hpart => ?_) item hitem
    rcases List.mem_map.1 hpart with ⟨a, -, rfl⟩
    exact a.comparison.plain_items
  · exact hwhere item hitem

end Update

end SqlGist
