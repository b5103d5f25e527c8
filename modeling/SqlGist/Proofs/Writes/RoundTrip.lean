import SqlGist.Proofs.Writes.Leaves

/-!
# Changes Decode and Encode

An insertion or an update that is written down is read back as it was. Its
columns are the names with their values, in the order in which they are written,
and what is done with them is told by the statement. An insertion without names
gives columns without names, and the condition of an update is its filter.

A `WriteSpec` is a change that can be written. It has a value at least, and as
many values as names, since each name comes with its own.

## Main definitions

* `WriteSpec`: A change that can be written.
* `WriteSpec.items`, `WriteSpec.text`: How it is written.
* `WriteSpec.table`: How it is read back.

## Theorems

* `classify_insert`, `classify_update`: Either statement is read back.
* `filterOf_updateTree`: The condition of an update is its filter.
* `write_roundTrip`: Changes decode and encode.
-/

namespace SqlGist

/-- A change that can be written. An insertion names its columns, apart from its
    table or right behind it, or fills the table without names. An update may
    have a condition. -/
inductive WriteSpec
  | insert (table : String) (apart : Bool) (sets : List AssignmentSpec) (h : sets ≠ [])
  | fill (table : String) (values : List DefaultValue) (h : values ≠ [])
  | update (table : String) (sets : List AssignmentSpec) (h : sets ≠ [])
    (condition : Option ComparisonSpec)

/-- The column that an assignment is read as. -/
def AssignmentSpec.column (a : AssignmentSpec) (action : Action) : Column :=
  Column.assigned a.name (a.value.text, action)

/-- The column that a value without a name is read as. -/
def DefaultValue.column (v : DefaultValue) : Column :=
  Column.positional v.text .insert

/-- The filter of a single comparison. -/
def ComparisonSpec.filter (c : ComparisonSpec) : List FilterNode :=
  [⟨.and, [.condition c.condition]⟩]

namespace WriteSpec

/-- A change as it is written. -/
def items : WriteSpec → List Nested
  | insert table true sets _ =>
    insertItems (.apart table (sets.map AssignmentSpec.name)) (sets.map AssignmentSpec.value)
  | insert table false sets _ =>
    insertItems (.joined table (sets.map AssignmentSpec.name)) (sets.map AssignmentSpec.value)
  | fill table values _ => insertItems (.alone table) values
  | update table sets _ condition => updateItems table sets condition

/-- The text of a change. -/
def text (s : WriteSpec) : String :=
  Token.spell (Nested.tokensOf s.items)

/-- A change as it is read back. -/
def table : WriteSpec → Table
  | insert table _ sets _ => ⟨table, .insert, sets.map fun a => a.column .insert, none⟩
  | fill table values _ => ⟨table, .insert, values.map DefaultValue.column, none⟩
  | update table sets _ condition =>
    ⟨table, .update, sets.map fun a => a.column .update, condition.map ComparisonSpec.filter⟩

end WriteSpec

/-- The pairs of a list of assignments are their columns. -/
theorem zipWith_columns (sets : List AssignmentSpec) (action : Action) :
    List.zipWith Column.assigned (sets.map AssignmentSpec.name)
      (sets.map fun a => (a.value.text, action)) = sets.map fun a => a.column action := by
  rw [List.zipWith_map, List.zipWith_self]
  rfl

/-- An insertion is read back with what its columns and values are paired to. -/
theorem classify_insert (i : IntoSpec) {values : List DefaultValue} (hne : values ≠ [])
    {columns : List Column}
    (hpair : pairColumns ((insertTree i values).leaves.filter Leaf.isColumn)
      ((insertTree i values).leaves.filter fun l => l.isWritten .values) = .ok columns) :
    classify (Token.spell (Nested.tokensOf (insertItems i values))) =
      .ok (.table ⟨i.table, .insert, columns, none⟩) := by
  rcases chunk_insert i values with ⟨ts, htokens, hchunk⟩
  have hkeywords : (insertTree i values).keywords = [.insert, .into, .values] := by
    cases i <;> rfl
  have hcommand : Command.ofTag? (normalizeTag (commandTag (insertTree i values))) =
      some .insert := by
    rw [commandTag, hkeywords]
    decide +kernel
  rw [classify_spell htokens (plain_insert i values)
    (Token.word_ofKeyword true (by decide) (by decide)) hchunk, rootNodes_insert i values hne]
  simp only [classifyTree, hcommand, Command.extract, Command.extraction, Extraction.run]
  rw [map_eq_ok]
  exact ⟨_, writtenTable_eq_ok_iff.2
    ⟨i.table, columns, none, target_insert i values, hpair, rfl, rfl⟩, rfl⟩

/-- An insertion that names its columns pairs them with its values. -/
theorem classify_insertSets {i : IntoSpec} {sets : List AssignmentSpec} (hne : sets ≠ [])
    (hcolumns : i.columns = sets.map AssignmentSpec.name) :
    classify (Token.spell (Nested.tokensOf (insertItems i (sets.map AssignmentSpec.value)))) =
      .ok (.table ⟨i.table, .insert, sets.map fun a => a.column .insert, none⟩) := by
  have hreads := reads_insert i (sets.map AssignmentSpec.value)
  rw [hcolumns, List.map_map] at hreads
  have hpair := hreads.pairColumns_eq (by rw [List.length_map, List.length_map])
  refine classify_insert i (fun hnil => hne (List.map_eq_nil_iff.1 hnil)) ?_
  rw [hpair, ← zipWith_columns]
  rfl

section Update

variable (table : String) (sets : List AssignmentSpec) (condition : Option ComparisonSpec)

theorem keywords_updateTree : (updateTree table sets condition).keywords = [.update, .set] := by
  have htail : (updateTail condition).filterMap Node.keyword? = [] := by
    cases condition <;> rfl
  rw [Group.keywords, updateTree, List.filterMap_append, List.filterMap_cons,
    List.filterMap_append, Node.keywords_listRun (keyword?_updateRun sets condition), htail]
  rfl

/-- A comparison behind `WHERE` is read as a filter. -/
theorem collect_whereNodes (c : ComparisonSpec) : collect (whereNodes c) = .ok c.filter := by
  have hcondition : Condition.ofParts c.parts = .ok c.condition := by
    rw [ComparisonSpec.parts, ofParts_written c.name c.known c.value.isValue_token,
      c.value.value_token]
    rfl
  refine FilterItem.collect_introducer rfl ?_ rfl
  rw [ComparisonSpec.tree, FilterItem.introduced_space, FilterItem.introduced_visible rfl,
    filterItems, hcondition]

/-- The condition of an update is its filter. -/
theorem filterOf_updateTree :
    filterOf (updateTree table sets condition) = .ok (condition.map ComparisonSpec.filter) := by
  have hbefore : ∀ n ∈ updateFront table ++ .leaf (.ofKeyword .set) ::
      Node.listRun false (updateRun sets condition), n.isGroup .whereClause = false := by
    intro n hn
    rcases List.mem_append.1 hn with hn | hn
    · simp only [updateFront, List.mem_cons, List.not_mem_nil, or_false] at hn
      rcases hn with rfl | rfl | rfl | rfl <;> rfl
    · rcases List.mem_cons.1 hn with rfl | hn
      · rfl
      · rcases Node.mem_listRun hn with hn | ⟨items, rfl, -⟩
        · exact (isLastClause_update table condition sets).unclaused n hn
        · rfl
  have hfind : (updateTree table sets condition).find? .whereClause =
      Group.find? ⟨.statement, updateTail condition⟩ .whereClause := by
    rw [updateTree, ← List.cons_append, ← List.append_assoc, Group.find?_append hbefore]
  rw [filterOf, hfind]
  cases condition with
  | none => rfl
  | some c =>
      have hclause : Group.find? ⟨.statement, updateTail (some c)⟩ .whereClause =
          some ⟨.whereClause, whereNodes c⟩ := rfl
      simp only [hclause, collect_whereNodes, Option.map_some]

theorem classify_update (hne : sets ≠ []) :
    classify (Token.spell (Nested.tokensOf (updateItems table sets condition))) =
      .ok (.table ⟨table, .update, sets.map fun a => a.column .update,
        condition.map ComparisonSpec.filter⟩) := by
  rcases chunk_update table sets condition hne with ⟨ts, htokens, hchunk⟩
  have hcommand : Command.ofTag? (normalizeTag (commandTag (updateTree table sets condition))) =
      some .update := by
    rw [commandTag, keywords_updateTree]
    decide +kernel
  have hpair := (reads_update table condition hne).pairColumns_eq
    (by rw [List.length_map, List.length_map])
  rw [zipWith_columns] at hpair
  rw [classify_spell htokens (plain_update table sets condition)
    (Token.word_ofKeyword true (by decide) (by decide)) hchunk, rootNodes_update]
  simp only [classifyTree, hcommand, Command.extract, Command.extraction, Extraction.run]
  rw [map_eq_ok]
  exact ⟨_, writtenTable_eq_ok_iff.2 ⟨table, _, _, target_update table condition sets, hpair,
    filterOf_updateTree table sets condition, rfl⟩, rfl⟩

end Update

/-- A change is read back: its columns are its names with their values, or its
    values alone, in order, each with what the statement does, and its condition
    is its filter. -/
theorem write_roundTrip (s : WriteSpec) : classify s.text = .ok (.table s.table) := by
  cases s with
  | insert table apart sets hne =>
      cases apart with
      | true => exact classify_insertSets (i := .apart table (sets.map AssignmentSpec.name)) hne rfl
      | false =>
          exact classify_insertSets (i := .joined table (sets.map AssignmentSpec.name)) hne rfl
  | fill table values hne =>
      have hpair := (reads_insert (.alone table) values).pairColumns_positional
      rw [List.map_map] at hpair
      exact classify_insert (.alone table) hne hpair
  | update table sets hne condition => exact classify_update table sets condition hne

/-- An insertion with its columns right behind the table, and an update with a
    condition. -/
example :
    WriteSpec.text (.insert "t" false [⟨"a\"b", .string "it's"⟩, ⟨"c", .signed true
        ⟨['1'], List.cons_ne_nil _ _, List.all_eq_true.1 rfl⟩⟩] (List.cons_ne_nil _ _)) =
      "INSERT INTO \"t\"(\"a\"\"b\", \"c\") VALUES ('it''s', -1)" ∧
    WriteSpec.text (.update "t" [⟨"a", .null⟩] (List.cons_ne_nil _ _)
        (some ⟨"b", "<>", .truth true, by decide⟩)) =
      "UPDATE \"t\" SET \"a\" = NULL WHERE \"b\" <> TRUE" := by
  decide +kernel

end SqlGist
