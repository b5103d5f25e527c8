import SqlGist.Classify

/-!
# What an Extraction Has Found

Each extraction is a chain of stages that can fail, and its result is put
together from what they find. Taken backwards, a table that was extracted says
of every stage that it succeeded, and with what. One equivalence for each
extraction says so, and nothing behind them opens a chain again.

## Main definitions

* `Extraction.action`: What an extraction does to its table or database.
* `Extraction.filters`: Whether it reads the condition.
* `Entity.columns`: The columns of an entity, none if it is a database.

## Theorems

* `bind_eq_ok`, `map_eq_ok`: A chain of stages that succeeds.
* `bind_eq_error`, `map_eq_error`, `mapError_eq_error`: One that fails.
* `exists_of_toOption_any`, `eq_ok_of_toOption`, `exists_table_of_any`: A result
  that passes a check.
* `classify_eq_extract`, `extract_of_tag`: A statement is read by the command of
  its tag.
* `target_append`: The target of a statement is the first name that can be one.
* `tableOf_eq_ok_iff`, `writtenTable_eq_ok_iff`, `constrainedTable_eq_ok_iff`,
  `releasedTable_eq_ok_iff`, `defaultedTable_eq_ok_iff`,
  `undefaultedTable_eq_ok_iff`: What the table of an extraction is made of.
* `pairColumns_of_run`: The columns of a change are paired from its leaves.
* `run_eq_table`: What an extraction does, and which filter it keeps.
* `filterOf_of_extract`: The filter of a query, an update or a deletion is the
  one of its tree.
-/

namespace SqlGist

section Except

variable {ε α β : Type}

theorem bind_eq_ok {x : Except ε α} {f : α → Except ε β} {b : β} :
    (x >>= f) = .ok b ↔ ∃ a, x = .ok a ∧ f a = .ok b := by
  cases x with
  | error e => simp only [bind, Except.bind, reduceCtorEq, false_and, exists_false]
  | ok a => simp only [bind, Except.bind, Except.ok.injEq, exists_eq_left']

theorem map_eq_ok {x : Except ε α} {f : α → β} {b : β} :
    x.map f = .ok b ↔ ∃ a, x = .ok a ∧ f a = b := by
  cases x with
  | error e => simp only [Except.map, reduceCtorEq, false_and, exists_false]
  | ok a => simp only [Except.map, Except.ok.injEq, exists_eq_left']

theorem mapError_eq_ok {x : Except ε α} {f : ε → β} {a : α} :
    x.mapError f = .ok a ↔ x = .ok a := by
  cases x with
  | error e =>
      have hself : (Except.error e : Except ε α).mapError f = .error (f e) := rfl
      simp only [hself, reduceCtorEq]
  | ok b =>
      have hself : (Except.ok b : Except ε α).mapError f = .ok b := rfl
      simp only [hself, Except.ok.injEq]

theorem bind_eq_error {x : Except ε α} {f : α → Except ε β} {e : ε} :
    (x >>= f) = .error e ↔ x = .error e ∨ ∃ a, x = .ok a ∧ f a = .error e := by
  cases x with
  | error e' =>
      simp only [bind, Except.bind, Except.error.injEq, reduceCtorEq, false_and, exists_false,
        or_false]
  | ok a => simp only [bind, Except.bind, reduceCtorEq, Except.ok.injEq, exists_eq_left', false_or]

theorem map_eq_error {x : Except ε α} {f : α → β} {e : ε} :
    x.map f = .error e ↔ x = .error e := by
  cases x with
  | error e' => simp only [Except.map, Except.error.injEq]
  | ok a => simp only [Except.map, reduceCtorEq]

theorem mapError_eq_error {x : Except ε α} {f : ε → β} {e : β} :
    x.mapError f = .error e ↔ ∃ e', x = .error e' ∧ f e' = e := by
  cases x with
  | error e' =>
      have hself : (Except.error e' : Except ε α).mapError f = .error (f e') := rfl
      simp only [hself, Except.error.injEq, exists_eq_left']
  | ok a =>
      have hself : (Except.ok a : Except ε α).mapError f = .ok a := rfl
      simp only [hself, reduceCtorEq, false_and, exists_false]

/-- What a check of a result finds is there. -/
theorem exists_of_toOption_any {x : Except ε α} {p : α → Bool}
    (h : x.toOption.any p = true) : ∃ a, x = .ok a ∧ p a = true := by
  cases x with
  | error e => exact absurd h Bool.false_ne_true
  | ok a => exact ⟨a, rfl, h⟩

theorem eq_ok_of_toOption {x : Except ε α} {a : α} (h : x.toOption = some a) : x = .ok a := by
  cases x with
  | error e => exact absurd h.symm (Option.some_ne_none a)
  | ok b => rw [Option.some.inj h]

end Except

theorem exists_table_of_any {x : Except ClassifyError Entity} {check : Table → Bool}
    (h : (x.toOption.bind Entity.table?).any check = true) :
    ∃ t, x = .ok (.table t) ∧ check t = true := by
  cases x with
  | error e => exact absurd h Bool.false_ne_true
  | ok e =>
      cases e with
      | database d => exact absurd h Bool.false_ne_true
      | table t => exact ⟨t, rfl, h⟩

/-- A statement with the tag of a command is about what the command reads off
    its tree. -/
theorem classify_eq_extract {sql : String} {root : Group} {c : Command}
    (htag : statementTag sql = .ok c.tag) (hroot : Group.ofText sql = .ok root) :
    classify sql = c.extract root := by
  rw [statementTag, hroot] at htag
  have hcommand : Command.ofTag? (normalizeTag (commandTag root)) = some c := by
    rw [show normalizeTag (commandTag root) = c.tag from Except.ok.inj htag, Command.ofTag?_tag]
  simp only [classify, hroot, classifyTree, hcommand]

theorem extract_of_tag {sql : String} {root : Group} {c : Command} {e : Entity}
    (h : classify sql = .ok e) (htag : statementTag sql = .ok c.tag)
    (hroot : Group.ofText sql = .ok root) : c.extract root = .ok e := by
  rw [← classify_eq_extract htag hroot, h]

/-- The first name in front is the target, whatever names follow. -/
theorem target_append {front : List Leaf} {l : Leaf} (h : front.filter Leaf.isTarget = [l])
    (rest : List Leaf) : target (front ++ rest) = .ok l.value := by
  rw [target, List.filter_append, h]
  rfl

theorem tableOf_eq_ok_iff {plan : TablePlan} {root : Group} {t : Table} :
    tableOf plan root = .ok t ↔
      ∃ name columns filter, target root.leaves = .ok name ∧
        plan.columns root.leaves = .ok columns ∧ filterIf plan.filter root = .ok filter ∧
          t = ⟨name, plan.table, columns, filter⟩ := by
  simp only [tableOf, bind_eq_ok, pure, Except.pure, Except.ok.injEq]
  constructor
  · rintro ⟨name, hname, columns, hcolumns, filter, hfilter, rfl⟩
    exact ⟨name, columns, filter, hname, hcolumns, hfilter, rfl⟩
  · rintro ⟨name, columns, filter, hname, hcolumns, hfilter, rfl⟩
    exact ⟨name, hname, columns, hcolumns, filter, hfilter, rfl⟩

theorem writtenTable_eq_ok_iff {plan : WritePlan} {root : Group} {t : Table} :
    writtenTable plan root = .ok t ↔
      ∃ name columns filter, target root.leaves = .ok name ∧
        pairColumns (root.leaves.filter Leaf.isColumn)
          (root.leaves.filter fun l => l.isWritten plan.keyword) = .ok columns ∧
        filterIf plan.filter root = .ok filter ∧ t = ⟨name, plan.table, columns, filter⟩ := by
  simp only [writtenTable, bind_eq_ok, mapError_eq_ok, pure, Except.pure, Except.ok.injEq]
  constructor
  · rintro ⟨name, hname, columns, hcolumns, filter, hfilter, rfl⟩
    exact ⟨name, columns, filter, hname, hcolumns, hfilter, rfl⟩
  · rintro ⟨name, columns, filter, hname, hcolumns, hfilter, rfl⟩
    exact ⟨name, hname, columns, hcolumns, filter, hfilter, rfl⟩

/-- The columns of an entity. A database has none. -/
def Entity.columns : Entity → List Column
  | .database _ => []
  | .table t => t.columns

theorem pairColumns_of_run {plan : WritePlan} {root : Group} {e : Entity}
    (h : (Extraction.write plan).run root = .ok e) :
    pairColumns (root.leaves.filter Leaf.isColumn)
      (root.leaves.filter fun l => l.isWritten plan.keyword) = .ok e.columns := by
  rcases map_eq_ok.1 h with ⟨t, ht, rfl⟩
  rcases writtenTable_eq_ok_iff.1 ht with ⟨name, columns, filter, -, hpair, -, rfl⟩
  exact hpair

theorem constrainedTable_eq_ok_iff {kind : ConstraintKind} {root : Group} {t : Table} :
    constrainedTable kind root = .ok t ↔
      ∃ name constraint, targetPair root.leaves = .ok (name, constraint) ∧
        root.leaves.filter Leaf.isColumn ≠ [] ∧
        t = ⟨name, .addConstraint, (root.leaves.filter Leaf.isColumn).map fun l =>
          Column.bearing l.value kind constraint .addConstraint, none⟩ := by
  simp only [constrainedTable, bind_eq_ok, List.isEmpty_map, Prod.exists]
  constructor
  · rintro ⟨name, constraint, hpair, h⟩
    split at h
    · simp only [reduceCtorEq] at h
    · rename_i hempty
      simp only [pure, Except.pure, Except.ok.injEq] at h
      exact ⟨name, constraint, hpair, fun hnil => hempty (List.isEmpty_iff.2 hnil), h.symm⟩
  · rintro ⟨name, constraint, hpair, hne, rfl⟩
    refine ⟨name, constraint, hpair, ?_⟩
    rw [if_neg fun hempty => hne (List.isEmpty_iff.1 hempty)]
    rfl

theorem releasedTable_eq_ok_iff {root : Group} {t : Table} :
    releasedTable root = .ok t ↔
      ∃ name constraint, targetPair root.leaves = .ok (name, constraint) ∧
        t = ⟨name, .dropConstraint, [Column.bearing "*" .generic constraint .dropConstraint],
          none⟩ := by
  simp only [releasedTable, bind_eq_ok, Prod.exists, pure, Except.pure, Except.ok.injEq]
  constructor
  · rintro ⟨name, constraint, hpair, rfl⟩
    exact ⟨name, constraint, hpair, rfl⟩
  · rintro ⟨name, constraint, hpair, rfl⟩
    exact ⟨name, constraint, hpair, rfl⟩

theorem defaultedTable_eq_ok_iff {root : Group} {t : Table} :
    defaultedTable root = .ok t ↔
      ∃ name value column, target root.leaves = .ok name ∧
        defaultValue root.leaves = .ok value ∧ firstColumn root.leaves = .ok column ∧
        t = ⟨name, .addConstraint,
          [Column.bearing column (.default value) "default" .addConstraint], none⟩ := by
  simp only [defaultedTable, bind_eq_ok, pure, Except.pure, Except.ok.injEq]
  constructor
  · rintro ⟨name, hname, value, hvalue, column, hcolumn, rfl⟩
    exact ⟨name, value, column, hname, hvalue, hcolumn, rfl⟩
  · rintro ⟨name, value, column, hname, hvalue, hcolumn, rfl⟩
    exact ⟨name, hname, value, hvalue, column, hcolumn, rfl⟩

theorem undefaultedTable_eq_ok_iff {root : Group} {t : Table} :
    undefaultedTable root = .ok t ↔
      ∃ name column, target root.leaves = .ok name ∧ firstColumn root.leaves = .ok column ∧
        t = ⟨name, .dropConstraint, [Column.bearing column .generic "default" .dropConstraint],
          none⟩ := by
  simp only [undefaultedTable, bind_eq_ok, pure, Except.pure, Except.ok.injEq]
  constructor
  · rintro ⟨name, hname, column, hcolumn, rfl⟩
    exact ⟨name, column, hname, hcolumn, rfl⟩
  · rintro ⟨name, column, hname, hcolumn, rfl⟩
    exact ⟨name, hname, column, hcolumn, rfl⟩

/-- What an extraction does to its table or database. -/
def Extraction.action : Extraction → Action
  | .database action => action
  | .table plan => plan.table
  | .write plan => plan.table
  | .addConstraint _ => .addConstraint
  | .dropConstraint => .dropConstraint
  | .setDefault => .addConstraint
  | .dropDefault => .dropConstraint

/-- Whether an extraction reads the condition. -/
def Extraction.filters : Extraction → Bool
  | .table plan => plan.filter
  | .write plan => plan.filter
  | _ => false

/-- The action of a table is the one of its extraction, and its filter is the
    one of the tree where the extraction reads it. -/
theorem run_eq_table {x : Extraction} {root : Group} {t : Table}
    (h : x.run root = .ok (.table t)) :
    t.action = x.action ∧ filterIf x.filters root = .ok t.filter := by
  -- A stage that ends in a table has made it.
  have hinner : ∀ {stage : Except ClassifyError Table},
      stage.map Entity.table = .ok (.table t) → stage = .ok t := by
    intro stage hstage
    rcases map_eq_ok.1 hstage with ⟨u, hu, heq⟩
    rw [Entity.table.injEq] at heq
    rw [hu, heq]
  cases x with
  | database action =>
      rcases map_eq_ok.1 h with ⟨name, -, heq⟩
      simp only [reduceCtorEq] at heq
  | table plan =>
      rcases tableOf_eq_ok_iff.1 (hinner h) with ⟨name, columns, filter, -, -, hfilter, rfl⟩
      exact ⟨rfl, hfilter⟩
  | write plan =>
      rcases writtenTable_eq_ok_iff.1 (hinner h) with ⟨name, columns, filter, -, -, hfilter, rfl⟩
      exact ⟨rfl, hfilter⟩
  | addConstraint kind =>
      rcases constrainedTable_eq_ok_iff.1 (hinner h) with ⟨name, constraint, -, -, rfl⟩
      exact ⟨rfl, rfl⟩
  | dropConstraint =>
      rcases releasedTable_eq_ok_iff.1 (hinner h) with ⟨name, constraint, -, rfl⟩
      exact ⟨rfl, rfl⟩
  | setDefault =>
      rcases defaultedTable_eq_ok_iff.1 (hinner h) with ⟨name, value, column, -, -, -, rfl⟩
      exact ⟨rfl, rfl⟩
  | dropDefault =>
      rcases undefaultedTable_eq_ok_iff.1 (hinner h) with ⟨name, column, -, -, rfl⟩
      exact ⟨rfl, rfl⟩

/-- A query, an update or a deletion keeps the filter of its tree. -/
theorem filterOf_of_extract {c : Command} {root : Group} {t : Table}
    (h : c.extract root = .ok (.table t))
    (haction : t.action ∈ [Action.select, Action.update, Action.delete]) :
    filterOf root = .ok t.filter := by
  rcases run_eq_table h with ⟨haction', hfilter⟩
  -- Every command with such an action reads the condition.
  have hfilters : c.extraction.filters = true := by
    rw [haction'] at haction
    revert haction
    cases c <;> decide
  rw [hfilters] at hfilter
  exact hfilter

end SqlGist
