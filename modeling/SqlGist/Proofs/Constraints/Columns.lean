import Mathlib.Algebra.GroupWithZero.Nat
import Mathlib.Data.List.Nodup
import SqlGist.Proofs.Constraints.Owners

/-!
# Constraints on Their Columns

The columns of a definition are gathered in one scan and the owners of its
constraints found in another, and each column then takes the constraints that
bear its name. Nothing is lost between the two, since both see the same leaves:
a name that owns a constraint was read as a column, and every column that was
read has its name among the gathered ones. Nothing is taken twice either, since
a name that is read again adds no second column.

So the constraints are split among the columns, and counting them column by
column counts each of them once.

## Main definitions

* `distinctBehind`: Names in order of first mention, behind those known before.
* `columnNames`: The names of the columns that are read off some leaves.
* `definingCommands`: The commands that define columns.

## Theorems

* `names_read`, `names_gatherFrom`: What reading does to the names gathered.
* `names_gather`: The columns bear the distinct names that were read.
* `sum_length_constraintsOn`: Distinct names split the constraints they own.
* `definedColumns_eq_ok_iff`: What defined columns are made of.
* `definition_distributes`: A definition distributes its constraints.
-/

namespace SqlGist

/-- The names in order of first mention, behind those that are known. -/
def distinctBehind (known : List String) : List String → List String
  | [] => known
  | name :: names => distinctBehind (if name ∈ known then known else known ++ [name]) names

theorem nodup_distinctBehind {known : List String} (h : known.Nodup) (names : List String) :
    (distinctBehind known names).Nodup := by
  induction names generalizing known with
  | nil => exact h
  | cons name names ih =>
      rw [distinctBehind]
      split
      · exact ih h
      · rename_i hnew
        refine ih (List.nodup_append'.2 ⟨h, List.nodup_singleton name, ?_⟩)
        rw [List.disjoint_singleton]
        exact hnew

theorem mem_distinctBehind {known : List String} {name : String} (names : List String) :
    name ∈ distinctBehind known names ↔ name ∈ known ∨ name ∈ names := by
  induction names generalizing known with
  | nil => simp only [distinctBehind, List.not_mem_nil, or_false]
  | cons first names ih =>
      rw [distinctBehind, ih, List.mem_cons, ← or_assoc]
      split
      · rename_i hknown
        -- A name that is known already adds nothing to the known ones.
        refine or_congr_left (or_iff_left_of_imp ?_).symm
        rintro rfl
        exact hknown
      · rw [List.mem_append, List.mem_singleton]

namespace Gathered

variable {g g' : Gathered} {known : List String}

theorem column?_eq_none_iff {name : String} :
    g.column? name = none ↔ some name ∉ g.columns.map Column.name := by
  simp only [column?, List.find?_eq_none, decide_eq_true_eq, List.mem_map, not_exists, not_and]

theorem names_mention (h : g.columns.map Column.name = known.map some) (action : Action)
    (name : String) :
    (g.mention action name).columns.map Column.name =
      (if name ∈ known then known else known ++ [name]).map some := by
  have hknown : g.column? name = none ↔ name ∉ known := by
    rw [column?_eq_none_iff, h, List.mem_map_of_injective fun _ _ => Option.some.inj]
  rw [mention]
  split
  · rename_i c hc
    have hmem : name ∈ known := by
      by_contra hnew
      exact Option.some_ne_none c (hc.symm.trans (hknown.2 hnew))
    rw [if_pos hmem]
    exact h
  · rename_i hc
    rw [if_neg (hknown.1 hc), List.map_append, List.map_append, h]
    rfl

theorem names_setType (name : String) (type : ColumnType) :
    (g.setType name type).columns.map Column.name = g.columns.map Column.name := by
  rw [setType, List.map_map]
  refine List.map_congr_left fun c _ => ?_
  rw [Function.comp_apply]
  split <;> rfl

theorem names_declare {type : ColumnType} (h : g.declare type = .ok g') :
    g'.columns.map Column.name = g.columns.map Column.name := by
  rw [declare] at h
  split at h
  · simp only [reduceCtorEq] at h
  · split at h
    · simp only [reduceCtorEq] at h
    · rw [← Except.ok.inj h, names_setType]

/-- A column leaf adds its name if that is new, and any other leaf leaves the
    names as they are. -/
theorem names_read {definitions : Bool} {action : Action} {l : Leaf}
    (hread : g.read definitions action l = .ok g')
    (h : g.columns.map Column.name = known.map some) :
    g'.columns.map Column.name =
      (distinctBehind known (if l.isColumn then [l.value] else [])).map some := by
  rw [read] at hread
  split at hread
  · rename_i hcolumn
    rw [← Except.ok.inj hread, if_pos hcolumn]
    exact names_mention h action l.value
  · rename_i hcolumn
    have hsame : g'.columns.map Column.name = g.columns.map Column.name := by
      split at hread
      · split at hread
        · exact names_declare hread
        · rw [← Except.ok.inj hread]
      · rw [← Except.ok.inj hread]
    rw [if_neg hcolumn, hsame, h]
    rfl

end Gathered

/-- The names gathered from a stretch of leaves are those of its columns, each
    at its first mention. -/
theorem names_gatherFrom {definitions : Bool} {action : Action} {g g' : Gathered}
    {leaves : List Leaf} (hgather : gatherFrom definitions action g leaves = .ok g')
    {known : List String} (h : g.columns.map Column.name = known.map some) :
    g'.columns.map Column.name =
      (distinctBehind known ((leaves.filter Leaf.isColumn).map Leaf.value)).map some := by
  induction leaves generalizing g known with
  | nil =>
      rw [← Except.ok.inj hgather]
      exact h
  | cons l leaves ih =>
      rw [gatherFrom] at hgather
      split at hgather
      · simp only [reduceCtorEq] at hgather
      · rename_i g₁ hread
        rw [ih hgather (Gathered.names_read hread h), List.filter_cons]
        split <;> rfl

/-- The names of the columns that are read off some leaves, each once. -/
def columnNames (leaves : List Leaf) : List String :=
  distinctBehind [] ((leaves.filter Leaf.isColumn).map Leaf.value)

theorem nodup_columnNames (leaves : List Leaf) : (columnNames leaves).Nodup :=
  nodup_distinctBehind List.nodup_nil _

theorem mem_columnNames_iff {leaves : List Leaf} {name : String} :
    name ∈ columnNames leaves ↔ ∃ l ∈ leaves, l.isColumn = true ∧ l.value = name := by
  simp only [columnNames, mem_distinctBehind, List.not_mem_nil, false_or, List.mem_map,
    List.mem_filter, and_assoc]

theorem names_gather {definitions : Bool} {action : Action} {leaves : List Leaf}
    {columns : List Column} (h : gather definitions action leaves = .ok columns) :
    columns.map Column.name = (columnNames leaves).map some := by
  rw [gather] at h
  split at h
  · simp only [reduceCtorEq] at h
  · rename_i g hg
    rw [← Except.ok.inj h]
    exact names_gatherFrom hg rfl

/-- Distinct names split the constraints among them, if every owner is one of
    them. -/
theorem sum_length_constraintsOn {names : List String} (hnodup : names.Nodup) {all : List Owned}
    (howners : ∀ o ∈ all, o.column ∈ names) :
    (names.map fun name => (constraintsOn name all).length).sum = all.length := by
  induction names generalizing all with
  | nil =>
      cases all with
      | nil => rfl
      | cons o all => exact absurd (howners o List.mem_cons_self) List.not_mem_nil
  | cons name names ih =>
      rw [List.nodup_cons] at hnodup
      -- What the first name does not own is split among the others.
      let others := all.filter fun o => !decide (o.column = name)
      have hothers : ∀ o ∈ others, o.column ∈ names := by
        intro o ho
        rcases List.mem_filter.1 ho with ⟨ho, hne⟩
        rw [Bool.not_eq_true', decide_eq_false_iff_not] at hne
        exact (List.mem_cons.1 (howners o ho)).resolve_left hne
      have hsame : ∀ n ∈ names, (constraintsOn n all).length = (constraintsOn n others).length := by
        intro n hn
        have hne : n ≠ name := fun h => hnodup.1 (h ▸ hn)
        rw [constraintsOn, constraintsOn, List.filter_filter]
        refine congrArg (fun os => (os.map Owned.constraint).length)
          (List.filter_congr fun o _ => ?_)
        by_cases ho : o.column = n
        · simp only [ho, hne, decide_true, decide_false, Bool.not_false, Bool.and_self]
        · simp only [ho, decide_false, Bool.false_and]
      have hsum := ih hnodup.2 hothers
      rw [List.map_cons, List.sum_cons, List.map_congr_left hsame, hsum, constraintsOn,
        List.length_map, ← List.length_eq_length_filter_add]

theorem definedColumns_eq_ok_iff {action : Action} {leaves : List Leaf} {columns : List Column} :
    definedColumns action leaves = .ok columns ↔
      ∃ all gathered, owned leaves = .ok all ∧ gather true action leaves = .ok gathered ∧
        columns = gathered.map fun c => c.constrained all := by
  rw [definedColumns]
  cases owned leaves with
  | error e => simp only [reduceCtorEq, false_and, exists_false]
  | ok all =>
      cases gather true action leaves with
      | error e => simp only [reduceCtorEq, false_and, and_false, exists_false]
      | ok gathered =>
          simp only [Except.ok.injEq, exists_and_left, exists_eq_left', eq_comm]

/-- Defined columns are those that were read. Each carries the constraints that
    its name owns, and every constraint is on one of them. -/
theorem definedColumns_distribute {action : Action} {leaves : List Leaf} {columns : List Column}
    (h : definedColumns action leaves = .ok columns) :
    ∃ all, owned leaves = .ok all ∧ columns.map Column.name = (columnNames leaves).map some ∧
      (∀ o ∈ all, o.column ∈ columnNames leaves) ∧
      ∀ c ∈ columns, c.constraints = (c.name.map fun name => constraintsOn name all).getD [] := by
  rcases definedColumns_eq_ok_iff.1 h with ⟨all, gathered, hall, hgather, rfl⟩
  refine ⟨all, hall, ?_, fun o ho => ?_, fun c hc => ?_⟩
  · rw [List.map_map, ← names_gather hgather]
    rfl
  · -- The owner was read as a column, so its name was gathered.
    rcases exists_column_of_ownedFrom (ownedFrom_of_owned hall) ho with ⟨m, hm, hcolumn, hvalue⟩
    exact mem_columnNames_iff.2 ⟨m, hm.resolve_left List.not_mem_nil, hcolumn, hvalue⟩
  · rcases List.mem_map.1 hc with ⟨gathered, -, rfl⟩
    rfl

/-- The commands that define columns. -/
def definingCommands : List Command :=
  [.createTable, .addColumn, .modifyColumn, .modifyNotNull]

theorem exists_definedColumns {c : Command} {root : Group} {e : Entity}
    (hc : c ∈ definingCommands) (h : c.extract root = .ok e) :
    ∃ t action, e = .table t ∧ definedColumns action root.leaves = .ok t.columns := by
  have hplan : ∃ plan action, c.extraction = .table plan ∧ plan.column = some action ∧
      plan.definitions = true := by
    simp only [definingCommands, List.mem_cons, List.not_mem_nil, or_false] at hc
    rcases hc with rfl | rfl | rfl | rfl <;> exact ⟨_, _, rfl, rfl, rfl⟩
  rcases hplan with ⟨plan, action, hextraction, hcolumn, hdefinitions⟩
  rw [Command.extract, hextraction] at h
  rcases map_eq_ok.1 h with ⟨t, ht, rfl⟩
  rcases tableOf_eq_ok_iff.1 ht with ⟨name, columns, filter, -, hcolumns, -, rfl⟩
  rw [TablePlan.columns, hcolumn] at hcolumns
  simp only [hdefinitions, if_true] at hcolumns
  exact ⟨_, action, rfl, hcolumns⟩

/-- Whatever tree defines columns, the names of these are distinct, every owner
    of a constraint is one of them, each column has exactly the constraints
    that its name owns, in order, and there are as many on all columns together
    as the tree has. -/
theorem definition_distributes {c : Command} {root : Group} {e : Entity}
    (hc : c ∈ definingCommands) (h : c.extract root = .ok e) :
    ∃ (t : Table) (all : List Owned) (names : List String), e = .table t ∧
      owned root.leaves = .ok all ∧ t.columns.map Column.name = names.map some ∧ names.Nodup ∧
      (∀ o ∈ all, o.column ∈ names) ∧
      (∀ column ∈ t.columns, ∀ name, column.name = some name →
        column.constraints = (all.filter fun o => o.column = name).map Owned.constraint ∧
          columnConstraints name root.leaves = .ok column.constraints) ∧
      (t.columns.map fun column => column.constraints.length).sum = all.length := by
  rcases exists_definedColumns hc h with ⟨t, action, rfl, hcolumns⟩
  rcases definedColumns_distribute hcolumns with ⟨all, hall, hnames, howners, hown⟩
  have hnodup := nodup_columnNames root.leaves
  refine ⟨t, all, columnNames root.leaves, rfl, hall, hnames, hnodup, howners, ?_, ?_⟩
  · intro column hmem name hname
    have hconstraints : column.constraints = constraintsOn name all := by
      rw [hown column hmem, hname]
      rfl
    refine ⟨hconstraints, ?_⟩
    rw [columnConstraints, hall, hconstraints]
    rfl
  · have hlengths : t.columns.map (fun column => column.constraints.length) =
        (t.columns.map Column.name).map fun name =>
          ((name.map fun n => constraintsOn n all).getD []).length := by
      rw [List.map_map]
      exact List.map_congr_left fun column hmem => by rw [hown column hmem, Function.comp_apply]
    rw [hlengths, hnames, List.map_map, ← sum_length_constraintsOn hnodup howners]
    rfl

/-- Two inline constraints, and a key over both columns. -/
theorem definition_distributes_key :
    ∃ root e, Group.ofText
        "CREATE TABLE t (a int NOT NULL, b text DEFAULT 'x', PRIMARY KEY (a, b))" = .ok root ∧
      .createTable ∈ definingCommands ∧ Command.createTable.extract root = .ok e ∧
      ∃ (t : Table) (all : List Owned) (names : List String), e = .table t ∧
        owned root.leaves = .ok all ∧ t.columns.map Column.name = names.map some ∧ names.Nodup ∧
        (∀ o ∈ all, o.column ∈ names) ∧
        (∀ column ∈ t.columns, ∀ name, column.name = some name →
          column.constraints = (all.filter fun o => o.column = name).map Owned.constraint ∧
            columnConstraints name root.leaves = .ok column.constraints) ∧
        (t.columns.map fun column => column.constraints.length).sum = all.length := by
  have hcheck : (Group.ofText
      "CREATE TABLE t (a int NOT NULL, b text DEFAULT 'x', PRIMARY KEY (a, b))").toOption.any
        (fun root => (Command.createTable.extract root).toOption.isSome) = true := by
    decide +kernel
  rcases exists_of_toOption_any hcheck with ⟨root, hroot, hsome⟩
  rcases Option.isSome_iff_exists.1 hsome with ⟨e, he⟩
  have he := eq_ok_of_toOption he
  have hc : .createTable ∈ definingCommands := by decide
  exact ⟨root, e, hroot, hc, he, definition_distributes hc he⟩

end SqlGist
