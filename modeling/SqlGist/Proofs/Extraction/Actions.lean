import SqlGist.Proofs.Constraints.Columns
import SqlGist.Proofs.Writes.Reading

/-!
# Which Actions a Command Has

A command does one thing to its table or database, and one thing to each column
of it. The first is bound to the command, and so is the second where columns are
read from names alone: gathering gives every column the action that it was told,
and neither a type nor a constraint changes that.

A change is the exception. What it does to a column is not what the command does
but what the place of the value says, an update if the value is compared with
something and an insertion if not. So an insertion can hold updates and an update
insertions, and an update without names holds columns that have none.

## Main definitions

* `Command.action`, `Command.columnAction?`: The actions that are bound to a
  command.
* `Entity.Follows`: An entity has the actions of a command.
* `Group.WritesAs`: The values of a tree stand where a command wants them.

## Theorems

* `forall_gather`: What holds of columns by their names and is not changed by
  their types.
* `action_gather`, `constraints_gather`: Gathered columns have the action that was
  told, and no constraints.
* `actions_pairColumns`: The actions of a change are those of its values.
* `columnAction?_of_run`: The columns of an extraction, but for a change.
* `follows_command_iff`: When an entity has the actions of its command.
* `not_follows_insert`: An insertion that updates a column.
-/

namespace SqlGist

/-- What a command does to its table or database. -/
def Command.action : Command → Action
  | .createDatabase | .createTable => .create
  | .dropDatabase | .dropTable => .drop
  | .addColumn | .modifyColumn | .dropColumn => .alter
  | .modifyNotNull | .addUnique | .addPrimaryKey | .setDefault => .addConstraint
  | .dropConstraint | .dropDefault => .dropConstraint
  | .select => .select
  | .insert => .insert
  | .update => .update
  | .delete => .delete

/-- What a command does to each column, or `none` if it has no columns. -/
def Command.columnAction? : Command → Option Action
  | .createTable => some .create
  | .addColumn => some .addColumn
  | .modifyColumn => some .modifyColumn
  | .dropColumn => some .dropColumn
  | .modifyNotNull | .addUnique | .addPrimaryKey | .setDefault => some .addConstraint
  | .dropConstraint | .dropDefault => some .dropConstraint
  | .select => some .select
  | .insert => some .insert
  | .update => some .update
  | .createDatabase | .dropDatabase | .dropTable | .delete => none

/-- The entity and its columns have the actions that are bound to the command,
    and the columns of an update have names. -/
structure Entity.Follows (e : Entity) (c : Command) : Prop where
  action : e.action = c.action
  columns : ∀ column ∈ e.columns, c.columnAction? = some column.action
  named : c = .update → ∀ column ∈ e.columns, column.name ≠ none

/-- Where the values of a change have to stand. Those of an insertion are
    compared with nothing, those of an update are, and an update has a column
    name if it has a value. -/
def Group.WritesAs (root : Group) : Command → Prop
  | .insert =>
    ∀ l ∈ root.leaves, l.isWritten .values = true → l.hasAncestor .comparison = false
  | .update =>
    (∀ l ∈ root.leaves, l.isWritten .set = true → l.hasAncestor .comparison = true) ∧
      ((∃ l ∈ root.leaves, l.isColumn = true) ∨
        ∀ l ∈ root.leaves, l.isWritten .set = false)
  | _ => True

section Gathering

variable {P : Column → Prop} {action : Action} (hnamed : ∀ name, P (Column.named name action))
  (htyped : ∀ c (type : ColumnType), P c →
    P { c with typeName := some type.name, size := type.size })

namespace Gathered

variable {g g' : Gathered} (h : ∀ c ∈ g.columns, P c)

include h

include hnamed in
theorem forall_mention (name : String) : ∀ c ∈ (g.mention action name).columns, P c := by
  rw [mention]
  split
  · exact h
  · intro c hc
    rcases List.mem_append.1 hc with hc | hc
    · exact h c hc
    · rw [List.mem_singleton.1 hc]
      exact hnamed name

include htyped in
theorem forall_setType (name : String) (type : ColumnType) :
    ∀ c ∈ (g.setType name type).columns, P c := by
  intro c hc
  rcases List.mem_map.1 hc with ⟨column, hcolumn, rfl⟩
  split
  · exact htyped column type (h column hcolumn)
  · exact h column hcolumn

include htyped in
theorem forall_declare {type : ColumnType} (hdeclare : g.declare type = .ok g') :
    ∀ c ∈ g'.columns, P c := by
  rw [declare] at hdeclare
  split at hdeclare
  · simp only [reduceCtorEq] at hdeclare
  · split at hdeclare
    · simp only [reduceCtorEq] at hdeclare
    · rw [← Except.ok.inj hdeclare]
      exact forall_setType htyped h _ type

include hnamed htyped in
/-- Whatever a leaf is, reading it keeps what holds of a name alone and is not
    changed by a type. -/
theorem forall_read {definitions : Bool} {l : Leaf}
    (hread : g.read definitions action l = .ok g') : ∀ c ∈ g'.columns, P c := by
  rw [read] at hread
  split at hread
  · rw [← Except.ok.inj hread]
    exact forall_mention hnamed h l.value
  · split at hread
    · split at hread
      · exact forall_declare htyped h hread
      · rwa [← Except.ok.inj hread]
    · rwa [← Except.ok.inj hread]

end Gathered

include hnamed htyped

theorem forall_gatherFrom {definitions : Bool} {g g' : Gathered} {leaves : List Leaf}
    (hgather : gatherFrom definitions action g leaves = .ok g') (h : ∀ c ∈ g.columns, P c) :
    ∀ c ∈ g'.columns, P c := by
  induction leaves generalizing g with
  | nil =>
      rw [← Except.ok.inj hgather]
      exact h
  | cons l leaves ih =>
      rw [gatherFrom] at hgather
      split at hgather
      · simp only [reduceCtorEq] at hgather
      · rename_i g₁ hread
        exact ih hgather (Gathered.forall_read hnamed htyped h hread)

theorem forall_gather {definitions : Bool} {leaves : List Leaf} {columns : List Column}
    (h : gather definitions action leaves = .ok columns) : ∀ c ∈ columns, P c := by
  rw [gather] at h
  split at h
  · simp only [reduceCtorEq] at h
  · rename_i g hg
    rw [← Except.ok.inj h]
    exact forall_gatherFrom hnamed htyped hg fun c hc => absurd hc List.not_mem_nil

end Gathering

theorem action_gather {definitions : Bool} {action : Action} {leaves : List Leaf}
    {columns : List Column} (h : gather definitions action leaves = .ok columns) :
    ∀ c ∈ columns, c.action = action :=
  forall_gather (fun _ => rfl) (fun _ _ hc => hc) h

/-- Gathering finds no constraints. -/
theorem constraints_gather {definitions : Bool} {action : Action} {leaves : List Leaf}
    {columns : List Column} (h : gather definitions action leaves = .ok columns) :
    ∀ c ∈ columns, c.constraints = [] :=
  forall_gather (fun _ => rfl) (fun _ _ hc => hc) h

/-- Columns that are read from names have the action of the plan. -/
theorem action_planColumns {plan : TablePlan} {leaves : List Leaf} {columns : List Column}
    (h : plan.columns leaves = .ok columns) : ∀ c ∈ columns, plan.column = some c.action := by
  intro c hc
  rw [TablePlan.columns] at h
  split at h
  · rw [← Except.ok.inj h] at hc
    exact absurd hc List.not_mem_nil
  · rename_i action hplan
    rw [hplan]
    split at h
    · rcases definedColumns_eq_ok_iff.1 h with ⟨all, gathered, -, hgather, rfl⟩
      rcases List.mem_map.1 hc with ⟨column, hcolumn, rfl⟩
      rw [← action_gather hgather column hcolumn]
      rfl
    · rw [action_gather h c hc]

/-- A change does to its columns what the places of their values say, value by
    value. -/
theorem actions_pairColumns {names values : List Leaf} {columns : List Column}
    (h : pairColumns names values = .ok columns) :
    columns.map Column.action = values.map Leaf.writeAction := by
  rcases pairColumns_eq_ok_iff.1 h with ⟨-, rfl⟩ | ⟨-, hlength, rfl⟩
  · rw [List.map_map, List.map_map]
    rfl
  · -- No value is left over, so each gives its action to a column.
    have hall : (values.map Leaf.written).length ≤ (names.map Leaf.value).length := by
      rw [List.length_map, List.length_map, hlength]
    calc (List.zipWith Column.assigned (names.map Leaf.value) (values.map Leaf.written)).map
          Column.action
        = ((List.zip (names.map Leaf.value) (values.map Leaf.written)).map Prod.snd).map
            Prod.snd := by
          rw [← List.map_uncurry_zip_eq_zipWith, List.map_map, List.map_map]
          rfl
      _ = (values.map Leaf.written).map Prod.snd := by rw [List.map_snd_zip hall]
      _ = values.map Leaf.writeAction := by
          rw [List.map_map]
          rfl

/-- The columns of a change have names, or there is no name for any. -/
theorem named_pairColumns {names values : List Leaf} {columns : List Column}
    (h : pairColumns names values = .ok columns) :
    (∀ column ∈ columns, column.name ≠ none) ↔ names ≠ [] ∨ values = [] := by
  rcases pairColumns_eq_ok_iff.1 h with ⟨rfl, rfl⟩ | ⟨hne, -, rfl⟩
  · constructor
    · intro hnamed
      cases values with
      | nil => exact Or.inr rfl
      | cons v values => exact absurd rfl (hnamed _ List.mem_cons_self)
    · rintro (hne | rfl)
      · exact absurd rfl hne
      · exact fun column hcolumn => absurd hcolumn List.not_mem_nil
  · refine iff_of_true (fun column hcolumn => ?_) (Or.inl hne)
    rw [← List.map_uncurry_zip_eq_zipWith] at hcolumn
    rcases List.mem_map.1 hcolumn with ⟨pair, -, rfl⟩
    exact Option.some_ne_none pair.1

/-- What an extraction does to each column, if it is the same for all. -/
def Extraction.columnAction? : Extraction → Option Action
  | .table plan => plan.column
  | .addConstraint _ | .setDefault => some .addConstraint
  | .dropConstraint | .dropDefault => some .dropConstraint
  | .database _ | .write _ => none

/-- Every column of an extraction has the one action, unless values are written. -/
theorem columnAction?_of_run {x : Extraction} {root : Group} {e : Entity}
    (h : x.run root = .ok e) (hwrite : ∀ plan, x ≠ .write plan) :
    ∀ column ∈ e.columns, x.columnAction? = some column.action := by
  cases x with
  | database action =>
      rcases map_eq_ok.1 h with ⟨name, -, rfl⟩
      exact fun column hcolumn => absurd hcolumn List.not_mem_nil
  | table plan =>
      rcases map_eq_ok.1 h with ⟨t, ht, rfl⟩
      rcases tableOf_eq_ok_iff.1 ht with ⟨name, columns, filter, -, hcolumns, -, rfl⟩
      exact action_planColumns hcolumns
  | write plan => exact absurd rfl (hwrite plan)
  | addConstraint kind =>
      rcases map_eq_ok.1 h with ⟨t, ht, rfl⟩
      rcases constrainedTable_eq_ok_iff.1 ht with ⟨name, constraint, -, -, rfl⟩
      intro column hcolumn
      rcases List.mem_map.1 hcolumn with ⟨l, -, rfl⟩
      rfl
  | dropConstraint =>
      rcases map_eq_ok.1 h with ⟨t, ht, rfl⟩
      rcases releasedTable_eq_ok_iff.1 ht with ⟨name, constraint, -, rfl⟩
      exact fun column hcolumn => List.mem_singleton.1 hcolumn ▸ rfl
  | setDefault =>
      rcases map_eq_ok.1 h with ⟨t, ht, rfl⟩
      rcases defaultedTable_eq_ok_iff.1 ht with ⟨name, value, column, -, -, -, rfl⟩
      exact fun column hcolumn => List.mem_singleton.1 hcolumn ▸ rfl
  | dropDefault =>
      rcases map_eq_ok.1 h with ⟨t, ht, rfl⟩
      rcases undefaultedTable_eq_ok_iff.1 ht with ⟨name, column, -, -, rfl⟩
      exact fun column hcolumn => List.mem_singleton.1 hcolumn ▸ rfl

theorem action_of_run {x : Extraction} {root : Group} {e : Entity} (h : x.run root = .ok e) :
    e.action = x.action := by
  cases e with
  | table t => exact (run_eq_table h).1
  | database d =>
      cases x with
      | database action =>
          rcases map_eq_ok.1 h with ⟨name, -, heq⟩
          rw [← heq]
          rfl
      | _ =>
          -- Every other extraction ends in a table.
          rcases map_eq_ok.1 h with ⟨t, -, heq⟩
          exact absurd heq Entity.noConfusion

namespace Command

theorem action_extraction (c : Command) : c.extraction.action = c.action := by
  cases c <;> rfl

/-- But for a change, the action of the columns is one of the extraction. -/
theorem columnAction?_extraction {c : Command} (hinsert : c ≠ .insert) (hupdate : c ≠ .update) :
    (∀ plan, c.extraction ≠ .write plan) ∧ c.extraction.columnAction? = c.columnAction? := by
  cases c with
  | insert => exact absurd rfl hinsert
  | update => exact absurd rfl hupdate
  | _ => exact ⟨fun plan => Extraction.noConfusion, rfl⟩

end Command

section Write

variable {root : Group} {e : Entity} {k : Keyword}
  (hpair : pairColumns (root.leaves.filter Leaf.isColumn)
    (root.leaves.filter fun l => l.isWritten k) = .ok e.columns)

include hpair

/-- All columns of a change have one action exactly if all its values stand where
    that is done. -/
theorem columns_act_iff (action : Action) :
    (∀ column ∈ e.columns, column.action = action) ↔
      ∀ l ∈ root.leaves, l.isWritten k = true → l.writeAction = action := by
  have hactions := actions_pairColumns hpair
  calc (∀ column ∈ e.columns, column.action = action)
      ↔ ∀ a ∈ e.columns.map Column.action, a = action := by
        rw [List.forall_mem_map]
    _ ↔ ∀ l ∈ root.leaves, l.isWritten k = true → l.writeAction = action := by
        rw [hactions, List.forall_mem_map]
        simp only [List.mem_filter, and_imp]

theorem columns_named_iff :
    (∀ column ∈ e.columns, column.name ≠ none) ↔
      (∃ l ∈ root.leaves, l.isColumn = true) ∨ ∀ l ∈ root.leaves, l.isWritten k = false := by
  rw [named_pairColumns hpair, List.filter_eq_nil_iff, ne_eq, List.filter_eq_nil_iff]
  simp only [not_forall, exists_prop, Bool.not_eq_true, Bool.not_eq_false]

end Write

namespace Leaf

theorem writeAction_eq_insert_iff {l : Leaf} :
    l.writeAction = .insert ↔ l.hasAncestor .comparison = false := by
  rw [writeAction]
  cases l.hasAncestor .comparison <;> decide

theorem writeAction_eq_update_iff {l : Leaf} :
    l.writeAction = .update ↔ l.hasAncestor .comparison = true := by
  rw [writeAction]
  cases l.hasAncestor .comparison <;> decide

end Leaf

/-- Every statement does to its table or database what is bound to its command.
    It does so to its columns too, and names those that it updates, exactly if
    the values it writes stand where its command wants them: each value is
    inserted or updated by its own place. -/
theorem follows_command_iff {sql : String} {e : Entity} (h : classify sql = .ok e) :
    ∃ root c, Group.ofText sql = .ok root ∧
      Command.ofTag? (normalizeTag (commandTag root)) = some c ∧ e.action = c.action ∧
      (e.Follows c ↔ root.WritesAs c) ∧
      (c = .insert → e.columns.map Column.action =
        (root.leaves.filter fun l => l.isWritten .values).map Leaf.writeAction) ∧
      (c = .update → e.columns.map Column.action =
        (root.leaves.filter fun l => l.isWritten .set).map Leaf.writeAction) := by
  rcases classify_eq_ok_iff.1 h with ⟨root, c, hroot, hcommand, hextract⟩
  have haction : e.action = c.action := by
    rw [action_of_run hextract, c.action_extraction]
  refine ⟨root, c, hroot, hcommand, haction, ?_⟩
  by_cases hinsert : c = .insert
  · subst hinsert
    have hpair := pairColumns_of_run hextract
    refine ⟨?_, fun _ => actions_pairColumns hpair, fun hc => absurd hc (by decide)⟩
    have hiff := columns_act_iff hpair .insert
    simp only [Leaf.writeAction_eq_insert_iff] at hiff
    constructor
    · exact fun hfollows => hiff.1 fun column hcolumn =>
        (Option.some.inj (hfollows.columns column hcolumn)).symm
    · exact fun hwrites => ⟨haction, fun column hcolumn =>
        congrArg some (hiff.2 hwrites column hcolumn).symm, fun hc => absurd hc (by decide)⟩
  by_cases hupdate : c = .update
  · subst hupdate
    have hpair := pairColumns_of_run hextract
    refine ⟨?_, fun hc => absurd hc (by decide), fun _ => actions_pairColumns hpair⟩
    have hiff := columns_act_iff hpair .update
    have hnamed := columns_named_iff hpair
    simp only [Leaf.writeAction_eq_update_iff] at hiff
    constructor
    · exact fun hfollows => ⟨hiff.1 fun column hcolumn =>
        (Option.some.inj (hfollows.columns column hcolumn)).symm, hnamed.1 (hfollows.named rfl)⟩
    · exact fun hwrites => ⟨haction, fun column hcolumn =>
        congrArg some (hiff.2 hwrites.1 column hcolumn).symm, fun _ => hnamed.2 hwrites.2⟩
  · refine ⟨?_, fun hc => absurd hc hinsert, fun hc => absurd hc hupdate⟩
    rcases Command.columnAction?_extraction hinsert hupdate with ⟨hwrite, hcolumns⟩
    have hfollows : e.Follows c :=
      ⟨haction, hcolumns ▸ columnAction?_of_run hextract hwrite, fun hc => absurd hc hupdate⟩
    have hwrites : root.WritesAs c := by
      cases c with
      | insert => exact absurd rfl hinsert
      | update => exact absurd rfl hupdate
      | _ => trivial
    exact iff_of_true hfollows hwrites

/-- An update with a condition, whose value is none of those written. -/
theorem follows_command_iff_update :
    ∃ e root c, classify "UPDATE t SET a = 1, b = 'x' WHERE c = 2" = .ok e ∧
      Group.ofText "UPDATE t SET a = 1, b = 'x' WHERE c = 2" = .ok root ∧
      Command.ofTag? (normalizeTag (commandTag root)) = some c ∧ e.action = c.action ∧
      (e.Follows c ↔ root.WritesAs c) ∧
      (c = .insert → e.columns.map Column.action =
        (root.leaves.filter fun l => l.isWritten .values).map Leaf.writeAction) ∧
      (c = .update → e.columns.map Column.action =
        (root.leaves.filter fun l => l.isWritten .set).map Leaf.writeAction) := by
  have hok : (classify "UPDATE t SET a = 1, b = 'x' WHERE c = 2").toOption.isSome = true := by
    decide +kernel
  rcases Option.isSome_iff_exists.1 hok with ⟨e, he⟩
  have he := eq_ok_of_toOption he
  rcases follows_command_iff he with ⟨root, c, hrest⟩
  exact ⟨e, root, c, he, hrest⟩

/-- A value that is compared with a name updates that column, even if it stands in
    a tuple that is inserted. -/
theorem not_follows_insert :
    ∃ e, classify "INSERT INTO t VALUES (a = 1)" = .ok e ∧
      statementTag "INSERT INTO t VALUES (a = 1)" = .ok Command.insert.tag ∧
      ¬e.Follows .insert := by
  have hcheck : (classify "INSERT INTO t VALUES (a = 1)").toOption.any
      (fun e => e.columns.any fun column => column.action = .update) = true := by
    decide +kernel
  have htag : (statementTag "INSERT INTO t VALUES (a = 1)").toOption =
      some Command.insert.tag := by
    decide +kernel
  rcases exists_of_toOption_any hcheck with ⟨e, he, hany⟩
  rcases List.any_eq_true.1 hany with ⟨column, hcolumn, haction⟩
  refine ⟨e, he, eq_ok_of_toOption htag, fun hfollows => ?_⟩
  have hinsert := hfollows.columns column hcolumn
  rw [of_decide_eq_true haction] at hinsert
  exact absurd hinsert (by decide)

end SqlGist
