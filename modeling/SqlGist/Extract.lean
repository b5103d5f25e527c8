import SqlGist.Command
import SqlGist.Definition
import SqlGist.Filter.Collect

/-!
# Extraction

From the tree of a statement to its entity. Each command asks for something
else, but the asking falls into a few kinds: columns with or without
definitions, columns paired with values, and constraints by name. `extraction`
says of each command which kind it is and what it does to the table and to its
columns; the rest is shared.

Extraction never looks at the command tag again. Any tree can be put to any
command, and a tree that lacks something is a mismatch, whatever statement it
came from.

## Main definitions

* `Extraction`: What a command reads off a tree.
* `Command.extraction`: The extraction of a command.
* `targets`: The first names of tables or databases.
* `tableOf`, `writtenTable`: The table of a definition, a query or a change.
* `Command.extract`: The entity that a command reads off a tree.
-/

namespace SqlGist

/-- How a table is read whose columns come from names alone. -/
structure TablePlan where
  /-- What is done to the table. -/
  table : Action
  /-- What is done to each column, or `none` if columns are not read. -/
  column : Option Action
  /-- Whether columns come with types and constraints. -/
  definitions : Bool
  /-- Whether the condition is read. -/
  filter : Bool

/-- How a table is read whose columns are paired with values. -/
structure WritePlan where
  /-- What is done to the table. -/
  table : Action
  /-- The keyword that the values stand behind. -/
  keyword : Keyword
  /-- Whether the condition is read. -/
  filter : Bool

/-- What a command reads off a tree. -/
inductive Extraction
  | database (action : Action)
  | table (plan : TablePlan)
  | write (plan : WritePlan)
  | addConstraint (kind : ConstraintKind)
  | dropConstraint
  | setDefault
  | dropDefault

/-- The extraction of a command. -/
def Command.extraction : Command → Extraction
  | .createDatabase => .database .create
  | .dropDatabase => .database .drop
  | .createTable => .table ⟨.create, some .create, true, false⟩
  | .addColumn => .table ⟨.alter, some .addColumn, true, false⟩
  | .modifyColumn => .table ⟨.alter, some .modifyColumn, true, false⟩
  | .dropColumn => .table ⟨.alter, some .dropColumn, false, false⟩
  | .modifyNotNull => .table ⟨.addConstraint, some .addConstraint, true, false⟩
  | .addUnique => .addConstraint .unique
  | .addPrimaryKey => .addConstraint .primaryKey
  | .dropConstraint => .dropConstraint
  | .setDefault => .setDefault
  | .dropDefault => .dropDefault
  | .dropTable => .table ⟨.drop, none, false, false⟩
  | .select => .table ⟨.select, some .select, false, true⟩
  | .insert => .write ⟨.insert, .values, false⟩
  | .update => .write ⟨.update, .set, true⟩
  | .delete => .table ⟨.delete, none, false, true⟩

/-- The first name of a table or database. -/
def target (leaves : List Leaf) : Except ClassifyError String :=
  match leaves.filter Leaf.isTarget with
  | l :: _ => .ok l.value
  | [] => .error (.mismatch (.missingTargets 1 0))

/-- The first two names: of a table and of one of its constraints. -/
def targetPair (leaves : List Leaf) : Except ClassifyError (String × String) :=
  match leaves.filter Leaf.isTarget with
  | l :: m :: _ => .ok (l.value, m.value)
  | found => .error (.mismatch (.missingTargets 2 found.length))

/-- The first column. -/
def firstColumn (leaves : List Leaf) : Except ClassifyError String :=
  match leaves.find? Leaf.isColumn with
  | some l => .ok l.value
  | none => .error (.mismatch .missingColumn)

/-- The filter of a statement, if it is asked for. -/
def filterIf (asked : Bool) (root : Group) : Except ClassifyError (Option (List FilterNode)) :=
  if asked then filterOf root else .ok none

/-- The columns that a plan asks for. -/
def TablePlan.columns (plan : TablePlan) (leaves : List Leaf) :
    Except ClassifyError (List Column) :=
  match plan.column with
  | none => .ok []
  | some action =>
    if plan.definitions then definedColumns action leaves else mentionedColumns action leaves

/-- The table of a definition or a query. The name is looked for first, then
    the columns, then the condition. -/
def tableOf (plan : TablePlan) (root : Group) : Except ClassifyError Table := do
  let leaves := root.leaves
  let name ← target leaves
  -- The order of these steps decides which of several faults is reported.
  let columns ← plan.columns leaves
  let filter ← filterIf plan.filter root
  return ⟨name, plan.table, columns, filter⟩

/-- The columns of a change. Without names each value makes a column of its
    own; with names there must be one value for each. -/
def pairColumns (names values : List Leaf) : Except Mismatch (List Column) :=
  -- No value at all is accepted as well: a table without columns.
  if names.isEmpty then
    .ok (values.map fun v => Column.positional v.value v.writeAction)
  else if names.length = values.length then
    .ok (List.zipWith
      (fun n v => { Column.named n.value v.writeAction with value := some v.value }) names values)
  else .error (.unpaired names.length values.length)

/-- The table of a change. -/
def writtenTable (plan : WritePlan) (root : Group) : Except ClassifyError Table := do
  let leaves := root.leaves
  let name ← target leaves
  let values := leaves.filter fun l => l.isWritten plan.keyword
  let columns ← (pairColumns (leaves.filter Leaf.isColumn) values).mapError .mismatch
  let filter ← filterIf plan.filter root
  return ⟨name, plan.table, columns, filter⟩

/-- A column of which only the name and one constraint are known. -/
def Column.bearing (name : String) (kind : ConstraintKind) (constraint : String)
    (action : Action) : Column :=
  { Column.named name action with constraints := [⟨kind, constraint, action⟩] }

/-- The table that gets a named constraint, with every column as bearing it. -/
def constrainedTable (kind : ConstraintKind) (root : Group) : Except ClassifyError Table := do
  let leaves := root.leaves
  let (name, constraint) ← targetPair leaves
  let columns := (leaves.filter Leaf.isColumn).map fun l =>
    Column.bearing l.value kind constraint .addConstraint
  if columns.isEmpty then .error (.mismatch (.constraintOnNothing constraint))
  else return ⟨name, .addConstraint, columns, none⟩

/-- The table that loses a named constraint. Which columns bore it is not
    known, and `*` stands for them. -/
def releasedTable (root : Group) : Except ClassifyError Table := do
  let (name, constraint) ← targetPair root.leaves
  return ⟨name, .dropConstraint, [Column.bearing "*" .generic constraint .dropConstraint], none⟩

/-- The value behind the first `DEFAULT`, wherever that stands. -/
def defaultValue (leaves : List Leaf) : Except ClassifyError String :=
  match skipBlanks ((leaves.dropWhile fun l => l.keyword? != some .default).drop 1) with
  | l :: _ => .ok l.value
  | [] => .error (.malformedConstraint .default)

/-- The table of which a column gets a default. The value is looked for before
    the column. -/
def defaultedTable (root : Group) : Except ClassifyError Table := do
  let leaves := root.leaves
  let name ← target leaves
  let value ← defaultValue leaves
  let column ← firstColumn leaves
  return ⟨name, .addConstraint,
    [Column.bearing column (.default value) "default" .addConstraint], none⟩

/-- The table of which a column loses its default. -/
def undefaultedTable (root : Group) : Except ClassifyError Table := do
  let leaves := root.leaves
  let name ← target leaves
  let column ← firstColumn leaves
  return ⟨name, .dropConstraint, [Column.bearing column .generic "default" .dropConstraint], none⟩

/-- The entity that an extraction reads off a tree. -/
def Extraction.run (x : Extraction) (root : Group) : Except ClassifyError Entity :=
  match x with
  | .database action => (target root.leaves).map fun name => .database ⟨name, action⟩
  | .table plan => (tableOf plan root).map .table
  | .write plan => (writtenTable plan root).map .table
  | .addConstraint kind => (constrainedTable kind root).map .table
  | .dropConstraint => (releasedTable root).map .table
  | .setDefault => (defaultedTable root).map .table
  | .dropDefault => (undefaultedTable root).map .table

/-- The entity that a command reads off a tree. -/
def Command.extract (c : Command) (root : Group) : Except ClassifyError Entity :=
  c.extraction.run root

end SqlGist
