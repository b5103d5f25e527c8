import SqlGist.Filter.Basic

/-!
# Entities

What a statement is about: a database, or a table with the columns it touches.
An entity says what is done to each thing, and it says it of every column
anew, since a statement can add a constraint to one column and a value to
another.

## Main definitions

* `Action`: What is done.
* `Constraint`: A constraint on a column.
* `Column`, `Table`, `Database`: The things a statement touches.
* `Entity`: The thing a statement is about.
* `Table.column?`, `Table.columnNames`: Looking up columns by name.
-/

namespace SqlGist

/-- What a statement does to a thing. -/
inductive Action
  | create
  | alter
  | drop
  | addConstraint
  | dropConstraint
  | addColumn
  | modifyColumn
  | dropColumn
  | select
  | insert
  | update
  | delete
deriving DecidableEq, Repr

/-- The word for an action. -/
def Action.label : Action → String
  | .create => "CREATE"
  | .alter => "ALTER"
  | .drop => "DROP"
  | .addConstraint => "ADDCONSTRAINT"
  | .dropConstraint => "DROPCONSTRAINT"
  | .addColumn => "ADDCOLUMN"
  | .modifyColumn => "MODIFYCOLUMN"
  | .dropColumn => "DROPCOLUMN"
  | .select => "SELECT"
  | .insert => "INSERT"
  | .update => "UPDATE"
  | .delete => "DELETE"

/-- What a constraint demands. It is `generic` where a statement names a
    constraint without saying of which kind it is. -/
inductive ConstraintKind
  | generic
  | unique
  | primaryKey
  | notNull
  | default (value : String)
deriving DecidableEq, Repr

/-- A constraint on a column: its kind, its name, and what is done to it. -/
structure Constraint where
  kind : ConstraintKind
  name : String
  action : Action
deriving DecidableEq, Repr

/-- A column that a statement touches. It has no name where a value is given
    by position alone. -/
structure Column where
  name : Option String
  action : Action
  /-- The name of the declared type. -/
  typeName : Option String
  /-- What stands in the parentheses of the declared type. -/
  size : Option String
  constraints : List Constraint
  /-- The value that the column gets. -/
  value : Option String
deriving DecidableEq, Repr

namespace Column

/-- A column of which only the name is known. -/
def named (name : String) (action : Action) : Column :=
  ⟨some name, action, none, none, [], none⟩

/-- A column of which only the value is known. -/
def positional (value : String) (action : Action) : Column :=
  ⟨none, action, none, none, [], some value⟩

end Column

/-- A table, the columns touched in source order, and the condition on its
    rows if there is one. -/
structure Table where
  name : String
  action : Action
  columns : List Column
  filter : Option (List FilterNode)
deriving BEq, Repr

namespace Table

/-- The first column of this name. -/
def column? (t : Table) (name : String) : Option Column :=
  t.columns.find? fun c => c.name = some name

/-- The names of the columns, without those that have none. -/
def columnNames (t : Table) : List String :=
  t.columns.filterMap Column.name

/-- The constraints of all columns, in order. -/
def constraints (t : Table) : List Constraint :=
  t.columns.flatMap Column.constraints

end Table

/-- A database. -/
structure Database where
  name : String
  action : Action
deriving DecidableEq, Repr

/-- The thing that a statement is about. -/
inductive Entity
  | database (d : Database)
  | table (t : Table)
deriving BEq, Repr

namespace Entity

/-- The name of the thing. -/
def name : Entity → String
  | .database d => d.name
  | .table t => t.name

/-- What is done to it. -/
def action : Entity → Action
  | .database d => d.action
  | .table t => t.action

/-- The table, if it is one. -/
def table? : Entity → Option Table
  | .database _ => none
  | .table t => some t

/-- The database, if it is one. -/
def database? : Entity → Option Database
  | .database d => some d
  | .table _ => none

end Entity

end SqlGist
