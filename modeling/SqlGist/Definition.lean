import SqlGist.Ownership

/-!
# Column Definitions

The columns of a statement, read from its leaves in order. A column is known by
its name: named again, as in a key at the end of a table, it is the same column
and moves to the front of attention, so that what follows belongs to it. A type
belongs to the column named last, and a column has one type at most.

Constraints are resolved before any type is looked at, so that of two faults
the constraint's is reported.

## Main definitions

* `Gathered`: The columns read so far, and the one named last.
* `Gathered.mention`: A name is read.
* `Gathered.declare`: A type is read.
* `gather`: The columns that the leaves name.
* `definedColumns`: The columns with their types and constraints.
-/

namespace SqlGist

/-- The columns read so far, and the name that was read last. -/
structure Gathered where
  columns : List Column
  current : Option String

namespace Gathered

/-- The column of this name. -/
def column? (g : Gathered) (name : String) : Option Column :=
  g.columns.find? fun c => c.name = some name

/-- A name is read. It adds a column unless there is one of that name. -/
def mention (g : Gathered) (action : Action) (name : String) : Gathered :=
  match g.column? name with
  -- Named again, a column keeps its place and what is known of it.
  | some _ => ⟨g.columns, some name⟩
  | none => ⟨g.columns ++ [Column.named name action], some name⟩

/-- Gives a type to the column of this name. -/
def setType (g : Gathered) (name : String) (type : ColumnType) : Gathered :=
  ⟨g.columns.map fun c =>
      if c.name = some name then { c with typeName := some type.name, size := type.size } else c,
    g.current⟩

/-- A type is read. It belongs to the column named last. -/
def declare (g : Gathered) (type : ColumnType) : Except Mismatch Gathered :=
  match g.current with
  | none => .error (.typeWithoutColumn type.name)
  | some name =>
    match (g.column? name).bind Column.typeName with
    -- The same type twice is a second type as well.
    | some first => .error (.secondType name first type.name)
    | none => .ok (g.setType name type)

/-- A leaf is read. Types are passed over where columns are not defined. -/
def read (definitions : Bool) (action : Action) (g : Gathered) (l : Leaf) :
    Except Mismatch Gathered :=
  if l.isColumn then .ok (g.mention action l.value)
  else if definitions && l.isType then
    match l.columnType? with
    | some type => g.declare type
    | none => .ok g
  else .ok g

end Gathered

/-- Reads the leaves ahead when `g` is what was gathered before. -/
def gatherFrom (definitions : Bool) (action : Action) (g : Gathered) :
    List Leaf → Except Mismatch Gathered
  | [] => .ok g
  | l :: leaves =>
    match g.read definitions action l with
    | .error m => .error m
    | .ok g => gatherFrom definitions action g leaves

/-- The columns that the leaves name, with their types where columns are
    defined. -/
def gather (definitions : Bool) (action : Action) (leaves : List Leaf) :
    Except ClassifyError (List Column) :=
  match gatherFrom definitions action ⟨[], none⟩ leaves with
  | .error m => .error (.mismatch m)
  | .ok g => .ok g.columns

/-- The columns that the leaves name, without types and constraints. -/
def mentionedColumns (action : Action) (leaves : List Leaf) : Except ClassifyError (List Column) :=
  gather false action leaves

/-- A column with the constraints that belong to it. -/
def Column.constrained (c : Column) (all : List Owned) : Column :=
  { c with constraints := (c.name.map fun name => constraintsOn name all).getD [] }

/-- The columns that the leaves define, with types and constraints. -/
def definedColumns (action : Action) (leaves : List Leaf) : Except ClassifyError (List Column) :=
  match owned leaves with
  | .error e => .error e
  | .ok all =>
    match gather true action leaves with
    | .error e => .error e
    | .ok columns => .ok (columns.map fun c => c.constrained all)

end SqlGist
