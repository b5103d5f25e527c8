import SqlGist.ClassifyError
import SqlGist.Role

/-!
# Which Column a Constraint Belongs To

A constraint keyword belongs to the nearest column in front of it, as in
`age int NOT NULL`. `PRIMARY KEY` and `UNIQUE` with a parenthesis right behind
belong to the columns in it instead, however many those are.

The leaves are read once from left to right. What has been read is kept in
reverse, so the nearest column in front is the first one found there, and what
is still ahead is the rest of the list.

Three keywords introduce constraints that are not read at all. One of them
anywhere outside the condition fails before any other constraint is looked at.

## Main definitions

* `Owned`: A constraint and the column it belongs to.
* `constraintAt`: The constraint that a keyword stands for.
* `ownersAt`: The columns that it belongs to.
* `owned`: All constraints of a statement with their columns.
* `constraintsOn`: The constraints on one column among these.
* `columnConstraints`: The constraints of a statement on one column.
-/

namespace SqlGist

/-- A constraint and the name of the column it belongs to. -/
structure Owned where
  column : String
  constraint : Constraint
deriving DecidableEq, Repr

/-- The keywords of constraints that are not read. -/
def unreadConstraints : List Keyword :=
  [.check, .foreign, .references]

/-- The keyword of a leaf outside the condition. -/
def Leaf.constraintKeyword? (l : Leaf) : Option Keyword :=
  if l.inWhere then none else l.keyword?

/-- The leaves ahead without the blanks in front. -/
def skipBlanks (leaves : List Leaf) : List Leaf :=
  leaves.dropWhile Leaf.isWhitespace

/-- The constraint that a keyword stands for, if it stands for one. What comes
    next is the value of a `DEFAULT`, which fails at the end of the
    statement. -/
def constraintAt (k : Keyword) (after : List Leaf) : Except ClassifyError (Option Constraint) :=
  match k with
  | .primary => .ok (some ⟨.primaryKey, "primarykey", .addConstraint⟩)
  | .notNull => .ok (some ⟨.notNull, "notnull", .addConstraint⟩)
  | .unique => .ok (some ⟨.unique, "unique", .addConstraint⟩)
  | .default =>
    match skipBlanks after with
    | [] => .error (.malformedConstraint .default)
    | l :: _ => .ok (some ⟨.default l.value, "default", .addConstraint⟩)
  | _ => .ok none

/-- The leaves behind an optional `KEY`. -/
def skipKey (after : List Leaf) : List Leaf :=
  match skipBlanks after with
  | [] => []
  | l :: rest => if l.keyword? = some .key then skipBlanks rest else l :: rest

/-- The columns in the parenthesis right behind a keyword, if one stands
    there. -/
def listedColumns? (after : List Leaf) : Option (List String) :=
  match skipKey after with
  | [] => none
  | l :: rest =>
    if l.token.isMark "(" && l.ancestorsAre [.parenthesis] then
      -- Reading stops at the first leaf outside this parenthesis.
      some (((rest.takeWhile fun m => m.isWithin l.address.dropLast).filter Leaf.isColumn).map
        Leaf.value)
    else none

/-- The nearest column in front, when `before` holds what was read in
    reverse. -/
def nearestColumn (k : Keyword) (before : List Leaf) : Except ClassifyError (List String) :=
  match before.find? Leaf.isColumn with
  | some l => .ok [l.value]
  | none => .error (.mismatch (.constraintWithoutColumn k))

/-- The columns that the constraint of a keyword belongs to. -/
def ownersAt (k : Keyword) (before after : List Leaf) : Except ClassifyError (List String) :=
  if k = .primary ∨ k = .unique then
    match listedColumns? after with
    -- A list counts even if it is empty, and then the constraint has no column.
    | some columns => .ok columns
    | none => nearestColumn k before
  else nearestColumn k before

/-- The constraints that a leaf contributes, between what was read and what is
    ahead. -/
def ownedAt (before : List Leaf) (l : Leaf) (after : List Leaf) :
    Except ClassifyError (List Owned) :=
  match l.constraintKeyword? with
  | none => .ok []
  | some k =>
    -- A fault in the constraint itself comes before one in its columns.
    match constraintAt k after with
    | .error e => .error e
    | .ok none => .ok []
    | .ok (some c) =>
      match ownersAt k before after with
      | .error e => .error e
      | .ok columns => .ok (columns.map fun column => ⟨column, c⟩)

/-- The constraints of the leaves ahead, when `before` holds what was read in
    reverse. -/
def ownedFrom (before : List Leaf) : List Leaf → Except ClassifyError (List Owned)
  | [] => .ok []
  | l :: after =>
    match ownedAt before l after with
    | .error e => .error e
    | .ok here =>
      match ownedFrom (l :: before) after with
      | .error e => .error e
      | .ok rest => .ok (here ++ rest)

/-- All constraints of a statement in source order, each with a column it
    belongs to. -/
def owned (leaves : List Leaf) : Except ClassifyError (List Owned) :=
  match (leaves.filterMap Leaf.constraintKeyword?).find? unreadConstraints.contains with
  | some k => .error (.malformedConstraint k)
  | none => ownedFrom [] leaves

/-- The constraints that belong to this column, in source order. -/
def constraintsOn (column : String) (all : List Owned) : List Constraint :=
  (all.filter fun o => o.column = column).map Owned.constraint

/-- The constraints of a statement that belong to one column. They fail as
    those of all columns do. -/
def columnConstraints (column : String) (leaves : List Leaf) :
    Except ClassifyError (List Constraint) :=
  (owned leaves).map (constraintsOn column)

end SqlGist
