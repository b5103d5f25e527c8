import SqlGist.Entity
import SqlGist.Text.Cut
import SqlGist.Tree.Leaf

/-!
# Roles

A bare name can be a table, a column, a type or a part of a condition, and
nothing but its place tells which. The predicates here read a leaf's role off
its kind, the shapes around it, and its neighbours.

Inside a `WHERE` clause nothing is a column and nothing is a value to write:
what stands there belongs to the filter.

## Main definitions

* `Leaf.isTarget`: The leaf names the table or the database.
* `Leaf.isColumn`: The leaf names a column.
* `Leaf.isType`, `Leaf.columnType?`: The leaf declares a type, and which.
* `Leaf.isWritten`: The leaf is a value that the statement writes.
* `Leaf.writeAction`: Whether such a value is inserted or assigned.
-/

namespace SqlGist

/-- A declared type: its name as written, and what stands in its
    parentheses. -/
structure ColumnType where
  name : String
  size : Option String
deriving DecidableEq, Repr

/-- The type that the text of a call declares. Blank parentheses give no
    size. -/
def ColumnType.ofCall? (call : String) : Option ColumnType :=
  (Text.cutFirst? '(' call.toList).map fun parts =>
    let inner := ((Text.cutLast? ')' parts.2).map Prod.fst).getD parts.2
    let size := Text.trim inner
    ⟨String.ofList (Text.trim parts.1), if size.isEmpty then none else some (String.ofList size)⟩

/-- Whether a node is a type: a builtin one, or a call. -/
def Node.isType (n : Node) : Bool :=
  n.isGroup .functionCall || n.leaf?.any fun t => t.kind = .builtin

/-- Whether a name in this place is a column. A name behind `CONSTRAINT` names
    the constraint, and one before a point the table. Inside a list, a
    parenthesis or a comparison every other name is a column; directly in the
    statement only a name before a type or behind `COLUMN` is. -/
def Frame.holdsColumn (f : Frame) : Bool :=
  !(f.prev?.any fun n => n.keyword? = some .constraint) &&
  !(f.next?.any fun n => n.isMark ".") &&
  match f.shape with
  | .parenthesis => true
  | .nameList => true
  | .comparison => true
  | .statement => f.next?.any Node.isType || f.prev?.any fun n => n.keyword? = some .column
  | _ => false

namespace Leaf

/-- Whether the leaf belongs to the condition of the statement. -/
def inWhere (l : Leaf) : Bool :=
  l.hasAncestor .whereClause

/-- Whether the leaf names the table or the database: a name directly in the
    statement, or the name of a call there, as in `INSERT INTO t(a)`. -/
def isTarget (l : Leaf) : Bool :=
  l.token.isName &&
    (l.ancestorsAre [.nameRef, .statement] || l.ancestorsAre [.nameRef, .functionCall, .statement])

/-- Whether the leaf names a column. -/
def isColumn (l : Leaf) : Bool :=
  l.token.isName && !l.inWhere && l.ancestorsAre [.nameRef] &&
    (l.ancestor? 1).any Frame.holdsColumn

/-- Whether the leaf is the name of a call. -/
def isCallName (l : Leaf) : Bool :=
  l.token.isName && l.ancestorsAre [.nameRef, .functionCall]

/-- Whether the leaf declares a type: a builtin one, or the name of a call. -/
def isType (l : Leaf) : Bool :=
  l.token.kind = .builtin || l.isCallName

/-- The type that the leaf declares. -/
def columnType? (l : Leaf) : Option ColumnType :=
  if l.token.kind = .builtin then some ⟨l.token.text, none⟩
  else if l.isCallName then (l.ancestor? 1).bind fun f => ColumnType.ofCall? f.group.text
  else none

/-- Whether a keyword stands in front of the leaf, directly in the outermost
    group. -/
def isBehind (l : Leaf) (k : Keyword) : Bool :=
  l.root?.any fun f => (f.group.children.take f.index).any fun n => n.keyword? = some k

/-- Whether the leaf is a value that the statement writes: an item of a list,
    or a side of a comparison behind `k`. -/
def isWritten (l : Leaf) (k : Keyword) : Bool :=
  l.token.isValue && !l.inWhere &&
    (l.hasAncestor .nameList || l.hasAncestor .comparison && l.isBehind k)

/-- What is done with a value: it is assigned in a comparison, and inserted
    elsewhere. -/
def writeAction (l : Leaf) : Action :=
  if l.hasAncestor .comparison then .update else .insert

end Leaf

end SqlGist
