import SqlGist.Entity
import SqlGist.Json.Value

/-!
# Entities as JSON

How an entity is written for other programs. The order of the fields is part of
the form. An absent name, type, size, value or filter is `null`, and only a
constraint leaves a field out: nothing but a default has a value.

A node of a filter is an object with one field, named for its connective, and a
condition is an object with three, so the two never look alike.

## Main definitions

* `Constraint.toJson`, `Column.toJson`, `Table.toJson`, `Database.toJson`: The
  parts of an entity.
* `FilterNode.toJson`: A node of a filter.
* `Entity.toJson`: An entity.
-/

namespace SqlGist

/-- The word for a kind of constraint. -/
def ConstraintKind.label : ConstraintKind → String
  | .generic => "GENERIC"
  | .unique => "UNIQUE"
  | .primaryKey => "PRIMARY_KEY"
  | .notNull => "NOT_NULL"
  | .default _ => "DEFAULT"

/-- The value of a default. -/
def ConstraintKind.value? : ConstraintKind → Option String
  | .default value => some value
  | _ => none

/-- A constraint. Its value is a field only if it has one. -/
def Constraint.toJson (c : Constraint) : JsonValue :=
  .object ([("kind", .string c.kind.label), ("name", .string c.name),
    ("action", .string c.action.label)] ++
      (c.kind.value?.map fun value => ("value", JsonValue.string value)).toList)

/-- A column. -/
def Column.toJson (c : Column) : JsonValue :=
  .object [("name", .ofOption c.name), ("action", .string c.action.label),
    ("type", .ofOption c.typeName), ("size", .ofOption c.size),
    ("constraints", .array (c.constraints.map Constraint.toJson)), ("value", .ofOption c.value)]

/-- A condition of a filter. -/
def Condition.toJson (c : Condition) : JsonValue :=
  .object [("column", .string c.column), ("operator", .string c.operator),
    ("value", .string c.value)]

namespace FilterItem

mutual

/-- An item of a filter: a condition, or a node by its connective. -/
def toJson : FilterItem → JsonValue
  | .condition c => c.toJson
  | .node connective items => .object [(connective.label, .array (toJsonAll items))]

/-- The items of a filter. -/
def toJsonAll : List FilterItem → List JsonValue
  | [] => []
  | item :: items => item.toJson :: toJsonAll items

end

end FilterItem

/-- A node of a filter. -/
def FilterNode.toJson (n : FilterNode) : JsonValue :=
  n.toItem.toJson

/-- A filter, or `null` where there is none. -/
def filterToJson : Option (List FilterNode) → JsonValue
  | some nodes => .array (nodes.map FilterNode.toJson)
  | none => .null

/-- A table. -/
def Table.toJson (t : Table) : JsonValue :=
  .object [("entity", .string "table"), ("name", .string t.name),
    ("action", .string t.action.label), ("columns", .array (t.columns.map Column.toJson)),
    ("filter", filterToJson t.filter)]

/-- A database. -/
def Database.toJson (d : Database) : JsonValue :=
  .object [("entity", .string "database"), ("name", .string d.name),
    ("action", .string d.action.label)]

/-- An entity. The first field says which it is. -/
def Entity.toJson : Entity → JsonValue
  | .database d => d.toJson
  | .table t => t.toJson

end SqlGist
