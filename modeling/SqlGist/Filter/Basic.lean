/-!
# Filters

What a `WHERE` clause asks for. A filter is a list of nodes, one for each
condition or parenthesis in source order, and each node says what introduced
it: the clause itself, `AND`, `OR`, or an opening parenthesis. There is no
precedence, since a reader of a filter gets the structure that was written and
not the one that a database would evaluate.

## Main definitions

* `Connective`: What introduces a node.
* `Condition`: One comparison.
* `FilterItem`: A condition, or a node with items of its own.
* `FilterNode`: A connective and the items it introduces.
* `FilterNode.depth`: How many nodes deep a node goes.
* `FilterNode.conditions`: The conditions below a node in source order.
-/

namespace SqlGist

/-- What introduces a node of a filter. A clause and a parenthesis open with a
    conjunction. -/
inductive Connective
  | and
  | or
deriving DecidableEq, Repr

/-- The word for a connective. -/
def Connective.label : Connective → String
  | .and => "AND"
  | .or => "OR"

/-- One comparison: its left side, its operator and its right side, without
    quotes. -/
structure Condition where
  column : String
  operator : String
  value : String
deriving DecidableEq, Repr

/-- What a node of a filter holds: a condition, or the nodes of a
    parenthesis. -/
inductive FilterItem
  | condition (c : Condition)
  | node (connective : Connective) (items : List FilterItem)
deriving BEq, Repr

/-- A node of a filter: what introduced it, and what it holds. -/
structure FilterNode where
  connective : Connective
  items : List FilterItem
deriving BEq, Repr

namespace FilterItem

mutual

/-- How many nodes deep an item goes. A condition is no node. -/
def depth : FilterItem → Nat
  | .condition _ => 0
  | .node _ items => 1 + depthOf items

/-- The greatest depth in a list of items. -/
def depthOf : List FilterItem → Nat
  | [] => 0
  | item :: items => max item.depth (depthOf items)

end

mutual

/-- The conditions of an item in source order. -/
def conditions : FilterItem → List Condition
  | .condition c => [c]
  | .node _ items => conditionsOf items

/-- The conditions of a list of items in source order. -/
def conditionsOf : List FilterItem → List Condition
  | [] => []
  | item :: items => item.conditions ++ conditionsOf items

end

end FilterItem

namespace FilterNode

/-- The node as an item of another. -/
def toItem (n : FilterNode) : FilterItem :=
  .node n.connective n.items

/-- How many nodes deep the node goes, itself included. -/
def depth (n : FilterNode) : Nat :=
  n.toItem.depth

/-- The conditions below the node in source order. -/
def conditions (n : FilterNode) : List Condition :=
  n.toItem.conditions

end FilterNode

end SqlGist
