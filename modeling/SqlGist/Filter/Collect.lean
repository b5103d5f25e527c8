import SqlGist.ClassifyError
import SqlGist.Filter.Basic
import SqlGist.Tree.Node

/-!
# Reading Filters

From the group of a `WHERE` clause to its filter. Four things introduce a node:
`WHERE`, `AND`, `OR` and an opening parenthesis. What stands next to one of
them has to be a comparison or a parenthesis, and anything else is a mismatch;
what stands elsewhere is passed over.

The first fault in source order is the one reported, and a parenthesis is read
to its end before what follows it.

## Main definitions

* `introduces?`: The connective that a node introduces.
* `Condition.ofParts`: The condition of a comparison.
* `collect`: The filter nodes of a list of tree nodes.
* `filterOf`: The filter of a statement.
-/

namespace SqlGist

/-- The connective that a node introduces: a disjunction for `OR`, and a
    conjunction for `WHERE`, `AND` and an opening parenthesis. -/
def introduces? (n : Node) : Option Connective :=
  match n.keyword? with
  | some .whereKw => some .and
  | some .and => some .and
  | some .or => some .or
  | _ => if n.isMark "(" then some .and else none

/-- The text of an operator: the spelling of a keyword, or the text as
    written. -/
def operatorText (n : Node) : String :=
  match n with
  | .leaf t => t.normalized
  | .group _ _ => n.text

/-- The condition of a comparison, which must have three parts apart from
    blanks. -/
def Condition.ofParts (children : List Node) : Except Mismatch Condition :=
  match children.filter fun n => !n.isWhitespace with
  | [column, operator, value] => .ok ⟨column.value, operatorText operator, value.value⟩
  | _ => .error (.malformedComparison (Node.textOf children))

mutual

/-- What a node contributes when it stands next to `introducer`. -/
def filterItems (introducer : Node) : Node → Except Mismatch (List FilterItem)
  | .group .comparison children =>
    match Condition.ofParts children with
    | .ok c => .ok [.condition c]
    | .error m => .error m
  | .group .parenthesis children =>
    match collect children with
    | .ok nodes => .ok (nodes.map FilterNode.toItem)
    | .error m => .error m
  | found => .error (.noCondition introducer.text found.text)

/-- What stands next to `introducer`, past the blanks. -/
def introduced (introducer : Node) : List Node → Except Mismatch (List FilterItem)
  | [] => .error (.nothingAfter introducer.text)
  | n :: ns => if n.isWhitespace then introduced introducer ns else filterItems introducer n

/-- The filter nodes of a list of tree nodes. -/
def collect : List Node → Except Mismatch (List FilterNode)
  | [] => .ok []
  | n :: ns =>
    match introduces? n with
    | none => collect ns
    | some connective =>
      match introduced n ns with
      | .error m => .error m
      | .ok items =>
        -- Reading goes on right behind the introducer, since a group introduces nothing.
        match collect ns with
        | .error m => .error m
        | .ok nodes => .ok (⟨connective, items⟩ :: nodes)

end

/-- The filter of a statement, and `none` if it has no condition. -/
def filterOf (root : Group) : Except ClassifyError (Option (List FilterNode)) :=
  match root.find? .whereClause with
  | none => .ok none
  | some clause =>
    match collect clause.children with
    | .ok nodes => .ok (some nodes)
    | .error m => .error (.mismatch m)

end SqlGist
