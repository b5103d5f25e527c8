import SqlGist.Tree.Node

/-!
# Outlines

A tree as indented lines, one a node, for a reader. A group shows its shape, a
leaf its kind and its source text as written. Blanks are left out.

## Main definitions

* `TokenKind.label`: The name of a kind in an outline.
* `Group.outline`: The lines of a tree.
-/

namespace SqlGist

/-- The name of a kind in an outline. A keyword shows which one it is. -/
def TokenKind.label : TokenKind → String
  | .keyword k => "Keyword(" ++ k.label ++ ")"
  | .name => "Name"
  | .builtin => "Builtin"
  | .string => "String"
  | .number => "Number"
  | .operator => "Operator"
  | .wildcard => "Wildcard"
  | .punctuation => "Punctuation"
  | .whitespace => "Whitespace"
  | .eof => "Eof"
  | .error cause => "Error(" ++ cause.message ++ ")"

/-- One line, two blanks in for each level. -/
def outlineLine (depth : Nat) (text : String) : String :=
  String.ofList (List.replicate (2 * depth) ' ') ++ text ++ "\n"

namespace Node

mutual

/-- The lines of a node at this depth. -/
def outline (depth : Nat) : Node → String
  | .leaf t =>
    if t.isWhitespace then "" else outlineLine depth (t.kind.label ++ " " ++ t.text)
  | .group shape children => outlineLine depth shape.label ++ outlineOf (depth + 1) children

/-- The lines of a list of nodes at this depth. -/
def outlineOf (depth : Nat) : List Node → String
  | [] => ""
  | n :: ns => n.outline depth ++ outlineOf depth ns

end

end Node

/-- The lines of a tree, each ended by a line feed. -/
def Group.outline (g : Group) : String :=
  g.toNode.outline 0

end SqlGist
