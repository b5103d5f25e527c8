import SqlGist.Token

/-!
# Token Trees

The tree of a statement has tokens for leaves and groups for inner nodes. It
is shallow: a group says that a few neighbours belong together, as a name with
its argument list or the two sides of a comparison, and nothing more.

Trees need not come from a text. A hand-made one may put anything anywhere, so
every function here answers for all of them, and what holds of the trees of
statements is a theorem about the builder.

`Group` is the view of a group as a value of its own: a node that is known to
have children.

## Main definitions

* `Shape`: What a group stands for.
* `Node`: A leaf or a group.
* `Group`: A shape and its children.
* `Node.text`, `Node.span`, `Node.value`: What a node covers and denotes.
* `Group.nextSibling?`, `Group.prevSibling?`: The nearest child that is no
  blank, on either side of a place; `nextIndex?` and `prevIndex?` say where.

## Theorems

* `textOf_append`: The text of two lists of nodes.
* `Group.text_eq`: A group's text is the text of its children.
-/

namespace SqlGist

/-- What a group stands for. -/
inductive Shape
  /-- A whole statement. -/
  | statement
  /-- One name. -/
  | nameRef
  /-- A list parted by commas. -/
  | nameList
  /-- A pair of parentheses and what stands between them. -/
  | parenthesis
  /-- A name and the parenthesis right behind it. -/
  | functionCall
  /-- Two operands and the operator between them. -/
  | comparison
  /-- `WHERE` and the condition behind it. -/
  | whereClause
deriving DecidableEq, Repr

/-- The name of a shape in an outline. -/
def Shape.label : Shape → String
  | .statement => "Statement"
  | .nameRef => "NameRef"
  | .nameList => "NameList"
  | .parenthesis => "Parenthesis"
  | .functionCall => "FunctionCall"
  | .comparison => "Comparison"
  | .whereClause => "Where"

/-- A node of a token tree. -/
inductive Node
  | leaf (t : Token)
  | group (shape : Shape) (children : List Node)
deriving Repr

/-- A group: its shape and its children in order. -/
structure Group where
  shape : Shape
  children : List Node
deriving Repr

namespace Node

/-- The token, if the node is a leaf. -/
def leaf? : Node → Option Token
  | .leaf t => some t
  | .group _ _ => none

/-- The group, if the node is one. -/
def group? : Node → Option Group
  | .leaf _ => none
  | .group shape children => some ⟨shape, children⟩

/-- The shape, if the node is a group. -/
def shape? : Node → Option Shape
  | .leaf _ => none
  | .group shape _ => some shape

/-- Whether the node is a group of this shape. -/
def isGroup (n : Node) (shape : Shape) : Bool :=
  n.shape? = some shape

/-- The keyword, if the node is a keyword leaf. -/
def keyword? (n : Node) : Option Keyword :=
  n.leaf?.bind Token.keyword?

/-- Whether the node is a leaf that only separates others. -/
def isWhitespace (n : Node) : Bool :=
  n.leaf?.any Token.isWhitespace

/-- Whether the node is the leaf of a name. -/
def isName (n : Node) : Bool :=
  n.leaf?.any Token.isName

/-- Whether the node is this punctuation mark. -/
def isMark (n : Node) (mark : String) : Bool :=
  n.leaf?.any fun t => t.isMark mark

mutual

/-- The source text that the node covers. -/
def text : Node → String
  | .leaf t => t.text
  | .group _ children => textOf children

/-- The source text that a list of nodes covers. -/
def textOf : List Node → String
  | [] => ""
  | n :: ns => n.text ++ textOf ns

end

mutual

/-- The smallest span over the leaves of the node, and `0..0` if it has
    none. -/
def span : Node → Span
  | .leaf t => t.span
  | .group _ children => Span.hull (spansOf children)

/-- The span of each node of a list. -/
def spansOf : List Node → List Span
  | [] => []
  | n :: ns => n.span :: spansOf ns

end

/-- What the node denotes: a leaf what its token denotes, a name the value of
    its first leaf, any other group its text. -/
def value (n : Node) : String :=
  match n with
  | .leaf t => t.value
  | .group .nameRef children =>
    -- The group of a hand-made name may hold no leaf.
    match children.findSome? leaf? with
    | some t => t.value
    | none => n.text
  | .group _ _ => n.text

theorem textOf_append (as bs : List Node) : textOf (as ++ bs) = textOf as ++ textOf bs := by
  induction as with
  | nil => simp only [List.nil_append, textOf, String.empty_append]
  | cons a as ih => simp only [List.cons_append, textOf, ih, String.append_assoc]

end Node

namespace Group

/-- The group as a node. -/
def toNode (g : Group) : Node :=
  .group g.shape g.children

/-- The source text that the group covers. -/
def text (g : Group) : String :=
  g.toNode.text

/-- The smallest span over the leaves of the group. -/
def span (g : Group) : Span :=
  g.toNode.span

/-- The nearest child behind a place that is no blank. -/
def nextSibling? (g : Group) (index : Nat) : Option Node :=
  (g.children.drop (index + 1)).find? fun child => !child.isWhitespace

/-- Where that child stands. -/
def nextIndex? (g : Group) (index : Nat) : Option Nat :=
  ((g.children.drop (index + 1)).findIdx? fun child => !child.isWhitespace).map (· + (index + 1))

/-- The nearest child before a place that is no blank. The place may lie past
    the end. -/
def prevSibling? (g : Group) (index : Nat) : Option Node :=
  (g.children.take index).reverse.find? fun child => !child.isWhitespace

/-- Where that child stands. -/
def prevIndex? (g : Group) (index : Nat) : Option Nat :=
  let before := (g.children.take index).reverse
  -- The gap is counted backwards from the place, or from the end before it.
  (before.findIdx? fun child => !child.isWhitespace).map fun gap => before.length - 1 - gap

/-- The first child that is a group of this shape. -/
def find? (g : Group) (shape : Shape) : Option Group :=
  (g.children.filterMap Node.group?).find? fun child => child.shape = shape

/-- The keywords among the children, outside all groups within. -/
def keywords (g : Group) : List Keyword :=
  g.children.filterMap Node.keyword?

theorem text_eq (g : Group) : g.text = Node.textOf g.children := by
  simp only [text, toNode, Node.text]

end Group

end SqlGist
