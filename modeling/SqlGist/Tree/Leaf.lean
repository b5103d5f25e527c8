import SqlGist.Tree.Node

/-!
# Leaves in Context

What a token means hangs on where it stands: a name can be a table, a column or
a type. A leaf therefore comes with its path, the groups around it from the
nearest outwards, each with the place at which the path goes down. Nodes hold
no links to their parents; the path is built while the tree is walked.

Two groups of one tree can be equal and still be two, so whether a leaf lies in
a group is a question about addresses. The address of a leaf lists the places
from the root down, and the address of a group around it is a prefix of that.

## Main definitions

* `Frame`: A group around a leaf and the place at which the path goes down.
* `Leaf`: A token and its path, nearest group first.
* `Group.leaves`: The leaves of a group in order, each with its path.
* `Leaf.address`: The places from the root down to the leaf.

## Theorems

* `leaves_tokens`: The leaves of a group hold the tokens of its nodes, in
  order.
* `text_eq_leaves`: A group's text is the text of its leaves.
-/

namespace SqlGist

/-- A group around a leaf, and the place among its children at which the path
    goes down. -/
structure Frame where
  group : Group
  index : Nat

namespace Frame

/-- The shape of the group. -/
def shape (f : Frame) : Shape :=
  f.group.shape

/-- The nearest child behind the path that is no blank. -/
def next? (f : Frame) : Option Node :=
  f.group.nextSibling? f.index

/-- The nearest child before the path that is no blank. -/
def prev? (f : Frame) : Option Node :=
  f.group.prevSibling? f.index

end Frame

/-- A token and the groups around it, nearest first. -/
structure Leaf where
  token : Token
  path : List Frame

namespace Leaf

/-- The group around a leaf, and the groups around that, by distance. -/
def ancestor? (l : Leaf) (distance : Nat) : Option Frame :=
  l.path[distance]?

/-- The nearest group. -/
def parent? (l : Leaf) : Option Frame :=
  l.ancestor? 0

/-- The outermost group. -/
def root? (l : Leaf) : Option Frame :=
  l.path.getLast?

/-- Whether any group around the leaf has this shape. -/
def hasAncestor (l : Leaf) (shape : Shape) : Bool :=
  l.path.any fun f => f.shape = shape

/-- Whether the nearest groups have these shapes, nearest first. -/
def ancestorsAre (l : Leaf) (shapes : List Shape) : Bool :=
  shapes.isPrefixOf (l.path.map Frame.shape)

/-- The places from the root down to the leaf. -/
def address (l : Leaf) : List Nat :=
  (l.path.map Frame.index).reverse

/-- Whether the leaf lies in the group at this address. -/
def isWithin (l : Leaf) (address : List Nat) : Bool :=
  -- A leaf does not lie in itself, so its own address is no answer.
  address.isPrefixOf l.address && address.length < l.address.length

/-- Whether the leaf only separates others. -/
def isWhitespace (l : Leaf) : Bool :=
  l.token.isWhitespace

/-- The keyword, if the leaf is one. -/
def keyword? (l : Leaf) : Option Keyword :=
  l.token.keyword?

/-- What the leaf denotes. -/
def value (l : Leaf) : String :=
  l.token.value

end Leaf

namespace Node

mutual

/-- The leaves of a node, when `path` leads to it. -/
def leaves (path : List Frame) : Node → List Leaf
  | .leaf t => [⟨t, path⟩]
  | .group shape children => leavesFrom ⟨shape, children⟩ path 0 children

/-- The leaves of the children of `g` from place `index` on. -/
def leavesFrom (g : Group) (path : List Frame) (index : Nat) : List Node → List Leaf
  | [] => []
  | n :: ns => n.leaves (⟨g, index⟩ :: path) ++ leavesFrom g path (index + 1) ns

end

mutual

/-- The tokens of a node in order. -/
def tokens : Node → List Token
  | .leaf t => [t]
  | .group _ children => tokensOf children

/-- The tokens of a list of nodes in order. -/
def tokensOf : List Node → List Token
  | [] => []
  | n :: ns => n.tokens ++ tokensOf ns

end

mutual

theorem leaves_tokens (path : List Frame) :
    (n : Node) → (n.leaves path).map Leaf.token = n.tokens
  | .leaf _ => rfl
  | .group shape children => leavesFrom_tokens ⟨shape, children⟩ path 0 children

theorem leavesFrom_tokens (g : Group) (path : List Frame) (index : Nat) :
    (ns : List Node) → (leavesFrom g path index ns).map Leaf.token = tokensOf ns
  | [] => rfl
  | n :: ns => by
      rw [leavesFrom, List.map_append, leaves_tokens, leavesFrom_tokens, tokensOf]

end

theorem tokensOf_append (as bs : List Node) :
    tokensOf (as ++ bs) = tokensOf as ++ tokensOf bs := by
  induction as with
  | nil => rfl
  | cons a as ih => simp only [List.cons_append, tokensOf, ih, List.append_assoc]

mutual

theorem text_eq_tokens : (n : Node) → n.text.toList = (n.tokens.map fun t => t.text.toList).flatten
  | .leaf t => by
      simp only [text, tokens, List.map_cons, List.map_nil, List.flatten_cons, List.flatten_nil,
        List.append_nil]
  | .group _ children => by
      rw [text, tokens]
      exact textOf_eq_tokens children

theorem textOf_eq_tokens :
    (ns : List Node) → (textOf ns).toList = ((tokensOf ns).map fun t => t.text.toList).flatten
  | [] => rfl
  | n :: ns => by
      rw [textOf, tokensOf, String.toList_append, List.map_append, List.flatten_append,
        text_eq_tokens, textOf_eq_tokens]

end

end Node

namespace Group

/-- The leaves of the group in order, each with its path from the group. -/
def leaves (g : Group) : List Leaf :=
  g.toNode.leaves []

theorem leaves_tokens (g : Group) : g.leaves.map Leaf.token = g.toNode.tokens :=
  Node.leaves_tokens [] g.toNode

theorem text_eq_leaves (g : Group) :
    g.text.toList = (g.leaves.map fun l => l.token.text.toList).flatten := by
  rw [text, Node.text_eq_tokens, ← leaves_tokens, List.map_map]
  rfl

end Group

end SqlGist
