import SqlGist.Nested
import SqlGist.Statement
import SqlGist.Tree.Grouping

/-!
# Building Trees

From a text to the tree of its first statement. The parentheses are nested
first, and then every level is grouped, the inner ones before the outer.

Two things are peculiar to the outermost level. The tuples behind `VALUES` are
lists even when they hold one item. And the parenthesis behind the name of a
new table holds its definitions, so at the root of `CREATE TABLE` a name and a
parenthesis are no call; `CREATE TABLE t AS ...` has no definitions and is not
excepted.

## Main definitions

* `definesTable`: Whether the outermost keywords are those of `CREATE TABLE`.
* `Nested.node`: An item as a node, grouped at every level inside.
* `rootNodes`: The nodes of a statement, grouped.
* `Group.ofText`: The tree of the first statement of a text.

## Theorems

* `tokensOf_rootNodes`: Grouping keeps every token in its place.
* `ofText_tokens`: The leaves of a tree are the tokens of the statement.
-/

namespace SqlGist

/-- Whether the keywords outside all parentheses are those of a table
    definition: `CREATE` first, then `TABLE` somewhere, and no `AS`. -/
def definesTable (items : List Nested) : Bool :=
  let keywords := items.filterMap Nested.keyword?
  keywords.head? = some .create && keywords.contains .table && !keywords.contains .asKw

/-- The nodes inside a pair of parentheses, grouped. They are a list if they
    have to be one or hold a comma. -/
def groupInner (forced : Bool) (ns : List Node) : List Node :=
  Node.listRun forced (Node.groupComparisons (Node.groupNames (Node.groupCalls ns)))

/-- The nodes outside all parentheses, grouped. -/
def groupRoot (table : Bool) (ns : List Node) : List Node :=
  -- The parenthesis behind the name of a new table is not its argument list.
  let called := if table then ns else Node.groupCalls ns
  Node.groupWhere (Node.groupLists (Node.groupComparisons (Node.groupNames called)))

namespace Nested

mutual

/-- An item as a node. What stands between parentheses is grouped, and is a
    list at all events if `forced`. -/
def node (forced : Bool) : Nested → Node
  | .token t => .leaf t
  | .parens opening inner closing =>
    .group .parenthesis (.leaf opening :: (groupInner forced (nodes inner) ++ [.leaf closing]))

/-- The items inside a pair of parentheses as nodes. -/
def nodes : List Nested → List Node
  | [] => []
  | item :: items => item.node false :: nodes items

end

/-- The items outside all parentheses as nodes. `afterValues` says whether the
    last keyword was `VALUES`, so that what follows is a tuple. -/
def outerNodes (afterValues : Bool) : List Nested → List Node
  | [] => []
  | item :: items =>
    -- A keyword decides for everything up to the next one.
    let after := match item.keyword? with
      | some k => k = .values
      | none => afterValues
    item.node after :: outerNodes after items

end Nested

/-- The nodes of a statement, grouped at every level. -/
def rootNodes (items : List Nested) : List Node :=
  groupRoot (definesTable items) (Nested.outerNodes false items)

/-- The tree of the first statement of a text. -/
def Group.ofText (sql : String) : Except ParseError Group :=
  match readStatement sql with
  | .error e => .error e
  | .ok statement =>
    match Nested.nest statement with
    | .error e => .error e
    | .ok items => .ok ⟨.statement, rootNodes items⟩

theorem tokensOf_groupInner (forced : Bool) (ns : List Node) :
    Node.tokensOf (groupInner forced ns) = Node.tokensOf ns := by
  rw [groupInner, Node.tokensOf_listRun, Node.tokensOf_groupComparisons, Node.tokensOf_groupNames,
    Node.tokensOf_groupCalls]

theorem tokensOf_groupRoot (table : Bool) (ns : List Node) :
    Node.tokensOf (groupRoot table ns) = Node.tokensOf ns := by
  simp only [groupRoot]
  rw [Node.tokensOf_groupWhere, Node.tokensOf_groupLists, Node.tokensOf_groupComparisons,
    Node.tokensOf_groupNames]
  split
  · rfl
  · exact Node.tokensOf_groupCalls ns

namespace Nested

mutual

theorem node_tokens (forced : Bool) : (item : Nested) → (item.node forced).tokens = item.tokens
  | .token _ => rfl
  | .parens opening inner closing => by
      rw [node, Node.tokens, Node.tokensOf, Node.tokensOf_append, tokensOf_groupInner,
        nodes_tokens inner]
      rfl

theorem nodes_tokens : (items : List Nested) → Node.tokensOf (nodes items) = tokensOf items
  | [] => rfl
  | item :: items => by
      rw [nodes, Node.tokensOf, node_tokens false item, nodes_tokens items, tokensOf]

end

theorem outerNodes_tokens (afterValues : Bool) (items : List Nested) :
    Node.tokensOf (outerNodes afterValues items) = tokensOf items := by
  induction items generalizing afterValues with
  | nil => rfl
  | cons item items ih => rw [outerNodes, Node.tokensOf, node_tokens, ih, tokensOf]

end Nested

theorem tokensOf_rootNodes (items : List Nested) :
    Node.tokensOf (rootNodes items) = Nested.tokensOf items := by
  rw [rootNodes, tokensOf_groupRoot, Nested.outerNodes_tokens]

theorem ofText_tokens {sql : String} {root : Group} (h : Group.ofText sql = .ok root) :
    ∃ statement, readStatement sql = .ok statement ∧ root.leaves.map Leaf.token = statement := by
  rw [Group.ofText] at h
  split at h
  · simp only [reduceCtorEq] at h
  · rename_i statement hread
    split at h
    · simp only [reduceCtorEq] at h
    · rename_i items hnest
      simp only [Except.ok.injEq] at h
      refine ⟨statement, hread, ?_⟩
      rw [← h, Group.leaves_tokens, Group.toNode, Node.tokens, tokensOf_rootNodes,
        Nested.tokens_of_nest hnest]

end SqlGist
