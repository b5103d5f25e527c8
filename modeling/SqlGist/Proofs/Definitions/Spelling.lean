import SqlGist.Proofs.Definitions.Words

/-!
# Writing Definitions Down

How the entries of a table definition are written. An entry comes with its
items, with the tree that the passes make of them, and with the proofs that the
items are read back and that they are grouped into that tree.

## Main definitions

* `TypeSpec.items`, `ColumnSpec.items`, `KeySpec.items`, `Entry.items`: How
  types, definitions, keys and entries are written.
* `TypeSpec.node`, `ColumnSpec.tree`, `KeySpec.tree`, `Entry.tree`: Their trees.

## Theorems

* `phrase_nameList`, `plain_nameList`, `node_nameList`: Names listed between
  parentheses.
* `phrase_items`, `plain_items`: An entry can stand in a statement.
* `partTree_items`: The passes turn the items of an entry into its tree.
-/

namespace SqlGist

/-- A quoted name as an item. -/
def nameItems (name : String) : List Nested :=
  [.token (.quotedName name)]

/-- A quoted name as a node. -/
def nameTree (name : String) : List Node :=
  [Node.nameRef (.leaf (.quotedName name))]

theorem phrase_nameItems (name : String) : Token.Phrase (Nested.tokensOf (nameItems name)) :=
  Token.phrase_singleton fun operandExpected => Token.word_quotedName operandExpected name

theorem plain_nameItems (name : String) : ∀ item ∈ nameItems name, item.Plain := by
  intro item hitem
  rw [List.mem_singleton.1 hitem]
  exact .token (Token.plain_name _)

theorem partTree_nameItems (name : String) : Node.PartTree (nameItems name) (nameTree name) where
  grouped ns hns := Node.groupLevel_name rfl hns.no_parenthesis hns.noOperatorNext
  nonempty := List.cons_ne_nil _ _
  trimmed := by
    constructor
    · intro n hn
      rw [nameTree, List.head?_cons, Option.some.injEq] at hn
      rw [← hn]
      rfl
    · intro n hn
      rw [nameTree, List.getLast?_singleton, Option.some.injEq] at hn
      rw [← hn]
      rfl
  no_comma n hn := by
    rw [List.mem_singleton.1 hn]
    rfl

section NameList

variable (names : List String)

theorem phrase_nameList : Token.Phrase (Nested.enclosed (names.map nameItems)).tokens := by
  refine Nested.phrase_enclosed fun part hpart => ?_
  rcases List.mem_map.1 hpart with ⟨name, -, rfl⟩
  exact (phrase_nameItems name).argument

theorem plain_nameList : (Nested.enclosed (names.map nameItems)).Plain := by
  refine Nested.plain_enclosed fun part hpart => ?_
  rcases List.mem_map.1 hpart with ⟨name, -, rfl⟩
  exact plain_nameItems name

theorem node_nameList :
    (Nested.enclosed (names.map nameItems)).node false = Node.enclosed (names.map nameTree) :=
  Node.node_enclosed fun name _ => partTree_nameItems name

end NameList

namespace TypeSpec

/-- The numerals of a type between parentheses. -/
def arguments (numerals : List Numeral) : Nested :=
  Nested.enclosed (numerals.map fun n => [.token n.token])

/-- A type as it is written. -/
def items : TypeSpec → List Nested
  | builtin word _ => [.token (.bare .builtin word)]
  | call name _ _ numerals => [.token (.bare .name name), arguments numerals]

/-- The node of a type. -/
def node : TypeSpec → Node
  | builtin word _ => .leaf (.bare .builtin word)
  | call name _ _ numerals =>
    .group .functionCall [Node.nameRef (.leaf (.bare .name name)), (arguments numerals).node false]

theorem phrase_items (t : TypeSpec) : Token.Phrase (Nested.tokensOf t.items) := by
  cases t with
  | builtin word h =>
      exact Token.phrase_singleton fun operandExpected => Token.word_builtin operandExpected h
  | call name hbare hk numerals =>
      have harguments : Token.Phrase (arguments numerals).tokens := by
        refine Nested.phrase_enclosed fun part hpart => ?_
        rcases List.mem_map.1 hpart with ⟨n, -, rfl⟩
        exact (Token.phrase_singleton n.word).argument
      have hcall := Token.phrase_call hbare hk harguments
      unfold items Nested.tokensOf Nested.tokensOf Nested.tokensOf
      rw [List.append_nil]
      exact hcall

theorem plain_items (t : TypeSpec) : ∀ item ∈ t.items, item.Plain := by
  cases t with
  | builtin word h =>
      intro item hitem
      rw [List.mem_singleton.1 hitem]
      exact .token (Token.plain_bare word TokenKind.noConfusion TokenKind.noConfusion fun _ =>
        TokenKind.noConfusion)
  | call name hbare hk numerals =>
      intro item hitem
      rcases List.mem_cons.1 hitem with rfl | hitem
      · exact .token (Token.plain_name name)
      · rw [List.mem_singleton.1 hitem]
        refine Nested.plain_enclosed fun part hpart item hitem => ?_
        rcases List.mem_map.1 hpart with ⟨n, -, rfl⟩
        rw [List.mem_singleton.1 hitem]
        exact .token n.plain

theorem node_visible (t : TypeSpec) : t.node.isWhitespace = false ∧
    t.node.isComparisonOperator = false ∧ t.node.isMark "," = false := by
  cases t <;> exact ⟨rfl, rfl, rfl⟩

/-- A type is one node, whatever stands in its parentheses. -/
theorem groupLevel_items (t : TypeSpec) {ns : List Node} (hns : Node.NoOperatorNext ns) :
    Node.groupLevel (Nested.nodes t.items ++ ns) = t.node :: Node.groupLevel ns := by
  cases t with
  | builtin word h => exact Node.groupLevel_pass rfl rfl ns
  | call name hbare hk numerals => exact Node.groupLevel_call rfl rfl hns

end TypeSpec

namespace ColumnSpec

/-- The words behind the type. -/
def words (c : ColumnSpec) : List Token :=
  c.constraints.flatMap InlineConstraint.words

/-- A definition as it is written. -/
def items (c : ColumnSpec) : List Nested :=
  nameItems c.name ++ (.token .space :: (c.type.items ++ Nested.spaced c.words))

/-- The tree of a definition. -/
def tree (c : ColumnSpec) : List Node :=
  nameTree c.name ++ (.leaf .space :: c.type.node :: Nested.nodes (Nested.spaced c.words))

theorem mem_tree (c : ColumnSpec) {n : Node} (h : n ∈ c.tree) :
    n = Node.nameRef (.leaf (.quotedName c.name)) ∨ n = c.type.node ∨
      ∃ t ∈ Token.space :: c.words, n = .leaf t := by
  rcases List.mem_cons.1 h with rfl | h
  · exact Or.inl rfl
  · rcases List.mem_cons.1 h with rfl | h
    · exact Or.inr (Or.inr ⟨_, List.mem_cons_self, rfl⟩)
    · rcases List.mem_cons.1 h with rfl | h
      · exact Or.inr (Or.inl rfl)
      · rcases mem_nodes_spaced h with rfl | ⟨t, ht, rfl⟩
        · exact Or.inr (Or.inr ⟨_, List.mem_cons_self, rfl⟩)
        · exact Or.inr (Or.inr ⟨t, List.mem_cons_of_mem _ ht, rfl⟩)

theorem kind_words (c : ColumnSpec) : ∀ t ∈ c.words, t.kind ∈ wordKinds := by
  intro t ht
  rcases List.mem_flatMap.1 ht with ⟨constraint, -, ht⟩
  exact constraint.kind_words t ht

theorem chunk_words (c : ColumnSpec) :
    Token.Chunk (Nested.tokensOf (Nested.spaced c.words)) := by
  rw [words, Nested.spaced, List.flatMap_assoc, Nested.tokensOf_flatMap]
  exact Token.chunk_flatMap fun constraint _ => constraint.chunk_words

theorem phrase_items (c : ColumnSpec) : Token.Phrase (Nested.tokensOf c.items) := by
  -- The blank keeps the name and the type apart.
  have hbehind : Token.Chunk
      (.space :: Nested.tokensOf (c.type.items ++ Nested.spaced c.words)) := by
    rw [Nested.tokensOf_append]
    exact Token.chunk_space (Token.phrase_append c.type.phrase_items c.chunk_words)
  rw [items, Nested.tokensOf_append]
  exact Token.phrase_append (phrase_nameItems c.name) hbehind

theorem plain_items (c : ColumnSpec) : ∀ item ∈ c.items, item.Plain := by
  have hwords : ∀ t ∈ c.words, t.Plain := by
    intro t ht
    rcases List.mem_flatMap.1 ht with ⟨constraint, -, ht⟩
    exact constraint.plain_words t ht
  intro item hitem
  rcases List.mem_append.1 hitem with hitem | hitem
  · exact plain_nameItems c.name item hitem
  · rcases List.mem_cons.1 hitem with rfl | hitem
    · exact .token Token.plain_space
    · rcases List.mem_append.1 hitem with hitem | hitem
      · exact c.type.plain_items item hitem
      · exact Nested.plain_spaced hwords item hitem

theorem partTree_items (c : ColumnSpec) : Node.PartTree c.items c.tree where
  grouped ns hns := by
    have hwords := noOperatorNext_spaced c.kind_words hns.noOperatorNext
    -- No operator comes behind the name, nor behind the type.
    have htype : Node.NoOperatorNext (.leaf .space :: (Nested.nodes c.type.items ++
        (Nested.nodes (Nested.spaced c.words) ++ ns))) := by
      refine Node.noOperatorNext_cons rfl fun _ => ?_
      cases c.type <;>
        exact Node.noOperatorNext_cons rfl fun hblank => absurd hblank Bool.false_ne_true
    have hnodes : Nested.nodes c.items ++ ns = .leaf (.quotedName c.name) :: .leaf .space ::
        (Nested.nodes c.type.items ++ (Nested.nodes (Nested.spaced c.words) ++ ns)) := by
      rw [items, Nested.nodes_append, Nested.nodes, Nested.nodes_append, List.append_assoc,
        List.cons_append, List.append_assoc]
      rfl
    rw [hnodes, Node.groupLevel_name rfl ?_ htype, Node.groupLevel_space,
      c.type.groupLevel_items hwords, groupLevel_spaced c.kind_words hns.noOperatorNext, tree,
      List.append_assoc]
    · rfl
    · intro p hp
      rw [List.head?_cons, Option.some.injEq] at hp
      rw [← hp]
      rfl
  nonempty := List.cons_ne_nil _ _
  trimmed := by
    constructor
    · intro n hn
      rw [tree, nameTree, List.cons_append, List.head?_cons, Option.some.injEq] at hn
      rw [← hn]
      rfl
    · intro n hn
      rw [tree, nameTree, List.cons_append, List.nil_append, List.getLast?_cons_cons,
        List.getLast?_cons_cons] at hn
      exact getLast_spaced c.kind_words c.type.node_visible.1 n hn
  no_comma n hn := by
    rcases c.mem_tree hn with rfl | rfl | ⟨t, ht, rfl⟩
    · rfl
    · exact c.type.node_visible.2.2
    · rcases List.mem_cons.1 ht with rfl | ht
      · rfl
      · exact (Token.of_mem_wordKinds (c.kind_words t ht)).2.2.2.1 ","

end ColumnSpec

namespace KeySpec

/-- The columns of a key between parentheses. -/
def list (k : KeySpec) : Nested :=
  Nested.enclosed (k.columns.map nameItems)

/-- The node of these columns. -/
def listNode (k : KeySpec) : Node :=
  Node.enclosed (k.columns.map nameTree)

/-- A key as it is written. -/
def items (k : KeySpec) : List Nested :=
  .token k.kind.opening :: (Nested.spaced k.kind.behind ++ [.token .space, k.list])

/-- The tree of a key. -/
def tree (k : KeySpec) : List Node :=
  .leaf k.kind.opening ::
    (Nested.nodes (Nested.spaced k.kind.behind) ++ [.leaf .space, k.listNode])

theorem mem_tree (k : KeySpec) {n : Node} (h : n ∈ k.tree) :
    (∃ t ∈ Token.space :: k.kind.opening :: k.kind.behind, n = .leaf t) ∨ n = k.listNode := by
  rcases List.mem_cons.1 h with rfl | h
  · exact Or.inl ⟨_, List.mem_cons_of_mem _ List.mem_cons_self, rfl⟩
  · rcases List.mem_append.1 h with h | h
    · rcases mem_nodes_spaced h with rfl | ⟨t, ht, rfl⟩
      · exact Or.inl ⟨_, List.mem_cons_self, rfl⟩
      · exact Or.inl ⟨t, List.mem_cons_of_mem _ (List.mem_cons_of_mem _ ht), rfl⟩
    · simp only [List.mem_cons, List.not_mem_nil, or_false] at h
      rcases h with rfl | rfl
      · exact Or.inl ⟨_, List.mem_cons_self, rfl⟩
      · exact Or.inr rfl

theorem node_list (k : KeySpec) : k.list.node false = k.listNode :=
  node_nameList k.columns

theorem phrase_items (k : KeySpec) : Token.Phrase (Nested.tokensOf k.items) := by
  have hlist : Token.Phrase k.list.tokens := phrase_nameList k.columns
  have hbehind : Token.Chunk (Nested.tokensOf (Nested.spaced k.kind.behind)) :=
    Nested.chunk_spacedWords fun t ht => k.kind.word_words t (List.mem_cons_of_mem _ ht)
  have hend : Token.Chunk (Nested.tokensOf [.token .space, k.list]) := by
    rw [Nested.tokensOf, Nested.tokensOf, Nested.tokensOf, List.append_nil]
    exact Token.chunk_space hlist
  rw [items, Nested.tokensOf, Nested.tokens, List.singleton_append, Nested.tokensOf_append]
  exact Token.phrase_cons (k.kind.word_words _ List.mem_cons_self)
    (Token.chunk_append hbehind hend)

theorem plain_items (k : KeySpec) : ∀ item ∈ k.items, item.Plain := by
  have hwords := k.kind.plain_words
  intro item hitem
  rcases List.mem_cons.1 hitem with rfl | hitem
  · exact .token (hwords _ List.mem_cons_self)
  · rcases List.mem_append.1 hitem with hitem | hitem
    · exact Nested.plain_spaced (fun t ht => hwords t (List.mem_cons_of_mem _ ht)) item hitem
    · simp only [List.mem_cons, List.not_mem_nil, or_false] at hitem
      rcases hitem with rfl | rfl
      · exact .token Token.plain_space
      · exact plain_nameList k.columns

theorem partTree_items (k : KeySpec) : Node.PartTree k.items k.tree where
  grouped ns hns := by
    have hopening : Node.isName (.leaf k.kind.opening) = false ∧
        Node.isOperand (.leaf k.kind.opening) = false := by
      cases k.kind <;> exact ⟨rfl, rfl⟩
    have hbehind : ∀ t ∈ k.kind.behind, t.kind ∈ wordKinds := fun t ht =>
      k.kind.kind_words t (List.mem_cons_of_mem _ ht)
    -- The list stands apart from the keyword, so it is no call.
    have hlist : Node.groupLevel (.leaf .space :: k.listNode :: ns) =
        .leaf .space :: k.listNode :: Node.groupLevel ns := by
      rw [Node.groupLevel_space, Node.groupLevel_pass rfl rfl]
    have hnext : Node.NoOperatorNext (.leaf .space :: k.listNode :: ns) :=
      Node.noOperatorNext_cons rfl fun _ =>
        Node.noOperatorNext_cons rfl fun hblank => absurd hblank Bool.false_ne_true
    have hnodes : Nested.nodes k.items ++ ns = .leaf k.kind.opening ::
        (Nested.nodes (Nested.spaced k.kind.behind) ++ .leaf .space :: k.listNode :: ns) := by
      rw [items, Nested.nodes, Nested.nodes_append, Nested.nodes, Nested.nodes, node_list,
        Nested.nodes, List.cons_append, List.append_assoc]
      rfl
    rw [hnodes, Node.groupLevel_pass hopening.1 hopening.2, groupLevel_spaced hbehind hnext, hlist,
      tree, List.cons_append, List.append_assoc]
    rfl
  nonempty := List.cons_ne_nil _ _
  trimmed := by
    constructor
    · intro n hn
      rw [tree, List.head?_cons, Option.some.injEq] at hn
      rw [← hn]
      cases k.kind <;> rfl
    · -- The list is the last node of a key.
      intro n hn
      have hlast : k.tree.getLast? = some k.listNode := by
        rw [tree, ← List.cons_append, List.getLast?_append]
        rfl
      rw [hlast, Option.some.injEq] at hn
      rw [← hn]
      rfl
  no_comma n hn := by
    rcases k.mem_tree hn with ⟨t, ht, rfl⟩ | rfl
    · rcases List.mem_cons.1 ht with rfl | ht
      · rfl
      · exact (Token.of_mem_wordKinds (k.kind.kind_words t ht)).2.2.2.1 ","
    · rfl

end KeySpec

namespace Entry

/-- An entry as it is written. -/
def items : Entry → List Nested
  | column c => c.items
  | key k => k.items

/-- The tree of an entry. -/
def tree : Entry → List Node
  | column c => c.tree
  | key k => k.tree

theorem phrase_items (e : Entry) : Token.Phrase (Nested.tokensOf e.items) := by
  cases e with
  | column c => exact c.phrase_items
  | key k => exact k.phrase_items

theorem plain_items (e : Entry) : ∀ item ∈ e.items, item.Plain := by
  cases e with
  | column c => exact c.plain_items
  | key k => exact k.plain_items

theorem partTree_items (e : Entry) : Node.PartTree e.items e.tree := by
  cases e with
  | column c => exact c.partTree_items
  | key k => exact k.partTree_items

end Entry

end SqlGist
