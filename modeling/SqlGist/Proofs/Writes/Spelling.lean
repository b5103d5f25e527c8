import SqlGist.Proofs.Definitions.Spelling
import SqlGist.Proofs.Filter.Spelling

/-!
# Writing Changes Down

How an insertion and an update are written. Both give values, each in its own
way: an insertion lists them in a tuple, apart from the names, and an update
puts each behind its name and an operator. The condition of an update is one more
comparison of that kind, with any operator.

A value may open with a sign, so it is read back only where an operand is
expected. That is so behind an operator, behind a comma, and behind an opening
parenthesis, and a value stands nowhere else.

## Main definitions

* `ComparisonSpec`, `AssignmentSpec`: Comparisons and assignments that can be
  written.
* `IntoSpec`: The table of an insertion, with its columns.
* `ComparisonSpec.items`, `IntoSpec.items`, `DefaultValue.items`: How they are
  written.
* `ComparisonSpec.tree`, `IntoSpec.tree`, `DefaultValue.tree`: Their trees.

## Theorems

* `phrase_items`, `plain_items`: They can stand in a statement.
* `groupLevel_items`: The passes turn a comparison into its tree.
* `node_tuple`: And listed values into theirs.
* `settled_tree`: In the table of an insertion nothing is left to group.
-/

namespace SqlGist

/-- A comparison of a name and a value that can be written. -/
structure ComparisonSpec where
  name : String
  operator : String
  value : DefaultValue
  known : operator ∈ conditionOperators

/-- A name with the value that it gets. -/
structure AssignmentSpec where
  name : String
  value : DefaultValue

/-- The table of an insertion: alone, or with its columns in parentheses, apart
    from the name or right behind it. -/
inductive IntoSpec
  | alone (table : String)
  | apart (table : String) (columns : List String)
  | joined (table : String) (columns : List String)

namespace DefaultValue

/-- A value as it is written. -/
def items (v : DefaultValue) : List Nested :=
  [.token v.token]

/-- A value as a node. -/
def tree (v : DefaultValue) : List Node :=
  [.leaf v.token]

theorem isValue_token (v : DefaultValue) : v.token.isValue = true := by
  cases v with
  | truth b => cases b <;> rfl
  | _ => rfl

theorem argument_items (v : DefaultValue) : Token.Argument (Nested.tokensOf v.items) :=
  Token.argument_singleton v.word_token

theorem plain_items (v : DefaultValue) : ∀ item ∈ v.items, item.Plain := by
  intro item hitem
  rw [List.mem_singleton.1 hitem]
  exact .token v.plain_token

theorem partTree_items (v : DefaultValue) : Node.PartTree v.items v.tree := by
  rcases Token.of_mem_wordKinds v.kind_token with ⟨hname, hblank, -, hmark, -⟩
  refine ⟨fun ns hns => ?_, List.cons_ne_nil _ _, ⟨fun n hn => ?_, fun n hn => ?_⟩, fun n hn => ?_⟩
  · exact Node.groupLevel_cons hname fun _ => hns.noOperatorNext
  · rw [← Option.some.inj hn]
    exact hblank
  · rw [← Option.some.inj hn]
    exact hblank
  · rw [List.mem_singleton.1 hn]
    exact hmark ","

/-- Listed values as they are written. -/
def tuple (values : List DefaultValue) : Nested :=
  Nested.enclosed (values.map items)

/-- The parts of the node of listed values. They are a list even if there is
    only one of them. -/
def tupleParts (values : List DefaultValue) : List Node :=
  [.leaf (.mark "("), .group .nameList (Node.commas (values.map tree)), .leaf (.mark ")")]

theorem node_tuple {values : List DefaultValue} (hne : values ≠ []) :
    (tuple values).node true = .group .parenthesis (tupleParts values) :=
  Node.node_enclosed_forced (fun v _ => v.partTree_items) hne

theorem phrase_tuple (values : List DefaultValue) : Token.Phrase (tuple values).tokens := by
  refine Nested.phrase_enclosed fun part hpart => ?_
  rcases List.mem_map.1 hpart with ⟨v, -, rfl⟩
  exact v.argument_items

theorem plain_tuple (values : List DefaultValue) : (tuple values).Plain := by
  refine Nested.plain_enclosed fun part hpart => ?_
  rcases List.mem_map.1 hpart with ⟨v, -, rfl⟩
  exact v.plain_items

end DefaultValue

namespace ComparisonSpec

variable (c : ComparisonSpec)

/-- A comparison as it is written. -/
def items : List Nested :=
  nameItems c.name ++ Nested.spaced [operatorToken c.operator, c.value.token]

/-- The parts of its node. -/
def parts : List Node :=
  [Node.nameRef (.leaf (.quotedName c.name)), .leaf .space, .leaf (operatorToken c.operator),
    .leaf .space, .leaf c.value.token]

/-- The tree of a comparison. -/
def tree : List Node :=
  [.group .comparison c.parts]

/-- The condition that a comparison is. -/
def condition : Condition :=
  ⟨c.name, c.operator, c.value.text⟩

theorem expectsOperand_operator (before : Bool) :
    Cursor.expectsOperand before (operatorToken c.operator).kind (operatorToken c.operator).text =
      true := by
  rcases operatorToken_cases c.known with ⟨-, heq⟩ | ⟨-, heq⟩ <;> rw [heq] <;> rfl

theorem phrase_items : Token.Phrase (Nested.tokensOf c.items) := by
  have hchunk : Token.Chunk (Nested.tokensOf
      (Nested.spaced [operatorToken c.operator, c.value.token])) :=
    Token.chunk_operand (word_operatorToken c.known) c.expectsOperand_operator c.value.word_token
  rw [items, Nested.tokensOf_append]
  exact Token.phrase_append (phrase_nameItems c.name) hchunk

theorem plain_items : ∀ item ∈ c.items, item.Plain := by
  intro item hitem
  rcases List.mem_append.1 hitem with hitem | hitem
  · exact plain_nameItems c.name item hitem
  · refine Nested.plain_spaced (fun t ht => ?_) item hitem
    simp only [List.mem_cons, List.not_mem_nil, or_false] at ht
    rcases ht with rfl | rfl
    · exact plain_operatorToken c.known
    · exact c.value.plain_token

/-- A comparison is one node, whatever follows. -/
theorem groupLevel_items (ns : List Node) :
    Node.groupLevel (Nested.nodes c.items ++ ns) = c.tree ++ Node.groupLevel ns := by
  rcases Token.of_mem_wordKinds c.value.kind_token with ⟨hname, hblank, -⟩
  have hoperator := not_name_operatorToken c.known
  exact Node.groupLevel_comparison ns rfl rfl (compares_operatorToken c.known) hoperator.1
    hoperator.2 rfl c.value.isValue_token hblank hname

/-- No `VALUES` stands in a comparison. -/
theorem not_values_items : ∀ item ∈ c.items, item.keyword? ≠ some .values := by
  have hvalue : c.value.token.keyword? ≠ some .values := by
    cases c.value with
    | truth b => cases b <;> exact fun hk => absurd hk (by decide)
    | null => exact fun hk => absurd hk (by decide)
    | _ => exact fun hk => Option.some_ne_none _ hk.symm
  have hoperator : (operatorToken c.operator).keyword? ≠ some .values := by
    rcases operatorToken_cases c.known with ⟨-, heq⟩ | ⟨-, heq⟩
    · rw [heq]
      exact fun hk => absurd hk (by decide)
    · rw [heq]
      exact fun hk => Option.some_ne_none _ hk.symm
  intro item hitem
  simp only [items, nameItems, Nested.spaced, List.flatMap_cons, List.flatMap_nil, List.cons_append,
    List.nil_append, List.mem_cons, List.not_mem_nil, or_false] at hitem
  rcases hitem with rfl | rfl | rfl | rfl | rfl
  · exact fun hk => Option.some_ne_none _ hk.symm
  · exact fun hk => Option.some_ne_none _ hk.symm
  · exact hoperator
  · exact fun hk => Option.some_ne_none _ hk.symm
  · exact hvalue

end ComparisonSpec

namespace AssignmentSpec

/-- An assignment is a comparison by `=`. -/
def comparison (a : AssignmentSpec) : ComparisonSpec :=
  ⟨a.name, "=", a.value, by decide⟩

/-- An assignment as it is written. -/
def items (a : AssignmentSpec) : List Nested :=
  a.comparison.items

/-- Its tree. -/
def tree (a : AssignmentSpec) : List Node :=
  a.comparison.tree

end AssignmentSpec

namespace IntoSpec

/-- The name of the table. -/
def table : IntoSpec → String
  | alone table => table
  | apart table _ => table
  | joined table _ => table

/-- The columns that an insertion names. -/
def columns : IntoSpec → List String
  | alone _ => []
  | apart _ columns => columns
  | joined _ columns => columns

/-- The table of an insertion as it is written. -/
def items : IntoSpec → List Nested
  | alone table => nameItems table
  | apart table columns =>
    nameItems table ++ [.token .space, Nested.enclosed (columns.map nameItems)]
  | joined table columns => nameItems table ++ [Nested.enclosed (columns.map nameItems)]

/-- Its tree. A parenthesis right behind the name makes a call of it. -/
def tree : IntoSpec → List Node
  | alone table => nameTree table
  | apart table columns =>
    nameTree table ++ [.leaf .space, Node.enclosed (columns.map nameTree)]
  | joined table columns =>
    [.group .functionCall (nameTree table ++ [Node.enclosed (columns.map nameTree)])]

theorem phrase_items (i : IntoSpec) : Token.Phrase (Nested.tokensOf i.items) := by
  cases i with
  | alone table => exact phrase_nameItems table
  | apart table columns =>
      have hlist := Token.chunk_space (phrase_nameList columns)
      rw [items, Nested.tokensOf_append, Nested.tokensOf, Nested.tokensOf, Nested.tokensOf,
        List.append_nil]
      exact Token.phrase_append (phrase_nameItems table) hlist
  | joined table columns =>
      have hlist := phrase_nameList columns
      rw [Nested.enclosed, Nested.tokens] at hlist
      rw [items, Nested.tokensOf_append, Nested.tokensOf, Nested.tokensOf, List.append_nil,
        Nested.enclosed, Nested.tokens]
      exact Token.phrase_quotedCall table hlist

theorem plain_items (i : IntoSpec) : ∀ item ∈ i.items, item.Plain := by
  intro item hitem
  cases i with
  | alone table => exact plain_nameItems table item hitem
  | apart table columns =>
      rcases List.mem_append.1 hitem with hitem | hitem
      · exact plain_nameItems table item hitem
      · simp only [List.mem_cons, List.not_mem_nil, or_false] at hitem
        rcases hitem with rfl | rfl
        · exact .token Token.plain_space
        · exact plain_nameList columns
  | joined table columns =>
      rcases List.mem_append.1 hitem with hitem | hitem
      · exact plain_nameItems table item hitem
      · rw [List.mem_singleton.1 hitem]
        exact plain_nameList columns

theorem settled_tree (i : IntoSpec) : ∀ n ∈ i.tree, n.Settled := by
  intro n hn
  cases i <;> simp only [tree, nameTree, List.cons_append, List.nil_append, List.mem_cons,
    List.not_mem_nil, or_false] at hn
  · rw [hn]
    exact Node.settled_name _
  · rcases hn with rfl | rfl | rfl
    · exact Node.settled_name _
    · decide
    · exact Node.settled_group _ _
  · rw [hn]
    exact Node.settled_group _ _

end IntoSpec

end SqlGist
