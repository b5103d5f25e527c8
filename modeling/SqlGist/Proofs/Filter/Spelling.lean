import SqlGist.Proofs.Extraction.Spelled
import SqlGist.Proofs.Tree.Levels
import SqlGist.Filter.Basic

/-!
# Writing Filters Down

A filter that can be written is one that a `WHERE` clause can say: it opens
with a conjunction, as the clause and every parenthesis do, and each of its
nodes holds one condition or a filter of its own. That is `Formed`.

The spelling follows the items. A node in front is written without what
introduces it, a node behind with it, and a filter inside another stands in
parentheses. The tree is given by a recursion of the same form, and
`groupLevel_spelling` says that the passes turn the one into the other, at
every depth.

## Main definitions

* `FilterItem.Formed`: A node that can be written.
* `WellFormed`: A whole filter that can be.
* `FilterItem.spelling`, `FilterItem.spellingOf`: How it is written.
* `FilterItem.tree`, `FilterItem.treeOf`: Its tree.

## Theorems

* `chunk_spelling`, `plain_spelling`: The spelling can stand in a statement.
* `groupLevel_spelling`: The passes turn a spelling into its tree.
* `depth_spelling`: A filter is one deeper than its parentheses.
* `conditions_spelling`: Its conditions stand in order.
-/

namespace SqlGist

/-- The operators that a condition can have. -/
def conditionOperators : List String :=
  Node.comparisonOperators ++ ["LIKE"]

/-- The token of an operator. -/
def operatorToken (operator : String) : Token :=
  if operator = "LIKE" then .ofKeyword .like else .bare .operator operator

/-- The token of a connective. -/
def Connective.token : Connective → Token
  | .and => .ofKeyword .and
  | .or => .ofKeyword .or

/-- A condition as it is written: a quoted name, an operator and a string. -/
def Condition.tokens (c : Condition) : List Token :=
  [.quotedName c.column, operatorToken c.operator, .stringLiteral c.value]

/-- The tree of a condition, with the space in front of it. -/
def Condition.tree (c : Condition) : List Node :=
  [.leaf .space,
    .group .comparison [Node.nameRef (.leaf (.quotedName c.column)), .leaf .space,
      .leaf (operatorToken c.operator), .leaf .space, .leaf (.stringLiteral c.value)]]

namespace FilterItem

/-- What introduces an item. -/
def connective : FilterItem → Connective
  | .condition _ => .and
  | .node c _ => c

/-- The first node is a conjunction. -/
def OpensWithAnd (items : List FilterItem) : Prop :=
  ∃ held rest, items = .node .and held :: rest

/-- A node that can be written: it holds one condition with a known operator, or
    a filter that can be written. -/
inductive Formed : FilterItem → Prop
  | condition {k : Connective} {c : Condition} (h : c.operator ∈ conditionOperators) :
      Formed (.node k [.condition c])
  | nested {k : Connective} {items : List FilterItem} (hand : OpensWithAnd items)
      (hall : ∀ item ∈ items, Formed item) : Formed (.node k items)

mutual

/-- What a node holds, as it is written. -/
def spelling : FilterItem → List Nested
  | .condition c => Nested.spaced c.tokens
  | .node _ [.condition c] => Nested.spaced c.tokens
  | .node _ items =>
    [.token .space, .parens (.mark "(") (spellingOf items ++ [.token .space]) (.mark ")")]

/-- A filter as it is written behind what introduces it. -/
def spellingOf : List FilterItem → List Nested
  | [] => []
  | item :: items => item.spelling ++ spellingBehind items

/-- Nodes as they are written behind others. -/
def spellingBehind : List FilterItem → List Nested
  | [] => []
  | item :: items =>
    Nested.spaced [item.connective.token] ++ (item.spelling ++ spellingBehind items)

end

mutual

/-- The tree of what a node holds. -/
def tree : FilterItem → List Node
  | .condition c => c.tree
  | .node _ [.condition c] => c.tree
  | .node _ items =>
    [.leaf .space,
      .group .parenthesis
        (.leaf (.mark "(") :: ((treeOf items ++ [.leaf .space]) ++ [.leaf (.mark ")")]))]

/-- The tree of a filter behind what introduces it. -/
def treeOf : List FilterItem → List Node
  | [] => []
  | item :: items => item.tree ++ treeBehind items

/-- The tree of nodes behind others. -/
def treeBehind : List FilterItem → List Node
  | [] => []
  | item :: items =>
    .leaf .space :: .leaf item.connective.token :: (item.tree ++ treeBehind items)

end

theorem spelling_nested {k : Connective} {items : List FilterItem} (h : OpensWithAnd items) :
    (node k items).spelling =
      [.token .space, .parens (.mark "(") (spellingOf items ++ [.token .space]) (.mark ")")] := by
  rcases h with ⟨held, rest, rfl⟩
  rw [spelling]
  exact fun c hc => FilterItem.noConfusion (List.cons.inj hc).1

theorem tree_nested {k : Connective} {items : List FilterItem} (h : OpensWithAnd items) :
    (node k items).tree =
      [.leaf .space,
        .group .parenthesis
          (.leaf (.mark "(") :: ((treeOf items ++ [.leaf .space]) ++ [.leaf (.mark ")")]))] := by
  rcases h with ⟨held, rest, rfl⟩
  rw [tree]
  exact fun c hc => FilterItem.noConfusion (List.cons.inj hc).1

end FilterItem

/-- A filter that can be written. -/
def WellFormed (nodes : List FilterNode) : Prop :=
  FilterItem.OpensWithAnd (nodes.map FilterNode.toItem) ∧
    ∀ n ∈ nodes, n.toItem.Formed

section Operator

variable {operator : String} (h : operator ∈ conditionOperators)

include h

theorem operatorToken_cases :
    operator = "LIKE" ∧ operatorToken operator = .ofKeyword .like ∨
      operator ∈ Node.comparisonOperators ∧ operatorToken operator = .bare .operator operator := by
  rcases List.mem_append.1 h with hmem | hmem
  · refine Or.inr ⟨hmem, if_neg ?_⟩
    rintro rfl
    exact absurd hmem (by decide)
  · rw [List.mem_singleton] at hmem
    exact Or.inl ⟨hmem, if_pos hmem⟩

theorem word_operatorToken (operandExpected : Bool) :
    Token.Word operandExpected (operatorToken operator) := by
  rcases operatorToken_cases h with ⟨-, heq⟩ | ⟨hmem, heq⟩
  · rw [heq]
    exact Token.word_ofKeyword operandExpected (by decide) (by decide)
  · rw [heq]
    exact Token.word_operator operandExpected hmem

theorem plain_operatorToken : (operatorToken operator).Plain := by
  rcases operatorToken_cases h with ⟨-, heq⟩ | ⟨-, heq⟩
  · rw [heq]
    exact Token.plain_ofKeyword .like
  · rw [heq]
    exact Token.plain_bare operator TokenKind.noConfusion TokenKind.noConfusion
      fun _ => TokenKind.noConfusion

theorem compares_operatorToken : Node.isComparisonOperator (.leaf (operatorToken operator)) := by
  rcases operatorToken_cases h with ⟨-, heq⟩ | ⟨hmem, heq⟩
  · rw [heq]
    rfl
  · rw [heq]
    simp only [Node.isComparisonOperator, Node.leaf?, Option.any_some, Token.bare, decide_true,
      List.contains_iff_mem.2 hmem, Bool.and_self, Bool.true_or]

theorem normalized_operatorToken : (operatorToken operator).normalized = operator := by
  rcases operatorToken_cases h with ⟨hlike, heq⟩ | ⟨-, heq⟩
  · rw [heq, hlike]
    rfl
  · rw [heq]
    rfl

theorem not_name_operatorToken :
    (operatorToken operator).isName = false ∧ (operatorToken operator).isWhitespace = false := by
  rcases operatorToken_cases h with ⟨-, heq⟩ | ⟨-, heq⟩
  · rw [heq]
    exact ⟨rfl, rfl⟩
  · rw [heq]
    exact ⟨rfl, rfl⟩

end Operator

theorem word_connective (k : Connective) (operandExpected : Bool) :
    Token.Word operandExpected k.token := by
  cases k <;> exact Token.word_ofKeyword operandExpected (by decide) (by decide)

theorem plain_connective (k : Connective) : k.token.Plain := by
  cases k <;> exact Token.plain_ofKeyword _

theorem word_conditionTokens {c : Condition} (h : c.operator ∈ conditionOperators) :
    ∀ t ∈ c.tokens, ∀ operandExpected, Token.Word operandExpected t := by
  intro t ht operandExpected
  simp only [Condition.tokens, List.mem_cons, List.not_mem_nil, or_false] at ht
  rcases ht with rfl | rfl | rfl
  · exact Token.word_quotedName operandExpected c.column
  · exact word_operatorToken h operandExpected
  · exact Token.word_stringLiteral operandExpected c.value

theorem plain_conditionTokens {c : Condition} (h : c.operator ∈ conditionOperators) :
    ∀ t ∈ c.tokens, t.Plain := by
  intro t ht
  simp only [Condition.tokens, List.mem_cons, List.not_mem_nil, or_false] at ht
  rcases ht with rfl | rfl | rfl
  · exact Token.plain_name _
  · exact plain_operatorToken h
  · exact Token.plain_bare _ TokenKind.noConfusion TokenKind.noConfusion
      fun _ => TokenKind.noConfusion

namespace FilterItem

/-- Nodes behind others make a chunk if each of them does. -/
theorem chunk_spellingBehind {items : List FilterItem}
    (h : ∀ item ∈ items, Token.Chunk (Nested.tokensOf item.spelling)) :
    Token.Chunk (Nested.tokensOf (spellingBehind items)) := by
  induction items with
  | nil =>
      rw [spellingBehind]
      exact Token.chunk_nil
  | cons item items ih =>
      rw [spellingBehind, Nested.tokensOf_append, Nested.tokensOf_append]
      refine Token.chunk_append (Nested.chunk_spacedWords ?_) (Token.chunk_append
        (h item List.mem_cons_self) (ih fun i hi => h i (List.mem_cons_of_mem _ hi)))
      intro t ht
      rw [List.mem_singleton] at ht
      rw [ht]
      exact word_connective item.connective

theorem chunk_spellingOf {items : List FilterItem}
    (h : ∀ item ∈ items, Token.Chunk (Nested.tokensOf item.spelling)) :
    Token.Chunk (Nested.tokensOf (spellingOf items)) := by
  cases items with
  | nil =>
      rw [spellingOf]
      exact Token.chunk_nil
  | cons item items =>
      rw [spellingOf, Nested.tokensOf_append]
      exact Token.chunk_append (h item List.mem_cons_self)
        (chunk_spellingBehind fun i hi => h i (List.mem_cons_of_mem _ hi))

theorem chunk_spelling {item : FilterItem} (h : item.Formed) :
    Token.Chunk (Nested.tokensOf item.spelling) := by
  induction h with
  | condition h =>
      rw [spelling]
      exact Nested.chunk_spacedWords (word_conditionTokens h)
  | nested hand _ ih =>
      -- The space in front of the closing parenthesis belongs to what it closes.
      have hclose : Token.Chunk [Token.space, Token.mark ")"] := by
        refine ⟨fun rest _ => Token.separated_space _ rest, fun e rest hrest => ?_⟩
        exact Token.spelled_space TokenKind.noConfusion
          ((Token.chunk_mark List.mem_cons_self).spelled e rest hrest)
      have hchunk := Token.chunk_open (Token.chunk_append (chunk_spellingOf ih) hclose)
      rw [spelling_nested hand]
      simp only [Nested.tokensOf, Nested.tokens, Nested.tokensOf_append, List.append_nil,
        List.append_assoc, List.cons_append, List.nil_append]
      exact hchunk

/-- What holds of spaces, of connectives, and of all that nodes hold, holds of
    all that is written. -/
theorem forall_spellingBehind {P : Nested → Prop} (hspace : P (.token .space))
    (hconnective : ∀ k : Connective, P (.token k.token)) {items : List FilterItem}
    (h : ∀ item ∈ items, ∀ i ∈ item.spelling, P i) : ∀ i ∈ spellingBehind items, P i := by
  induction items with
  | nil => exact fun i hi => absurd hi List.not_mem_nil
  | cons item items ih =>
      intro i hi
      rw [spellingBehind] at hi
      rcases List.mem_append.1 hi with hi | hi
      · simp only [Nested.spaced, List.flatMap_singleton, List.mem_cons, List.not_mem_nil,
          or_false] at hi
        rcases hi with rfl | rfl
        · exact hspace
        · exact hconnective item.connective
      · rcases List.mem_append.1 hi with hi | hi
        · exact h item List.mem_cons_self i hi
        · exact ih (fun j hj => h j (List.mem_cons_of_mem _ hj)) i hi

theorem forall_spellingOf {P : Nested → Prop} (hspace : P (.token .space))
    (hconnective : ∀ k : Connective, P (.token k.token)) {items : List FilterItem}
    (h : ∀ item ∈ items, ∀ i ∈ item.spelling, P i) : ∀ i ∈ spellingOf items, P i := by
  cases items with
  | nil => exact fun i hi => absurd hi List.not_mem_nil
  | cons item items =>
      intro i hi
      rw [spellingOf] at hi
      rcases List.mem_append.1 hi with hi | hi
      · exact h item List.mem_cons_self i hi
      · exact forall_spellingBehind hspace hconnective
          (fun j hj => h j (List.mem_cons_of_mem _ hj)) i hi

theorem plain_spellingOf {items : List FilterItem}
    (h : ∀ item ∈ items, ∀ i ∈ item.spelling, i.Plain) : ∀ i ∈ spellingOf items, i.Plain :=
  forall_spellingOf (.token Token.plain_space) (fun k => .token (plain_connective k)) h

theorem plain_spelling {item : FilterItem} (h : item.Formed) : ∀ i ∈ item.spelling, i.Plain := by
  induction h with
  | condition h =>
      rw [spelling]
      exact Nested.plain_spaced (plain_conditionTokens h)
  | nested hand _ ih =>
      rw [spelling_nested hand]
      intro i hi
      simp only [List.mem_cons, List.not_mem_nil, or_false] at hi
      rcases hi with rfl | rfl
      · exact .token Token.plain_space
      · refine .parens fun j hj => ?_
        rcases List.mem_append.1 hj with hj | hj
        · exact plain_spellingOf ih j hj
        · rw [List.mem_singleton] at hj
          rw [hj]
          exact .token Token.plain_space

/-- No keyword is written but connectives and `LIKE`. -/
theorem not_values_spelling {item : FilterItem} (h : item.Formed) :
    ∀ i ∈ item.spelling, i.keyword? ≠ some .values := by
  intro i hi
  cases h with
  | @condition k c h =>
      rw [spelling] at hi
      rcases List.mem_flatMap.1 hi with ⟨t, ht, hi⟩
      simp only [Condition.tokens, List.mem_cons, List.not_mem_nil, or_false] at ht hi
      rcases hi with rfl | rfl
      · exact fun hk => absurd hk (by decide)
      · rcases ht with rfl | rfl | rfl
        · exact fun hk => Option.some_ne_none _ hk.symm
        · rcases operatorToken_cases h with ⟨-, heq⟩ | ⟨-, heq⟩
          · rw [heq]
            exact fun hk => absurd hk (by decide)
          · rw [heq]
            exact fun hk => Option.some_ne_none _ hk.symm
        · exact fun hk => Option.some_ne_none _ hk.symm
  | nested hand _ =>
      rw [spelling_nested hand] at hi
      simp only [List.mem_cons, List.not_mem_nil, or_false] at hi
      rcases hi with rfl | rfl
      · exact fun hk => Option.some_ne_none _ hk.symm
      · exact fun hk => Option.some_ne_none _ hk.symm

theorem not_values_spellingOf {items : List FilterItem} (h : ∀ item ∈ items, item.Formed) :
    ∀ i ∈ spellingOf items, i.keyword? ≠ some .values := by
  refine forall_spellingOf (fun hk => Option.some_ne_none _ hk.symm) ?_
    fun item hitem => not_values_spelling (h item hitem)
  intro k
  cases k <;> exact fun hk => absurd hk (by decide)

/-- The tree of a node is a group with a space in front. -/
theorem tree_eq_pair {item : FilterItem} (h : item.Formed) :
    ∃ shape children, item.tree = [.leaf .space, .group shape children] ∧
      (shape = .comparison ∨ shape = .parenthesis) := by
  cases h with
  | condition _ =>
      rw [tree]
      exact ⟨_, _, rfl, Or.inl rfl⟩
  | nested hand _ =>
      rw [tree_nested hand]
      exact ⟨_, _, rfl, Or.inr rfl⟩

/-- A part of the tree of a filter: a space, a connective, or the group of what
    a node holds. -/
def IsPart (n : Node) : Prop :=
  n = .leaf .space ∨ (∃ k : Connective, n = .leaf k.token) ∨
    ∃ shape children, n = .group shape children ∧ (shape = .comparison ∨ shape = .parenthesis)

theorem isPart_tree {item : FilterItem} (h : item.Formed) : ∀ n ∈ item.tree, IsPart n := by
  rcases tree_eq_pair h with ⟨shape, children, heq, hshape⟩
  intro n hn
  simp only [heq, List.mem_cons, List.not_mem_nil, or_false] at hn
  rcases hn with rfl | rfl
  · exact Or.inl rfl
  · exact Or.inr (Or.inr ⟨shape, children, rfl, hshape⟩)

theorem isPart_treeBehind {items : List FilterItem} (h : ∀ item ∈ items, item.Formed) :
    ∀ n ∈ treeBehind items, IsPart n := by
  induction items with
  | nil => exact fun n hn => absurd hn List.not_mem_nil
  | cons item items ih =>
      intro n hn
      rw [treeBehind] at hn
      rcases List.mem_cons.1 hn with rfl | hn
      · exact Or.inl rfl
      · rcases List.mem_cons.1 hn with rfl | hn
        · exact Or.inr (Or.inl ⟨item.connective, rfl⟩)
        · rcases List.mem_append.1 hn with hn | hn
          · exact isPart_tree (h item List.mem_cons_self) n hn
          · exact ih (fun i hi => h i (List.mem_cons_of_mem _ hi)) n hn

theorem isPart_treeOf {items : List FilterItem} (h : ∀ item ∈ items, item.Formed) :
    ∀ n ∈ treeOf items, IsPart n := by
  cases items with
  | nil => exact fun n hn => absurd hn List.not_mem_nil
  | cons item items =>
      intro n hn
      rw [treeOf] at hn
      rcases List.mem_append.1 hn with hn | hn
      · exact isPart_tree (h item List.mem_cons_self) n hn
      · exact isPart_treeBehind (fun i hi => h i (List.mem_cons_of_mem _ hi)) n hn

/-- A part of a filter separates no list, and neither begins one nor ends a
    condition. -/
theorem IsPart.plain {n : Node} (h : IsPart n) :
    n.isMark "," = false ∧ n.opensProjection = false ∧ n.endsCondition = false := by
  rcases h with rfl | ⟨k, rfl⟩ | ⟨shape, children, rfl, -⟩
  · exact ⟨rfl, rfl, rfl⟩
  · cases k <;> exact ⟨rfl, rfl, rfl⟩
  · exact ⟨rfl, rfl, rfl⟩

/-- What ends in the tree of a node, or in something visible behind it, does not
    end in a blank. -/
theorem getLast_tree_append {item : FilterItem} (h : item.Formed) {ns : List Node}
    (hns : ∀ n, ns.getLast? = some n → n.isWhitespace = false) (n : Node)
    (hn : (item.tree ++ ns).getLast? = some n) : n.isWhitespace = false := by
  rcases tree_eq_pair h with ⟨shape, children, heq, -⟩
  rw [heq, List.cons_append, List.cons_append, List.nil_append, List.getLast?_cons_cons,
    List.getLast?_cons, Option.some.injEq] at hn
  rw [← hn]
  cases hlast : ns.getLast? with
  | none => rfl
  | some m => exact hns m hlast

theorem getLast_treeBehind {items : List FilterItem} (h : ∀ item ∈ items, item.Formed) (n : Node)
    (hn : (treeBehind items).getLast? = some n) : n.isWhitespace = false := by
  induction items generalizing n with
  | nil => exact absurd hn.symm (Option.some_ne_none n)
  | cons item items ih =>
      have hitem := h item List.mem_cons_self
      refine getLast_tree_append hitem (ih fun i hi => h i (List.mem_cons_of_mem _ hi)) n ?_
      rcases tree_eq_pair hitem with ⟨shape, children, heq, -⟩
      rw [treeBehind, heq, List.cons_append, List.getLast?_cons_cons, List.getLast?_cons_cons] at hn
      rw [heq, List.cons_append]
      exact hn

/-- The last part of a filter is a group. -/
theorem getLast_treeOf {items : List FilterItem} (h : ∀ item ∈ items, item.Formed) (n : Node)
    (hn : (treeOf items).getLast? = some n) : n.isWhitespace = false := by
  cases items with
  | nil => exact absurd hn.symm (Option.some_ne_none n)
  | cons item items =>
      rw [treeOf] at hn
      exact getLast_tree_append (h item List.mem_cons_self)
        (getLast_treeBehind fun i hi => h i (List.mem_cons_of_mem _ hi)) n hn

theorem groupLevel_condition {c : Condition} (h : c.operator ∈ conditionOperators)
    (ns : List Node) :
    Node.groupLevel (Nested.nodes (Nested.spaced c.tokens) ++ ns) =
      c.tree ++ Node.groupLevel ns := by
  have hnodes : Nested.nodes (Nested.spaced c.tokens) ++ ns =
      .leaf .space :: .leaf (.quotedName c.column) :: .leaf .space ::
        .leaf (operatorToken c.operator) :: .leaf .space :: .leaf (.stringLiteral c.value) ::
          ns := rfl
  have hoperator := not_name_operatorToken h
  rw [hnodes, Node.groupLevel_space,
    Node.groupLevel_comparison ns rfl rfl (compares_operatorToken h) hoperator.1 hoperator.2 rfl
      rfl rfl rfl]
  rfl

/-- The passes turn nodes behind others into their tree if they do so with each
    of them. -/
theorem groupLevel_spellingBehind {items : List FilterItem}
    (h : ∀ item ∈ items, ∀ ns, Node.groupLevel (Nested.nodes item.spelling ++ ns) =
      item.tree ++ Node.groupLevel ns) (ns : List Node) :
    Node.groupLevel (Nested.nodes (spellingBehind items) ++ ns) =
      treeBehind items ++ Node.groupLevel ns := by
  induction items with
  | nil =>
      rw [spellingBehind, treeBehind]
      rfl
  | cons item items ih =>
      have hrec := ih fun i hi => h i (List.mem_cons_of_mem _ hi)
      have hnodes : Nested.nodes (Nested.spaced [item.connective.token]) =
          [.leaf .space, .leaf item.connective.token] := rfl
      -- A connective is neither a name nor an operand, so it is passed.
      have hkeyword : Node.isName (.leaf item.connective.token) = false ∧
          Node.isOperand (.leaf item.connective.token) = false := by
        cases item.connective <;> exact ⟨rfl, rfl⟩
      rw [spellingBehind, Nested.nodes_append, Nested.nodes_append, hnodes, treeBehind]
      simp only [List.cons_append, List.nil_append, List.append_assoc]
      rw [Node.groupLevel_space, Node.groupLevel_pass hkeyword.1 hkeyword.2,
        h item List.mem_cons_self, hrec]

theorem groupLevel_spellingOf {items : List FilterItem}
    (h : ∀ item ∈ items, ∀ ns, Node.groupLevel (Nested.nodes item.spelling ++ ns) =
      item.tree ++ Node.groupLevel ns) (ns : List Node) :
    Node.groupLevel (Nested.nodes (spellingOf items) ++ ns) =
      treeOf items ++ Node.groupLevel ns := by
  cases items with
  | nil =>
      rw [spellingOf, treeOf]
      rfl
  | cons item items =>
      rw [spellingOf, treeOf, Nested.nodes_append, List.append_assoc, h item List.mem_cons_self,
        groupLevel_spellingBehind fun i hi => h i (List.mem_cons_of_mem _ hi), List.append_assoc]

theorem groupLevel_spelling {item : FilterItem} (h : item.Formed) (ns : List Node) :
    Node.groupLevel (Nested.nodes item.spelling ++ ns) = item.tree ++ Node.groupLevel ns := by
  induction h generalizing ns with
  | condition h =>
      rw [spelling, tree]
      exact groupLevel_condition h ns
  | @nested k items hand hall ih =>
      have hspace : Node.groupLevel [.leaf .space] = [.leaf .space] := by
        rw [Node.groupLevel_space, Node.groupLevel_nil]
      -- Inside the parenthesis the same passes run, and find no list.
      have hinner : groupInner false (Nested.nodes (spellingOf items ++ [.token .space])) =
          treeOf items ++ [.leaf .space] := by
        rw [groupInner_eq, Nested.nodes_append, groupLevel_spellingOf ih,
          show Nested.nodes [.token .space] = [.leaf .space] from rfl, hspace]
        refine Node.listRun_of_no_comma fun n hn => ?_
        rcases List.mem_append.1 hn with hn | hn
        · exact (isPart_treeOf hall n hn).plain.1
        · rw [List.mem_singleton] at hn
          rw [hn]
          rfl
      rw [spelling_nested hand, tree_nested hand]
      simp only [Nested.nodes, Nested.node, hinner, List.cons_append, List.nil_append]
      rw [Node.groupLevel_space]
      exact congrArg (_ :: ·) (Node.groupLevel_pass rfl rfl ns)

end FilterItem

namespace Nested

mutual

/-- How many parentheses deep an item goes. -/
def depth : Nested → Nat
  | .token _ => 0
  | .parens _ inner _ => 1 + depthOf inner

/-- The greatest depth in a list of items. -/
def depthOf : List Nested → Nat
  | [] => 0
  | item :: items => max item.depth (depthOf items)

end

theorem depthOf_append (as bs : List Nested) :
    depthOf (as ++ bs) = max (depthOf as) (depthOf bs) := by
  induction as with
  | nil => rw [List.nil_append, depthOf, Nat.zero_max]
  | cons a as ih => rw [List.cons_append, depthOf, depthOf, ih, Nat.max_assoc]

theorem depthOf_spaced (ts : List Token) : depthOf (spaced ts) = 0 := by
  induction ts with
  | nil => rfl
  | cons t ts ih =>
      rw [spaced, List.flatMap_cons, depthOf_append, ← spaced, ih]
      rfl

end Nested

namespace FilterItem

theorem depth_spellingBehind {items : List FilterItem}
    (h : ∀ item ∈ items, item.depth = 1 + Nested.depthOf item.spelling) :
    max 1 (depthOf items) = 1 + Nested.depthOf (spellingBehind items) := by
  induction items with
  | nil => rfl
  | cons item items ih =>
      have hitem := h item List.mem_cons_self
      have hrec := ih fun i hi => h i (List.mem_cons_of_mem _ hi)
      rw [depthOf, spellingBehind, Nested.depthOf_append, Nested.depthOf_append,
        Nested.depthOf_spaced]
      omega

theorem depth_spellingOf {items : List FilterItem} (hne : items ≠ [])
    (h : ∀ item ∈ items, item.depth = 1 + Nested.depthOf item.spelling) :
    depthOf items = 1 + Nested.depthOf (spellingOf items) := by
  cases items with
  | nil => exact absurd rfl hne
  | cons item items =>
      have hitem := h item List.mem_cons_self
      have hrec := depth_spellingBehind fun i hi => h i (List.mem_cons_of_mem _ hi)
      rw [depthOf, spellingOf, Nested.depthOf_append]
      omega

theorem OpensWithAnd.ne_nil {items : List FilterItem} (h : OpensWithAnd items) : items ≠ [] := by
  rcases h with ⟨held, rest, rfl⟩
  exact List.cons_ne_nil _ _

/-- A node goes one deeper than the parentheses of what it holds. -/
theorem depth_spelling {item : FilterItem} (h : item.Formed) :
    item.depth = 1 + Nested.depthOf item.spelling := by
  induction h with
  | @condition k c _ =>
      rw [spelling, Nested.depthOf_spaced, depth, depthOf, depthOf, depth, Nat.max_self]
  | nested hand _ ih =>
      rw [spelling_nested hand, depth, depth_spellingOf hand.ne_nil ih]
      simp only [Nested.depthOf, Nested.depth, Nested.depthOf_append]
      omega

/-- Whether the token belongs to a condition, and not to what stands between
    them. -/
def isOfCondition (t : Token) : Bool :=
  t.isName || t.isLiteral || t.kind = .operator || t.kind = .keyword .like

theorem filter_conditionTokens {c : Condition} (h : c.operator ∈ conditionOperators) :
    (Nested.tokensOf (Nested.spaced c.tokens)).filter isOfCondition = c.tokens := by
  have hoperator : isOfCondition (operatorToken c.operator) = true := by
    rcases operatorToken_cases h with ⟨-, heq⟩ | ⟨-, heq⟩
    · rw [heq]
      rfl
    · rw [heq]
      rfl
  have htokens : Nested.tokensOf (Nested.spaced c.tokens) =
      [.space, .quotedName c.column, .space, operatorToken c.operator, .space,
        .stringLiteral c.value] := rfl
  rw [htokens]
  simp only [List.filter_cons, hoperator, if_true]
  rfl

theorem conditions_spellingBehind {items : List FilterItem}
    (h : ∀ item ∈ items, (Nested.tokensOf item.spelling).filter isOfCondition =
      item.conditions.flatMap Condition.tokens) :
    (Nested.tokensOf (spellingBehind items)).filter isOfCondition =
      (conditionsOf items).flatMap Condition.tokens := by
  induction items with
  | nil => rfl
  | cons item items ih =>
      -- What introduces a node belongs to no condition.
      have hkeyword : (Nested.tokensOf (Nested.spaced [item.connective.token])).filter
          isOfCondition = [] := by
        cases item.connective <;> rfl
      rw [spellingBehind, Nested.tokensOf_append, Nested.tokensOf_append, List.filter_append,
        List.filter_append, hkeyword, h item List.mem_cons_self,
        ih fun i hi => h i (List.mem_cons_of_mem _ hi), conditionsOf, List.flatMap_append,
        List.nil_append]

theorem conditions_spellingOf {items : List FilterItem}
    (h : ∀ item ∈ items, (Nested.tokensOf item.spelling).filter isOfCondition =
      item.conditions.flatMap Condition.tokens) :
    (Nested.tokensOf (spellingOf items)).filter isOfCondition =
      (conditionsOf items).flatMap Condition.tokens := by
  cases items with
  | nil => rfl
  | cons item items =>
      rw [spellingOf, Nested.tokensOf_append, List.filter_append, h item List.mem_cons_self,
        conditions_spellingBehind fun i hi => h i (List.mem_cons_of_mem _ hi), conditionsOf,
        List.flatMap_append]

/-- The conditions of a node are written in their order. -/
theorem conditions_spelling {item : FilterItem} (h : item.Formed) :
    (Nested.tokensOf item.spelling).filter isOfCondition =
      item.conditions.flatMap Condition.tokens := by
  induction h with
  | @condition k c h =>
      rw [spelling, filter_conditionTokens h, conditions, conditionsOf, conditionsOf, conditions,
        List.append_nil, List.flatMap_singleton]
  | @nested k items hand _ ih =>
      have htokens : Nested.tokensOf (node k items).spelling =
          [.space, .mark "("] ++ (Nested.tokensOf (spellingOf items) ++ [.space, .mark ")"]) := by
        rw [spelling_nested hand]
        simp only [Nested.tokensOf, Nested.tokens, Nested.tokensOf_append, List.append_nil,
          List.append_assoc, List.cons_append, List.nil_append]
      rw [htokens, List.filter_append, List.filter_append, conditions_spellingOf ih, conditions]
      exact List.append_nil _

end FilterItem

end SqlGist
