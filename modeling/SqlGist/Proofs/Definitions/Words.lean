import SqlGist.Proofs.Tree.CommaList
import SqlGist.Ownership

/-!
# The Words of a Definition

What a table definition can say of its columns, as data. A value of these types
can always be written: the proofs that its words are what they should be are
part of it.

Behind the type of a column stand words of a few kinds only, and none of them
joins what is next to it. So the passes leave them as they are, however many
there are and in whatever order.

## Main definitions

* `Numeral`, `TypeSpec`, `DefaultValue`, `KeyKind`, `InlineConstraint`: The
  parts of a definition.
* `ColumnSpec`, `KeySpec`, `Entry`: Definitions and keys.
* `Spelling`: How the name of a table is written.
* `wordKinds`: The kinds of the words behind a type.

## Theorems

* `groupLevel_spaced`: The passes leave words as they are.
* `value_token`: The value of a default.
* `Spelling.word_token`, `chunk_words`, `plain_words`: The name of a table and the
  words of a constraint can be written.
-/

namespace SqlGist

/-- A run of digits. -/
structure Numeral where
  digits : List Char
  nonempty : digits ≠ []
  isDigit : ∀ d ∈ digits, d.isDigit = true

namespace Numeral

/-- A numeral as it is written. -/
def text (n : Numeral) : String :=
  String.ofList n.digits

/-- The token of a numeral. -/
def token (n : Numeral) : Token :=
  .bare .number n.text

theorem word (n : Numeral) (operandExpected : Bool) : Token.Word operandExpected n.token :=
  Token.word_number operandExpected n.nonempty n.isDigit

theorem plain (n : Numeral) : n.token.Plain :=
  Token.plain_bare n.text TokenKind.noConfusion TokenKind.noConfusion fun _ =>
    TokenKind.noConfusion

end Numeral

/-- A type as a definition writes it: a builtin word, or any bare name with
    numerals in parentheses right behind it. -/
inductive TypeSpec
  | builtin (word : String) (h : isBuiltinType word = true)
  | call (name : String) (hbare : Lexeme.isBareWord name.toList = true)
    (hk : Keyword.ofWord? name = none) (numerals : List Numeral)

/-- A value that a `DEFAULT` can name. -/
inductive DefaultValue
  | string (value : String)
  | unsigned (n : Numeral)
  | signed (negative : Bool) (n : Numeral)
  | null
  | truth (b : Bool)

/-- The kinds of keys. -/
inductive KeyKind
  | primary
  | unique
deriving DecidableEq

/-- A constraint behind the type of a column. -/
inductive InlineConstraint
  | notNull
  | key (kind : KeyKind)
  | default (value : DefaultValue)

/-- The definition of a column. -/
structure ColumnSpec where
  name : String
  type : TypeSpec
  constraints : List InlineConstraint

/-- A key over columns that are defined elsewhere. -/
structure KeySpec where
  kind : KeyKind
  columns : List String

/-- What can stand between two commas of a table definition. -/
inductive Entry
  | column (c : ColumnSpec)
  | key (k : KeySpec)

/-- How a name is written: in quotes, or bare if the word is a name then. -/
inductive Spelling (name : String)
  | quoted
  | bare (hbare : Lexeme.isBareWord name.toList = true) (hk : Keyword.ofWord? name = none)
    (htype : isBuiltinType name = false)

namespace Spelling

variable {name : String}

/-- The token of a name. -/
def token : Spelling name → Token
  | quoted => .quotedName name
  | bare _ _ _ => .bare .name name

theorem value_token (s : Spelling name) : s.token.value = name := by
  cases s with
  | quoted => exact Token.value_quotedName name
  | bare hbare _ _ => exact Token.value_bareName hbare

theorem word_token (s : Spelling name) (operandExpected : Bool) :
    Token.Word operandExpected s.token := by
  cases s with
  | quoted => exact Token.word_quotedName operandExpected name
  | bare hbare hk htype => exact Token.word_bareName operandExpected hbare hk htype

theorem plain_token (s : Spelling name) : s.token.Plain := by
  cases s <;> exact Token.plain_name _

end Spelling

/-- The kinds of the words behind a type. -/
def wordKinds : List TokenKind :=
  [.string, .number, .keyword .notNull, .keyword .primary, .keyword .key, .keyword .unique,
    .keyword .default, .keyword .null, .keyword .trueKw, .keyword .falseKw]

theorem Token.of_mem_wordKinds {t : Token} (h : t.kind ∈ wordKinds) :
    t.isName = false ∧ t.isWhitespace = false ∧ t.kind ≠ .builtin ∧
      (∀ mark, t.isMark mark = false) ∧ (Node.leaf t).isComparisonOperator = false := by
  have hkinds : ∀ kind ∈ wordKinds, kind ≠ .name ∧ kind ≠ .whitespace ∧ kind ≠ .builtin ∧
      kind ≠ .punctuation ∧ kind ≠ .operator ∧ kind ≠ .keyword .like := by decide
  rcases hkinds t.kind h with ⟨hname, hblank, hbuiltin, hmark, hoperator, hlike⟩
  refine ⟨decide_eq_false hname, decide_eq_false hblank, hbuiltin, ?_, ?_⟩
  · intro mark
    rw [isMark, decide_eq_false hmark, Bool.false_and]
  · rw [Node.isComparisonOperator, Node.leaf?, Option.any_some, decide_eq_false hoperator,
      decide_eq_false hlike, Bool.false_and, Bool.false_or]

section Spaced

variable {ts : List Token}

theorem nodes_spaced_cons (t : Token) (ts : List Token) :
    Nested.nodes (Nested.spaced (t :: ts)) =
      .leaf .space :: .leaf t :: Nested.nodes (Nested.spaced ts) := by
  rw [Nested.spaced, List.flatMap_cons, Nested.nodes_append, Nested.spaced]
  rfl

theorem mem_nodes_spaced {n : Node} (h : n ∈ Nested.nodes (Nested.spaced ts)) :
    n = .leaf .space ∨ ∃ t ∈ ts, n = .leaf t := by
  induction ts with
  | nil => exact absurd h List.not_mem_nil
  | cons t ts ih =>
      rw [nodes_spaced_cons] at h
      rcases List.mem_cons.1 h with rfl | h
      · exact Or.inl rfl
      · rcases List.mem_cons.1 h with rfl | h
        · exact Or.inr ⟨t, List.mem_cons_self, rfl⟩
        · rcases ih h with hspace | ⟨u, hu, hn⟩
          · exact Or.inl hspace
          · exact Or.inr ⟨u, List.mem_cons_of_mem _ hu, hn⟩

variable (h : ∀ t ∈ ts, t.kind ∈ wordKinds)

include h

theorem noOperatorNext_spaced {ns : List Node} (hns : Node.NoOperatorNext ns) :
    Node.NoOperatorNext (Nested.nodes (Nested.spaced ts) ++ ns) := by
  cases ts with
  | nil => exact hns
  | cons t ts =>
      rcases Token.of_mem_wordKinds (h t List.mem_cons_self) with ⟨-, hblank, -, -, hoperator⟩
      rw [nodes_spaced_cons, List.cons_append, List.cons_append]
      exact Node.noOperatorNext_cons rfl fun _ =>
        Node.noOperatorNext_cons hoperator fun hword =>
          absurd (hblank.symm.trans hword) Bool.false_ne_true

/-- Words of a definition are passed one by one. -/
theorem groupLevel_spaced {ns : List Node} (hns : Node.NoOperatorNext ns) :
    Node.groupLevel (Nested.nodes (Nested.spaced ts) ++ ns) =
      Nested.nodes (Nested.spaced ts) ++ Node.groupLevel ns := by
  induction ts with
  | nil => rfl
  | cons t ts ih =>
      have hrest := fun u hu => h u (List.mem_cons_of_mem t hu)
      have hname : Node.isName (.leaf t) = false :=
        (Token.of_mem_wordKinds (h t List.mem_cons_self)).1
      rw [nodes_spaced_cons, List.cons_append, List.cons_append, Node.groupLevel_space,
        Node.groupLevel_cons hname fun _ => noOperatorNext_spaced hrest hns, ih hrest,
        List.cons_append, List.cons_append]

/-- Behind a node that is no blank, words do not end in one either. -/
theorem getLast_spaced {n : Node} (hn : n.isWhitespace = false) :
    ∀ m, (n :: Nested.nodes (Nested.spaced ts)).getLast? = some m → m.isWhitespace = false := by
  induction ts generalizing n with
  | nil =>
      intro m hm
      rw [show Nested.nodes (Nested.spaced []) = [] from rfl, List.getLast?_singleton,
        Option.some.injEq] at hm
      rw [← hm]
      exact hn
  | cons t ts ih =>
      have hblank : Node.isWhitespace (.leaf t) = false :=
        (Token.of_mem_wordKinds (h t List.mem_cons_self)).2.1
      intro m hm
      rw [nodes_spaced_cons, List.getLast?_cons_cons, List.getLast?_cons_cons] at hm
      exact ih (fun u hu => h u (List.mem_cons_of_mem _ hu)) hblank m hm

end Spaced

namespace DefaultValue

/-- The token of a value. -/
def token : DefaultValue → Token
  | string value => .stringLiteral value
  | unsigned n => n.token
  | signed negative n =>
    .bare .number (String.ofList ((if negative then '-' else '+') :: n.digits))
  | null => .ofKeyword .null
  | truth b => .ofKeyword (if b then .trueKw else .falseKw)

/-- What a value reads as. -/
def text : DefaultValue → String
  | string value => value
  | unsigned n => n.text
  | signed negative n => String.ofList ((if negative then '-' else '+') :: n.digits)
  | null => "NULL"
  | truth b => if b then "TRUE" else "FALSE"

theorem value_token (v : DefaultValue) : v.token.value = v.text := by
  cases v with
  | string value => exact Token.value_stringLiteral value
  | truth b => cases b <;> rfl
  | _ => rfl

theorem kind_token (v : DefaultValue) : v.token.kind ∈ wordKinds := by
  cases v with
  | string value => exact show TokenKind.string ∈ wordKinds by decide
  | null => exact show TokenKind.keyword .null ∈ wordKinds by decide
  | truth b => cases b <;> exact show TokenKind.keyword _ ∈ wordKinds by decide
  | _ => exact show TokenKind.number ∈ wordKinds by decide

theorem plain_token (v : DefaultValue) : v.token.Plain := by
  cases v with
  | string value =>
      exact Token.plain_bare _ TokenKind.noConfusion TokenKind.noConfusion fun _ =>
        TokenKind.noConfusion
  | null => exact Token.plain_ofKeyword .null
  | truth b => exact Token.plain_ofKeyword _
  | _ =>
      exact Token.plain_bare _ TokenKind.noConfusion TokenKind.noConfusion fun _ =>
        TokenKind.noConfusion

/-- A value is read back where an operand is expected. -/
theorem word_token (v : DefaultValue) : Token.Word true v.token := by
  cases v with
  | string value => exact Token.word_stringLiteral true value
  | unsigned n => exact n.word true
  | signed negative n =>
      refine Token.word_signed ?_ n.nonempty n.isDigit
      cases negative
      · exact Or.inl rfl
      · exact Or.inr rfl
  | null => exact Token.word_ofKeyword true (by decide) (by decide)
  | truth b => cases b <;> exact Token.word_ofKeyword true (by decide) (by decide)

end DefaultValue

namespace KeyKind

/-- The word that a key opens with. -/
def opening : KeyKind → Token
  | primary => .ofKeyword .primary
  | unique => .ofKeyword .unique

/-- The words behind it. -/
def behind : KeyKind → List Token
  | primary => [.ofKeyword .key]
  | unique => []

/-- The constraint that a key puts on its columns. -/
def constraint : KeyKind → Constraint
  | primary => ⟨.primaryKey, "primarykey", .addConstraint⟩
  | unique => ⟨.unique, "unique", .addConstraint⟩

theorem kind_words (k : KeyKind) : ∀ t ∈ k.opening :: k.behind, t.kind ∈ wordKinds := by
  cases k <;> decide

theorem word_words (k : KeyKind) :
    ∀ t ∈ k.opening :: k.behind, ∀ operandExpected, Token.Word operandExpected t := by
  intro t ht operandExpected
  cases k with
  | primary =>
      simp only [opening, behind, List.mem_cons, List.not_mem_nil, or_false] at ht
      rcases ht with rfl | rfl <;>
        exact Token.word_ofKeyword operandExpected (by decide) (by decide)
  | unique =>
      simp only [opening, behind, List.mem_cons, List.not_mem_nil, or_false] at ht
      rw [ht]
      exact Token.word_ofKeyword operandExpected (by decide) (by decide)

theorem plain_words (k : KeyKind) : ∀ t ∈ k.opening :: k.behind, t.Plain := by
  intro t ht
  cases k with
  | primary =>
      simp only [opening, behind, List.mem_cons, List.not_mem_nil, or_false] at ht
      rcases ht with rfl | rfl <;> exact Token.plain_ofKeyword _
  | unique =>
      simp only [opening, behind, List.mem_cons, List.not_mem_nil, or_false] at ht
      rw [ht]
      exact Token.plain_ofKeyword .unique

end KeyKind

namespace InlineConstraint

/-- The words of a constraint. -/
def words : InlineConstraint → List Token
  | notNull => [.ofKeyword .notNull]
  | key kind => kind.opening :: kind.behind
  | default value => [.ofKeyword .default, value.token]

/-- What a constraint is read as. -/
def constraint : InlineConstraint → Constraint
  | notNull => ⟨.notNull, "notnull", .addConstraint⟩
  | key kind => kind.constraint
  | default value => ⟨.default value.text, "default", .addConstraint⟩

theorem kind_words (c : InlineConstraint) : ∀ t ∈ c.words, t.kind ∈ wordKinds := by
  cases c with
  | notNull => decide
  | key kind => exact kind.kind_words
  | default value =>
      intro t ht
      rcases List.mem_cons.1 ht with rfl | ht
      · exact show TokenKind.keyword .default ∈ wordKinds by decide
      · rw [List.mem_singleton.1 ht]
        exact value.kind_token

theorem plain_words (c : InlineConstraint) : ∀ t ∈ c.words, t.Plain := by
  cases c with
  | notNull =>
      intro t ht
      rw [List.mem_singleton.1 ht]
      exact Token.plain_ofKeyword .notNull
  | key kind => exact kind.plain_words
  | default value =>
      intro t ht
      rcases List.mem_cons.1 ht with rfl | ht
      · exact Token.plain_ofKeyword .default
      · rw [List.mem_singleton.1 ht]
        exact value.plain_token

/-- A value behind `DEFAULT` is where an operand is expected, so it may have a
    sign. -/
theorem chunk_words (c : InlineConstraint) :
    Token.Chunk (Nested.tokensOf (Nested.spaced c.words)) := by
  cases c with
  | notNull =>
      refine Nested.chunk_spacedWords fun t ht operandExpected => ?_
      rw [List.mem_singleton.1 ht]
      exact Token.word_notNull operandExpected
  | key kind => exact Nested.chunk_spacedWords kind.word_words
  | default value =>
      exact Token.chunk_operand
        (fun operandExpected => Token.word_ofKeyword operandExpected (by decide) (by decide))
        (fun _ => rfl) value.word_token

end InlineConstraint

end SqlGist
