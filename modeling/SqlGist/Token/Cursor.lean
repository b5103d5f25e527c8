import SqlGist.Token.Lexeme

/-!
# Reading Tokens

A cursor is a place in a statement together with the one fact about what was
read that the lexer needs: whether an operand is expected next. `next` reads
the token at the cursor, and `tokens` reads on to the end, which is a token of
its own.

The loop ends because every token but the last leaves a shorter text, which is
`lexeme_length`. Reading on at the end gives the end again, so nothing is
special about having read too far.

## Main definitions

* `Cursor`: The text ahead, its byte offset, and whether an operand is due.
* `next`: The token at the cursor, and the cursor behind it.
* `tokens`: All tokens from the cursor on, the end included.
* `take`: The next so many tokens.
* `tokenize`: The tokens of a statement.

## Theorems

* `next_append`: A token's text and the text ahead of the next cursor make up
  the text ahead.
* `next_span`: A token spans its own text.
* `tokens_append`: The texts of the tokens make up the text ahead.
* `take_tokens`: Reading on past the end repeats the end.
* `tokenize_text`: The texts of the tokens make up the statement.
-/

namespace SqlGist

/-- A place in a statement. -/
structure Cursor where
  /-- The text that is still to be read. -/
  rest : List Char
  /-- The byte offset of that text in the statement. -/
  offset : Nat
  /-- Whether what was read leaves room for an operand, so that a sign before
      a digit belongs to the number. -/
  operandExpected : Bool

namespace Cursor

/-- The cursor at the front of a statement, where an operand may stand. -/
def start (sql : String) : Cursor :=
  ⟨sql.toList, 0, true⟩

/-- Whether an operand is expected behind a token. Blanks do not change the
    answer. -/
def expectsOperand (before : Bool) (kind : TokenKind) (text : String) : Bool :=
  match kind with
  | .whitespace => before
  | .operator => true
  | .keyword _ => true
  | .punctuation => text = "(" || text = ","
  | _ => false

/-- The token at the cursor, and the cursor behind it. -/
def next (c : Cursor) : Token × Cursor :=
  let found := lexeme c.operandExpected c.rest
  let text := String.ofList found.text
  let stop := c.offset + Text.byteLength found.text
  (⟨found.kind, text, ⟨c.offset, stop⟩⟩,
    ⟨found.rest, stop, expectsOperand c.operandExpected found.kind text⟩)

theorem next_length {c : Cursor} (h : c.next.1.kind ≠ .eof) :
    c.next.2.rest.length < c.rest.length :=
  lexeme_length h

/-- All tokens from the cursor on. The last one stands for the end. -/
def tokens (c : Cursor) : List Token :=
  if _h : c.next.1.kind = .eof then [c.next.1]
  else c.next.1 :: c.next.2.tokens
termination_by c.rest.length
decreasing_by exact next_length (by assumption)

/-- The next `n` tokens, however close the end is. -/
def take : Nat → Cursor → List Token
  | 0, _ => []
  | n + 1, c => c.next.1 :: take n c.next.2

theorem next_append (c : Cursor) : c.next.1.text.toList ++ c.next.2.rest = c.rest := by
  simp only [next, String.toList_ofList, lexeme_append]

theorem next_span (c : Cursor) :
    c.next.1.span = ⟨c.offset, c.next.2.offset⟩ ∧
      c.next.2.offset = c.offset + Text.byteLength c.next.1.text.toList := by
  simp only [next, String.toList_ofList, and_self]

theorem next_nil {c : Cursor} (h : c.rest = []) :
    c.next = (⟨.eof, "", ⟨c.offset, c.offset⟩⟩, ⟨[], c.offset, false⟩) := by
  simp only [next, h]
  rfl

theorem next_eof {c : Cursor} (h : c.next.1.kind = .eof) :
    c.rest = [] ∧ c.next.1 = ⟨.eof, "", ⟨c.offset, c.offset⟩⟩ ∧ c.next.2.rest = [] ∧
      c.next.2.offset = c.offset := by
  have hrest : c.rest = [] := lexeme_eof h
  rw [next_nil hrest]
  exact ⟨hrest, rfl, rfl, rfl⟩

theorem tokens_append (c : Cursor) :
    (c.tokens.map fun t => t.text.toList).flatten = c.rest := by
  fun_induction tokens c with
  | case1 c h =>
      rcases next_eof h with ⟨hrest, htoken, -, -⟩
      rw [htoken, hrest]
      rfl
  | case2 c h ih =>
      rw [List.map_cons, List.flatten_cons, ih, next_append]

theorem take_eof {c : Cursor} (h : c.rest = []) (n : Nat) :
    take n c = List.replicate n ⟨.eof, "", ⟨c.offset, c.offset⟩⟩ := by
  induction n generalizing c with
  | zero => rfl
  | succ n ih =>
      rw [take, next_nil h, ih rfl, List.replicate_succ]

theorem take_tokens (c : Cursor) (n : Nat) :
    take (c.tokens.length + n) c =
      c.tokens ++ List.replicate n ⟨.eof, "", ⟨c.offset + Text.byteLength c.rest,
        c.offset + Text.byteLength c.rest⟩⟩ := by
  fun_induction tokens c with
  | case1 c h =>
      rcases next_eof h with ⟨hrest, -, hrest', hoffset⟩
      rw [List.length_singleton, Nat.add_comm, take, take_eof hrest', hoffset, hrest]
      rfl
  | case2 c h ih =>
      -- The bytes ahead are those of the token and those behind it.
      have hlen : Text.byteLength c.rest =
          Text.byteLength c.next.1.text.toList + Text.byteLength c.next.2.rest := by
        rw [← Text.byteLength_append, next_append]
      rw [List.length_cons, Nat.add_right_comm, take, ih, (next_span c).2, hlen, ← Nat.add_assoc,
        List.cons_append]

end Cursor

/-- The tokens of a statement, blanks and errors included. The last one stands
    for the end. -/
def tokenize (sql : String) : List Token :=
  (Cursor.start sql).tokens

theorem tokenize_text (sql : String) :
    ((tokenize sql).map fun t => t.text.toList).flatten = sql.toList :=
  Cursor.tokens_append _

end SqlGist
