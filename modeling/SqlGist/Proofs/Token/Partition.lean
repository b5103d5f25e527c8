import Mathlib.Data.List.Chain
import SqlGist.Token.Cursor

/-!
# Tokens Partition a Text

Reading a text to its end cuts it into tokens without losing a character. The
tokens lie one behind the other from the first byte to the last, each spans
exactly its own text, and only the one that stands for the end is empty.

`Placed` says of a list of tokens that it starts at a byte offset and has no
gaps. It is stated with an offset, since the reading that goes on behind a
token starts at one, and it splits at every append. Whatever is known of a
stretch in the middle of a text, here and for the groups of a tree, is read
off it.

That two blanks never follow each other is no matter of places. A run of
blanks and comments ends only where no other could begin, whatever it ended
with, and this is `blankRun_snd`.

## Main definitions

* `Token.textsOf`: The characters of a list of tokens.
* `Token.Placed`: Tokens that lie one behind the other from an offset on.
* `Token.ending`: The token that stands for the end.
* `Token.unplaced`: A token without its place.
* `Token.Tiles`: Tokens that cut a text into pieces.

## Theorems

* `placed_append`: A list is placed exactly when both its parts are.
* `slice?_textsOf`: A stretch of tokens slices the text to its own.
* `tokens_placed`: The tokens of a cursor are placed from its offset on.
* `blankRun_snd`: Behind a run of blanks there is no other.
* `tokens_isChain_blank`: No two blanks follow each other.
* `tokenize_eq_concat`: The last token alone stands for the end.
* `tokenize_tiles`: The tokens of a text cut it into pieces, and reading on
  behind them gives the end again and again.
-/

namespace SqlGist

namespace Text

theorem byteLength_eq_utf8ByteSize (cs : List Char) :
    byteLength cs = (String.ofList cs).utf8ByteSize := by
  induction cs with
  | nil => rfl
  | cons c cs ih =>
      rw [byteLength, ih, String.ofList_cons, String.utf8ByteSize_append,
        String.utf8ByteSize_singleton]

/-- A byte offset that cuts no character is one that core takes for valid. -/
theorem isValid_byteLength (before after : List Char) :
    (⟨byteLength before⟩ : String.Pos.Raw).IsValid (String.ofList (before ++ after)) := by
  rw [String.Pos.Raw.isValid_iff_exists_append]
  refine ⟨String.ofList before, String.ofList after, String.ofList_append, ?_⟩
  rw [byteLength_eq_utf8ByteSize]
  rfl

end Text

namespace Token

/-- The characters of a list of tokens, one text behind the other. -/
def textsOf (ts : List Token) : List Char :=
  (ts.map fun t => t.text.toList).flatten

/-- Tokens that lie one behind the other from byte `offset` on, each of them
    over its own text. -/
def Placed (offset : Nat) : List Token → Prop
  | [] => True
  | t :: ts =>
    t.span = ⟨offset, offset + Text.byteLength t.text.toList⟩ ∧
      Placed (offset + Text.byteLength t.text.toList) ts

/-- The token that stands for the end of a text of `size` bytes. -/
def ending (size : Nat) : Token :=
  ⟨.eof, "", ⟨size, size⟩⟩

/-- The token without its place. -/
def unplaced (t : Token) : Token :=
  ⟨t.kind, t.text, ⟨0, 0⟩⟩

theorem kind_of_keyword? {t : Token} {k : Keyword} (h : t.keyword? = some k) :
    t.kind = .keyword k := by
  unfold keyword? at h
  split at h
  · rename_i j hj
    rw [hj, Option.some.inj h]
  · exact absurd h.symm (Option.some_ne_none k)

theorem textsOf_append (as bs : List Token) : textsOf (as ++ bs) = textsOf as ++ textsOf bs := by
  simp only [textsOf, List.map_append, List.flatten_append]

theorem textsOf_cons (t : Token) (ts : List Token) :
    textsOf (t :: ts) = t.text.toList ++ textsOf ts := by
  simp only [textsOf, List.map_cons, List.flatten_cons]

theorem placed_append {offset : Nat} {as bs : List Token} :
    Placed offset (as ++ bs) ↔
      Placed offset as ∧ Placed (offset + Text.byteLength (textsOf as)) bs := by
  induction as generalizing offset with
  | nil =>
      simp only [List.nil_append, Placed, true_and]
      exact Iff.rfl
  | cons a as ih =>
      rw [List.cons_append, Placed, Placed, ih, textsOf_cons, Text.byteLength_append, and_assoc,
        Nat.add_assoc]

theorem placed_isChain {offset : Nat} {ts : List Token} (h : Placed offset ts) :
    ts.IsChain fun a b => b.span.start = a.span.stop := by
  induction ts generalizing offset with
  | nil => exact List.IsChain.nil
  | cons t ts ih =>
      rw [List.isChain_cons]
      refine ⟨?_, ih h.2⟩
      intro u hu
      cases ts with
      | nil => simp only [List.head?_nil, Option.mem_def, reduceCtorEq] at hu
      | cons v ts =>
          -- The token behind starts where this one was placed to end.
          simp only [List.head?_cons, Option.mem_def, Option.some.injEq] at hu
          rw [← hu, h.1, h.2.1]

/-- A stretch of tokens is cut out of the text by the bytes before it and its
    own. -/
theorem slice?_textsOf {sql : String} {before middle after : List Token}
    (htext : textsOf (before ++ (middle ++ after)) = sql.toList) :
    Span.slice? ⟨Text.byteLength (textsOf before),
        Text.byteLength (textsOf before) + Text.byteLength (textsOf middle)⟩ sql =
      some (String.ofList (textsOf middle)) := by
  rw [Span.slice?_eq_some_iff]
  refine ⟨textsOf before, textsOf after, ?_, rfl, ?_⟩
  · rw [← htext, textsOf_append, textsOf_append, String.toList_ofList, List.append_assoc]
  · rw [Text.byteLength_append, String.toList_ofList]

theorem slice?_of_placed {sql : String} {before after : List Token} {t : Token}
    (htext : textsOf (before ++ t :: after) = sql.toList)
    (hplaced : Placed 0 (before ++ t :: after)) : t.span.slice? sql = some t.text := by
  have hspan := (placed_append.1 hplaced).2.1
  have hself : textsOf [t] = t.text.toList := by
    rw [textsOf_cons]
    exact List.append_nil _
  have hslice := slice?_textsOf (show textsOf (before ++ ([t] ++ after)) = sql.toList from htext)
  rwa [hself, String.ofList_toList, ← Nat.zero_add (Text.byteLength (textsOf before)),
    ← hspan] at hslice

end Token

namespace Lexeme

/-- A run ends only where no other could begin, whatever state it was in the
    middle of. -/
theorem blankRun_snd (s : BlankState) (cs : List Char) :
    (blankRun .between (blankRun s cs).2).1 = [] := by
  fun_induction blankRun s cs with
  | case1 => rfl
  | case2 cs ih => exact ih
  | case3 cs ih => exact ih
  | case4 c cs _ _ _ ih => exact ih
  | case5 c cs hline hblock hblank =>
      -- Neither a comment nor a blank opens here, so the run is empty again.
      rw [blankRun.eq_4 c cs hline hblock, if_neg hblank]
  | case6 c cs ih => exact ih
  | case7 cs ih => exact ih
  | case8 c cs _ ih => exact ih

theorem visible_kind_ne_whitespace (operandExpected : Bool) (cs : List Char) :
    (visible operandExpected cs).kind ≠ .whitespace := by
  fun_cases visible operandExpected cs with
  | case6 => exact quoted_kind_ne _ _ TokenKind.noConfusion TokenKind.noConfusion
  | case7 => exact quoted_kind_ne _ _ TokenKind.noConfusion TokenKind.noConfusion
  | case9 =>
      exact word_kind_ne _ (fun _ => TokenKind.noConfusion) TokenKind.noConfusion
        TokenKind.noConfusion
  | _ => exact TokenKind.noConfusion

end Lexeme

theorem lexeme_of_blank {operandExpected : Bool} {cs : List Char}
    (h : (Lexeme.blankRun .between cs).1 ≠ []) :
    lexeme operandExpected cs =
      ⟨.whitespace, (Lexeme.blankRun .between cs).1, (Lexeme.blankRun .between cs).2⟩ := by
  simp only [lexeme]
  rw [if_neg (by rwa [List.isEmpty_iff])]

theorem lexeme_of_visible {operandExpected : Bool} {cs : List Char}
    (h : (Lexeme.blankRun .between cs).1 = []) :
    lexeme operandExpected cs = Lexeme.visible operandExpected cs := by
  simp only [lexeme]
  rw [if_pos (by rwa [List.isEmpty_iff])]

theorem lexeme_whitespace_iff {operandExpected : Bool} {cs : List Char} :
    (lexeme operandExpected cs).kind = .whitespace ↔ (Lexeme.blankRun .between cs).1 ≠ [] := by
  simp only [lexeme]
  split
  · rename_i hempty
    rw [List.isEmpty_iff] at hempty
    simp only [hempty, ne_eq, not_true_eq_false, iff_false]
    exact Lexeme.visible_kind_ne_whitespace _ _
  · rename_i hfull
    rw [List.isEmpty_iff] at hfull
    simp only [ne_eq, hfull, not_false_eq_true]

theorem lexeme_rest_of_whitespace {operandExpected : Bool} {cs : List Char}
    (h : (lexeme operandExpected cs).kind = .whitespace) :
    (lexeme operandExpected cs).rest = (Lexeme.blankRun .between cs).2 := by
  rw [lexeme_of_blank (lexeme_whitespace_iff.1 h)]

namespace Cursor

theorem tokens_placed (c : Cursor) : Token.Placed c.offset c.tokens := by
  fun_induction tokens c with
  | case1 c h => exact ⟨by rw [(next_span c).1, (next_span c).2], trivial⟩
  | case2 c h ih =>
      rw [Token.Placed, (next_span c).1, ← (next_span c).2]
      exact ⟨rfl, ih⟩

theorem head?_tokens (c : Cursor) : c.tokens.head? = some c.next.1 := by
  rw [tokens]
  split <;> rfl

theorem tokens_eq_cons {c : Cursor} {t : Token} {ts : List Token} (h : c.tokens = t :: ts)
    (ht : t.kind ≠ .eof ∨ ts ≠ []) :
    c.next.1 = t ∧ c.next.1.kind ≠ .eof ∧ c.next.2.tokens = ts := by
  by_cases heof : c.next.1.kind = .eof
  · -- The end is the last token, and it is of its own kind.
    rw [tokens, dif_pos heof, List.cons.injEq] at h
    rcases ht with ht | ht
    · exact absurd (h.1 ▸ heof) ht
    · exact absurd h.2.symm ht
  · rw [tokens, dif_neg heof, List.cons.injEq] at h
    exact ⟨h.1, heof, h.2⟩

theorem exists_tokens_eq_cons {c : Cursor} {front back : List Token} {t : Token}
    (h : c.tokens = front ++ t :: back) : ∃ d : Cursor, d.tokens = t :: back := by
  induction front generalizing c with
  | nil => exact ⟨c, h⟩
  | cons u front ih =>
      exact ih (tokens_eq_cons h (Or.inr
        (List.append_ne_nil_of_right_ne_nil front (List.cons_ne_nil t back)))).2.2

/-- Behind a blank the next token is none, since a run of blanks is as long as
    it can be. -/
theorem next_next_ne_whitespace {c : Cursor} (h : c.next.1.kind = .whitespace) :
    c.next.2.next.1.kind ≠ .whitespace := by
  intro hnext
  have hrest : c.next.2.rest = (Lexeme.blankRun .between c.rest).2 := lexeme_rest_of_whitespace h
  refine lexeme_whitespace_iff.1 hnext ?_
  rw [hrest]
  exact Lexeme.blankRun_snd _ _

theorem tokens_isChain_blank (c : Cursor) :
    c.tokens.IsChain fun a b => ¬(a.isWhitespace = true ∧ b.isWhitespace = true) := by
  fun_induction tokens c with
  | case1 c h => exact List.isChain_singleton _
  | case2 c h ih =>
      rw [List.isChain_cons]
      refine ⟨?_, ih⟩
      intro t ht
      rw [head?_tokens, Option.mem_def, Option.some.injEq] at ht
      simp only [Token.isWhitespace, decide_eq_true_eq, ← ht]
      exact fun hboth => next_next_ne_whitespace hboth.1 hboth.2

theorem tokens_eq_concat (c : Cursor) :
    ∃ body, c.tokens = body ++ [Token.ending (c.offset + Text.byteLength c.rest)] ∧
      ∀ t ∈ body, t.kind ≠ .eof ∧ t.text ≠ "" := by
  fun_induction tokens c with
  | case1 c h =>
      rcases next_eof h with ⟨hrest, htoken, -, -⟩
      refine ⟨[], ?_, fun t ht => absurd ht List.not_mem_nil⟩
      rw [htoken, hrest]
      rfl
  | case2 c h ih =>
      rcases ih with ⟨body, hbody, hall⟩
      -- What is ahead ends where the rest behind the first token ends.
      have hstop : c.next.2.offset + Text.byteLength c.next.2.rest =
          c.offset + Text.byteLength c.rest := by
        rw [(next_span c).2, Nat.add_assoc, ← Text.byteLength_append, next_append]
      refine ⟨c.next.1 :: body, by rw [hbody, hstop, List.cons_append], ?_⟩
      intro t ht
      rcases List.mem_cons.1 ht with rfl | ht
      · refine ⟨h, fun htext => lexeme_text_ne_nil h ?_⟩
        have hchars := congrArg String.toList htext
        rwa [next, String.toList_ofList] at hchars
      · exact hall t ht

end Cursor

namespace Token

/-- Tokens that cut a text into pieces: they make it up in order, without a gap
    or an overlap, and each is the piece that its span covers. -/
structure Tiles (sql : String) (ts : List Token) : Prop where
  text : String.join (ts.map Token.text) = sql
  start : ts.head?.map (fun t => t.span.start) = some 0
  adjacent : ts.IsChain fun a b => b.span.start = a.span.stop
  boundary : ∀ t ∈ ts, (⟨t.span.start⟩ : String.Pos.Raw).IsValid sql ∧
    (⟨t.span.stop⟩ : String.Pos.Raw).IsValid sql
  slice : ∀ t ∈ ts, t.span.slice? sql = some t.text

theorem toList_join (ts : List Token) : (String.join (ts.map Token.text)).toList = textsOf ts := by
  induction ts with
  | nil => rfl
  | cons t ts ih =>
      rw [List.map_cons, String.join_cons, String.toList_append, ih, textsOf_cons]

theorem tiles_of_placed {sql : String} {ts : List Token} (hne : ts ≠ [])
    (htext : textsOf ts = sql.toList) (hplaced : Placed 0 ts) : Tiles sql ts where
  text := by rw [← String.toList_inj, toList_join, htext]
  start := by
    rcases List.exists_cons_of_ne_nil hne with ⟨t, rest, rfl⟩
    simp only [List.head?_cons, Option.map_some, hplaced.1]
  adjacent := placed_isChain hplaced
  boundary := by
    intro t ht
    rcases List.append_of_mem ht with ⟨before, after, rfl⟩
    have hspan := (placed_append.1 hplaced).2.1
    rw [Nat.zero_add] at hspan
    rw [hspan, ← String.ofList_toList (s := sql), ← htext, textsOf_append, textsOf_cons]
    refine ⟨Text.isValid_byteLength _ _, ?_⟩
    rw [← List.append_assoc, ← Text.byteLength_append]
    exact Text.isValid_byteLength _ _
  slice := by
    intro t ht
    rcases List.append_of_mem ht with ⟨before, after, rfl⟩
    exact slice?_of_placed htext hplaced

end Token

/-- A text stops behind its last byte. -/
theorem stop_start (sql : String) :
    (Cursor.start sql).offset + Text.byteLength (Cursor.start sql).rest = sql.utf8ByteSize := by
  rw [Cursor.start, Nat.zero_add, Text.byteLength_eq_utf8ByteSize, String.ofList_toList]

theorem tokenize_eq_concat (sql : String) :
    ∃ body, tokenize sql = body ++ [Token.ending sql.utf8ByteSize] ∧
      ∀ t ∈ body, t.kind ≠ .eof ∧ t.text ≠ "" := by
  have hend := Cursor.tokens_eq_concat (Cursor.start sql)
  rwa [stop_start] at hend

/-- The tokens of a text cut it into pieces. All of them but the last are there
    for some text, the last stands for the end, no blank follows another, and
    reading `n` tokens further yields the end `n` times more. -/
theorem tokenize_tiles (sql : String) :
    Token.Tiles sql (tokenize sql) ∧
      (∃ body, tokenize sql = body ++ [Token.ending sql.utf8ByteSize] ∧
        ∀ t ∈ body, t.kind ≠ .eof ∧ t.text ≠ "") ∧
      ((tokenize sql).IsChain fun a b => ¬(a.isWhitespace = true ∧ b.isWhitespace = true)) ∧
      ∀ n, (Cursor.start sql).take ((tokenize sql).length + n) =
        tokenize sql ++ List.replicate n (Token.ending sql.utf8ByteSize) := by
  have hend := tokenize_eq_concat sql
  refine ⟨?_, hend, Cursor.tokens_isChain_blank _, ?_⟩
  · refine Token.tiles_of_placed ?_ (tokenize_text sql)
      (Cursor.tokens_placed (Cursor.start sql))
    rcases hend with ⟨body, hbody, -⟩
    intro hnil
    exact List.append_ne_nil_of_right_ne_nil _ (List.cons_ne_nil _ _) (hbody.symm.trans hnil)
  · intro n
    have htake := Cursor.take_tokens (Cursor.start sql) n
    rw [stop_start] at htake
    exact htake

end SqlGist
