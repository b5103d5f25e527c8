import SqlGist.Proofs.Token.Terminator

/-!
# Reading a Stretch by Itself

A stretch of tokens that ends in front of a semicolon, or with the text, is read
again when its text stands alone. Three things are different then: what stood in
front is gone, what stood behind is gone, and the text begins where an operand
may stand.

The first moves every token by the bytes that were in front. The second is
`tokens_before_mark`. The third counts where a sign opens the stretch, since the
sign of a number is an operator behind a semicolon and a part of the number at
the front of a text; nowhere else does the lexer ask what was in front, and
behind the first token that is no blank it has forgotten.

## Main definitions

* `Token.moved`: A token that stands further back.
* `Token.OpensWithSign`: A token begins with a sign.

## Theorems

* `exists_cursor_behind`: Where the lexer stands behind some of its tokens.
* `tokens_moved`: Reading the same text further back.
* `tokens_expecting`: Reading the same text with another answer to whether an
  operand is expected.
* `tokens_textsOf`: Reading a stretch without what stands behind it.
* `tokenize_textsOf`: Reading a stretch by itself.
-/

namespace SqlGist

/-- The text begins with a sign. -/
def Text.OpensWithSign (cs : List Char) : Prop :=
  cs.head? = some '+' ∨ cs.head? = some '-'

namespace Token

/-- The token, `offset` bytes further back. -/
def moved (offset : Nat) (t : Token) : Token :=
  { t with span := ⟨t.span.start + offset, t.span.stop + offset⟩ }

/-- The token begins with a sign. -/
def OpensWithSign (t : Token) : Prop :=
  Text.OpensWithSign t.text.toList

end Token

/-- Whether an operand is expected does not count unless a sign is there. -/
theorem Lexeme.visible_expecting {operandExpected : Bool} {cs : List Char}
    (h : ¬Text.OpensWithSign (visible operandExpected cs).text) (expected : Bool) :
    visible expected cs = visible operandExpected cs := by
  cases cs with
  | nil => rfl
  | cons c cs =>
      -- The first character of the text is the first of the token.
      have hhead : (visible operandExpected (c :: cs)).text.head? = some c := by
        have happ := visible_append operandExpected (c :: cs)
        rcases List.exists_cons_of_ne_nil (visible_of_ne_nil operandExpected
          (List.cons_ne_nil c cs)).2 with ⟨d, text, htext⟩
        rw [htext, List.cons_append] at happ
        rw [htext, List.head?_cons, (List.cons.inj happ).1]
      have hsign : (decide (c = '+') || decide (c = '-')) = false := by
        rw [← Bool.not_eq_true, Bool.or_eq_true, decide_eq_true_eq, decide_eq_true_eq]
        rintro (rfl | rfl)
        · exact h (Or.inl hhead)
        · exact h (Or.inr hhead)
      rw [visible, visible, hsign]
      rfl

theorem lexeme_expecting {operandExpected : Bool} {cs : List Char}
    (h : (lexeme operandExpected cs).kind ≠ .whitespace →
      ¬Text.OpensWithSign (lexeme operandExpected cs).text) (expected : Bool) :
    lexeme expected cs = lexeme operandExpected cs := by
  by_cases hblank : (Lexeme.blankRun .between cs).1 = []
  · have hsign := h fun hkind => lexeme_whitespace_iff.1 hkind hblank
    rw [lexeme_of_visible hblank] at hsign
    rw [lexeme_of_visible hblank, lexeme_of_visible hblank]
    exact Lexeme.visible_expecting hsign expected
  · rw [lexeme_of_blank hblank, lexeme_of_blank hblank]

namespace Cursor

theorem exists_cursor_behind {c : Cursor} {front back : List Token}
    (h : c.tokens = front ++ back) (hback : back ≠ []) :
    ∃ d : Cursor, d.tokens = back ∧
      d.offset = c.offset + Text.byteLength (Token.textsOf front) ∧
      d.operandExpected =
        front.foldl (fun before t => expectsOperand before t.kind t.text) c.operandExpected := by
  induction front generalizing c with
  | nil => exact ⟨c, h, rfl, rfl⟩
  | cons t front ih =>
      rcases tokens_eq_cons h (Or.inr (List.append_ne_nil_of_right_ne_nil front hback)) with
        ⟨hnext, -, hbehind⟩
      rcases ih hbehind with ⟨d, hd, hoffset, hexpected⟩
      refine ⟨d, hd, ?_, ?_⟩
      · rw [hoffset, (next_span c).2, hnext, Token.textsOf_cons, Text.byteLength_append,
          Nat.add_assoc]
      · rw [hexpected, List.foldl_cons, ← hnext]
        rfl

/-- The cursor, `offset` bytes further back. -/
def moved (offset : Nat) (c : Cursor) : Cursor :=
  { c with offset := c.offset + offset }

theorem next_moved (offset : Nat) (c : Cursor) :
    (c.moved offset).next = (c.next.1.moved offset, c.next.2.moved offset) := by
  simp only [next, moved, Token.moved, Nat.add_right_comm]

theorem tokens_moved (offset : Nat) (c : Cursor) :
    (c.moved offset).tokens = c.tokens.map (Token.moved offset) := by
  fun_induction tokens c with
  | case1 c h =>
      have hend : (c.moved offset).next.1.kind = .eof := by rwa [next_moved]
      rw [tokens, dif_pos hend, next_moved, List.map_singleton]
  | case2 c h ih =>
      have hgo : ¬(c.moved offset).next.1.kind = .eof := by rwa [next_moved]
      rw [tokens, dif_neg hgo, next_moved, List.map_cons, ← ih]

/-- The cursor with another answer to whether an operand is expected. -/
def expecting (c : Cursor) (expected : Bool) : Cursor :=
  { c with operandExpected := expected }

theorem next_expecting_of_blank {c : Cursor} (h : c.next.1.kind = .whitespace) (expected : Bool) :
    (c.expecting expected).next = (c.next.1, c.next.2.expecting expected) := by
  have hkind : (lexeme c.operandExpected c.rest).kind = .whitespace := h
  have hlexeme : lexeme expected c.rest = lexeme c.operandExpected c.rest :=
    lexeme_expecting (fun hne => absurd hkind hne) expected
  simp only [next, expecting, hlexeme, hkind, expectsOperand]

/-- Behind a token that is no blank it does not count what was expected in front
    of it. -/
theorem next_expecting_of_visible {c : Cursor} (hkind : c.next.1.kind ≠ .whitespace)
    (hsign : ¬c.next.1.OpensWithSign) (expected : Bool) :
    (c.expecting expected).next = c.next := by
  rw [Token.OpensWithSign, next, String.toList_ofList] at hsign
  have hlexeme : lexeme expected c.rest = lexeme c.operandExpected c.rest :=
    lexeme_expecting (fun _ => hsign) expected
  have hexpects (text : String) : expectsOperand expected c.next.1.kind text =
      expectsOperand c.operandExpected c.next.1.kind text := by
    cases hk : c.next.1.kind with
    | whitespace => exact absurd hk hkind
    | _ => rfl
  simp only [next, expecting, hlexeme] at hexpects ⊢
  rw [hexpects]

theorem tokens_expecting {c : Cursor}
    (h : ∀ t, c.tokens.find? (fun t => !t.isWhitespace) = some t → ¬t.OpensWithSign)
    (expected : Bool) : (c.expecting expected).tokens = c.tokens := by
  fun_induction tokens c with
  | case1 c hend =>
      have hrest : (c.expecting expected).rest = [] := (next_eof hend).1
      rw [tokens, next_nil hrest, (next_eof hend).2.1]
      rfl
  | case2 c hgo ih =>
      by_cases hkind : c.next.1.kind = .whitespace
      · -- A blank changes nothing, and the next token is asked.
        have hblank : c.next.1.isWhitespace = true := decide_eq_true hkind
        have hnext := next_expecting_of_blank hkind expected
        simp only [List.find?_cons, hblank, Bool.not_true] at h
        rw [tokens, hnext, dif_neg hgo, ih h]
      · have hvisible : c.next.1.isWhitespace = false := decide_eq_false hkind
        simp only [List.find?_cons, hvisible, Bool.not_false, Option.some.injEq, forall_eq'] at h
        rw [tokens, next_expecting_of_visible hkind h, dif_neg hgo]

/-- A stretch that ends in front of a semicolon, or with the text, is read
    without what stands behind it. -/
theorem tokens_textsOf {c : Cursor} {stretch rest : List Token} {t : Token}
    (h : c.tokens = stretch ++ t :: rest) (ht : t.kind = .eof ∨ t.isMark ";" = true) :
    ({ c with rest := Token.textsOf stretch } : Cursor).tokens =
      stretch ++ [Token.ending (c.offset + Text.byteLength (Token.textsOf stretch))] := by
  have hrest : c.rest = Token.textsOf stretch ++ (t.text.toList ++ Token.textsOf rest) := by
    rw [← tokens_append c, h]
    exact (Token.textsOf_append stretch (t :: rest)).trans
      (congrArg (Token.textsOf stretch ++ ·) (Token.textsOf_cons t rest))
  rcases ht with heof | hmark
  · -- The end is the last token, so nothing stood behind the stretch.
    rcases tokens_eq_concat c with ⟨body, hbody, hall⟩
    rw [h] at hbody
    rcases List.eq_nil_or_concat' rest with rfl | ⟨front, u, rfl⟩
    · rcases List.append_inj' hbody rfl with ⟨rfl, hlast⟩
      have htext : t.text.toList = [] := by
        rw [(List.cons.inj hlast).1]
        rfl
      rw [htext] at hrest
      have hsame : c.rest = Token.textsOf stretch := by
        rw [hrest]
        exact List.append_nil _
      rw [← hsame, ← hlast]
      exact h
    · rw [← List.cons_append, ← List.append_assoc] at hbody
      have hmem : t ∈ body := by
        rw [← (List.append_inj' hbody rfl).1]
        exact List.mem_append_right _ List.mem_cons_self
      exact absurd heof (hall t hmem).1
  · have hsemi : t.text = ";" := by
      rw [Token.isMark, Bool.and_eq_true, decide_eq_true_eq, decide_eq_true_eq] at hmark
      exact hmark.2
    have hbefore : c = ({ c with rest := Token.textsOf stretch } : Cursor).before
        (';' :: Token.textsOf rest) := by
      rw [before, ← List.singleton_append, ← show ";".toList = [';'] from rfl, ← hsemi, ← hrest]
    rw [hbefore] at h
    exact tokens_before_mark h rfl

end Cursor

/-- A stretch of the tokens of a text is read again when its text stands alone,
    unless it opens with a sign and something stood in front of it. -/
theorem tokenize_textsOf {sql : String} {before stretch rest : List Token} {t : Token}
    (h : tokenize sql = before ++ (stretch ++ t :: rest))
    (ht : t.kind = .eof ∨ t.isMark ";" = true)
    (hvisible : ∃ u ∈ stretch, u.isWhitespace = false)
    (hsign : before = [] ∨
      ∀ u, stretch.find? (fun u => !u.isWhitespace) = some u → ¬u.OpensWithSign) :
    ∃ body size, tokenize (String.ofList (Token.textsOf stretch)) =
        body ++ [Token.ending size] ∧ (∀ u ∈ body, u.kind ≠ .eof) ∧
      body.map (Token.moved (Text.byteLength (Token.textsOf before))) = stretch := by
  rcases Cursor.exists_cursor_behind h (List.append_ne_nil_of_right_ne_nil _
    (List.cons_ne_nil t rest)) with ⟨c, hc, hoffset, hexpected⟩
  rw [Cursor.start, Nat.zero_add] at hoffset
  have halone := Cursor.tokens_textsOf hc ht
  -- An operand is expected at the front of a text, which is so or makes no difference.
  have hexpecting : (({ c with rest := Token.textsOf stretch } : Cursor).expecting true).tokens =
      ({ c with rest := Token.textsOf stretch } : Cursor).tokens := by
    rcases hsign with rfl | hsign
    · rw [Cursor.expecting, ← show c.operandExpected = true from hexpected]
    · refine Cursor.tokens_expecting (fun u hu => hsign u ?_) true
      rw [halone, List.find?_append] at hu
      rcases hvisible with ⟨v, hv, hblank⟩
      cases hfind : stretch.find? fun u => !u.isWhitespace with
      | some w => rwa [hfind] at hu
      | none =>
          have hnone := List.find?_eq_none.1 hfind v hv
          rw [hblank] at hnone
          exact absurd rfl hnone
  have hmoved : ((Cursor.start (String.ofList (Token.textsOf stretch))).moved c.offset) =
      ({ c with rest := Token.textsOf stretch } : Cursor).expecting true := by
    rw [Cursor.start, Cursor.moved, String.toList_ofList, Nat.zero_add, Cursor.expecting]
  rw [halone, ← hmoved, Cursor.tokens_moved, ← tokenize] at hexpecting
  rcases tokenize_eq_concat (String.ofList (Token.textsOf stretch)) with ⟨body, hbody, hall⟩
  rw [hbody, List.map_append] at hexpecting
  refine ⟨body, _, hbody, fun u hu => (hall u hu).1, ?_⟩
  rw [← hoffset]
  exact (List.append_inj' hexpecting rfl).1

end SqlGist
