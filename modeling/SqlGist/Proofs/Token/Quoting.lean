import Mathlib.Data.List.TakeWhile
import SqlGist.Proofs.Token.Words

/-!
# Quoting and Reading Quotes

A text is quoted by writing each quote in it twice and putting one at either
end. Three scans have to agree on what that means: the one that looks for the
closing quote and passes pairs, the one that takes off the outer quotes, and the
one that makes each pair one again. They do, because a run of quotes inside is
always even, so what closes is the odd one at the end of a run.

Read backwards, whatever closes was quoted: the scan for the closing quote passes
nothing but pairs and other characters, and that is what doubling makes. So a
quoted token has one text for each value, and a name that is not quoted holds no
quote at all.

## Main definitions

* `IsWritten`: How the lexer writes strings and names.

## Theorems

* `exists_double_of_closeQuote?`: What is closed was doubled.
* `isWritten_of_mem_tokenize`: Strings are in apostrophes, and names in quotes or
  bare.
* `exists_enclose_of_quote?`, `isWordChar_of_nameQuote?`: The text of a quoted
  token, and of a name that is not.
* `quoting_roundTrip`: Quoting and reading quotes undo each other.
-/

namespace SqlGist

/-- What closes at a quote was doubled in front of it. -/
theorem Text.exists_double_of_closeQuote? {q : Char} {cs body rest : List Char}
    (h : closeQuote? q cs = some (body, rest)) : ∃ ds, body = double q ds ++ [q] := by
  fun_induction closeQuote? q cs generalizing body with
  | case1 => exact absurd h.symm (Option.some_ne_none _)
  | case2 =>
      rw [Option.some.injEq, Prod.mk.injEq] at h
      exact ⟨[], h.1.symm⟩
  | case3 => exact absurd h.symm (Option.some_ne_none _)
  | case4 cs ih =>
      -- A pair is passed, and stands for one quote of the text.
      rcases Option.map_eq_some_iff.1 h with ⟨⟨inner, left⟩, hrec, hparts⟩
      rw [Prod.mk.injEq] at hparts
      obtain ⟨rfl, rfl⟩ := hparts
      rcases ih hrec with ⟨ds, hds⟩
      exact ⟨q :: ds, by rw [hds, double, if_pos rfl, List.cons_append, List.cons_append]⟩
  | case5 d cs _ =>
      rw [Option.some.injEq, Prod.mk.injEq] at h
      exact ⟨[], h.1.symm⟩
  | case6 c d cs hc ih =>
      rcases Option.map_eq_some_iff.1 h with ⟨⟨inner, left⟩, hrec, hparts⟩
      rw [Prod.mk.injEq] at hparts
      obtain ⟨rfl, rfl⟩ := hparts
      rcases ih hrec with ⟨ds, hds⟩
      exact ⟨c :: ds, by rw [hds, double, if_neg hc, List.cons_append]⟩

theorem Quote.char_of_ofNameQuote? {c : Char} {q : Quote} (h : ofNameQuote? c = some q) :
    q.char = c := by
  rw [ofNameQuote?] at h
  split at h
  · rename_i hc
    rw [← Option.some.inj h, hc]
  · split at h
    · rename_i hc
      rw [← Option.some.inj h, hc]
    · exact absurd h.symm (Option.some_ne_none q)

/-- How the lexer writes the tokens that may be quoted: a string in apostrophes,
    and a name in quotes of its own or as a bare word. -/
def IsWritten (kind : TokenKind) (text : List Char) : Prop :=
  match kind with
  | .string => ∃ ds, text = Text.enclose Quote.apostrophe.char ds
  | .name =>
    (∃ q ds, Quote.ofNameQuote? q.char = some q ∧ text = Text.enclose q.char ds) ∨
      ∀ c ∈ text, CharClass.isWordChar c = true
  | _ => True

namespace Lexeme

/-- What a quote opens is the quoted form of some text, or an error. -/
theorem quoted_cases (kind : TokenKind) (cause : LexicalError) (q : Char) (cs : List Char) :
    (∃ ds, (quoted kind cause q cs).kind = kind ∧
      (quoted kind cause q cs).text = Text.enclose q ds) ∨
      (quoted kind cause q cs).kind = .error cause := by
  rw [quoted]
  split
  · rename_i body rest hclose
    rcases Text.exists_double_of_closeQuote? hclose with ⟨ds, rfl⟩
    exact Or.inl ⟨ds, rfl, rfl⟩
  · exact Or.inr rfl

theorem isWritten_word (cs : List Char) : IsWritten (word cs).kind (word cs).text := by
  have htake : ∀ c ∈ cs.takeWhile CharClass.isWordChar, CharClass.isWordChar c = true :=
    fun c hc => List.mem_takeWhile_imp hc
  simp only [word]
  split
  · split
    · exact trivial
    · exact trivial
  · split
    · exact trivial
    · exact Or.inr htake

theorem isWritten_visible (operandExpected : Bool) (cs : List Char) :
    IsWritten (visible operandExpected cs).kind (visible operandExpected cs).text := by
  fun_cases visible operandExpected cs with
  | case6 cs =>
      rcases quoted_cases .string .unterminatedString Quote.apostrophe.char cs with
        ⟨ds, hkind, htext⟩ | hkind
      · rw [hkind]
        exact ⟨ds, htext⟩
      · rw [hkind]
        exact trivial
  | case7 c cs _ _ _ _ _ hquote =>
      rcases Option.isSome_iff_exists.1 hquote with ⟨q, hq⟩
      have hc := Quote.char_of_ofNameQuote? hq
      rcases quoted_cases .name .unterminatedName c cs with ⟨ds, hkind, htext⟩ | hkind
      · rw [hkind]
        exact Or.inl ⟨q, ds, by rw [hc, hq], by rw [hc, htext]⟩
      · rw [hkind]
        exact trivial
  | case9 c cs => exact isWritten_word (c :: cs)
  | _ => exact trivial

theorem isWritten_lexeme (operandExpected : Bool) (cs : List Char) :
    IsWritten (lexeme operandExpected cs).kind (lexeme operandExpected cs).text := by
  rw [lexeme]
  split
  · exact isWritten_visible operandExpected cs
  · exact trivial

end Lexeme

namespace Token

variable {sql : String} {t : Token}

theorem isWritten_of_mem_tokenize (ht : t ∈ tokenize sql) : IsWritten t.kind t.text.toList := by
  by_cases heof : t.kind = .eof
  · rw [heof]
    exact trivial
  · rcases List.append_of_mem ht with ⟨front, back, heq⟩
    rcases Cursor.exists_tokens_eq_cons heq with ⟨c, hc⟩
    rcases Cursor.tokens_eq_cons hc (Or.inl heof) with ⟨rfl, -, -⟩
    rw [Cursor.next, String.toList_ofList]
    exact Lexeme.isWritten_lexeme c.operandExpected c.rest

/-- A quoted token is the quoted form of some text. -/
theorem exists_enclose_of_quote? (ht : t ∈ tokenize sql) {q : Quote} (hq : t.quote? = some q) :
    ∃ ds, t.text.toList = Text.enclose q.char ds := by
  have hwritten := isWritten_of_mem_tokenize ht
  rw [quote?] at hq
  split at hq
  · rename_i hkind
    rw [hkind] at hwritten
    rw [← Option.some.inj hq]
    exact hwritten
  · rename_i hkind
    rw [hkind] at hwritten
    rcases hwritten with ⟨r, ds, hr, htext⟩ | hword
    · -- The token opens with the quote, which is therefore the one it is said to have.
      rw [nameQuote?, htext, Text.enclose, List.head?_cons, Option.bind_some, hr,
        Option.some.injEq] at hq
      exact ⟨ds, hq ▸ htext⟩
    · rw [nameQuote?_of_isWordChar hword] at hq
      exact absurd hq.symm (Option.some_ne_none q)
  · exact absurd hq.symm (Option.some_ne_none q)

/-- A name without a quote is made of word characters. -/
theorem isWordChar_of_nameQuote? (ht : t ∈ tokenize sql) (hkind : t.kind = .name)
    (hquote : t.nameQuote? = none) : ∀ c ∈ t.text.toList, CharClass.isWordChar c = true := by
  have hwritten := isWritten_of_mem_tokenize ht
  rw [hkind] at hwritten
  rcases hwritten with ⟨r, ds, hr, htext⟩ | hword
  · rw [nameQuote?, htext, Text.enclose, List.head?_cons, Option.bind_some, hr] at hquote
    exact absurd hquote (Option.some_ne_none r)
  · exact hword

/-- A text in quotes is the first token of what it opens. -/
theorem head?_tokenize_enclose (q : Quote) (s : String) {rest : List Char}
    (h : rest.head? ≠ some q.char) :
    (tokenize (String.ofList (Text.enclose q.char s.toList ++ rest))).head? =
      some ⟨q.kind, String.ofList (Text.enclose q.char s.toList),
        ⟨0, Text.byteLength (Text.enclose q.char s.toList)⟩⟩ := by
  have hreads : lexeme true (Text.enclose q.char s.toList ++ rest) =
      ⟨q.kind, Text.enclose q.char s.toList, rest⟩ := by
    simpa only [Reads, inQuotes, bare, String.toList_ofList] using reads_inQuotes true q s h
  rw [tokenize, Cursor.head?_tokens]
  simp only [Cursor.next, Cursor.start, String.toList_ofList, hreads, Nat.zero_add]

/-- Quoting and reading quotes undo each other. A quoted text in front of
    anything but its own quote is the first token, which is no longer and denotes
    what was quoted. And every string and every quoted name among the tokens of a
    text is the quoted form of what it denotes. -/
theorem quoting_roundTrip :
    (∀ (q : Quote) (s : String) (rest : List Char), rest.head? ≠ some q.char →
      ∃ t, (tokenize (String.ofList (Text.enclose q.char s.toList ++ rest))).head? = some t ∧
        t.kind = q.kind ∧ t.text.toList = Text.enclose q.char s.toList ∧
        t.span = ⟨0, Text.byteLength (Text.enclose q.char s.toList)⟩ ∧ t.value = s) ∧
      ∀ sql, ∀ t ∈ tokenize sql, ∀ q, t.quote? = some q →
        t.text.toList = Text.enclose q.char t.value.toList := by
  constructor
  · intro q s rest hrest
    refine ⟨_, head?_tokenize_enclose q s hrest, rfl, String.toList_ofList, rfl, ?_⟩
    -- What a token denotes does not depend on its place.
    exact value_inQuotes q s
  · intro sql t ht q hq
    rcases exists_enclose_of_quote? ht hq with ⟨ds, hds⟩
    rw [value_of_quote? hq, hds, Text.unquote_enclose, String.toList_ofList]

/-- Two grave accents and nothing else are quoted as six, and four apostrophes in
    a statement are the quoted form of one. -/
theorem quoting_roundTrip_runs :
    ([' '] : List Char).head? ≠ some Quote.grave.char ∧
      (∃ t, (tokenize "`````` ").head? = some t ∧ t.kind = .name ∧
        t.text.toList = "``````".toList ∧ t.span = ⟨0, 6⟩ ∧ t.value = "``") ∧
      ∃ t ∈ tokenize "SELECT ''''", t.quote? = some .apostrophe ∧
        t.text.toList = Text.enclose Quote.apostrophe.char t.value.toList := by
  have hrest : ([' '] : List Char).head? ≠ some Quote.grave.char := by decide
  have hmem : (⟨.string, "''''", ⟨7, 11⟩⟩ : Token) ∈ tokenize "SELECT ''''" := by
    decide +kernel
  exact ⟨hrest, quoting_roundTrip.1 .grave "``" [' '] hrest, _, hmem, rfl,
    quoting_roundTrip.2 _ _ hmem _ rfl⟩

end Token

end SqlGist
