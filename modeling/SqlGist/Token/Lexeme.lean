import SqlGist.Text.CharClass
import SqlGist.Token

/-!
# Lexemes

One token cut off the front of a text. Each scanner below answers with the
characters it takes and the characters it leaves, so that nothing it does can
lose text: `lexeme_append` says that the two always make up the input, and
`lexeme_text_ne_nil` that a token takes at least one character unless it
stands for the end. Every property of a whole token list rests on these two.

What a character begins depends on one thing behind it. A sign in front of a
digit belongs to the number where an operand is expected, as in `= -1`, and is
an operator elsewhere, as in `a -1`; `lexeme` is told which.

## Main definitions

* `Lexeme`: A kind, the characters taken, and the characters left.
* `blankRun`: The run of blanks and comments at the front.
* `number`: The longest number at the front.
* `nullSuffix?`: A blank and the word `NULL` at the front.
* `word`: The bare word at the front.
* `operator?`: The operator at the front.
* `lexeme`: The token at the front.

## Theorems

* `blankRun_append`, `number_append`, `word_append`, `operator?_append`: What
  is taken and what is left make up the text.
* `lexeme_append`: The same for a token.
* `lexeme_text_ne_nil`: Only the end of the text takes nothing.
* `lexeme_eof`: The end is read only where nothing is left.
* `lexeme_length`: A token other than the end leaves a shorter text.
-/

namespace SqlGist

/-- A token at the front of a text: its kind, its characters, and the
    characters behind it. -/
structure Lexeme where
  kind : TokenKind
  text : List Char
  rest : List Char

namespace Lexeme

/-- What a run of blanks and comments is in the middle of. -/
inductive BlankState
  | between
  | lineComment
  | blockComment

/-- A run with characters taken in front of it. -/
def carry (taken : List Char) (run : List Char × List Char) : List Char × List Char :=
  (taken ++ run.1, run.2)

/-- The run of blanks and comments at the front, and the rest. A line comment
    ends before its line feed, which is a blank itself. A block comment ends at
    the first closing mark, or with the text. -/
def blankRun : BlankState → List Char → List Char × List Char
  | _, [] => ([], [])
  -- A comment opens wherever a token could, also right behind a blank.
  | .between, '-' :: '-' :: cs => carry ['-', '-'] (blankRun .lineComment cs)
  | .between, '/' :: '*' :: cs => carry ['/', '*'] (blankRun .blockComment cs)
  | .between, c :: cs =>
    if CharClass.isBlank c then carry [c] (blankRun .between cs) else ([], c :: cs)
  -- The line feed ends the comment and is itself taken as a blank.
  | .lineComment, c :: cs =>
    carry [c] (blankRun (if c = '\n' then .between else .lineComment) cs)
  | .blockComment, '*' :: '/' :: cs => carry ['*', '/'] (blankRun .between cs)
  | .blockComment, c :: cs => carry [c] (blankRun .blockComment cs)

/-- Whether the text goes on with a digit. -/
def startsWithDigit (cs : List Char) : Bool :=
  cs.head?.any Char.isDigit

/-- The digits at the front, and the rest. -/
def digits (cs : List Char) : List Char × List Char :=
  (cs.takeWhile Char.isDigit, cs.dropWhile Char.isDigit)

/-- The decimal fraction at the front: a point counts only before a digit. -/
def fraction : List Char → List Char × List Char
  | [] => ([], [])
  | c :: cs =>
    if c = '.' ∧ startsWithDigit cs then (c :: (digits cs).1, (digits cs).2) else ([], c :: cs)

/-- The exponent at the front. The letter counts before a digit or a sign,
    and behind a sign there may be no digit at all. -/
def exponent : List Char → List Char × List Char
  | [] => ([], [])
  | [c] => ([], [c])
  | c :: d :: cs =>
    if c = 'e' ∨ c = 'E' then
      if d = '+' ∨ d = '-' then (c :: d :: (digits cs).1, (digits cs).2)
      else if d.isDigit then (c :: (digits (d :: cs)).1, (digits (d :: cs)).2)
      else ([], c :: d :: cs)
    else ([], c :: d :: cs)

/-- The number at the front: digits, a fraction and an exponent. -/
def number (cs : List Char) : List Char × List Char :=
  let whole := digits cs
  let part := fraction whole.2
  -- Each part may be empty but the first, which the caller has seen to.
  let scale := exponent part.2
  (whole.1 ++ (part.1 ++ scale.1), scale.2)

/-- Whether a character right behind it makes `NULL` a part of a longer word.
    A dollar sign does not. -/
def continuesNull (cs : List Char) : Bool :=
  cs.head?.any fun c => CharClass.isAlphanumeric c || c = '_'

/-- Behind `NOT`: a run of blanks and the word `NULL`, and the rest. A comment
    between the two words keeps them apart. -/
def nullSuffix? (cs : List Char) : Option (List Char × List Char) :=
  let gap := cs.takeWhile CharClass.isBlank
  let after := cs.dropWhile CharClass.isBlank
  if gap.isEmpty then none
  -- The word counts in any mixture of cases, but not as the front of another.
  else if (after.take 4).map Char.toUpper = "NULL".toList && !continuesNull (after.drop 4) then
    some (gap ++ after.take 4, after.drop 4)
  else none

/-- The bare word at the front: a keyword, a builtin type, or a name. A type
    word directly before a parenthesis is a name, since `varchar(255)` is a
    type with a parameter and not the builtin `varchar`. -/
def word (cs : List Char) : Lexeme :=
  let text := cs.takeWhile CharClass.isWordChar
  let rest := cs.dropWhile CharClass.isWordChar
  match Keyword.ofWord? (String.ofList text) with
  | some k =>
    -- Only `NOT` looks past its own end.
    match (if k = .not then nullSuffix? rest else none) with
    | some (suffix, rest) => ⟨.keyword .notNull, text ++ suffix, rest⟩
    | none => ⟨.keyword k, text, rest⟩
  | none =>
    if isBuiltinType (String.ofList text) && rest.head? != some '(' then ⟨.builtin, text, rest⟩
    else ⟨.name, text, rest⟩

/-- The quoted text that `q` opens, or the whole rest of the statement as an
    error if nothing closes it. -/
def quoted (kind : TokenKind) (cause : LexicalError) (q : Char) (cs : List Char) : Lexeme :=
  match Text.closeQuote? q cs with
  | some (body, rest) => ⟨kind, q :: body, rest⟩
  | none => ⟨.error cause, q :: cs, []⟩

/-- The operator at the front, as long as possible. -/
def operator? : List Char → Option (List Char × List Char)
  | '<' :: '=' :: cs => some (['<', '='], cs)
  | '<' :: '>' :: cs => some (['<', '>'], cs)
  | '>' :: '=' :: cs => some (['>', '='], cs)
  | '!' :: '=' :: cs => some (['!', '='], cs)
  | '|' :: '|' :: cs => some (['|', '|'], cs)
  | '<' :: cs => some (['<'], cs)
  | '>' :: cs => some (['>'], cs)
  | '=' :: cs => some (['='], cs)
  | '+' :: cs => some (['+'], cs)
  | '-' :: cs => some (['-'], cs)
  | '/' :: cs => some (['/'], cs)
  | '%' :: cs => some (['%'], cs)
  | _ => none

/-- The characters that are punctuation by themselves. -/
def marks : List Char :=
  ['(', ')', ',', ';', '.', '[', ']', ':', '?', '@']

/-- The token at the front of a text that does not open with a blank or a
    comment. -/
def visible (operandExpected : Bool) : List Char → Lexeme
  | [] => ⟨.eof, [], []⟩
  | c :: cs =>
    if marks.contains c then ⟨.punctuation, [c], cs⟩
    else if c = '*' then ⟨.wildcard, [c], cs⟩
    -- A sign is tried before the operators, since it may belong to a number.
    else if (c = '+' || c = '-') && operandExpected && startsWithDigit cs then
      ⟨.number, c :: (number cs).1, (number cs).2⟩
    else
      match operator? (c :: cs) with
      | some (text, rest) => ⟨.operator, text, rest⟩
      | none =>
        -- Nothing below is a mark or an operator, so the order matters no more.
        if c = Quote.apostrophe.char then quoted .string .unterminatedString c cs
        else if (Quote.ofNameQuote? c).isSome then quoted .name .unterminatedName c cs
        else if c.isDigit then ⟨.number, (number (c :: cs)).1, (number (c :: cs)).2⟩
        else if CharClass.isLetter c || c = '_' then word (c :: cs)
        else ⟨.error (.unexpected c), [c], cs⟩

end Lexeme

open Lexeme in
/-- The token at the front of a text. Blanks and comments come first, because a
    comment opens with the character of an operator. -/
def lexeme (operandExpected : Bool) (cs : List Char) : Lexeme :=
  let blanks := blankRun .between cs
  if blanks.1.isEmpty then visible operandExpected cs
  else ⟨.whitespace, blanks.1, blanks.2⟩

namespace Lexeme

theorem blankRun_append (s : BlankState) (cs : List Char) :
    (blankRun s cs).1 ++ (blankRun s cs).2 = cs := by
  fun_induction blankRun s cs <;>
    simp_all only [carry, List.nil_append, List.cons_append]

theorem digits_append (cs : List Char) : (digits cs).1 ++ (digits cs).2 = cs :=
  List.takeWhile_append_dropWhile

theorem fraction_append (cs : List Char) : (fraction cs).1 ++ (fraction cs).2 = cs := by
  fun_cases fraction cs <;> simp only [List.nil_append, List.cons_append, digits_append]

theorem exponent_append (cs : List Char) : (exponent cs).1 ++ (exponent cs).2 = cs := by
  fun_cases exponent cs <;> simp only [List.nil_append, List.cons_append, digits_append]

theorem number_append (cs : List Char) : (number cs).1 ++ (number cs).2 = cs := by
  simp only [number, List.append_assoc, exponent_append, fraction_append, digits_append]

theorem nullSuffix?_append {cs suffix rest : List Char}
    (h : nullSuffix? cs = some (suffix, rest)) : suffix ++ rest = cs := by
  simp only [nullSuffix?] at h
  split at h
  · simp only [reduceCtorEq] at h
  · split at h
    · simp only [Option.some.injEq, Prod.mk.injEq] at h
      rw [← h.1, ← h.2, List.append_assoc, List.take_append_drop,
        List.takeWhile_append_dropWhile]
    · simp only [reduceCtorEq] at h

theorem word_append (cs : List Char) : (word cs).text ++ (word cs).rest = cs := by
  simp only [word]
  split
  · split
    · rename_i k _ _ suffix rest hsuffix
      split at hsuffix
      · simp only [List.append_assoc, nullSuffix?_append hsuffix, List.takeWhile_append_dropWhile]
      · simp only [reduceCtorEq] at hsuffix
    · exact List.takeWhile_append_dropWhile
  · split <;> exact List.takeWhile_append_dropWhile

theorem quoted_append (kind : TokenKind) (cause : LexicalError) (q : Char) (cs : List Char) :
    (quoted kind cause q cs).text ++ (quoted kind cause q cs).rest = q :: cs := by
  simp only [quoted]
  split
  · rename_i body rest hclose
    simp only [List.cons_append, Text.closeQuote?_append hclose]
  · simp only [List.append_nil]

theorem operator?_append {cs text rest : List Char} (h : operator? cs = some (text, rest)) :
    text ++ rest = cs := by
  revert h
  fun_cases operator? cs <;> intro h <;>
    simp only [Option.some.injEq, Prod.mk.injEq, reduceCtorEq] at h <;>
    rw [← h.1, ← h.2] <;> rfl

theorem operator?_ne_nil {cs text rest : List Char} (h : operator? cs = some (text, rest)) :
    text ≠ [] := by
  revert h
  fun_cases operator? cs <;> intro h <;>
    simp only [Option.some.injEq, Prod.mk.injEq, reduceCtorEq] at h <;>
    rw [← h.1] <;> exact List.cons_ne_nil _ _

theorem visible_append (operandExpected : Bool) (cs : List Char) :
    (visible operandExpected cs).text ++ (visible operandExpected cs).rest = cs := by
  fun_cases visible operandExpected cs with
  | case1 => rfl
  | case2 => rfl
  | case3 => rfl
  | case4 => simp only [List.cons_append, number_append]
  | case5 => exact operator?_append (by assumption)
  | case6 => exact quoted_append _ _ _ _
  | case7 => exact quoted_append _ _ _ _
  | case8 => exact number_append _
  | case9 => exact word_append _
  | case10 => rfl

theorem startsWithDigit_digits {cs : List Char} (h : startsWithDigit cs = true) :
    (digits cs).1 ≠ [] := by
  cases cs with
  | nil => simp only [startsWithDigit, List.head?_nil, Option.any_none, Bool.false_eq_true] at h
  | cons c cs =>
      simp only [startsWithDigit, List.head?_cons, Option.any_some] at h
      simp only [digits, List.takeWhile_cons, h, if_true, ne_eq, reduceCtorEq, not_false_eq_true]

theorem number_ne_nil {cs : List Char} (h : startsWithDigit cs = true) : (number cs).1 ≠ [] := by
  intro hnil
  simp only [number, List.append_eq_nil_iff] at hnil
  exact startsWithDigit_digits h hnil.1

theorem isWordChar_of_opens {c : Char} (h : (CharClass.isLetter c || c = '_') = true) :
    CharClass.isWordChar c = true := by
  simp only [Bool.or_eq_true, decide_eq_true_eq] at h
  simp only [CharClass.isWordChar, CharClass.isAlphanumeric, Bool.or_eq_true, decide_eq_true_eq]
  rcases h with h | h
  · exact Or.inl (Or.inl (Or.inl h))
  · exact Or.inl (Or.inr h)

theorem word_ne_nil {c : Char} (cs : List Char) (h : CharClass.isWordChar c = true) :
    (word (c :: cs)).text ≠ [] := by
  have htake : (c :: cs).takeWhile CharClass.isWordChar ≠ [] := by
    simp only [List.takeWhile_cons, h, if_true, ne_eq, reduceCtorEq, not_false_eq_true]
  simp only [word]
  split
  · split
    · exact fun hnil => htake (List.append_eq_nil_iff.1 hnil).1
    · exact htake
  · split <;> exact htake

theorem quoted_ne_nil (kind : TokenKind) (cause : LexicalError) (q : Char) (cs : List Char) :
    (quoted kind cause q cs).text ≠ [] := by
  simp only [quoted]
  split <;> exact List.cons_ne_nil _ _

/-- A word is a keyword, a built-in type or a name. -/
theorem word_kind_ne {other : TokenKind} (cs : List Char) (hkeyword : ∀ k, .keyword k ≠ other)
    (hbuiltin : .builtin ≠ other) (hname : .name ≠ other) : (word cs).kind ≠ other := by
  simp only [word]
  split
  · split <;> exact hkeyword _
  · split
    · exact hbuiltin
    · exact hname

/-- What is quoted is of the kind it should be, or an error. -/
theorem quoted_kind_ne {kind other : TokenKind} {cause : LexicalError} (q : Char) (cs : List Char)
    (hkind : kind ≠ other) (herror : .error cause ≠ other) :
    (quoted kind cause q cs).kind ≠ other := by
  simp only [quoted]
  split
  · exact hkind
  · exact herror

theorem visible_of_ne_nil (operandExpected : Bool) {cs : List Char} (h : cs ≠ []) :
    (visible operandExpected cs).kind ≠ .eof ∧ (visible operandExpected cs).text ≠ [] := by
  fun_cases visible operandExpected cs with
  | case1 => exact absurd rfl h
  | case2 => exact ⟨TokenKind.noConfusion, List.cons_ne_nil _ _⟩
  | case3 => exact ⟨TokenKind.noConfusion, List.cons_ne_nil _ _⟩
  | case4 => exact ⟨TokenKind.noConfusion, List.cons_ne_nil _ _⟩
  | case5 => exact ⟨TokenKind.noConfusion, operator?_ne_nil (by assumption)⟩
  | case6 =>
      exact ⟨quoted_kind_ne _ _ TokenKind.noConfusion TokenKind.noConfusion,
        quoted_ne_nil _ _ _ _⟩
  | case7 =>
      exact ⟨quoted_kind_ne _ _ TokenKind.noConfusion TokenKind.noConfusion,
        quoted_ne_nil _ _ _ _⟩
  | case8 c cs _ _ _ _ _ _ hdigit =>
      -- The first character is a digit already, so the number is not empty.
      refine ⟨TokenKind.noConfusion, number_ne_nil ?_⟩
      simp only [startsWithDigit, List.head?_cons, Option.any_some, hdigit]
  | case9 c cs _ _ _ _ _ _ _ hopens =>
      -- A character that opens a word also goes on one.
      refine ⟨word_kind_ne _ ?_ ?_ ?_, word_ne_nil cs (isWordChar_of_opens hopens)⟩
      · exact fun _ => TokenKind.noConfusion
      · exact TokenKind.noConfusion
      · exact TokenKind.noConfusion
  | case10 => exact ⟨TokenKind.noConfusion, List.cons_ne_nil _ _⟩

end Lexeme

theorem lexeme_append (operandExpected : Bool) (cs : List Char) :
    (lexeme operandExpected cs).text ++ (lexeme operandExpected cs).rest = cs := by
  simp only [lexeme]
  split
  · exact Lexeme.visible_append _ _
  · exact Lexeme.blankRun_append _ _

theorem lexeme_text_ne_nil {operandExpected : Bool} {cs : List Char}
    (h : (lexeme operandExpected cs).kind ≠ .eof) : (lexeme operandExpected cs).text ≠ [] := by
  have hcs : cs ≠ [] := by
    rintro rfl
    exact h rfl
  simp only [lexeme]
  split
  · exact (Lexeme.visible_of_ne_nil _ hcs).2
  · rename_i hblank
    exact fun hnil => hblank (List.isEmpty_iff.2 hnil)

theorem lexeme_eof {operandExpected : Bool} {cs : List Char}
    (h : (lexeme operandExpected cs).kind = .eof) : cs = [] := by
  cases cs with
  | nil => rfl
  | cons c cs =>
      simp only [lexeme] at h
      split at h
      · exact absurd h (Lexeme.visible_of_ne_nil _ (List.cons_ne_nil c cs)).1
      · exact absurd h TokenKind.noConfusion

theorem lexeme_length {operandExpected : Bool} {cs : List Char}
    (h : (lexeme operandExpected cs).kind ≠ .eof) :
    (lexeme operandExpected cs).rest.length < cs.length := by
  -- What is taken is not empty, and the rest is what remains of the length.
  have happ := congrArg List.length (lexeme_append operandExpected cs)
  have hpos := List.length_pos_iff.2 (lexeme_text_ne_nil h)
  rw [List.length_append] at happ
  omega

end SqlGist
