import SqlGist.Proofs.Token.Terminator

/-!
# Reading Does Not See the Case of ASCII Letters

The text of a statement in upper case is read as the same tokens, each in upper
case. The two texts are as long as each other in characters and in bytes, since
only ASCII letters change, so the tokens also stand in the same places.

Two texts that differ in the case of ASCII letters alone are the same in upper
case. So it is enough to compare a text with its own upper case, and every
scanner gets one law for that.

All a scanner asks about a character is whether it is a certain one that is no
letter, or whether it is in a class, and the classes do not part a letter from
its upper case. `toUpper_induction` brings this to the letters from `a` to `z`.

## Main definitions

* `Traits`: What a scanner asks about a character.
* `Lexeme.upper`, `Token.upper`, `Cursor.upper`: A token and a place in upper
  case.

## Theorems

* `traits_toUpper`: They are the same in upper case.
* `toUpper_eq_iff`: No letter becomes a character that is none.
* `isLetter_toUpper`, `isBlank_toUpper`, `isWordChar_toUpper`: The classes.
* `blankRun_upper`, `number_upper`, `word_upper`, `quoted_upper`: The scanners.
* `lexeme_upper`: A token of a text in upper case.
* `tokenize_upperCase`: All of them.
-/

namespace SqlGist

namespace CharClass

/-- What holds between a character and itself, and between each of the 26 lower
    case letters and its upper case, holds between all characters and theirs. -/
theorem toUpper_induction {P : Char → Char → Prop} (hsame : ∀ c, P c c)
    (hlower : ∀ n ∈ List.range' 97 26, P (Char.ofNat n) (Char.ofNat n).toUpper) (c : Char) :
    P c c.toUpper := by
  by_cases h : 'a'.val ≤ c.val ∧ c.val ≤ 'z'.val
  · have hrange : c.toNat ∈ List.range' 97 26 := by
      rw [List.mem_range'_1]
      exact ⟨UInt32.le_iff_toNat_le.1 h.1, Nat.lt_succ_of_le (UInt32.le_iff_toNat_le.1 h.2)⟩
    have hc := hlower c.toNat hrange
    rwa [Char.ofNat_toNat] at hc
  · have hupper : c.toUpper = c := dif_neg h
    rw [hupper]
    exact hsame c

/-- What a scanner asks about a character, but for which one it is. -/
structure Traits where
  upper : Char
  isAlpha : Bool
  isDigit : Bool
  isBlank : Bool
  isLetter : Bool
  isNumeral : Bool
  opensExponent : Bool
  isMark : Bool
  nameQuote? : Option Quote
  size : Nat
deriving DecidableEq

/-- The traits of a character. -/
def traits (c : Char) : Traits where
  upper := c.toUpper
  isAlpha := c.isAlpha
  isDigit := c.isDigit
  isBlank := isBlank c
  isLetter := isLetter c
  isNumeral := isNumeral c
  opensExponent := c = 'e' ∨ c = 'E'
  isMark := Lexeme.marks.contains c
  nameQuote? := Quote.ofNameQuote? c
  size := c.utf8Size

/-- A character and its upper case have the same traits. -/
theorem traits_toUpper (c : Char) : traits c.toUpper = traits c :=
  @toUpper_induction (fun c d => traits d = traits c) (fun _ => rfl) (by decide +kernel) c

theorem toUpper_toUpper (c : Char) : c.toUpper.toUpper = c.toUpper :=
  congrArg Traits.upper (traits_toUpper c)

theorem isAlpha_toUpper (c : Char) : c.toUpper.isAlpha = c.isAlpha :=
  congrArg Traits.isAlpha (traits_toUpper c)

theorem isDigit_toUpper (c : Char) : c.toUpper.isDigit = c.isDigit :=
  congrArg Traits.isDigit (traits_toUpper c)

theorem isBlank_toUpper (c : Char) : isBlank c.toUpper = isBlank c :=
  congrArg Traits.isBlank (traits_toUpper c)

theorem isLetter_toUpper (c : Char) : isLetter c.toUpper = isLetter c :=
  congrArg Traits.isLetter (traits_toUpper c)

theorem isNumeral_toUpper (c : Char) : isNumeral c.toUpper = isNumeral c :=
  congrArg Traits.isNumeral (traits_toUpper c)

theorem utf8Size_toUpper (c : Char) : c.toUpper.utf8Size = c.utf8Size :=
  congrArg Traits.size (traits_toUpper c)

/-- The letter that opens an exponent counts in both cases. -/
theorem opensExponent_toUpper (c : Char) :
    (c.toUpper = 'e' ∨ c.toUpper = 'E') ↔ (c = 'e' ∨ c = 'E') :=
  decide_eq_decide.1 (congrArg Traits.opensExponent (traits_toUpper c))

theorem isMark_toUpper (c : Char) : Lexeme.marks.contains c.toUpper = Lexeme.marks.contains c :=
  congrArg Traits.isMark (traits_toUpper c)

theorem ofNameQuote?_toUpper (c : Char) : Quote.ofNameQuote? c.toUpper = Quote.ofNameQuote? c :=
  congrArg Traits.nameQuote? (traits_toUpper c)

/-- What is no letter is its own upper case. -/
theorem toUpper_of_not_isAlpha {c : Char} (h : c.isAlpha = false) : c.toUpper = c := by
  refine dif_neg fun hlower => ?_
  have hletter : (c.isUpper || c.isLower) = true := by
    rw [show c.isLower = true from Bool.and_eq_true_iff.2
      ⟨decide_eq_true hlower.1, decide_eq_true hlower.2⟩, Bool.or_true]
  exact Bool.false_ne_true (h.symm.trans hletter)

theorem toUpper_eq_iff {d : Char} (hd : d.isAlpha = false) (c : Char) :
    c.toUpper = d ↔ c = d := by
  constructor
  · rintro rfl
    rw [isAlpha_toUpper] at hd
    exact (toUpper_of_not_isAlpha hd).symm
  · rintro rfl
    exact toUpper_of_not_isAlpha hd

theorem isWordChar_toUpper (c : Char) : isWordChar c.toUpper = isWordChar c := by
  simp only [isWordChar, isAlphanumeric, isLetter_toUpper, isNumeral_toUpper,
    toUpper_eq_iff (show ('_').isAlpha = false by decide),
    toUpper_eq_iff (show ('$').isAlpha = false by decide)]

end CharClass

open CharClass

namespace Text

theorem byteLength_toUpper (cs : List Char) : byteLength (cs.map Char.toUpper) = byteLength cs := by
  induction cs with
  | nil => rfl
  | cons c cs ih => rw [List.map_cons, byteLength, byteLength, utf8Size_toUpper, ih]

theorem map_toUpper_toUpper (cs : List Char) :
    (cs.map Char.toUpper).map Char.toUpper = cs.map Char.toUpper := by
  rw [List.map_map]
  exact List.map_congr_left fun c _ => toUpper_toUpper c

/-- What is not made of letters a text begins with in every case, or in none. -/
theorem map_toUpper_ne (front : List Char) (hfront : front.any Char.isAlpha = false)
    (cs : List Char) (h : ∀ ds, cs ≠ front ++ ds) (ds : List Char) :
    cs.map Char.toUpper ≠ front ++ ds := by
  intro heq
  rcases List.map_eq_append_iff.1 heq with ⟨as, bs, rfl, has, -⟩
  refine h bs (congrArg (· ++ bs) ?_)
  -- No letter becomes one of these characters, so each was there before.
  rw [← has] at hfront
  rw [← has]
  refine (List.map_id as).symm.trans (List.map_congr_left fun c hc => ?_)
  have hc' := Bool.eq_false_iff.2 (List.any_eq_false.1 hfront _ (List.mem_map_of_mem hc))
  rw [isAlpha_toUpper] at hc'
  exact (toUpper_of_not_isAlpha hc').symm

/-- What was taken and what was left, in upper case. -/
def upper (run : List Char × List Char) : List Char × List Char :=
  (run.1.map Char.toUpper, run.2.map Char.toUpper)

theorem closeQuote?_upper {q : Char} (hq : q.isAlpha = false) (cs : List Char) :
    closeQuote? q (cs.map Char.toUpper) = (closeQuote? q cs).map upper := by
  have hiff := toUpper_eq_iff hq
  have hquote : q.toUpper = q := toUpper_of_not_isAlpha hq
  fun_induction closeQuote? q cs with
  | case1 => rfl
  | case2 =>
      rw [List.map_singleton, hquote, closeQuote?, if_pos rfl, Option.map_some, upper,
        List.map_singleton, hquote]
      rfl
  | case3 c hc =>
      rw [List.map_singleton, closeQuote?, if_neg (mt (hiff c).1 hc)]
      rfl
  | case4 cs ih =>
      rw [List.map_cons, List.map_cons, hquote, closeQuote?_pair, ih, Option.map_map,
        Option.map_map]
      refine congrArg (Option.map · (closeQuote? q cs)) (funext fun run => ?_)
      simp only [Function.comp_apply, upper, List.map_cons, hquote]
  | case5 d cs hd =>
      rw [List.map_cons, List.map_cons, hquote, closeQuote?_end (mt (hiff d).1 hd),
        Option.map_some, upper, List.map_singleton, hquote, List.map_cons]
  | case6 c d cs hc ih =>
      rw [List.map_cons, closeQuote?_pass (mt (hiff c).1 hc), ih, Option.map_map, Option.map_map]
      refine congrArg (Option.map · (closeQuote? q (d :: cs))) (funext fun run => ?_)
      simp only [Function.comp_apply, upper, List.map_cons]

end Text

theorem upperCase_ofList_toUpper (cs : List Char) :
    upperCase (String.ofList (cs.map Char.toUpper)) = upperCase (String.ofList cs) := by
  rw [upperCase, upperCase, String.toList_ofList, String.toList_ofList, Text.map_toUpper_toUpper]

/-- A mark or an operator. -/
def TokenKind.IsSymbol (kind : TokenKind) : Prop :=
  kind = .punctuation ∨ kind = .operator

namespace Lexeme

theorem carry_upper (taken : List Char) {run run' : List Char × List Char}
    (h : run' = Text.upper run) :
    carry (taken.map Char.toUpper) run' = Text.upper (carry taken run) := by
  simp only [h, carry, Text.upper, List.map_append]

theorem blankRun_upper (s : BlankState) (cs : List Char) :
    blankRun s (cs.map Char.toUpper) = Text.upper (blankRun s cs) := by
  have hne := Text.map_toUpper_ne
  have hiff (d c : Char) (hd : d.isAlpha = false) := toUpper_eq_iff hd c
  fun_induction blankRun s cs with
  | case1 s => cases s <;> rfl
  | case2 cs ih => exact carry_upper ['-', '-'] ih
  | case3 cs ih => exact carry_upper ['/', '*'] ih
  | case4 c cs hline hblock hblank ih =>
      have hline' := fun ds hc => hne ['-'] rfl cs
        (fun ds => hline ds ((hiff '-' c (by decide)).1 hc)) ds
      have hblock' := fun ds hc => hne ['*'] rfl cs
        (fun ds => hblock ds ((hiff '/' c (by decide)).1 hc)) ds
      rw [List.map_cons, blankRun.eq_4 _ _ hline' hblock', isBlank_toUpper, if_pos hblank]
      exact carry_upper [c] ih
  | case5 c cs hline hblock hblank =>
      have hline' := fun ds hc => hne ['-'] rfl cs
        (fun ds => hline ds ((hiff '-' c (by decide)).1 hc)) ds
      have hblock' := fun ds hc => hne ['*'] rfl cs
        (fun ds => hblock ds ((hiff '/' c (by decide)).1 hc)) ds
      rw [List.map_cons, blankRun.eq_4 _ _ hline' hblock', isBlank_toUpper, if_neg hblank]
      rfl
  | case6 c cs ih =>
      rw [List.map_cons, blankRun]
      simp only [hiff '\n' c (by decide)]
      exact carry_upper [c] ih
  | case7 cs ih => exact carry_upper ['*', '/'] ih
  | case8 c cs hend ih =>
      have hend' := fun ds hc => hne ['/'] rfl cs
        (fun ds => hend ds ((hiff '*' c (by decide)).1 hc)) ds
      rw [List.map_cons, blankRun.eq_7 _ _ hend']
      exact carry_upper [c] ih

theorem startsWithDigit_upper (cs : List Char) :
    startsWithDigit (cs.map Char.toUpper) = startsWithDigit cs := by
  cases cs with
  | nil => rfl
  | cons c cs => exact isDigit_toUpper c

theorem digits_upper (cs : List Char) : digits (cs.map Char.toUpper) = Text.upper (digits cs) := by
  have hdigit : Char.isDigit ∘ Char.toUpper = Char.isDigit := funext isDigit_toUpper
  rw [digits, digits, List.takeWhile_map, List.dropWhile_map, hdigit, Text.upper]

theorem fraction_upper (cs : List Char) :
    fraction (cs.map Char.toUpper) = Text.upper (fraction cs) := by
  cases cs with
  | nil => rfl
  | cons c cs =>
      have hpoint := toUpper_eq_iff (show ('.').isAlpha = false by decide) c
      simp only [List.map_cons, fraction, startsWithDigit_upper, digits_upper, hpoint]
      split <;> rfl

theorem exponent_upper (cs : List Char) :
    exponent (cs.map Char.toUpper) = Text.upper (exponent cs) := by
  match cs with
  | [] => rfl
  | [c] => rfl
  | c :: d :: cs =>
      have hplus := toUpper_eq_iff (show ('+').isAlpha = false by decide) d
      have hminus := toUpper_eq_iff (show ('-').isAlpha = false by decide) d
      have hdigits := digits_upper (d :: cs)
      rw [List.map_cons] at hdigits
      simp only [List.map_cons, exponent, hdigits, digits_upper, isDigit_toUpper, hplus, hminus,
        opensExponent_toUpper]
      split
      · split
        · rfl
        · split <;> rfl
      · rfl

theorem number_upper (cs : List Char) :
    number (cs.map Char.toUpper) = Text.upper (number cs) := by
  simp only [number, digits_upper, Text.upper, fraction_upper, exponent_upper, List.map_append]

theorem continuesNull_upper (cs : List Char) :
    continuesNull (cs.map Char.toUpper) = continuesNull cs := by
  cases cs with
  | nil => rfl
  | cons c cs =>
      have hscore := toUpper_eq_iff (show ('_').isAlpha = false by decide) c
      simp only [continuesNull, List.map_cons, List.head?_cons, Option.any_some, isAlphanumeric,
        isLetter_toUpper, isNumeral_toUpper, hscore]

theorem nullSuffix?_upper (cs : List Char) :
    nullSuffix? (cs.map Char.toUpper) = (nullSuffix? cs).map Text.upper := by
  have hblank : isBlank ∘ Char.toUpper = isBlank := funext isBlank_toUpper
  simp only [nullSuffix?, List.takeWhile_map, List.dropWhile_map, hblank, List.isEmpty_map]
  rw [← List.map_take, ← List.map_drop, Text.map_toUpper_toUpper, continuesNull_upper]
  split
  · rfl
  · split
    · rw [Option.map_some, Text.upper, List.map_append]
    · rfl

theorem operator?_upper (cs : List Char) :
    operator? (cs.map Char.toUpper) = (operator? cs).map Text.upper := by
  have hne := Text.map_toUpper_ne
  fun_cases operator? cs with
  | case6 cs hle hneq =>
      exact operator?.eq_6 _ (hne ['='] rfl cs hle) (hne ['>'] rfl cs hneq)
  | case7 cs hge => exact operator?.eq_7 _ (hne ['='] rfl cs hge)
  | case13 cs hle hneq hge hbang hbar hlt hgt heq hplus hminus hslash hpercent =>
      exact operator?.eq_13 _ (hne ['<', '='] rfl cs hle)
        (hne ['<', '>'] rfl cs hneq) (hne ['>', '='] rfl cs hge)
        (hne ['!', '='] rfl cs hbang) (hne ['|', '|'] rfl cs hbar)
        (hne ['<'] rfl cs hlt) (hne ['>'] rfl cs hgt)
        (hne ['='] rfl cs heq) (hne ['+'] rfl cs hplus)
        (hne ['-'] rfl cs hminus) (hne ['/'] rfl cs hslash)
        (hne ['%'] rfl cs hpercent)
  | _ => rfl

/-- The token in upper case. -/
def upper (found : Lexeme) : Lexeme :=
  ⟨found.kind, found.text.map Char.toUpper, found.rest.map Char.toUpper⟩

theorem word_upper (cs : List Char) : word (cs.map Char.toUpper) = (word cs).upper := by
  have hword : isWordChar ∘ Char.toUpper = isWordChar := funext isWordChar_toUpper
  have hopen (left : List Char) :
      ((left.map Char.toUpper).head? != some '(') = (left.head? != some '(') := by
    cases left with
    | nil => rfl
    | cons c left =>
        have hparen := toUpper_eq_iff (show ('(').isAlpha = false by decide) c
        simp only [List.map_cons, List.head?_cons, bne, beq_eq_decide, Option.some.injEq, hparen]
  have hkeyword (w : List Char) : Keyword.ofWord? (String.ofList (w.map Char.toUpper)) =
      Keyword.ofWord? (String.ofList w) := by
    rw [Keyword.ofWord?, Keyword.ofWord?, upperCase_ofList_toUpper]
  have htype (w : List Char) : isBuiltinType (String.ofList (w.map Char.toUpper)) =
      isBuiltinType (String.ofList w) := by
    rw [isBuiltinType, isBuiltinType, upperCase_ofList_toUpper]
  simp only [word, List.takeWhile_map, List.dropWhile_map, hword, hkeyword, htype, hopen,
    nullSuffix?_upper]
  split
  · rename_i k _
    by_cases hnot : k = .not
    · simp only [if_pos hnot]
      cases nullSuffix? (cs.dropWhile isWordChar) with
      | none => rfl
      | some run => simp only [Option.map_some, Text.upper, upper, List.map_append]
    · simp only [if_neg hnot]
      rfl
  · split <;> rfl

theorem quoted_upper (kind : TokenKind) (cause : LexicalError) {q : Char}
    (hq : q.isAlpha = false) (cs : List Char) :
    quoted kind cause q.toUpper (cs.map Char.toUpper) = (quoted kind cause q cs).upper := by
  have hquote : q.toUpper = q := toUpper_of_not_isAlpha hq
  rw [hquote, quoted, quoted, Text.closeQuote?_upper hq]
  cases Text.closeQuote? q cs <;>
    simp only [Option.map_none, Option.map_some, Text.upper, upper, List.map_cons, hquote,
      List.map_nil]

theorem isAlpha_of_ofNameQuote? {c : Char} (h : (Quote.ofNameQuote? c).isSome = true) :
    c.isAlpha = false := by
  rw [Quote.ofNameQuote?] at h
  split at h
  · rename_i hdouble
    rw [hdouble]
    rfl
  · split at h
    · rename_i hgrave
      rw [hgrave]
      rfl
    · exact absurd h Bool.false_ne_true

theorem visible_upper (operandExpected : Bool) (cs : List Char) :
    visible operandExpected (cs.map Char.toUpper) = (visible operandExpected cs).upper := by
  cases cs with
  | nil => rfl
  | cons c cs =>
      have hstar := toUpper_eq_iff (show ('*').isAlpha = false by decide) c
      have hplus := toUpper_eq_iff (show ('+').isAlpha = false by decide) c
      have hminus := toUpper_eq_iff (show ('-').isAlpha = false by decide) c
      have hscore := toUpper_eq_iff (show ('_').isAlpha = false by decide) c
      have hstring := toUpper_eq_iff (show Quote.apostrophe.char.isAlpha = false by decide) c
      have hoperator := operator?_upper (c :: cs)
      have hnumber := number_upper (c :: cs)
      have hword := word_upper (c :: cs)
      rw [List.map_cons] at hoperator hnumber hword
      simp only [List.map_cons, visible, isMark_toUpper, hstar, hplus, hminus,
        startsWithDigit_upper, number_upper, hoperator, hstring, ofNameQuote?_toUpper,
        isDigit_toUpper, hnumber, isLetter_toUpper, hscore, hword]
      split
      · rfl
      split
      · rfl
      split
      · rfl
      cases operator? (c :: cs) with
      | some run => rfl
      | none =>
        simp only [Option.map_none]
        split
        · rename_i hc
          exact quoted_upper _ _ (hc ▸ by decide) cs
        split
        · rename_i hc
          exact quoted_upper _ _ (isAlpha_of_ofNameQuote? hc) cs
        split
        · rfl
        split
        · rfl
        · -- The message shows the character, which is no letter.
          rename_i hopens
          have halpha : c.isAlpha = false := by
            rw [← Bool.not_eq_true]
            exact fun h => hopens (by rw [isLetter_of_isAlpha h, Bool.true_or])
          rw [toUpper_of_not_isAlpha halpha]
          simp only [upper, List.map_cons, List.map_nil, toUpper_of_not_isAlpha halpha]

theorem not_isSymbol_word (cs : List Char) : ¬(word cs).kind.IsSymbol := by
  simp only [word]
  split
  · split <;> exact fun h => h.elim TokenKind.noConfusion TokenKind.noConfusion
  · split <;> exact fun h => h.elim TokenKind.noConfusion TokenKind.noConfusion

theorem not_isSymbol_quoted {kind : TokenKind} (hkind : ¬kind.IsSymbol) (cause : LexicalError)
    (q : Char) (cs : List Char) : ¬(quoted kind cause q cs).kind.IsSymbol := by
  simp only [quoted]
  split
  · exact hkind
  · exact fun h => h.elim TokenKind.noConfusion TokenKind.noConfusion

theorem operator?_text_toUpper {cs text rest : List Char} (h : operator? cs = some (text, rest)) :
    text.map Char.toUpper = text := by
  revert h
  fun_cases operator? cs <;> intro h <;>
    simp only [Option.some.injEq, Prod.mk.injEq, reduceCtorEq] at h <;>
    rw [← h.1] <;> rfl

/-- What is read as a mark or an operator is its own upper case. -/
theorem visible_text_toUpper {operandExpected : Bool} {cs : List Char}
    (h : (visible operandExpected cs).kind.IsSymbol) :
    (visible operandExpected cs).text.map Char.toUpper = (visible operandExpected cs).text := by
  revert h
  fun_cases visible operandExpected cs with
  | case2 c cs hmark =>
      have hmarks : marks.any Char.isAlpha = false := rfl
      have halpha := List.any_eq_false.1 hmarks c (List.contains_iff_mem.1 hmark)
      intro _
      rw [List.map_singleton, toUpper_of_not_isAlpha (Bool.eq_false_iff.2 halpha)]
  | case5 => exact fun _ => operator?_text_toUpper (by assumption)
  | case6 =>
      exact fun h => absurd h (not_isSymbol_quoted (by simp [TokenKind.IsSymbol]) _ _ _)
  | case7 =>
      exact fun h => absurd h (not_isSymbol_quoted (by simp [TokenKind.IsSymbol]) _ _ _)
  | case9 => exact fun h => absurd h (not_isSymbol_word _)
  | _ => exact fun h => h.elim TokenKind.noConfusion TokenKind.noConfusion

end Lexeme

theorem lexeme_upper (operandExpected : Bool) (cs : List Char) :
    lexeme operandExpected (cs.map Char.toUpper) = (lexeme operandExpected cs).upper := by
  simp only [lexeme, Lexeme.blankRun_upper, Text.upper, List.isEmpty_map, Lexeme.visible_upper]
  split <;> rfl

/-- What is read as a mark or an operator is its own upper case. -/
theorem lexeme_text_toUpper {operandExpected : Bool} {cs : List Char}
    (h : (lexeme operandExpected cs).kind.IsSymbol) :
    (lexeme operandExpected cs).text.map Char.toUpper = (lexeme operandExpected cs).text := by
  simp only [lexeme] at h ⊢
  split at h
  · rename_i hblank
    rw [if_pos hblank]
    exact Lexeme.visible_text_toUpper h
  · exact h.elim TokenKind.noConfusion TokenKind.noConfusion

namespace Token

instance (kind : TokenKind) : Decidable kind.IsSymbol :=
  inferInstanceAs (Decidable (kind = .punctuation ∨ kind = .operator))

/-- The token in upper case. A mark or an operator is left as it is. -/
def upper (t : Token) : Token :=
  if t.kind.IsSymbol then t else { t with text := upperCase t.text }

theorem kind_upper (t : Token) : t.upper.kind = t.kind := by
  rw [upper]
  split <;> rfl

theorem span_upper (t : Token) : t.upper.span = t.span := by
  rw [upper]
  split <;> rfl

end Token

namespace Cursor

/-- The cursor in the text in upper case. -/
def upper (c : Cursor) : Cursor :=
  { c with rest := c.rest.map Char.toUpper }

theorem expectsOperand_upper (before : Bool) (t : Token) :
    expectsOperand before t.kind t.upper.text = expectsOperand before t.kind t.text := by
  rw [Token.upper]
  split
  · rfl
  · rename_i hsymbol
    -- Only of a mark is the text looked at.
    cases hkind : t.kind with
    | punctuation => exact absurd (Or.inl hkind) hsymbol
    | _ => rfl

theorem next_upper (c : Cursor) : c.upper.next = (c.next.1.upper, c.next.2.upper) := by
  have htoken : c.upper.next.1 = c.next.1.upper := by
    by_cases hsymbol : c.next.1.kind.IsSymbol
    · rw [Token.upper, if_pos hsymbol]
      simp only [next, upper, lexeme_upper, Lexeme.upper, lexeme_text_toUpper hsymbol]
    · rw [Token.upper, if_neg hsymbol]
      simp only [next, upper, lexeme_upper, Lexeme.upper, Text.byteLength_toUpper, upperCase,
        String.toList_ofList]
  refine Prod.ext htoken ?_
  have hexpects := expectsOperand_upper c.operandExpected c.next.1
  rw [← htoken] at hexpects
  simp only [next, upper, lexeme_upper, Lexeme.upper, Text.byteLength_toUpper] at hexpects ⊢
  rw [hexpects]

theorem tokens_upper (c : Cursor) : c.upper.tokens = c.tokens.map Token.upper := by
  fun_induction tokens c with
  | case1 c h =>
      have hend : c.upper.next.1.kind = .eof := by rwa [next_upper, Token.kind_upper]
      rw [tokens, dif_pos hend, next_upper, List.map_singleton]
  | case2 c h ih =>
      have hgo : ¬c.upper.next.1.kind = .eof := by rwa [next_upper, Token.kind_upper]
      rw [tokens, dif_neg hgo, next_upper, List.map_cons, ← ih]

end Cursor

theorem tokenize_upperCase (sql : String) :
    tokenize (upperCase sql) = (tokenize sql).map Token.upper := by
  have hstart : Cursor.start (upperCase sql) = (Cursor.start sql).upper := by
    rw [Cursor.start, upperCase, String.toList_ofList]
    rfl
  rw [tokenize, hstart, Cursor.tokens_upper, tokenize]

theorem utf8ByteSize_upperCase (sql : String) : (upperCase sql).utf8ByteSize = sql.utf8ByteSize := by
  rw [upperCase, ← Text.byteLength_eq_utf8ByteSize, Text.byteLength_toUpper,
    Text.byteLength_eq_utf8ByteSize, String.ofList_toList]

end SqlGist
