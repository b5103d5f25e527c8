import Mathlib.Computability.RegularExpressions
import Mathlib.Data.List.TakeWhile
import SqlGist.Proofs.Token.Words

/-!
# What a Number Looks Like

A numeral is a sign, digits, a fraction and an exponent, and all but the digits
may be missing. The lexer enters the fraction and the exponent on a look at two
characters. For the fraction that is enough: the point counts only in front of a
digit. The letter of an exponent counts in front of a sign as well, and no one
looks behind the sign. So `1e+` is a number to the lexer, and no numeral.

This is the only way to go wrong. The texts of number tokens are the numerals
and the numerals that break off behind the sign of their exponent, no more and
no fewer, and a number breaks off there only if no digit follows in the
statement. The two are told apart by their last character.

## Main definitions

* `Pattern.numeral`: The numerals.
* `Pattern.cutNumeral`: The numerals that break off.

## Theorems

* `number_matches`, `lexeme_of_matches`: The scan for a number takes these texts
  off the front, and each of them as a whole.
* `takesNumber_of_tokenize`: So does the lexer, wherever a number stands.
* `number_texts`, `exists_number_of_matches`: The texts of number tokens, exactly.
* `not_numeral_of_sign`: A number that is no numeral.
-/

namespace SqlGist

namespace Pattern

/-- One of these characters. -/
def oneOf (chars : List Char) : RegularExpression Char :=
  (chars.map RegularExpression.char).sum

/-- Nothing, or what is meant. -/
def optional (p : RegularExpression Char) : RegularExpression Char :=
  1 + p

/-- A digit. -/
def digit : RegularExpression Char :=
  oneOf ['0', '1', '2', '3', '4', '5', '6', '7', '8', '9']

/-- One or more digits. -/
def digits : RegularExpression Char :=
  digit * digit.star

/-- A sign. -/
def sign : RegularExpression Char :=
  oneOf ['+', '-']

/-- A point and digits. -/
def fraction : RegularExpression Char :=
  .char '.' * digits

/-- The letter that an exponent opens with. -/
def exponentMark : RegularExpression Char :=
  oneOf ['e', 'E']

/-- The letter, an optional sign and digits. -/
def exponent : RegularExpression Char :=
  exponentMark * (optional sign * digits)

/-- The letter and a sign, and nothing behind it. -/
def cutExponent : RegularExpression Char :=
  exponentMark * sign

/-- An optional sign, digits and an optional fraction, and a scale behind. -/
def scaled (scale : RegularExpression Char) : RegularExpression Char :=
  optional sign * (digits * (optional fraction * scale))

/-- A numeral: scaled by an optional exponent. -/
def numeral : RegularExpression Char :=
  scaled (optional exponent)

/-- A numeral that breaks off behind the sign of its exponent. -/
def cutNumeral : RegularExpression Char :=
  scaled cutExponent

theorem mem_oneOf {chars cs : List Char} :
    cs ∈ (oneOf chars).matches' ↔ ∃ c ∈ chars, cs = [c] := by
  induction chars with
  | nil => exact ⟨False.elim, fun ⟨_, hc, _⟩ => absurd hc List.not_mem_nil⟩
  | cons c chars ih =>
      rw [show oneOf (c :: chars) = .char c + oneOf chars from rfl,
        RegularExpression.matches'_add, Language.mem_add, ih, List.exists_mem_cons_iff]
      exact Iff.rfl

theorem mem_optional {p : RegularExpression Char} {cs : List Char} :
    cs ∈ (optional p).matches' ↔ cs = [] ∨ cs ∈ p.matches' :=
  Iff.rfl

/-- The ten digits are the characters that the lexer takes for digits. -/
theorem mem_digit {cs : List Char} :
    cs ∈ digit.matches' ↔ ∃ c, c.isDigit = true ∧ cs = [c] := by
  have hten : ∀ c : Char, c.isDigit = true ↔
      c ∈ ['0', '1', '2', '3', '4', '5', '6', '7', '8', '9'] := by
    intro c
    constructor
    · intro hc
      have hall : ∀ n ∈ List.range' 48 10,
          Char.ofNat n ∈ ['0', '1', '2', '3', '4', '5', '6', '7', '8', '9'] := by decide
      have hrange : c.toNat ∈ List.range' 48 10 := by
        simp only [Char.isDigit, Bool.and_eq_true, decide_eq_true_eq, ge_iff_le,
          UInt32.le_iff_toNat_le] at hc
        exact List.mem_range'_1.2 ⟨hc.1, Nat.lt_succ_of_le hc.2⟩
      have hmem := hall c.toNat hrange
      rwa [Char.ofNat_toNat] at hmem
    · exact fun hc => List.all_eq_true.1 (by decide) c hc
  rw [digit, mem_oneOf]
  exact exists_congr fun c => and_congr_left' (hten c).symm

theorem mem_digits {cs : List Char} :
    cs ∈ digits.matches' ↔ cs ≠ [] ∧ ∀ c ∈ cs, c.isDigit = true := by
  rw [digits, RegularExpression.matches'_mul, RegularExpression.matches'_star, Language.mem_mul]
  constructor
  · rintro ⟨front, hfront, back, hback, rfl⟩
    rcases mem_digit.1 hfront with ⟨c, hc, rfl⟩
    rcases Language.mem_kstar.1 hback with ⟨parts, rfl, hparts⟩
    refine ⟨List.cons_ne_nil _ _, List.forall_mem_cons.2 ⟨hc, fun d hd => ?_⟩⟩
    rcases List.mem_flatten.1 hd with ⟨part, hpart, hd⟩
    rcases mem_digit.1 (hparts part hpart) with ⟨c', hc', rfl⟩
    rwa [List.mem_singleton.1 hd]
  · rintro ⟨hne, hall⟩
    rcases List.exists_cons_of_ne_nil hne with ⟨c, rest, rfl⟩
    rw [List.forall_mem_cons] at hall
    -- Each of the other digits is a part of its own.
    refine ⟨[c], mem_digit.2 ⟨c, hall.1, rfl⟩, rest, ?_, rfl⟩
    rw [Language.mem_kstar]
    refine ⟨rest.map fun d => [d], (List.flatMap_singleton' rest).symm, fun part hpart => ?_⟩
    rcases List.mem_map.1 hpart with ⟨d, hd, rfl⟩
    exact mem_digit.2 ⟨d, hall.2 d hd, rfl⟩

theorem mem_sign {cs : List Char} :
    cs ∈ sign.matches' ↔ ∃ c, (c = '+' ∨ c = '-') ∧ cs = [c] := by
  simp only [sign, mem_oneOf, List.mem_cons, List.not_mem_nil, or_false]

theorem mem_exponentMark {cs : List Char} :
    cs ∈ exponentMark.matches' ↔ ∃ c, (c = 'e' ∨ c = 'E') ∧ cs = [c] := by
  simp only [exponentMark, mem_oneOf, List.mem_cons, List.not_mem_nil, or_false]

theorem mem_fraction {cs : List Char} :
    cs ∈ fraction.matches' ↔ ∃ ds ∈ digits.matches', cs = '.' :: ds := by
  rw [fraction, RegularExpression.matches'_mul, RegularExpression.matches'_char, Language.mem_mul]
  constructor
  · rintro ⟨point, rfl, ds, hds, rfl⟩
    exact ⟨ds, hds, rfl⟩
  · rintro ⟨ds, hds, rfl⟩
    exact ⟨['.'], rfl, ds, hds, rfl⟩

theorem mem_exponent {cs : List Char} :
    cs ∈ exponent.matches' ↔ ∃ mark ∈ exponentMark.matches', ∃ s ∈ (optional sign).matches',
      ∃ ds ∈ digits.matches', cs = mark ++ (s ++ ds) := by
  rw [exponent, RegularExpression.matches'_mul, RegularExpression.matches'_mul, Language.mem_mul]
  constructor
  · rintro ⟨mark, hmark, behind, ⟨s, hs, ds, hds, rfl⟩, rfl⟩
    exact ⟨mark, hmark, s, hs, ds, hds, rfl⟩
  · rintro ⟨mark, hmark, s, hs, ds, hds, rfl⟩
    exact ⟨mark, hmark, s ++ ds, ⟨s, hs, ds, hds, rfl⟩, rfl⟩

theorem mem_cutExponent {cs : List Char} :
    cs ∈ cutExponent.matches' ↔ ∃ mark ∈ exponentMark.matches', ∃ s ∈ sign.matches',
      cs = mark ++ s := by
  rw [cutExponent, RegularExpression.matches'_mul, Language.mem_mul]
  simp only [eq_comm]

theorem mem_scaled {p : RegularExpression Char} {cs : List Char} :
    cs ∈ (scaled p).matches' ↔ ∃ s ∈ (optional sign).matches', ∃ whole ∈ digits.matches',
      ∃ part ∈ (optional fraction).matches', ∃ scale ∈ p.matches',
        cs = s ++ (whole ++ (part ++ scale)) := by
  rw [scaled, RegularExpression.matches'_mul, RegularExpression.matches'_mul,
    RegularExpression.matches'_mul, Language.mem_mul]
  constructor
  · rintro ⟨s, hs, behind, ⟨whole, hwhole, rest, ⟨part, hpart, scale, hscale, rfl⟩, rfl⟩, rfl⟩
    exact ⟨s, hs, whole, hwhole, part, hpart, scale, hscale, rfl⟩
  · rintro ⟨s, hs, whole, hwhole, part, hpart, scale, hscale, rfl⟩
    exact ⟨s, hs, _, ⟨whole, hwhole, _, ⟨part, hpart, scale, hscale, rfl⟩, rfl⟩, rfl⟩

theorem mem_scaled_add {p q : RegularExpression Char} {cs : List Char} :
    cs ∈ (scaled (p + q)).matches' ↔ cs ∈ (scaled p).matches' ∨ cs ∈ (scaled q).matches' := by
  simp only [scaled, RegularExpression.matches'_mul, RegularExpression.matches'_add, mul_add,
    Language.mem_add]

/-- Whether the last character is a digit. -/
def endsInDigit (cs : List Char) : Bool :=
  cs.getLast?.any Char.isDigit

theorem endsInDigit_append {bs : List Char} (h : endsInDigit bs = true) (as : List Char) :
    endsInDigit (as ++ bs) = true := by
  rw [endsInDigit] at h ⊢
  cases hlast : bs.getLast? with
  | none =>
      rw [hlast] at h
      exact absurd h Bool.false_ne_true
  | some c => rwa [List.getLast?_append, hlast, Option.some_or, ← hlast]

theorem endsInDigit_digits {cs : List Char} (h : cs ∈ digits.matches') :
    endsInDigit cs = true := by
  rcases mem_digits.1 h with ⟨hne, hall⟩
  rw [endsInDigit, List.getLast?_eq_some_getLast hne, Option.any_some]
  exact hall _ (List.getLast_mem hne)

theorem endsInDigit_numeral {cs : List Char} (h : cs ∈ numeral.matches') :
    endsInDigit cs = true := by
  rcases mem_scaled.1 h with ⟨s, -, whole, hwhole, part, hpart, scale, hscale, rfl⟩
  refine endsInDigit_append ?_ s
  -- The last of the parts that are there ends in digits.
  rcases mem_optional.1 hscale with rfl | hscale
  · rw [List.append_nil]
    rcases mem_optional.1 hpart with rfl | hpart
    · rw [List.append_nil]
      exact endsInDigit_digits hwhole
    · rcases mem_fraction.1 hpart with ⟨ds, hds, rfl⟩
      exact endsInDigit_append (endsInDigit_append (endsInDigit_digits hds) ['.']) whole
  · rcases mem_exponent.1 hscale with ⟨mark, -, s', -, ds, hds, rfl⟩
    have hends := endsInDigit_append (endsInDigit_append (endsInDigit_digits hds) s') mark
    exact endsInDigit_append (endsInDigit_append hends part) whole

theorem not_endsInDigit_cutNumeral {cs : List Char} (h : cs ∈ cutNumeral.matches') :
    endsInDigit cs = false := by
  rcases mem_scaled.1 h with ⟨s, -, whole, -, part, -, scale, hscale, rfl⟩
  rcases mem_cutExponent.1 hscale with ⟨mark, -, last, hlast, rfl⟩
  rw [← List.append_assoc, ← List.append_assoc, ← List.append_assoc, endsInDigit,
    List.getLast?_append]
  rcases mem_sign.1 hlast with ⟨c, rfl | rfl, rfl⟩ <;> rfl

end Pattern

namespace Lexeme

theorem digits_matches {cs : List Char} (h : startsWithDigit cs = true) :
    (digits cs).1 ∈ Pattern.digits.matches' :=
  Pattern.mem_digits.2 ⟨startsWithDigit_digits h, fun _ hc => List.mem_takeWhile_imp hc⟩

/-- A run of digits is taken up to what is none. -/
theorem digits_run {ds rest : List Char} (h : ∀ d ∈ ds, d.isDigit = true)
    (hrest : startsWithDigit rest = false) : digits (ds ++ rest) = (ds, rest) := by
  have hspan := span_append h fun c hc => by
    rwa [startsWithDigit, hc, Option.any_some] at hrest
  rw [digits, hspan.1, hspan.2]

theorem fraction_matches (cs : List Char) :
    (fraction cs).1 ∈ (Pattern.optional Pattern.fraction).matches' := by
  rw [Pattern.mem_optional, Pattern.mem_fraction]
  fun_cases fraction cs with
  | case1 => exact Or.inl rfl
  | case2 c cs hpoint =>
      obtain ⟨rfl, hdigit⟩ := hpoint
      exact Or.inr ⟨(digits cs).1, digits_matches hdigit, rfl⟩
  | case3 => exact Or.inl rfl

/-- Behind the sign of an exponent there may be no digit, and then the scan
    stops there. -/
theorem exponent_matches (cs : List Char) :
    (exponent cs).1 ∈ (Pattern.optional Pattern.exponent).matches' ∨
      (exponent cs).1 ∈ Pattern.cutExponent.matches' ∧
        startsWithDigit (exponent cs).2 = false := by
  rw [Pattern.mem_optional, Pattern.mem_exponent, Pattern.mem_cutExponent]
  have hmark {c : Char} (hc : c = 'e' ∨ c = 'E') : [c] ∈ Pattern.exponentMark.matches' :=
    Pattern.mem_exponentMark.2 ⟨c, hc, rfl⟩
  fun_cases exponent cs with
  | case1 => exact Or.inl (Or.inl rfl)
  | case2 => exact Or.inl (Or.inl rfl)
  | case3 c d cs hc hd =>
      have hsign : [d] ∈ Pattern.sign.matches' := Pattern.mem_sign.2 ⟨d, hd, rfl⟩
      by_cases hdigit : startsWithDigit cs = true
      · exact Or.inl (Or.inr ⟨[c], hmark hc, [d], Pattern.mem_optional.2 (Or.inr hsign), _,
          digits_matches hdigit, rfl⟩)
      · -- No digit follows the sign, so none is taken.
        have hrest := Bool.eq_false_iff.2 hdigit
        have hnone : digits cs = ([], cs) := digits_run (List.forall_mem_nil _) hrest
        rw [hnone]
        exact Or.inr ⟨⟨[c], hmark hc, [d], hsign, rfl⟩, hrest⟩
  | case4 c d cs hc _ hdigit =>
      have hdigits : (digits (d :: cs)).1 ∈ Pattern.digits.matches' := digits_matches hdigit
      exact Or.inl (Or.inr ⟨[c], hmark hc, [], Pattern.mem_optional.2 (Or.inl rfl), _, hdigits,
        rfl⟩)
  | case5 => exact Or.inl (Or.inl rfl)
  | case6 => exact Or.inl (Or.inl rfl)

/-- What a scan took is a numeral, or one that breaks off in front of something
    that is no digit. -/
def TakesNumber (text rest : List Char) : Prop :=
  text ∈ Pattern.numeral.matches' ∨
    text ∈ Pattern.cutNumeral.matches' ∧ startsWithDigit rest = false

theorem number_matches {s cs : List Char} (hs : s ∈ (Pattern.optional Pattern.sign).matches')
    (h : startsWithDigit cs = true) : TakesNumber (s ++ (number cs).1) (number cs).2 := by
  have hscaled {p : RegularExpression Char}
      (hp : (exponent (fraction (digits cs).2).2).1 ∈ p.matches') :
      s ++ (number cs).1 ∈ (Pattern.scaled p).matches' :=
    Pattern.mem_scaled.2 ⟨s, hs, _, digits_matches h, _, fraction_matches _, _, hp, rfl⟩
  rcases exponent_matches (fraction (digits cs).2).2 with hexp | ⟨hcut, hrest⟩
  · exact Or.inl (hscaled hexp)
  · exact Or.inr ⟨hscaled hcut, hrest⟩

theorem takesNumber_visible {operandExpected : Bool} {cs : List Char}
    (h : (visible operandExpected cs).kind = .number) :
    TakesNumber (visible operandExpected cs).text (visible operandExpected cs).rest := by
  revert h
  fun_cases visible operandExpected cs with
  | case4 c cs _ _ hsigned =>
      intro _
      simp only [Bool.and_eq_true, Bool.or_eq_true, decide_eq_true_eq] at hsigned
      have hsign : [c] ∈ Pattern.sign.matches' := Pattern.mem_sign.2 ⟨c, hsigned.1.1, rfl⟩
      exact number_matches (Pattern.mem_optional.2 (Or.inr hsign)) hsigned.2
  | case6 =>
      exact fun h => absurd h (quoted_kind_ne _ _ TokenKind.noConfusion TokenKind.noConfusion)
  | case7 =>
      exact fun h => absurd h (quoted_kind_ne _ _ TokenKind.noConfusion TokenKind.noConfusion)
  | case8 c cs _ _ _ _ _ _ hdigit =>
      exact fun _ => number_matches (s := []) (Pattern.mem_optional.2 (Or.inl rfl)) hdigit
  | case9 =>
      exact fun h => absurd h (word_kind_ne _ (fun _ => TokenKind.noConfusion)
        TokenKind.noConfusion TokenKind.noConfusion)
  | _ => exact fun h => TokenKind.noConfusion h

theorem takesNumber_lexeme {operandExpected : Bool} {cs : List Char}
    (h : (lexeme operandExpected cs).kind = .number) :
    TakesNumber (lexeme operandExpected cs).text (lexeme operandExpected cs).rest := by
  by_cases hblank : (blankRun .between cs).1 = []
  · rw [lexeme_of_visible hblank] at h ⊢
    exact takesNumber_visible h
  · rw [lexeme_of_blank hblank] at h
    exact TokenKind.noConfusion h

/-- An exponent that is all there is left is taken as a whole, and so is one that
    breaks off. -/
theorem exponent_of_matches {cs : List Char}
    (h : cs ∈ (Pattern.optional Pattern.exponent + Pattern.cutExponent).matches') :
    exponent cs = (cs, []) := by
  have hall {ds : List Char} (hds : ∀ d ∈ ds, d.isDigit = true) : digits ds = (ds, []) := by
    have hrun : digits (ds ++ []) = (ds, []) := digits_run hds rfl
    rwa [List.append_nil] at hrun
  have hsigned {c s : Char} {ds : List Char} (hc : c = 'e' ∨ c = 'E') (hs : s = '+' ∨ s = '-')
      (hds : ∀ d ∈ ds, d.isDigit = true) : exponent (c :: s :: ds) = (c :: s :: ds, []) := by
    rw [exponent, if_pos hc, if_pos hs, hall hds]
  rw [RegularExpression.matches'_add, Language.mem_add, Pattern.mem_optional, Pattern.mem_exponent,
    Pattern.mem_cutExponent] at h
  rcases h with (rfl | ⟨mark, hmark, sign, hsign, ds, hds, rfl⟩) | ⟨mark, hmark, sign, hsign, rfl⟩
  · rfl
  · rcases Pattern.mem_exponentMark.1 hmark with ⟨c, hc, rfl⟩
    rcases Pattern.mem_digits.1 hds with ⟨hne, hds⟩
    rcases Pattern.mem_optional.1 hsign with rfl | hsign
    · rcases List.exists_cons_of_ne_nil hne with ⟨d, tail, rfl⟩
      have hd := hds d List.mem_cons_self
      -- A digit is no sign.
      have hbare : ¬(d = '+' ∨ d = '-') := by
        rintro (rfl | rfl) <;> exact absurd hd (by decide)
      rw [List.nil_append, List.singleton_append, exponent, if_pos hc, if_neg hbare, if_pos hd,
        hall hds]
    · rcases Pattern.mem_sign.1 hsign with ⟨s, hs, rfl⟩
      exact hsigned hc hs hds
  · rcases Pattern.mem_exponentMark.1 hmark with ⟨c, hc, rfl⟩
    rcases Pattern.mem_sign.1 hsign with ⟨s, hs, rfl⟩
    exact hsigned hc hs (List.forall_mem_nil _)

/-- The letter of an exponent goes on neither the digits nor the fraction. -/
theorem not_goesOn_of_matches {cs : List Char}
    (h : cs ∈ (Pattern.optional Pattern.exponent + Pattern.cutExponent).matches') :
    startsWithDigit cs = false ∧ cs.head? ≠ some '.' := by
  have hletter {mark rest : List Char} (hmark : mark ∈ Pattern.exponentMark.matches') :
      startsWithDigit (mark ++ rest) = false ∧ (mark ++ rest).head? ≠ some '.' := by
    rcases Pattern.mem_exponentMark.1 hmark with ⟨c, hc, rfl⟩
    rw [startsWithDigit, List.singleton_append, List.head?_cons]
    rcases hc with rfl | rfl <;> decide
  rw [RegularExpression.matches'_add, Language.mem_add, Pattern.mem_optional, Pattern.mem_exponent,
    Pattern.mem_cutExponent] at h
  rcases h with (rfl | ⟨mark, hmark, s, -, ds, -, rfl⟩) | ⟨mark, hmark, s, -, rfl⟩
  · exact ⟨rfl, (Option.some_ne_none _).symm⟩
  · exact hletter hmark
  · exact hletter hmark

theorem fraction_of_matches {part rest : List Char}
    (h : part ∈ (Pattern.optional Pattern.fraction).matches')
    (hrest : startsWithDigit rest = false ∧ rest.head? ≠ some '.') :
    fraction (part ++ rest) = (part, rest) ∧ startsWithDigit (part ++ rest) = false := by
  rcases Pattern.mem_optional.1 h with rfl | h
  · refine ⟨?_, hrest.1⟩
    cases rest with
    | nil => rfl
    | cons c rest =>
        rw [List.nil_append, fraction, if_neg]
        exact fun hc => hrest.2 (congrArg some hc.1)
  · rcases Pattern.mem_fraction.1 h with ⟨ds, hds, rfl⟩
    rcases Pattern.mem_digits.1 hds with ⟨hne, hds⟩
    rw [List.cons_append, fraction, if_pos ⟨rfl, startsWithDigit_append hne hds rest⟩,
      digits_run hds hrest.1]
    exact ⟨rfl, rfl⟩

/-- Where an operand is expected, a numeral is one number, and so is one that
    breaks off. -/
theorem lexeme_of_matches {cs : List Char}
    (h : cs ∈ (Pattern.scaled (Pattern.optional Pattern.exponent + Pattern.cutExponent)).matches') :
    lexeme true cs = ⟨.number, cs, []⟩ := by
  rcases Pattern.mem_scaled.1 h with ⟨s, hs, whole, hwhole, part, hpart, scale, hscale, rfl⟩
  rcases Pattern.mem_digits.1 hwhole with ⟨hne, hdigits⟩
  rcases fraction_of_matches hpart (not_goesOn_of_matches hscale) with ⟨hfraction, hbehind⟩
  have hnumber : number (whole ++ (part ++ scale)) = (whole ++ (part ++ scale), []) := by
    rw [number, digits_run hdigits hbehind, hfraction, exponent_of_matches hscale]
  have hstarts := startsWithDigit_append hne hdigits (part ++ scale)
  rcases Pattern.mem_optional.1 hs with rfl | hs
  · rw [List.nil_append, lexeme_number hstarts, hnumber]
  · rcases Pattern.mem_sign.1 hs with ⟨c, hc, rfl⟩
    rw [List.singleton_append, lexeme_signed hc hstarts, hnumber]

end Lexeme

/-- The text of a number token, and what stands behind it. -/
theorem takesNumber_of_tokenize {sql : String} {front back : List Token} {t : Token}
    (h : tokenize sql = front ++ t :: back) (hkind : t.kind = .number) :
    Lexeme.TakesNumber t.text.toList (Token.textsOf back) := by
  have hend : t.kind ≠ .eof := by
    rw [hkind]
    exact TokenKind.noConfusion
  rcases Cursor.exists_tokens_eq_cons h with ⟨c, hc⟩
  rcases Cursor.tokens_eq_cons hc (Or.inl hend) with ⟨rfl, -, hback⟩
  have hrest : Token.textsOf back = (lexeme c.operandExpected c.rest).rest := by
    rw [← hback]
    exact Cursor.tokens_append c.next.2
  rw [hrest, Cursor.next, String.toList_ofList]
  exact Lexeme.takesNumber_lexeme hkind

/-- Every such text is that of a number token, in the statement that holds nothing
    else. -/
theorem exists_number_of_matches {cs : List Char}
    (h : cs ∈ Pattern.numeral.matches' ∨ cs ∈ Pattern.cutNumeral.matches') :
    ∃ t ∈ tokenize (String.ofList cs), t.kind = .number ∧ t.text.toList = cs := by
  have hreads := Lexeme.lexeme_of_matches (Pattern.mem_scaled_add.2 h)
  have hfirst : (Cursor.start (String.ofList cs)).next.1 =
      ⟨.number, String.ofList cs, ⟨0, Text.byteLength cs⟩⟩ := by
    simp only [Cursor.next, Cursor.start, String.toList_ofList, hreads, Nat.zero_add]
  have hhead := Cursor.head?_tokens (Cursor.start (String.ofList cs))
  rw [hfirst] at hhead
  exact ⟨_, List.mem_of_head? hhead, rfl, String.toList_ofList⟩

/-- The text of a number token is a numeral exactly if it ends in a digit. Else it
    breaks off behind the sign of its exponent, and no digit follows. -/
theorem number_texts {sql : String} {front back : List Token} {t : Token}
    (h : tokenize sql = front ++ t :: back) (hkind : t.kind = .number) :
    (t.text.toList ∈ Pattern.numeral.matches' ↔ Pattern.endsInDigit t.text.toList = true) ∧
      (t.text.toList ∉ Pattern.numeral.matches' ↔
        t.text.toList ∈ Pattern.cutNumeral.matches' ∧
          Lexeme.startsWithDigit (Token.textsOf back) = false) := by
  rcases takesNumber_of_tokenize h hkind with hnumeral | hcut
  · have hdigit := Pattern.endsInDigit_numeral hnumeral
    refine ⟨iff_of_true hnumeral hdigit, iff_of_false (not_not_intro hnumeral) fun hcut => ?_⟩
    exact Bool.false_ne_true ((Pattern.not_endsInDigit_cutNumeral hcut.1).symm.trans hdigit)
  · have hsign := Pattern.not_endsInDigit_cutNumeral hcut.1
    have hnone : t.text.toList ∉ Pattern.numeral.matches' := fun hnumeral =>
      Bool.false_ne_true (hsign.symm.trans (Pattern.endsInDigit_numeral hnumeral))
    refine ⟨iff_of_false hnone ?_, iff_of_true hnone hcut⟩
    rw [hsign]
    exact Bool.false_ne_true

/-- A numeral with all its parts, and a number that breaks off. -/
theorem number_texts_both :
    (tokenize "-1.5E-07;" =
        [] ++ ⟨.number, "-1.5E-07", ⟨0, 8⟩⟩ :: (tokenize "-1.5E-07;").tail ∧
      "-1.5E-07".toList ∈ Pattern.numeral.matches') ∧
    tokenize "2e+x" = [] ++ ⟨.number, "2e+", ⟨0, 3⟩⟩ :: (tokenize "2e+x").tail ∧
      "2e+".toList ∈ Pattern.cutNumeral.matches' ∧
      Lexeme.startsWithDigit (Token.textsOf (tokenize "2e+x").tail) = false := by
  have hwhole : tokenize "-1.5E-07;" =
      [] ++ ⟨.number, "-1.5E-07", ⟨0, 8⟩⟩ :: (tokenize "-1.5E-07;").tail := by
    decide +kernel
  have hbroken : tokenize "2e+x" =
      [] ++ ⟨.number, "2e+", ⟨0, 3⟩⟩ :: (tokenize "2e+x").tail := by
    decide +kernel
  refine ⟨⟨hwhole, (number_texts hwhole rfl).1.2 (by decide)⟩, hbroken, ?_⟩
  refine (number_texts hbroken rfl).2.1 fun hnumeral => ?_
  exact absurd ((number_texts hbroken rfl).1.1 hnumeral) (by decide)

/-- A number that breaks off is no numeral. -/
theorem not_numeral_of_sign :
    (⟨.number, "1e+", ⟨0, 3⟩⟩ : Token) ∈ tokenize "1e+" ∧
      "1e+".toList ∉ Pattern.numeral.matches' :=
  ⟨by decide +kernel, by decide +kernel⟩

end SqlGist
