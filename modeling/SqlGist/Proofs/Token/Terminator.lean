import SqlGist.Proofs.Token.Partition

/-!
# Reading in Front of a Semicolon

A text up to a semicolon reads like the same text alone, if the semicolon is a
token of its own. Whatever stands behind it is not looked at: no scanner takes
a semicolon for a part of its token, and none looks further than one character
behind it.

The exceptions are what a semicolon does not end, a comment and a quoted text.
A token of these kinds either closes in front of the semicolon or reaches over
it, and if the semicolon is a token, none in front of it reaches over. So the
scanners are compared up to a bound on what is taken, and the bound is met
because the tokens lie one behind the other.

## Main definitions

* `Lexeme.leaving`, `Lexeme.before`: What is read, with more text behind it.
* `Cursor.before`: A cursor with more text behind what is ahead.

## Theorems

* `closeQuote?_append_of_some`: A quoted text closes at the same place.
* `blankRun_append_mark`: A run of blanks ends at the same place or reaches over
  the semicolon.
* `lexeme_append_mark`: So does every token.
* `tokens_before_mark`: The tokens in front of a semicolon.
* `tokenize_of_mark`: The same from the front of a text on.
-/

namespace SqlGist

section Runs

variable {α : Type} {p : α → Bool} {a : α}

theorem takeWhile_append_cons (h : p a = false) (as bs : List α) :
    (as ++ a :: bs).takeWhile p = as.takeWhile p := by
  induction as with
  | nil => exact List.takeWhile_cons_of_neg (Bool.eq_false_iff.1 h)
  | cons c as ih =>
      by_cases hc : p c = true
      · rw [List.cons_append, List.takeWhile_cons_of_pos hc, List.takeWhile_cons_of_pos hc, ih]
      · rw [List.cons_append, List.takeWhile_cons_of_neg hc, List.takeWhile_cons_of_neg hc]

theorem dropWhile_append_cons (h : p a = false) (as bs : List α) :
    (as ++ a :: bs).dropWhile p = as.dropWhile p ++ a :: bs := by
  induction as with
  | nil => exact List.dropWhile_cons_of_neg (Bool.eq_false_iff.1 h)
  | cons c as ih =>
      by_cases hc : p c = true
      · rw [List.cons_append, List.dropWhile_cons_of_pos hc, List.dropWhile_cons_of_pos hc, ih]
      · rw [List.cons_append, List.dropWhile_cons_of_neg hc, List.dropWhile_cons_of_neg hc,
          List.cons_append]

end Runs

namespace Text

theorem closeQuote?_pair (q : Char) (cs : List Char) :
    closeQuote? q (q :: q :: cs) = (closeQuote? q cs).map fun run => (q :: q :: run.1, run.2) := by
  rw [closeQuote?, if_pos rfl, if_pos rfl]

theorem closeQuote?_end {q d : Char} (h : d ≠ q) (cs : List Char) :
    closeQuote? q (q :: d :: cs) = some ([q], d :: cs) := by
  rw [closeQuote?, if_pos rfl, if_neg h]

theorem closeQuote?_pass {q c : Char} (h : c ≠ q) (cs : List Char) :
    closeQuote? q (c :: cs) = (closeQuote? q cs).map fun run => (c :: run.1, run.2) := by
  cases cs with
  | nil => simp only [closeQuote?, if_neg h, Option.map_none]
  | cons d cs => rw [closeQuote?, if_neg h]

theorem closeQuote?_body {q : Char} {cs body rest ds : List Char}
    (h : closeQuote? q cs = some (body, rest)) (hds : ds.head? ≠ some q) :
    closeQuote? q (body ++ ds) = some (body, ds) := by
  have hclose : closeQuote? q (q :: ds) = some ([q], ds) := by
    cases ds with
    | nil => rw [closeQuote?, if_pos rfl]
    | cons d ds => exact closeQuote?_end (fun hd => hds (by rw [hd, List.head?_cons])) ds
  fun_induction closeQuote? q cs generalizing body with
  | case1 => exact absurd h.symm (Option.some_ne_none _)
  | case2 =>
      rw [Option.some.injEq, Prod.mk.injEq] at h
      rw [← h.1, List.singleton_append, hclose]
  | case3 => exact absurd h.symm (Option.some_ne_none _)
  | case4 cs ih =>
      rcases Option.map_eq_some_iff.1 h with ⟨⟨body, left⟩, hrec, hparts⟩
      rw [Prod.mk.injEq] at hparts
      obtain ⟨rfl, rfl⟩ := hparts
      rw [List.cons_append, List.cons_append, closeQuote?_pair, ih hrec, Option.map_some]
  | case5 e cs he =>
      rw [Option.some.injEq, Prod.mk.injEq] at h
      rw [← h.1, List.singleton_append, hclose]
  | case6 c e cs hc ih =>
      rcases Option.map_eq_some_iff.1 h with ⟨⟨body, left⟩, hrec, hparts⟩
      rw [Prod.mk.injEq] at hparts
      obtain ⟨rfl, rfl⟩ := hparts
      rw [List.cons_append, closeQuote?_pass hc, ih hrec, Option.map_some]

/-- Behind a closing quote there is no other. -/
theorem closeQuote?_head? {q : Char} {cs body rest : List Char}
    (h : closeQuote? q cs = some (body, rest)) : rest.head? ≠ some q := by
  fun_induction closeQuote? q cs generalizing body with
  | case1 => exact absurd h.symm (Option.some_ne_none _)
  | case2 =>
      rw [Option.some.injEq, Prod.mk.injEq] at h
      rw [← h.2, List.head?_nil]
      exact fun hq => absurd hq.symm (Option.some_ne_none _)
  | case3 => exact absurd h.symm (Option.some_ne_none _)
  | case4 cs ih =>
      rcases Option.map_eq_some_iff.1 h with ⟨⟨body, left⟩, hrec, hparts⟩
      rw [Prod.mk.injEq] at hparts
      exact ih (by rw [hrec, ← hparts.2])
  | case5 e cs he =>
      rw [Option.some.injEq, Prod.mk.injEq] at h
      rw [← h.2, List.head?_cons, ne_eq, Option.some.injEq]
      exact he
  | case6 c e cs hc ih =>
      rcases Option.map_eq_some_iff.1 h with ⟨⟨body, left⟩, hrec, hparts⟩
      rw [Prod.mk.injEq] at hparts
      exact ih (by rw [hrec, ← hparts.2])

/-- A quoted text closes at the same place, whatever follows, unless it is
    another quote. -/
theorem closeQuote?_append_of_some {q d : Char} {cs body left : List Char} (hd : d ≠ q)
    (h : closeQuote? q cs = some (body, left)) (tail : List Char) :
    closeQuote? q (cs ++ d :: tail) = some (body, left ++ d :: tail) := by
  rw [← closeQuote?_append h, List.append_assoc]
  refine closeQuote?_body h fun hhead => ?_
  cases left with
  | nil => exact hd (Option.some.inj hhead)
  | cons e left => exact closeQuote?_head? h hhead

theorem closeQuote?_ne_nil {q : Char} {cs body left : List Char}
    (h : closeQuote? q cs = some (body, left)) : body ≠ [] := by
  revert h
  fun_cases closeQuote? q cs <;>
    simp only [Option.some.injEq, Option.map_eq_some_iff, Prod.mk.injEq, reduceCtorEq,
      false_implies]
  · rintro ⟨rfl, -⟩
    exact List.cons_ne_nil _ _
  · rintro ⟨_, -, rfl, -⟩
    exact List.cons_ne_nil _ _
  · rintro ⟨rfl, -⟩
    exact List.cons_ne_nil _ _
  · rintro ⟨_, -, rfl, -⟩
    exact List.cons_ne_nil _ _

/-- A quoted text that nothing closes is closed behind its end, if at all. -/
theorem length_lt_of_closeQuote? {q : Char} {cs body left tail : List Char}
    (h : closeQuote? q cs = none) (hlong : closeQuote? q (cs ++ tail) = some (body, left)) :
    cs.length < body.length := by
  fun_induction closeQuote? q cs generalizing body with
  | case1 => exact List.length_pos_iff.2 (closeQuote?_ne_nil hlong)
  | case2 => simp only [reduceCtorEq] at h
  | case3 c hc =>
      rw [List.singleton_append, closeQuote?_pass hc] at hlong
      rcases Option.map_eq_some_iff.1 hlong with ⟨⟨body, left⟩, hrec, rfl, rfl⟩
      exact Nat.succ_lt_succ (List.length_pos_iff.2 (closeQuote?_ne_nil hrec))
  | case4 cs ih =>
      rw [List.cons_append, List.cons_append, closeQuote?_pair] at hlong
      rcases Option.map_eq_some_iff.1 hlong with ⟨⟨body, left⟩, hrec, rfl, rfl⟩
      exact Nat.succ_lt_succ (Nat.succ_lt_succ (ih (Option.map_eq_none_iff.1 h) hrec))
  | case5 => simp only [reduceCtorEq] at h
  | case6 c d cs hc ih =>
      rw [List.cons_append, closeQuote?_pass hc] at hlong
      rcases Option.map_eq_some_iff.1 hlong with ⟨⟨body, left⟩, hrec, rfl, rfl⟩
      exact Nat.succ_lt_succ (ih (Option.map_eq_none_iff.1 h) hrec)

end Text

namespace Lexeme

/-- What is taken and what is left, with more text behind it. -/
def leaving (run : List Char × List Char) (tail : List Char) : List Char × List Char :=
  (run.1, run.2 ++ tail)

/-- The token with more text behind it. -/
def before (found : Lexeme) (tail : List Char) : Lexeme :=
  { found with rest := found.rest ++ tail }

variable (tail : List Char)

theorem startsWithDigit_append_mark (cs : List Char) :
    startsWithDigit (cs ++ ';' :: tail) = startsWithDigit cs := by
  cases cs with
  | nil => rfl
  | cons c cs => rfl

theorem digits_append_mark (cs : List Char) :
    digits (cs ++ ';' :: tail) = leaving (digits cs) (';' :: tail) := by
  rw [digits, takeWhile_append_cons (by decide), dropWhile_append_cons (by decide)]
  rfl

theorem fraction_append_mark (cs : List Char) :
    fraction (cs ++ ';' :: tail) = leaving (fraction cs) (';' :: tail) := by
  cases cs with
  | nil =>
      have hpoint : ¬(';' = '.' ∧ startsWithDigit tail = true) := fun h => absurd h.1 (by decide)
      rw [List.nil_append, fraction.eq_2, if_neg hpoint]
      rfl
  | cons c cs =>
      rw [List.cons_append, fraction, fraction, startsWithDigit_append_mark, digits_append_mark]
      split <;> rfl

theorem exponent_append_mark (cs : List Char) :
    exponent (cs ++ ';' :: tail) = leaving (exponent cs) (';' :: tail) := by
  match cs with
  | [] =>
      cases tail with
      | nil => rfl
      | cons d tail =>
          rw [List.nil_append, exponent.eq_3, if_neg (by decide)]
          rfl
  | [c] =>
      have hsign : ¬(';' = '+' ∨ ';' = '-') := by decide
      have hdigit : ¬Char.isDigit ';' = true := by decide
      rw [List.singleton_append, exponent.eq_3, if_neg hsign, if_neg hdigit, ite_self]
      rfl
  | c :: d :: cs =>
      have hdigits := digits_append_mark tail (d :: cs)
      rw [List.cons_append] at hdigits
      rw [List.cons_append, List.cons_append, exponent.eq_3, exponent.eq_3, digits_append_mark,
        hdigits]
      split
      · split
        · rfl
        · split <;> rfl
      · rfl

theorem number_append_mark (cs : List Char) :
    number (cs ++ ';' :: tail) = leaving (number cs) (';' :: tail) := by
  simp only [number, digits_append_mark, leaving, fraction_append_mark, exponent_append_mark]

theorem continuesNull_append_mark (cs : List Char) :
    continuesNull (cs ++ ';' :: tail) = continuesNull cs := by
  cases cs with
  | nil => rfl
  | cons c cs => rfl

/-- What a text does not begin with, it does not begin with in front of a
    semicolon. -/
theorem append_mark_ne (front : List Char) (hfront : ';' ∉ front) {cs : List Char}
    (h : ∀ ds, cs ≠ front ++ ds) (ds : List Char) : cs ++ ';' :: tail ≠ front ++ ds := by
  intro heq
  rcases List.append_eq_append_iff.1 heq with ⟨more, hmore, hrest⟩ | ⟨more, rfl, -⟩
  · -- Else the front would reach over the semicolon.
    cases more with
    | nil => exact h [] (by rw [hmore, List.append_nil, List.append_nil])
    | cons c more =>
        refine hfront ?_
        rw [hmore, (List.cons.inj hrest).1]
        exact List.mem_append_right _ List.mem_cons_self
  · exact h more rfl

theorem operator?_append_mark {cs : List Char} (h : cs ≠ []) :
    operator? (cs ++ ';' :: tail) = (operator? cs).map fun run => leaving run (';' :: tail) := by
  have hne := @append_mark_ne tail
  fun_cases operator? cs with
  | case6 cs hle hneq =>
      exact operator?.eq_6 _ (hne ['='] (by decide) hle) (hne ['>'] (by decide) hneq)
  | case7 cs hge => exact operator?.eq_7 _ (hne ['='] (by decide) hge)
  | case13 cs hle hneq hge hbang hbar hlt hgt heq hplus hminus hslash hpercent =>
      exact operator?.eq_13 _ (hne ['<', '='] (by decide) hle) (hne ['<', '>'] (by decide) hneq)
        (hne ['>', '='] (by decide) hge) (hne ['!', '='] (by decide) hbang)
        (hne ['|', '|'] (by decide) hbar) (hne ['<'] (by decide) hlt) (hne ['>'] (by decide) hgt)
        (hne ['='] (by decide) heq) (hne ['+'] (by decide) hplus) (hne ['-'] (by decide) hminus)
        (hne ['/'] (by decide) hslash) (hne ['%'] (by decide) hpercent)
  | _ => rfl

/-- No word reaches over a semicolon. -/
theorem take_append_mark_ne_null {cs : List Char} (h : cs.length < 4) :
    ((cs ++ ';' :: tail).take 4).map Char.toUpper ≠ "NULL".toList := by
  intro heq
  have hmark : ';' ∈ (cs ++ ';' :: tail).take 4 := by
    have hlen : 4 - cs.length = (3 - cs.length) + 1 := by omega
    rw [List.take_append, hlen, List.take_succ_cons]
    exact List.mem_append_right _ List.mem_cons_self
  have hupper := List.mem_map_of_mem (f := Char.toUpper) hmark
  rw [heq] at hupper
  exact absurd hupper (by decide)

theorem nullSuffix?_append_mark (cs : List Char) :
    nullSuffix? (cs ++ ';' :: tail) =
      (nullSuffix? cs).map fun run => leaving run (';' :: tail) := by
  have hblank : CharClass.isBlank ';' = false := rfl
  simp only [nullSuffix?, takeWhile_append_cons hblank, dropWhile_append_cons hblank]
  split
  · rfl
  · by_cases hlen : 4 ≤ (cs.dropWhile CharClass.isBlank).length
    · rw [List.take_append_of_le_length hlen, List.drop_append_of_le_length hlen,
        continuesNull_append_mark]
      split <;> rfl
    · -- The word is not complete in front of the semicolon, and not with it either.
      have hshort :
          ((cs.dropWhile CharClass.isBlank).take 4).map Char.toUpper ≠ "NULL".toList := by
        intro heq
        have hfour := congrArg List.length heq
        rw [List.length_map, List.length_take, Nat.min_eq_right (by omega)] at hfour
        exact hlen (Nat.le_of_eq hfour.symm)
      have hlong := take_append_mark_ne_null tail (Nat.lt_of_not_le hlen)
      rw [decide_eq_false hshort, decide_eq_false hlong]
      rfl

theorem word_append_mark (cs : List Char) :
    word (cs ++ ';' :: tail) = (word cs).before (';' :: tail) := by
  have hword : CharClass.isWordChar ';' = false := rfl
  have hopen (left : List Char) :
      ((left ++ ';' :: tail).head? != some '(') = (left.head? != some '(') := by
    cases left <;> rfl
  simp only [word, takeWhile_append_cons hword, dropWhile_append_cons hword,
    nullSuffix?_append_mark, hopen]
  split
  · rename_i k _
    by_cases hnot : k = .not
    · simp only [if_pos hnot]
      cases nullSuffix? (cs.dropWhile CharClass.isWordChar) <;> rfl
    · simp only [if_neg hnot]
      rfl
  · split <;> rfl

theorem quoted_append_mark {kind : TokenKind} {cause : LexicalError} {q : Char} (hq : ';' ≠ q)
    (cs : List Char) :
    cs.length + 1 < (quoted kind cause q (cs ++ ';' :: tail)).text.length ∨
      quoted kind cause q (cs ++ ';' :: tail) = (quoted kind cause q cs).before (';' :: tail) := by
  cases hclose : Text.closeQuote? q cs with
  | some run =>
      right
      rw [quoted, quoted, hclose, Text.closeQuote?_append_of_some hq hclose]
      rfl
  | none =>
      left
      rw [quoted]
      split
      · rename_i body left hlong
        exact Nat.succ_lt_succ (Text.length_lt_of_closeQuote? hclose hlong)
      · rw [List.length_cons, List.length_append]
        exact Nat.succ_lt_succ (Nat.lt_add_of_pos_right (Nat.zero_lt_succ _))

theorem carry_append_mark (taken : List Char) {cs : List Char} {run run' : List Char × List Char}
    (h : cs.length < run'.1.length ∨ run' = leaving run (';' :: tail)) :
    (taken ++ cs).length < (carry taken run').1.length ∨
      carry taken run' = leaving (carry taken run) (';' :: tail) := by
  rcases h with h | rfl
  · left
    rw [carry, List.length_append, List.length_append]
    exact Nat.add_lt_add_left h _
  · exact Or.inr rfl

theorem blankRun_append_mark (s : BlankState) (cs : List Char) :
    cs.length < (blankRun s (cs ++ ';' :: tail)).1.length ∨
      blankRun s (cs ++ ';' :: tail) = leaving (blankRun s cs) (';' :: tail) := by
  fun_induction blankRun s cs with
  | case1 s =>
      -- Only a comment goes on over the semicolon.
      cases s with
      | between => exact Or.inr rfl
      | lineComment => exact Or.inl (Nat.zero_lt_succ _)
      | blockComment => exact Or.inl (Nat.zero_lt_succ _)
  | case2 cs ih => exact carry_append_mark tail ['-', '-'] ih
  | case3 cs ih => exact carry_append_mark tail ['/', '*'] ih
  | case4 c cs hline hblock hblank ih =>
      have hline' := fun ds hc => append_mark_ne tail ['-'] (by decide) (fun ds => hline ds hc) ds
      have hblock' := fun ds hc => append_mark_ne tail ['*'] (by decide) (fun ds => hblock ds hc) ds
      rw [List.cons_append, blankRun.eq_4 c _ hline' hblock', if_pos hblank]
      exact carry_append_mark tail [c] ih
  | case5 c cs hline hblock hblank =>
      have hline' := fun ds hc => append_mark_ne tail ['-'] (by decide) (fun ds => hline ds hc) ds
      have hblock' := fun ds hc => append_mark_ne tail ['*'] (by decide) (fun ds => hblock ds hc) ds
      rw [List.cons_append, blankRun.eq_4 c _ hline' hblock', if_neg hblank]
      exact Or.inr rfl
  | case6 c cs ih =>
      rw [List.cons_append, blankRun]
      exact carry_append_mark tail [c] ih
  | case7 cs ih => exact carry_append_mark tail ['*', '/'] ih
  | case8 c cs hend ih =>
      have hend' := fun ds hc => append_mark_ne tail ['/'] (by decide) (fun ds => hend ds hc) ds
      rw [List.cons_append, blankRun.eq_7 c _ hend']
      exact carry_append_mark tail [c] ih

theorem visible_append_mark (operandExpected : Bool) (cs : List Char) :
    cs.length < (visible operandExpected (cs ++ ';' :: tail)).text.length ∨
      visible operandExpected (cs ++ ';' :: tail) =
        (visible operandExpected cs).before (';' :: tail) := by
  cases cs with
  | nil => exact Or.inl Nat.one_pos
  | cons c cs =>
      have hoperator := operator?_append_mark tail (List.cons_ne_nil c cs)
      have hnumber := number_append_mark tail (c :: cs)
      have hword := word_append_mark tail (c :: cs)
      rw [List.cons_append] at hoperator hnumber hword
      rw [List.cons_append, visible, visible, startsWithDigit_append_mark, hoperator,
        number_append_mark, hnumber, hword]
      split
      · exact Or.inr rfl
      rename_i hmark
      have hquote : ';' ≠ c := by
        rintro rfl
        exact hmark (by decide)
      split
      · exact Or.inr rfl
      split
      · exact Or.inr rfl
      cases operator? (c :: cs) with
      | some run => exact Or.inr rfl
      | none =>
        simp only [Option.map_none]
        split
        · exact quoted_append_mark tail hquote cs
        split
        · exact quoted_append_mark tail hquote cs
        split
        · exact Or.inr rfl
        split <;> exact Or.inr rfl

end Lexeme

theorem lexeme_append_mark {operandExpected : Bool} {cs tail : List Char}
    (h : (lexeme operandExpected (cs ++ ';' :: tail)).text.length ≤ cs.length) :
    lexeme operandExpected (cs ++ ';' :: tail) =
      (lexeme operandExpected cs).before (';' :: tail) := by
  rcases Lexeme.blankRun_append_mark tail .between cs with hlong | hrun
  · have hblank := List.ne_nil_of_length_pos (Nat.zero_lt_of_lt hlong)
    rw [lexeme_of_blank hblank] at h
    exact absurd hlong (Nat.not_lt_of_le h)
  have htext := congrArg Prod.fst hrun
  by_cases hblank : (Lexeme.blankRun .between cs).1 = []
  · rw [lexeme_of_visible (htext.trans hblank)] at h ⊢
    rw [lexeme_of_visible hblank]
    exact (Lexeme.visible_append_mark tail operandExpected cs).resolve_left (Nat.not_lt_of_le h)
  · rw [lexeme_of_blank (htext ▸ hblank), lexeme_of_blank hblank, hrun]
    rfl

namespace Text

/-- Of two beginnings of one text, the one of fewer bytes has fewer characters. -/
theorem length_le_of_byteLength_le {as as' bs bs' : List Char} (h : as ++ as' = bs ++ bs')
    (hle : byteLength as ≤ byteLength bs) : as.length ≤ bs.length := by
  by_contra hlt
  rcases List.prefix_of_prefix_length_le (List.prefix_append bs bs')
    (h ▸ List.prefix_append as as') (Nat.le_of_not_le hlt) with ⟨more, rfl⟩
  rw [byteLength_append] at hle
  have hnil : more = [] := (byteLength_eq_zero_iff more).1 (by omega)
  rw [hnil, List.append_nil] at hlt
  exact hlt (Nat.le_refl _)

end Text

namespace Cursor

/-- The cursor with more text behind what is ahead. -/
def before (c : Cursor) (tail : List Char) : Cursor :=
  { c with rest := c.rest ++ tail }

/-- A token that does not reach over the semicolon is read without it too. -/
theorem next_before_mark {c : Cursor} {tail : List Char}
    (h : Text.byteLength (c.before (';' :: tail)).next.1.text.toList ≤ Text.byteLength c.rest) :
    (c.before (';' :: tail)).next = (c.next.1, c.next.2.before (';' :: tail)) := by
  have hlength := Text.length_le_of_byteLength_le (next_append (c.before (';' :: tail))) h
  simp only [next, before, String.toList_ofList] at hlength ⊢
  rw [lexeme_append_mark hlength]
  rfl

/-- What is read in front of a semicolon that is a token of its own is read
    without it too. -/
theorem tokens_before_mark {c : Cursor} {tail : List Char} {front back : List Token} {mark : Token}
    (htokens : (c.before (';' :: tail)).tokens = front ++ mark :: back)
    (hbytes : Text.byteLength (Token.textsOf front) = Text.byteLength c.rest) :
    c.tokens = front ++ [Token.ending (c.offset + Text.byteLength c.rest)] := by
  induction front generalizing c with
  | nil =>
      have hrest : c.rest = [] := (Text.byteLength_eq_zero_iff _).1 hbytes.symm
      rw [tokens, next_nil hrest, hrest]
      rfl
  | cons t front ih =>
      rcases tokens_eq_cons htokens (Or.inr (List.append_ne_nil_of_right_ne_nil front
        (List.cons_ne_nil mark back))) with ⟨hnext, hkind, hbehind⟩
      rw [Token.textsOf_cons, Text.byteLength_append] at hbytes
      have hfits : Text.byteLength (c.before (';' :: tail)).next.1.text.toList ≤
          Text.byteLength c.rest := by
        rw [hnext, ← hbytes]
        exact Nat.le_add_right _ _
      rw [next_before_mark hfits] at hnext hkind hbehind
      have happ := congrArg Text.byteLength (next_append c)
      rw [Text.byteLength_append, hnext] at happ
      have hoffset := (next_span c).2
      rw [hnext] at hoffset
      have hrest := ih hbehind (by omega)
      have hstop : c.next.2.offset + Text.byteLength c.next.2.rest =
          c.offset + Text.byteLength c.rest := by omega
      rw [tokens, dif_neg hkind, hnext, hrest, hstop, List.cons_append]

end Cursor

/-- A text in front of a semicolon that is a token of its own. -/
theorem tokenize_of_mark {first rest : String} {front back : List Token} {mark : Token}
    (htokens : tokenize (first ++ ";" ++ rest) = front ++ mark :: back)
    (hstart : mark.span.start = first.utf8ByteSize) :
    tokenize first = front ++ [Token.ending first.utf8ByteSize] := by
  have hplaced := Cursor.tokens_placed (Cursor.start (first ++ ";" ++ rest))
  rw [tokenize] at htokens
  rw [htokens, Token.placed_append] at hplaced
  have hspan := hplaced.2.1
  have hbefore : Cursor.start (first ++ ";" ++ rest) =
      (Cursor.start first).before (';' :: rest.toList) := by
    simp only [Cursor.start, Cursor.before, String.toList_append, List.append_assoc]
    rfl
  have hstop := stop_start first
  rw [hbefore] at htokens
  have hbytes : Text.byteLength (Token.textsOf front) =
      Text.byteLength (Cursor.start first).rest := by
    rw [hspan, ← hstop] at hstart
    exact Nat.add_left_cancel hstart
  rw [tokenize, Cursor.tokens_before_mark htokens hbytes, hstop]

end SqlGist
