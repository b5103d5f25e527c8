import SqlGist.Proofs.Token.BlankRuns
import SqlGist.Proofs.Token.NotNull
import SqlGist.Proofs.Token.Terminator

/-!
# Tokens in Front of Other Blanks

Each scanner stops at a character that its token cannot go on with, and neither a
space nor any character that opens a run goes on a token. So a scanner that is
given the same token and, behind it, the same text with other blanks takes the
same token again and leaves the other text.

`NOT` is the exception, since it looks for a `NULL` behind blanks. A word can be
read again only if none comes to belong to it.

## Main definitions

* `Lexeme.goesOn`: What makes a word that opens with `NULL` another word.

## Theorems

* `number_respaced`, `operator?_respaced`, `quoted_respaced`, `word_respaced`:
  The scanners.
* `visible_respaced`: All of them, by the character that a token opens with.
* `lexeme_respaced`: A token in front of other blanks.
-/

namespace SqlGist

namespace Lexeme

variable {cs ds : List Char}

/-- A run of characters of a class ends where it ended. -/
theorem span_respaced {p : Char → Bool} (hp : ∀ c, CharClass.opensRun c = true → p c = false)
    (h : Respaced (cs.dropWhile p) ds) :
    (cs.takeWhile p ++ ds).takeWhile p = cs.takeWhile p ∧
      (cs.takeWhile p ++ ds).dropWhile p = ds := by
  refine span_append (fun c hc => List.mem_takeWhile_imp hc) fun c hc => ?_
  have hsame := h.any_head? hp
  rw [hc, Option.any_some] at hsame
  rw [hsame]
  have hhead := List.head?_dropWhile_not p cs
  cases hdrop : cs.dropWhile p with
  | nil => rfl
  | cons d rest =>
      simp only [hdrop, List.head?_cons] at hhead
      exact hhead

theorem startsWithDigit_respaced (h : Respaced cs ds) :
    startsWithDigit ds = startsWithDigit cs :=
  h.any_head? fun _ => CharClass.isDigit_of_opensRun

theorem digits_respaced (h : Respaced (digits cs).2 ds) :
    digits ((digits cs).1 ++ ds) = ((digits cs).1, ds) := by
  have hspan := span_respaced (fun _ => CharClass.isDigit_of_opensRun) h
  exact Prod.ext hspan.1 hspan.2

theorem fraction_respaced (h : Respaced (fraction cs).2 ds) :
    fraction ((fraction cs).1 ++ ds) = ((fraction cs).1, ds) := by
  revert h
  fun_cases fraction cs with
  | case1 =>
      intro h
      rw [h.eq_nil]
      rfl
  | case2 c cs hpoint =>
      intro h
      have hahead := h.append (digits cs).1
      rw [digits_append] at hahead
      have hopens : c = '.' ∧ startsWithDigit ((digits cs).1 ++ ds) = true :=
        ⟨hpoint.1, (startsWithDigit_respaced hahead).trans hpoint.2⟩
      rw [List.cons_append, fraction, if_pos hopens, digits_respaced h]
  | case3 c cs hpoint =>
      intro h
      cases ds with
      | nil => rfl
      | cons d ds =>
          rw [List.nil_append, fraction, if_neg]
          rintro ⟨rfl, hdigit⟩
          obtain ⟨bs, hbs, hbehind⟩ := h.exists_cons (by decide)
          obtain ⟨rfl, rfl⟩ := List.cons.inj hbs
          exact hpoint ⟨rfl, (startsWithDigit_respaced hbehind).symm.trans hdigit⟩

/-- No exponent opens where none did. -/
theorem exponent_eq_nil_respaced (h : Respaced cs ds) (hcs : (exponent cs).1 = []) :
    exponent ds = ([], ds) := by
  have hletter {c : Char} (hc : c = 'e' ∨ c = 'E') : c ≠ ' ' := by
    rcases hc with rfl | rfl <;> decide
  fun_cases exponent ds with
  | case3 c d ds hc hd =>
      obtain ⟨bs, rfl, hbehind⟩ := h.exists_cons (hletter hc)
      have hsign : d ≠ ' ' := by rcases hd with rfl | rfl <;> decide
      obtain ⟨bs, rfl, -⟩ := hbehind.exists_cons hsign
      rw [exponent.eq_3, if_pos hc, if_pos hd] at hcs
      exact absurd hcs (List.cons_ne_nil _ _)
  | case4 c d ds hc hd hdigit =>
      obtain ⟨bs, rfl, hbehind⟩ := h.exists_cons (hletter hc)
      have hblank : d ≠ ' ' := by
        rintro rfl
        exact absurd hdigit (by decide)
      obtain ⟨bs, rfl, -⟩ := hbehind.exists_cons hblank
      rw [exponent.eq_3, if_pos hc, if_neg hd, if_pos hdigit] at hcs
      exact absurd hcs (List.cons_ne_nil _ _)
  | _ => rfl

theorem exponent_respaced (h : Respaced (exponent cs).2 ds) :
    exponent ((exponent cs).1 ++ ds) = ((exponent cs).1, ds) := by
  by_cases hnil : (exponent cs).1 = []
  · have happ := exponent_append cs
    rw [hnil, List.nil_append] at happ
    rw [hnil, List.nil_append]
    exact exponent_eq_nil_respaced (happ ▸ h) hnil
  · revert h hnil
    fun_cases exponent cs with
    | case3 c d cs hc hd =>
        intro h _
        rw [List.cons_append, List.cons_append, exponent.eq_3, if_pos hc, if_pos hd,
          digits_respaced h]
    | case4 c d cs hc hd hdigit =>
        intro h _
        have hdigits := digits_respaced h
        have hfirst : (digits (d :: cs)).1 = d :: (digits cs).1 := List.takeWhile_cons_of_pos hdigit
        rw [hfirst, List.cons_append] at hdigits
        rw [hfirst, List.cons_append, List.cons_append, exponent.eq_3, if_pos hc, if_neg hd,
          if_pos hdigit, hdigits]
    | _ => exact fun _ hnil => absurd rfl hnil

theorem number_respaced (h : Respaced (number cs).2 ds) :
    number ((number cs).1 ++ ds) = ((number cs).1, ds) := by
  simp only [number] at h ⊢
  have hscale := exponent_respaced h
  have hpart := h.append (exponent (fraction (digits cs).2).2).1
  rw [exponent_append] at hpart
  have hwhole := hpart.append (fraction (digits cs).2).1
  rw [fraction_append] at hwhole
  rw [List.append_assoc, List.append_assoc, digits_respaced hwhole]
  simp only [fraction_respaced hpart, hscale]

theorem operator?_respaced {text rest : List Char} (hread : operator? cs = some (text, rest))
    (h : Respaced rest ds) : operator? (text ++ ds) = some (text, ds) := by
  have hfirst {d : Char} (hd : d ≠ ' ') (hrest : ∀ es, rest = d :: es → False) (es : List Char) :
      ds = d :: es → False := by
    rintro rfl
    obtain ⟨bs, hbs, -⟩ := h.exists_cons hd
    exact hrest bs hbs
  revert hread
  fun_cases operator? cs with
  | case6 cs hle hneq =>
      intro hread
      obtain ⟨rfl, rfl⟩ := Prod.mk.inj (Option.some.inj hread)
      exact operator?.eq_6 ds (hfirst (by decide) hle) (hfirst (by decide) hneq)
  | case7 cs hge =>
      intro hread
      obtain ⟨rfl, rfl⟩ := Prod.mk.inj (Option.some.inj hread)
      exact operator?.eq_7 ds (hfirst (by decide) hge)
  | case13 => exact fun hread => absurd hread.symm (Option.some_ne_none _)
  | _ =>
      intro hread
      obtain ⟨rfl, rfl⟩ := Prod.mk.inj (Option.some.inj hread)
      rfl

/-- No operator opens where none did. -/
theorem operator?_eq_none_respaced {c : Char} (hread : operator? (c :: cs) = none)
    (h : Respaced cs ds) : operator? (c :: ds) = none := by
  have hone {a : Char} (hne : ∀ es, c :: cs = a :: es → False) (es : List Char) :
      c :: ds = a :: es → False := fun heq => hne cs (by rw [(List.cons.inj heq).1])
  have htwo {a b : Char} (hb : b ≠ ' ') (hne : ∀ es, c :: cs = a :: b :: es → False)
      (es : List Char) : c :: ds = a :: b :: es → False := by
    intro heq
    obtain ⟨rfl, rfl⟩ := List.cons.inj heq
    obtain ⟨bs, rfl, -⟩ := h.exists_cons hb
    exact hne bs rfl
  revert hread
  generalize hall : c :: cs = all at hone htwo
  fun_cases operator? all with
  | case13 _ hle hneq hge hbang hbar hlt hgt heq hplus hminus hslash hpercent =>
      intro _
      exact operator?.eq_13 _ (htwo (by decide) hle) (htwo (by decide) hneq)
        (htwo (by decide) hge) (htwo (by decide) hbang) (htwo (by decide) hbar) (hone hlt)
        (hone hgt) (hone heq) (hone hplus) (hone hminus) (hone hslash) (hone hpercent)
  | _ => exact fun hread => absurd hread (Option.some_ne_none _)

/-- A quoted text ends where it ended. -/
theorem quoted_respaced {kind : TokenKind} {cause : LexicalError} {q : Char} (hq : q ≠ ' ')
    (h : Respaced (quoted kind cause q cs).rest ds) {more : List Char}
    (htext : (quoted kind cause q cs).text = q :: more) :
    quoted kind cause q (more ++ ds) =
      ⟨(quoted kind cause q cs).kind, (quoted kind cause q cs).text, ds⟩ := by
  cases hclose : Text.closeQuote? q cs with
  | some run =>
      have hread : quoted kind cause q cs = ⟨kind, q :: run.1, run.2⟩ := by
        simp only [quoted, hclose]
      rw [hread] at h htext ⊢
      have hends : ds.head? ≠ some q := fun hds =>
        Text.closeQuote?_head? hclose (h.head?_of_head? hq hds)
      rw [← (List.cons.inj htext).2, quoted, Text.closeQuote?_body hclose hends]
  | none =>
      have hread : quoted kind cause q cs = ⟨.error cause, q :: cs, []⟩ := by
        simp only [quoted, hclose]
      rw [hread] at h htext ⊢
      rw [← (List.cons.inj htext).2, h.eq_nil, List.append_nil, hread]

/-- What makes a word that opens with `NULL` another word. -/
def goesOn (c : Char) : Bool :=
  CharClass.isAlphanumeric c || c = '_'

theorem isWordChar_of_goesOn {c : Char} (h : goesOn c = true) : CharClass.isWordChar c = true := by
  rw [CharClass.isWordChar, Bool.or_eq_true]
  exact Or.inl h

theorem goesOn_of_opensRun {c : Char} (h : CharClass.opensRun c = true) : goesOn c = false := by
  have hword := CharClass.isWordChar_of_opensRun h
  rw [CharClass.isWordChar, Bool.or_eq_false_iff] at hword
  exact hword.1

theorem goesOn_of_null {w : List Char} (hw : w.map Char.toUpper = "NULL".toList) :
    ∀ c ∈ w, goesOn c = true := by
  intro c hc
  have hupper := List.mem_map_of_mem (f := Char.toUpper) hc
  rw [hw] at hupper
  have hletters : "NULL".toList.all Char.isUpper = true := by decide
  rw [goesOn, CharClass.isAlphanumeric,
    CharClass.isLetter_of_isUpper_toUpper (List.all_eq_true.1 hletters _ hupper), Bool.true_or,
    Bool.true_or]

theorem continuesNull_respaced (h : Respaced cs ds) : continuesNull ds = continuesNull cs :=
  h.any_head? fun _ => goesOn_of_opensRun

theorem nullSuffix?_respaced {suffix rest : List Char}
    (hread : nullSuffix? cs = some (suffix, rest)) (h : Respaced rest ds) :
    nullSuffix? (suffix ++ ds) = some (suffix, ds) := by
  simp only [nullSuffix?] at hread
  split at hread
  · exact absurd hread.symm (Option.some_ne_none _)
  rename_i hgap
  split at hread
  · rename_i hnull
    rw [Bool.and_eq_true, decide_eq_true_eq, Bool.not_eq_true'] at hnull
    obtain ⟨rfl, rfl⟩ := Prod.mk.inj (Option.some.inj hread)
    rw [List.append_assoc]
    refine nullSuffix?_blanks (fun hnil => hgap (List.isEmpty_iff.2 hnil))
      (fun c hc => List.mem_takeWhile_imp hc)
      (fun c hc => isWordChar_of_goesOn (goesOn_of_null hnull.1 c hc)) hnull.1 ?_
    rw [continuesNull_respaced h, hnull.2]
  · exact absurd hread.symm (Option.some_ne_none _)

/-- A word ends where it ended, unless it is `NOT` and a `NULL` behind it comes
    to belong to it. -/
theorem word_respaced (h : Respaced (word cs).rest ds)
    (hnot : (word cs).kind = .keyword .not → nullSuffix? ds = none) :
    word ((word cs).text ++ ds) = ⟨(word cs).kind, (word cs).text, ds⟩ := by
  have hclass := fun c => CharClass.isWordChar_of_opensRun (c := c)
  cases hk : Keyword.ofWord? (String.ofList (cs.takeWhile CharClass.isWordChar)) with
  | none =>
      have hread : word cs =
          ⟨if isBuiltinType (String.ofList (cs.takeWhile CharClass.isWordChar)) &&
            (cs.dropWhile CharClass.isWordChar).head? != some '(' then .builtin else .name,
            cs.takeWhile CharClass.isWordChar, cs.dropWhile CharClass.isWordChar⟩ := by
        simp only [word, hk]
        split <;> rfl
      rw [hread] at h ⊢
      have hspan := span_respaced hclass h
      have hparen : (ds.head? != some '(') =
          ((cs.dropWhile CharClass.isWordChar).head? != some '(') := by
        rw [Bool.eq_iff_iff, bne_iff_ne, bne_iff_ne, ne_eq, h.head?_eq_some_iff (by decide)]
      simp only [word, hspan.1, hspan.2, hk, hparen]
      split <;> rfl
  | some k =>
      cases hsuffix :
          (if k = .not then nullSuffix? (cs.dropWhile CharClass.isWordChar) else none) with
      | none =>
          have hread : word cs = ⟨.keyword k, cs.takeWhile CharClass.isWordChar,
              cs.dropWhile CharClass.isWordChar⟩ := by
            simp only [word, hk, hsuffix]
          rw [hread] at h hnot ⊢
          have hspan := span_respaced hclass h
          have hnone : (if k = .not then nullSuffix? ds else none) = none := by
            split
            · rename_i hk
              exact hnot (by rw [hk])
            · rfl
          simp only [word, hspan.1, hspan.2, hk, hnone]
      | some run =>
          have hread : word cs = ⟨.keyword .notNull, cs.takeWhile CharClass.isWordChar ++ run.1,
              run.2⟩ := by
            simp only [word, hk, hsuffix]
          rw [hread] at h ⊢
          obtain ⟨rfl, hrun⟩ : k = .not ∧
              nullSuffix? (cs.dropWhile CharClass.isWordChar) = some run := by
            split at hsuffix
            · exact ⟨by assumption, hsuffix⟩
            · exact absurd hsuffix.symm (Option.some_ne_none _)
          -- The blanks in the keyword are its own and stay as they are.
          have happ := h.append run.1
          rw [nullSuffix?_append hrun] at happ
          have hspan := span_respaced hclass happ
          simp only [List.append_assoc, word, hspan.1, hspan.2, hk, if_true,
            nullSuffix?_respaced hrun h]

/-- What is read of a text begins as the text does, and what is behind its
    first character is respaced with the rest. -/
theorem exists_respaced_behind {c : Char} {text rest : List Char} (happ : text ++ rest = c :: cs)
    (hne : text ≠ []) (h : Respaced rest ds) :
    ∃ more, text = c :: more ∧ Respaced cs (more ++ ds) := by
  obtain ⟨d, more, rfl⟩ := List.exists_cons_of_ne_nil hne
  obtain ⟨rfl, rfl⟩ := List.cons.inj happ
  exact ⟨more, rfl, h.append more⟩

/-- What opens with none of the characters that are told apart by themselves
    and with no operator. -/
theorem visible_of_operator?_eq_none {operandExpected : Bool} {c : Char}
    (hmark : ¬marks.contains c = true) (hstar : ¬c = '*')
    (hsign : ¬((c = '+' || c = '-') && operandExpected && startsWithDigit cs) = true)
    (hoperator : operator? (c :: cs) = none) :
    visible operandExpected (c :: cs) =
      if c = Quote.apostrophe.char then quoted .string .unterminatedString c cs
      else if (Quote.ofNameQuote? c).isSome then quoted .name .unterminatedName c cs
      else if c.isDigit then ⟨.number, (number (c :: cs)).1, (number (c :: cs)).2⟩
      else if CharClass.isLetter c || c = '_' then word (c :: cs)
      else ⟨.error (.unexpected c), [c], cs⟩ := by
  rw [visible, if_neg hmark, if_neg hstar, if_neg hsign, hoperator]

/-- Every token that opens with no blank ends where it ended, with the same
    exception. -/
theorem visible_respaced {operandExpected : Bool}
    (h : Respaced (visible operandExpected cs).rest ds)
    (hnot : (visible operandExpected cs).kind = .keyword .not → nullSuffix? ds = none) :
    visible operandExpected ((visible operandExpected cs).text ++ ds) =
      ⟨(visible operandExpected cs).kind, (visible operandExpected cs).text, ds⟩ := by
  revert h hnot
  fun_cases visible operandExpected cs with
  | case1 =>
      intro h _
      rw [h.eq_nil]
      rfl
  | case2 c cs hmark =>
      intro _ _
      rw [List.singleton_append, visible, if_pos hmark]
  | case3 cs hmark =>
      intro _ _
      rw [List.singleton_append, visible, if_neg hmark, if_pos rfl]
  | case4 c cs hmark hstar hsign =>
      intro h _
      have hsame := h.append (number cs).1
      rw [number_append] at hsame
      rw [← startsWithDigit_respaced hsame] at hsign
      rw [List.cons_append, visible, if_neg hmark, if_neg hstar, if_pos hsign, number_respaced h]
  | case5 c cs hmark hstar hsign text rest hoperator =>
      intro h _
      have hread := operator?_respaced hoperator h
      obtain ⟨more, rfl, hsame⟩ := exists_respaced_behind (operator?_append hoperator)
        (operator?_ne_nil hoperator) h
      rw [← startsWithDigit_respaced hsame] at hsign
      rw [List.cons_append] at hread ⊢
      rw [visible, if_neg hmark, if_neg hstar, if_neg hsign, hread]
  | case6 cs hmark hstar hsign hoperator =>
      intro h _
      obtain ⟨more, htext, hsame⟩ := exists_respaced_behind (quoted_append _ _ _ _)
        (quoted_ne_nil _ _ _ _) h
      have hread := quoted_respaced (by decide) h htext
      rw [← startsWithDigit_respaced hsame] at hsign
      rw [htext] at hread ⊢
      rw [List.cons_append, visible_of_operator?_eq_none hmark hstar hsign
        (operator?_eq_none_respaced hoperator hsame), if_pos rfl, hread]
  | case7 c cs hmark hstar hsign hoperator hapostrophe hname =>
      intro h _
      have hblank : c ≠ ' ' := by
        rintro rfl
        exact absurd hname (by decide)
      obtain ⟨more, htext, hsame⟩ := exists_respaced_behind (quoted_append _ _ _ _)
        (quoted_ne_nil _ _ _ _) h
      have hread := quoted_respaced hblank h htext
      rw [← startsWithDigit_respaced hsame] at hsign
      rw [htext] at hread ⊢
      rw [List.cons_append, visible_of_operator?_eq_none hmark hstar hsign
        (operator?_eq_none_respaced hoperator hsame), if_neg hapostrophe, if_pos hname, hread]
  | case8 c cs hmark hstar hsign hoperator hapostrophe hname hdigit =>
      intro h _
      have hread := number_respaced h
      obtain ⟨more, htext, hsame⟩ := exists_respaced_behind (number_append (c :: cs))
        (number_ne_nil (by rw [startsWithDigit, List.head?_cons, Option.any_some, hdigit])) h
      rw [← startsWithDigit_respaced hsame] at hsign
      rw [htext, List.cons_append] at hread ⊢
      rw [visible_of_operator?_eq_none hmark hstar hsign
        (operator?_eq_none_respaced hoperator hsame), if_neg hapostrophe, if_neg hname,
        if_pos hdigit, hread]
  | case9 c cs hmark hstar hsign hoperator hapostrophe hname hdigit hopens =>
      intro h hnot
      have hread := word_respaced h hnot
      obtain ⟨more, htext, hsame⟩ := exists_respaced_behind (word_append (c :: cs))
        (word_ne_nil cs (isWordChar_of_opens hopens)) h
      rw [← startsWithDigit_respaced hsame] at hsign
      rw [htext, List.cons_append] at hread ⊢
      rw [visible_of_operator?_eq_none hmark hstar hsign
        (operator?_eq_none_respaced hoperator hsame), if_neg hapostrophe, if_neg hname,
        if_neg hdigit, if_pos hopens, hread]
  | case10 c cs hmark hstar hsign hoperator hapostrophe hname hdigit hopens =>
      intro h _
      rw [← startsWithDigit_respaced h] at hsign
      rw [List.singleton_append, visible_of_operator?_eq_none hmark hstar hsign
        (operator?_eq_none_respaced hoperator h), if_neg hapostrophe, if_neg hname, if_neg hdigit,
        if_neg hopens]

end Lexeme

/-- A token that is no blank is read again in front of a rest with other blanks,
    unless it is `NOT` and a `NULL` behind it comes to belong to it. -/
theorem lexeme_respaced {operandExpected : Bool} {cs ds : List Char}
    (hkind : (lexeme operandExpected cs).kind ≠ .whitespace)
    (h : Respaced (lexeme operandExpected cs).rest ds)
    (hnot : (lexeme operandExpected cs).kind = .keyword .not → Lexeme.nullSuffix? ds = none) :
    lexeme operandExpected ((lexeme operandExpected cs).text ++ ds) =
      ⟨(lexeme operandExpected cs).kind, (lexeme operandExpected cs).text, ds⟩ := by
  have hrun : (Lexeme.blankRun .between cs).1 = [] :=
    not_not.1 fun hrun => hkind (lexeme_whitespace_iff.2 hrun)
  have hsame := h.append (lexeme operandExpected cs).text
  rw [lexeme_append] at hsame
  rw [lexeme_of_visible (hsame.blankRun_eq_nil hrun)]
  rw [lexeme_of_visible hrun] at h hnot ⊢
  exact Lexeme.visible_respaced h hnot

end SqlGist
