import SqlGist.Proofs.Token.Scanners

/-!
# Comments Between Tokens

With one space in place of each run of blanks and comments a text is read as the
same tokens, as far as they are no blanks themselves. The lexer is at the same
place of both texts with every token that it takes, so one step after the other
is the same.

`NOT` is the exception, since it looks for a `NULL` behind blanks, and does not
take a comment for one. A comment between the two words keeps them apart; the
space in its place does not. This is all that can go wrong, and it goes wrong
whenever it occurs: `visibleOf_tokenize_respaced` says so of every text.

The word behind the comment need not be `NULL` itself. It is enough that it
opens with `NULL` and goes on with a dollar sign, which goes on a word but not
this one.

## Main definitions

* `Lexeme.opensWithNull`: A text opens with the word `NULL`.
* `Token.SplitNotNull`: A `NULL` that a comment keeps apart from a `NOT`.
* `respaced`: A text with one space for each of its blanks.

## Theorems

* `opensWithNull_lexeme`: A token opens with `NULL` where the text does.
* `nullSuffix?_respaced_iff`: When a `NULL` comes to belong to a `NOT`.
* `next_respaced_of_blank`, `next_respaced_of_visible`: One step in both texts.
* `visibleOf_tokenize_respaced`: All tokens that are no blanks.
* `visibleOf_ne_of_comment`: A text that is read as other tokens.
-/

namespace SqlGist

namespace Lexeme

/-- The text opens with the word `NULL`, in any mixture of cases, and the word
    does not go on. -/
def opensWithNull (cs : List Char) : Bool :=
  (cs.take 4).map Char.toUpper = "NULL".toList && !continuesNull (cs.drop 4)

/-- The word is the longest run of what it may go on with. -/
theorem opensWithNull_iff {cs : List Char} :
    opensWithNull cs = true ↔ (cs.takeWhile goesOn).map Char.toUpper = "NULL".toList := by
  rw [opensWithNull, Bool.and_eq_true, decide_eq_true_eq, Bool.not_eq_true']
  constructor
  · rintro ⟨hnull, hends⟩
    have hspan := span_append (goesOn_of_null hnull) fun c hc => by
      rw [continuesNull, hc, Option.any_some] at hends
      exact hends
    rw [List.take_append_drop] at hspan
    rw [hspan.1, hnull]
  · intro hnull
    have hlen : (cs.takeWhile goesOn).length = 4 := by
      have hfour := congrArg List.length hnull
      rwa [List.length_map] at hfour
    have hcut := List.takeWhile_append_dropWhile (p := goesOn) (l := cs)
    have htake : cs.take 4 = cs.takeWhile goesOn := by
      rw [← hlen, ← congrArg (List.take _) hcut, List.take_left]
    have hdrop : cs.drop 4 = cs.dropWhile goesOn := by
      rw [← hlen, ← congrArg (List.drop _) hcut, List.drop_left]
    refine ⟨by rw [htake, hnull], ?_⟩
    rw [hdrop, continuesNull]
    have hhead := List.head?_dropWhile_not goesOn cs
    cases hrest : cs.dropWhile goesOn with
    | nil => rfl
    | cons c rest =>
        simp only [hrest, List.head?_cons] at hhead
        exact hhead

theorem opensWithNull_respaced {cs ds : List Char} (h : Respaced cs ds) :
    opensWithNull ds = opensWithNull cs := by
  rw [Bool.eq_iff_iff, opensWithNull_iff, opensWithNull_iff,
    h.takeWhile_eq fun _ => goesOn_of_opensRun]

/-- What is taken behind `NOT` begins with a blank. -/
theorem exists_blank_of_nullSuffix? {cs suffix rest : List Char}
    (h : nullSuffix? cs = some (suffix, rest)) :
    ∃ c more, suffix = c :: more ∧ CharClass.isBlank c = true := by
  simp only [nullSuffix?] at h
  split at h
  · exact absurd h.symm (Option.some_ne_none _)
  rename_i hgap
  split at h
  · obtain ⟨c, gap, hcut⟩ := List.exists_cons_of_ne_nil fun hnil => hgap (List.isEmpty_iff.2 hnil)
    have hc : c ∈ cs.takeWhile CharClass.isBlank := hcut ▸ List.mem_cons_self
    rw [hcut, Option.some.injEq, Prod.mk.injEq] at h
    exact ⟨c, _, h.1.symm, List.mem_takeWhile_imp hc⟩
  · exact absurd h.symm (Option.some_ne_none _)

/-- A bare word opens with what the text opens with. -/
theorem takeWhile_word (cs : List Char) :
    (word cs).text.takeWhile goesOn = cs.takeWhile goesOn := by
  have hshort : (cs.takeWhile CharClass.isWordChar).takeWhile goesOn = cs.takeWhile goesOn := by
    have hboth : (fun c => decide (goesOn c = true ∧ CharClass.isWordChar c = true)) = goesOn := by
      funext c
      rw [Bool.eq_iff_iff, decide_eq_true_eq]
      exact ⟨And.left, fun hc => ⟨hc, isWordChar_of_goesOn hc⟩⟩
    rw [List.takeWhile_takeWhile, hboth]
  simp only [word]
  split
  · split
    · rename_i k _ _ suffix rest hsuffix
      split at hsuffix
      · obtain ⟨b, more, rfl, hb⟩ := exists_blank_of_nullSuffix? hsuffix
        have hends : goesOn b = false := goesOn_of_opensRun (by
          rw [CharClass.opensRun, hb, Bool.true_or, Bool.true_or])
        rw [takeWhile_append_cons hends, hshort]
      · exact absurd hsuffix.symm (Option.some_ne_none _)
    · exact hshort
  · split <;> exact hshort

/-- Behind `NOT`, blanks and what begins with no run: whether a `NULL` belongs to
    it. -/
theorem isSome_nullSuffix? {gap cs : List Char} (hne : gap ≠ [])
    (hgap : ∀ c ∈ gap, CharClass.isBlank c = true) (hcs : (blankRun .between cs).1 = []) :
    (nullSuffix? (gap ++ cs)).isSome = opensWithNull cs := by
  have hspan := span_append hgap (not_blank_of_head? hcs)
  simp only [nullSuffix?, hspan.1, hspan.2, List.isEmpty_eq_false_iff.2 hne, opensWithNull]
  cases decide ((cs.take 4).map Char.toUpper = "NULL".toList) && !continuesNull (cs.drop 4) <;> rfl

/-- Directly behind `NOT`, where no blank stands, no `NULL` belongs to it. -/
theorem nullSuffix?_of_not_blank {cs : List Char} (h : (blankRun .between cs).1 = []) :
    nullSuffix? cs = none := by
  have hnil : ∀ c ∈ ([] : List Char), CharClass.isBlank c = true :=
    fun _ hc => absurd hc List.not_mem_nil
  have hspan := span_append hnil (not_blank_of_head? h)
  rw [List.nil_append] at hspan
  simp only [nullSuffix?, hspan.1, List.isEmpty_nil, if_true]

end Lexeme

/-- Whether a token opens with `NULL` is seen from the text it opens. -/
theorem opensWithNull_lexeme {operandExpected : Bool} {cs : List Char}
    (hcs : (Lexeme.blankRun .between cs).1 = []) :
    Lexeme.opensWithNull (lexeme operandExpected cs).text = Lexeme.opensWithNull cs := by
  rw [Bool.eq_iff_iff, Lexeme.opensWithNull_iff, Lexeme.opensWithNull_iff]
  cases cs with
  | nil => exact Iff.rfl
  | cons c cs =>
      have hkind : (lexeme operandExpected (c :: cs)).kind ≠ .eof := fun heof =>
        List.cons_ne_nil c cs (lexeme_eof heof)
      obtain ⟨more, htext, -⟩ := Lexeme.exists_respaced_behind
        (lexeme_append operandExpected (c :: cs)) (lexeme_text_ne_nil hkind) (.refl _)
      by_cases hupper : c.toUpper = 'N'
      · -- The letter opens a word.
        have hword : Lexeme.isBareWord [c] = true := by
          rw [Lexeme.isBareWord, CharClass.isLetter_of_isUpper_toUpper (by rw [hupper]; decide)]
          rfl
        rw [show c :: cs = [c] ++ cs from rfl, Lexeme.lexeme_bareWord hword,
          Lexeme.takeWhile_word]
      · -- Neither text opens with `N`.
        have hfirst (ds : List Char) :
            ((c :: ds).takeWhile Lexeme.goesOn).map Char.toUpper ≠ "NULL".toList := by
          intro hnull
          rw [List.takeWhile_cons] at hnull
          split at hnull
          · exact hupper (List.cons.inj hnull).1
          · exact absurd hnull (by decide)
        rw [htext]
        exact ⟨fun h => absurd h (hfirst more), fun h => absurd h (hfirst cs)⟩

namespace Token

/-- The token as it is written where each blank is one space. -/
def respaced (t : Token) : List Char :=
  if t.isWhitespace then [' '] else t.text.toList

theorem respaced_of_blank {t : Token} (h : t.kind = .whitespace) : t.respaced = [' '] := by
  simp only [respaced, isWhitespace, h, decide_true, if_true]

theorem respaced_of_visible {t : Token} (h : t.kind ≠ .whitespace) :
    t.respaced = t.text.toList := by
  simp only [respaced, isWhitespace, h, decide_false, Bool.false_eq_true, if_false]

/-- The tokens that are no blanks, without their places. -/
def visibleOf (ts : List Token) : List Token :=
  (ts.filter fun t => !t.isWhitespace).map unplaced

/-- A blank that is more than a run of blank characters. -/
def holdsComment (t : Token) : Bool :=
  t.isWhitespace && t.text.toList.any fun c => !CharClass.isBlank c

/-- A word `NOT`, a comment, and a word that opens with `NULL`, one behind the
    other. -/
def SplitNotNull (ts : List Token) : Prop :=
  ∃ n u v, [n, u, v] <:+: ts ∧ n.keyword? = some .not ∧ u.holdsComment = true ∧
    Lexeme.opensWithNull v.text.toList = true

theorem visibleOf_cons (t : Token) (ts : List Token) :
    visibleOf (t :: ts) = if t.kind = .whitespace then visibleOf ts
      else t.unplaced :: visibleOf ts := by
  by_cases h : t.kind = .whitespace
  · simp only [visibleOf, isWhitespace, List.filter_cons, h, decide_true, Bool.not_true,
      Bool.false_eq_true, if_true, if_false]
  · simp only [visibleOf, isWhitespace, List.filter_cons, h, decide_false, Bool.not_false,
      if_true, if_false, List.map_cons]

theorem splitNotNull_cons {t : Token} {ts : List Token} :
    SplitNotNull (t :: ts) ↔
      (t.keyword? = some .not ∧ ∃ u v back, ts = u :: v :: back ∧ u.holdsComment = true ∧
        Lexeme.opensWithNull v.text.toList = true) ∨ SplitNotNull ts := by
  constructor
  · rintro ⟨n, u, v, hinfix, hn, hu, hv⟩
    rcases List.infix_cons_iff.1 hinfix with ⟨back, hback⟩ | hinfix
    · obtain ⟨rfl, rfl⟩ := List.cons.inj hback
      exact Or.inl ⟨hn, u, v, back, rfl, hu, hv⟩
    · exact Or.inr ⟨n, u, v, hinfix, hn, hu, hv⟩
  · rintro (⟨ht, u, v, back, rfl, hu, hv⟩ | ⟨n, u, v, hinfix, hn, hu, hv⟩)
    · exact ⟨t, u, v, ⟨[], back, rfl⟩, ht, hu, hv⟩
    · exact ⟨n, u, v, hinfix.trans (List.suffix_cons t ts).isInfix, hn, hu, hv⟩

end Token

/-- The text with one space in place of each of its blanks. -/
def respaced (sql : String) : String :=
  String.ofList ((tokenize sql).flatMap Token.respaced)

namespace Cursor

theorem respaced_tokens (c : Cursor) : Respaced c.rest (c.tokens.flatMap Token.respaced) := by
  fun_induction tokens c with
  | case1 c h =>
      rcases next_eof h with ⟨hrest, htoken, -, -⟩
      rw [hrest, htoken]
      exact .nil
  | case2 c h ih =>
      rw [List.flatMap_cons]
      by_cases hblank : c.next.1.kind = .whitespace
      · rw [Token.respaced_of_blank hblank]
        refine .space (lexeme_whitespace_iff.1 hblank) ?_
        rw [← lexeme_rest_of_whitespace hblank]
        exact ih
      · rw [Token.respaced_of_visible hblank, ← next_append c]
        exact ih.append _

theorem opensWithNull_next {c : Cursor} (h : (Lexeme.blankRun .between c.rest).1 = []) :
    Lexeme.opensWithNull c.next.1.text.toList = Lexeme.opensWithNull c.rest := by
  simp only [next, String.toList_ofList]
  exact opensWithNull_lexeme h

/-- Behind a `NOT`, whether a `NULL` comes to belong to it. -/
theorem nullSuffix?_respaced_iff {c : Cursor} (hnull : Lexeme.nullSuffix? c.rest = none) :
    Lexeme.nullSuffix? (c.tokens.flatMap Token.respaced) ≠ none ↔
      ∃ u v back, c.tokens = u :: v :: back ∧ u.holdsComment = true ∧
        Lexeme.opensWithNull v.text.toList = true := by
  by_cases hblank : c.next.1.kind = .whitespace
  · have heof : c.next.1.kind ≠ .eof := by
      rw [hblank]
      exact TokenKind.noConfusion
    have hrun := blankRun_of_visible (next_next_ne_whitespace hblank)
    obtain ⟨back, hback⟩ := List.head?_eq_some_iff.1 (head?_tokens c.next.2)
    have htokens : c.tokens = c.next.1 :: c.next.2.next.1 :: back := by
      rw [tokens, dif_neg heof, hback]
    have hword := opensWithNull_next hrun
    -- One space stands before the same word as the gap did.
    have hbehind := respaced_tokens c.next.2
    have hspace := Lexeme.isSome_nullSuffix? (List.cons_ne_nil ' ' [])
      (fun d hd => by rw [List.mem_singleton.1 hd]; decide) (hbehind.blankRun_eq_nil hrun)
    rw [Lexeme.opensWithNull_respaced hbehind, ← hword] at hspace
    -- The gap alone would not have kept the word apart.
    have hcomment : Lexeme.opensWithNull c.next.2.next.1.text.toList = true →
        c.next.1.holdsComment = true := by
      intro hopens
      by_contra hcomment
      rw [Token.holdsComment, Token.isWhitespace, decide_eq_true hblank, Bool.true_and,
        List.any_eq_true] at hcomment
      have hgap := @Lexeme.isSome_nullSuffix? c.next.1.text.toList _ ?_ ?_ hrun
      · rw [next_append, hnull, ← hword, hopens] at hgap
        exact Bool.false_ne_true hgap
      · simp only [next, String.toList_ofList]
        exact lexeme_text_ne_nil heof
      · intro d hd
        by_contra hd'
        exact hcomment ⟨d, hd, by rw [Bool.eq_false_iff.2 hd', Bool.not_false]⟩
    have hflat : c.tokens.flatMap Token.respaced =
        [' '] ++ c.next.2.tokens.flatMap Token.respaced := by
      rw [tokens, dif_neg heof, List.flatMap_cons, Token.respaced_of_blank hblank]
    rw [hflat, ← Option.isSome_iff_ne_none, hspace]
    constructor
    · exact fun hopens => ⟨_, _, back, htokens, hcomment hopens, hopens⟩
    · rintro ⟨u, v, rest, heq, -, hopens⟩
      rw [htokens] at heq
      rwa [(List.cons.inj (List.cons.inj heq).2).1]
  · -- With nothing in between there is no blank either.
    have hnone := Lexeme.nullSuffix?_of_not_blank
      ((respaced_tokens c).blankRun_eq_nil (blankRun_of_visible hblank))
    refine ⟨fun h => absurd hnone h, ?_⟩
    rintro ⟨u, v, back, htokens, hcomment, -⟩
    have hhead := head?_tokens c
    rw [htokens, List.head?_cons, Option.some.injEq] at hhead
    rw [Token.holdsComment, Bool.and_eq_true, hhead] at hcomment
    exact absurd (of_decide_eq_true hcomment.1) hblank

theorem visibleOf_of_blank {c : Cursor} (h : c.next.1.kind = .whitespace) :
    Token.visibleOf c.tokens = Token.visibleOf c.next.2.tokens := by
  have heof : c.next.1.kind ≠ .eof := by
    rw [h]
    exact TokenKind.noConfusion
  rw [tokens, dif_neg heof, Token.visibleOf_cons, if_pos h]

theorem exists_visibleOf {c : Cursor} (h : c.next.1.kind ≠ .whitespace) :
    ∃ ts, Token.visibleOf c.tokens = c.next.1.unplaced :: ts := by
  obtain ⟨back, hback⟩ := List.head?_eq_some_iff.1 (head?_tokens c)
  exact ⟨_, by rw [hback, Token.visibleOf_cons, if_neg h]⟩

section Step

variable {c c' : Cursor} (hexpected : c'.operandExpected = c.operandExpected)

include hexpected

/-- One space is read where a blank was. -/
theorem next_respaced_of_blank (h : c.next.1.kind = .whitespace)
    (hrest : c'.rest = c.next.1.respaced ++ c.next.2.tokens.flatMap Token.respaced) :
    c'.next.1.kind = .whitespace ∧ c'.next.2.rest = c.next.2.tokens.flatMap Token.respaced ∧
      c'.next.2.operandExpected = c.next.2.operandExpected := by
  have hrun := blankRun_of_visible (next_next_ne_whitespace h)
  rw [Token.respaced_of_blank h] at hrest
  have hreads : Token.space.Reads c'.operandExpected (c.next.2.tokens.flatMap Token.respaced) :=
    lexeme_space ((respaced_tokens c.next.2).blankRun_eq_nil hrun)
  rcases next_of_reads hrest hreads with ⟨hnext, hrest', hexpected'⟩
  have hread : c.next.2.operandExpected = expectsOperand c.operandExpected c.next.1.kind
      c.next.1.text := rfl
  refine ⟨(Token.mk.inj hnext).1, hrest', ?_⟩
  rw [hexpected', hread, h, hexpected]
  rfl

variable (h : c.next.1.kind ≠ .whitespace)
  (hrest : c'.rest = c.next.1.respaced ++ c.next.2.tokens.flatMap Token.respaced)

include h hrest

/-- Any other token is read again, unless a `NULL` comes to belong to a `NOT`. -/
theorem next_respaced_of_visible
    (hnull : c.next.1.kind = .keyword .not →
      Lexeme.nullSuffix? (c.next.2.tokens.flatMap Token.respaced) = none) :
    c'.next.1.unplaced = c.next.1.unplaced ∧
      c'.next.2.rest = c.next.2.tokens.flatMap Token.respaced ∧
        c'.next.2.operandExpected = c.next.2.operandExpected := by
  rw [Token.respaced_of_visible h] at hrest
  have hreads : c.next.1.Reads c'.operandExpected (c.next.2.tokens.flatMap Token.respaced) := by
    have hread := lexeme_respaced h (respaced_tokens c.next.2) hnull
    simp only [Token.Reads, next, String.toList_ofList, hexpected]
    exact hread
  rcases next_of_reads hrest hreads with ⟨hnext, hrest', hexpected'⟩
  refine ⟨hnext, hrest', ?_⟩
  rw [hexpected', hexpected]
  rfl

omit hexpected in
/-- With a `NULL` that comes to belong to it a `NOT` is not read again. -/
theorem next_respaced_ne (hnot : c.next.1.kind = .keyword .not)
    (hnull : Lexeme.nullSuffix? (c.next.2.tokens.flatMap Token.respaced) ≠ none) :
    c'.next.1.unplaced ≠ c.next.1.unplaced := by
  intro hsame
  rw [Token.respaced_of_visible h] at hrest
  have hkeyword : c'.next.1.keyword? = some .not := by
    rw [Token.keyword?, (Token.mk.inj hsame).1, hnot]
  rcases next_keyword hkeyword (by decide) with ⟨-, -, -, hsuffix⟩
  have happ := next_append c'
  rw [(Token.mk.inj hsame).2.1, hrest] at happ
  rw [List.append_cancel_left happ] at hsuffix
  exact hnull (hsuffix rfl)

end Step

/-- The same tokens are read with one space in place of each blank, unless a
    comment kept a `NULL` apart from a `NOT`. -/
theorem visibleOf_respaced {c c' : Cursor} (hrest : c'.rest = c.tokens.flatMap Token.respaced)
    (hexpected : c'.operandExpected = c.operandExpected) :
    Token.visibleOf c'.tokens = Token.visibleOf c.tokens ↔ ¬Token.SplitNotNull c.tokens := by
  fun_induction tokens c generalizing c' with
  | case1 c h =>
      rcases next_eof h with ⟨-, htoken, -, -⟩
      have hrest' : c'.rest = [] := by
        rw [hrest, htoken]
        rfl
      rw [tokens, next_nil hrest', htoken]
      refine iff_of_true rfl ?_
      rintro ⟨n, u, v, hinfix, -⟩
      exact absurd (show 3 ≤ 1 from hinfix.length_le) (by decide)
  | case2 c h ih =>
      rw [List.flatMap_cons] at hrest
      by_cases hblank : c.next.1.kind = .whitespace
      · rcases next_respaced_of_blank hexpected hblank hrest with ⟨hkind, hrest', hexpected'⟩
        have hfront : c.next.1.keyword? ≠ some .not := by
          intro hkeyword
          rw [Token.kind_of_keyword? hkeyword] at hblank
          exact TokenKind.noConfusion hblank
        rw [visibleOf_of_blank hkind, Token.visibleOf_cons, if_pos hblank, ih hrest' hexpected',
          Token.splitNotNull_cons, or_iff_right fun hsplit => hfront hsplit.1]
      · rw [Token.visibleOf_cons, if_neg hblank, Token.splitNotNull_cons]
        by_cases hnull : c.next.1.kind = .keyword .not →
            Lexeme.nullSuffix? (c.next.2.tokens.flatMap Token.respaced) = none
        · rcases next_respaced_of_visible hexpected hblank hrest hnull with
            ⟨hnext, hrest', hexpected'⟩
          have hkind : c'.next.1.kind = c.next.1.kind := (Token.mk.inj hnext).1
          have hfront : ¬(c.next.1.keyword? = some .not ∧ ∃ u v back,
              c.next.2.tokens = u :: v :: back ∧ u.holdsComment = true ∧
                Lexeme.opensWithNull v.text.toList = true) := by
            rintro ⟨hkeyword, hsplit⟩
            rcases next_keyword hkeyword (by decide) with ⟨-, -, -, hsuffix⟩
            exact (nullSuffix?_respaced_iff (hsuffix rfl)).2 hsplit
              (hnull (Token.kind_of_keyword? hkeyword))
          rw [tokens, dif_neg (hkind ▸ h), Token.visibleOf_cons, if_neg (hkind ▸ hblank), hnext,
            List.cons.injEq, ih hrest' hexpected', or_iff_right hfront]
          exact and_iff_right rfl
        · obtain ⟨hnot, hnull⟩ := Classical.not_imp.1 hnull
          have hkeyword : c.next.1.keyword? = some .not := by rw [Token.keyword?, hnot]
          rcases next_keyword hkeyword (by decide) with ⟨-, -, -, hsuffix⟩
          have hsplit := (nullSuffix?_respaced_iff (hsuffix rfl)).1 hnull
          refine iff_of_false ?_ (fun hno => hno (Or.inl ⟨hkeyword, hsplit⟩))
          intro hsame
          have hahead := (respaced_tokens c.next.2).append c.next.1.text.toList
          rw [next_append, ← Token.respaced_of_visible hblank, ← hrest] at hahead
          have hkind : c'.next.1.kind ≠ .whitespace := fun hkind =>
            lexeme_whitespace_iff.1 hkind (hahead.blankRun_eq_nil (blankRun_of_visible hblank))
          obtain ⟨ts, hts⟩ := exists_visibleOf hkind
          rw [hts] at hsame
          exact next_respaced_ne hblank hrest hnot hnull (List.cons.inj hsame).1

end Cursor

/-- A text with one space in place of each of its blanks is read as the same
    tokens, but for the blanks, exactly if no comment keeps a `NULL` apart from
    a `NOT`. -/
theorem visibleOf_tokenize_respaced (sql : String) :
    Token.visibleOf (tokenize (respaced sql)) = Token.visibleOf (tokenize sql) ↔
      ¬Token.SplitNotNull (tokenize sql) :=
  Cursor.visibleOf_respaced (by rw [Cursor.start, respaced, String.toList_ofList]; rfl) rfl

/-- A comment between the two words is no blank to the lexer. -/
theorem visibleOf_ne_of_comment :
    Token.visibleOf (tokenize (respaced "NOT /* c */ NULL")) ≠
      Token.visibleOf (tokenize "NOT /* c */ NULL") := by
  decide +kernel

end SqlGist
