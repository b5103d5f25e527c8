import SqlGist.Proofs.Token.Spelling
import SqlGist.Tree.Grouping

/-!
# The Words of a Statement

Each kind of word is read back in front of a separator: keywords, quoted names
with any text in the quotes, string literals, numbers, comparison operators and
type words. A bare name is read back in front of an opening parenthesis, where
even a type word is one.

The lexer looks at a few characters by themselves before it looks at classes of
characters. `special` lists them, and what opens with any other character is a
word, a number or an error.

## Main definitions

* `Lexeme.special`: The characters that are told apart by themselves.
* `Token.ofKeyword`, `Token.quotedName`, `Token.stringLiteral`: Tokens that
  stand for a keyword, a name and a string.
* `Token.inQuotes`, `Token.quote?`: A text in quotes, and the quote that a token
  is written in.

## Theorems

* `visible_of_not_special`: What opens with none of these.
* `word_ofKeyword`, `word_notNull`, `word_quotedName`, `word_stringLiteral`,
  `word_builtin`, `word_number`, `word_signed`, `word_operator`,
  `word_bareName`: Words of every kind.
* `value_quotedName`, `value_bareName`, `value_stringLiteral`: What they denote.
* `value_inQuotes`, `reads_inQuotes`: A text in quotes of any kind.
* `reads_callName`, `phrase_call`, `phrase_quotedCall`: A name in front of a
  parenthesis.
-/

namespace SqlGist

namespace CharClass

theorem inRanges_iff {ranges : List (Nat × Nat)} {n : Nat} :
    inRanges ranges n = true ↔ n ∈ ranges.flatMap fun r => List.range' r.1 (r.2 + 1 - r.1) := by
  simp only [inRanges, List.any_eq_true, Bool.and_eq_true, decide_eq_true_eq, List.mem_flatMap,
    List.mem_range'_1]
  constructor
  · rintro ⟨r, hr, hle⟩
    exact ⟨r, hr, by omega⟩
  · rintro ⟨r, hr, hle⟩
    exact ⟨r, hr, by omega⟩

theorem isWordChar_of_isLetter {c : Char} (h : isLetter c = true) : isWordChar c = true := by
  simp only [isWordChar, isAlphanumeric, h, Bool.true_or]

theorem isWordChar_of_isDigit {c : Char} (h : c.isDigit = true) : isWordChar c = true := by
  simp only [isWordChar, isAlphanumeric_of_isDigit h, Bool.true_or]

theorem isBlank_of_isWordChar {c : Char} (h : isWordChar c = true) : isBlank c = false := by
  rw [← Bool.not_eq_true]
  intro hblank
  -- There are few blanks, so they can be tried one by one.
  have hnone : ∀ n ∈ blankRanges.flatMap fun r => List.range' r.1 (r.2 + 1 - r.1),
      isWordChar (Char.ofNat n) = false := by decide +kernel
  have hc := hnone c.toNat (inRanges_iff.1 hblank)
  rw [Char.ofNat_toNat, h] at hc
  exact Bool.false_ne_true hc.symm

theorem isDigit_of_isLetter {c : Char} (h : isLetter c = true) : c.isDigit = false := by
  rw [← Bool.not_eq_true]
  intro hdigit
  have hnone : ∀ n ∈ List.range' 48 10, isLetter (Char.ofNat n) = false := by decide +kernel
  have hrange : c.toNat ∈ List.range' 48 10 := by
    simp only [Char.isDigit, Bool.and_eq_true, decide_eq_true_eq, ge_iff_le,
      UInt32.le_iff_toNat_le] at hdigit
    rw [List.mem_range'_1]
    exact ⟨hdigit.1, Nat.lt_succ_of_le hdigit.2⟩
  have hc := hnone c.toNat hrange
  rw [Char.ofNat_toNat, h] at hc
  exact Bool.false_ne_true hc.symm

theorem isLetter_of_isUpper_toUpper {c : Char} (h : c.toUpper.isUpper = true) :
    isLetter c = true := by
  refine isLetter_of_isAlpha (Bool.or_eq_true_iff.2 ?_)
  by_cases hlower : 'a'.val ≤ c.val ∧ c.val ≤ 'z'.val
  · exact Or.inr (Bool.and_eq_true_iff.2 ⟨decide_eq_true hlower.1, decide_eq_true hlower.2⟩)
  · -- What is no lower case letter is not changed.
    have hsame : c.toUpper = c := dif_neg hlower
    rw [hsame] at h
    exact Or.inl h

end CharClass

theorem Keyword.upperCase_of_ofWord? {word : String} {k : Keyword} (h : ofWord? word = some k)
    (hk : k ≠ .autoincrement) : upperCase word = k.spelling := by
  rw [ofWord?] at h
  split at h
  · exact absurd (Option.some.inj h).symm hk
  · have hfound := List.find?_some h
    rw [decide_eq_true_eq] at hfound
    exact hfound.symm

theorem ofWord?_of_isBuiltinType {word : String} (h : isBuiltinType word = true) :
    Keyword.ofWord? word = none := by
  have hnone : ∀ b ∈ builtinTypes, b ≠ "AUTO_INCREMENT" ∧
      ∀ k ∈ Keyword.singleWords, k.spelling ≠ b := by decide +kernel
  rw [isBuiltinType, List.contains_iff_mem] at h
  have hw := hnone _ h
  rw [Keyword.ofWord?, if_neg hw.1, List.find?_eq_none]
  intro k hk
  rw [decide_eq_true_eq]
  exact hw.2 k hk

theorem Separated.not_wordChar {rest : List Char} (h : Separated rest) :
    ∀ c, rest.head? = some c → CharClass.isWordChar c = false := by
  intro c hc
  rcases h c hc with rfl | rfl | rfl <;> decide

namespace Lexeme

/-- The characters that the lexer tells apart by themselves. -/
def special : List Char :=
  marks ++ ['*', '+', '-', '<', '>', '!', '|', '=', '/', '%', '\x27', '\x22', '\x60']

theorem special_of_operator? {cs : List Char} (h : (operator? cs).isSome = true) :
    ∃ c, cs.head? = some c ∧ c ∈ special := by
  revert h
  fun_cases operator? cs with
  | case13 => exact fun h => absurd h Bool.false_ne_true
  | _ => exact fun _ => ⟨_, rfl, by decide⟩

theorem operator?_of_not_special {c : Char} (h : c ∉ special) (cs : List Char) :
    operator? (c :: cs) = none := by
  rw [← Option.not_isSome_iff_eq_none]
  intro hsome
  rcases special_of_operator? hsome with ⟨d, hd, hmem⟩
  rw [List.head?_cons, Option.some.injEq] at hd
  exact h (hd ▸ hmem)

theorem visible_of_not_special {c : Char} (h : c ∉ special) (operandExpected : Bool)
    (cs : List Char) :
    visible operandExpected (c :: cs) =
      if c.isDigit then ⟨.number, (number (c :: cs)).1, (number (c :: cs)).2⟩
      else if CharClass.isLetter c || c = '_' then word (c :: cs)
      else ⟨.error (.unexpected c), [c], cs⟩ := by
  have hne : ∀ d ∈ special, c ≠ d := fun d hd hcd => h (hcd ▸ hd)
  have hmark : marks.contains c = false := by
    rw [← Bool.not_eq_true, List.contains_iff_mem]
    exact fun hc => h (List.mem_append_left _ hc)
  have hsign : (c = '+' || c = '-') = false := by
    rw [decide_eq_false (hne '+' (by decide)), decide_eq_false (hne '-' (by decide)),
      Bool.or_false]
  have hname : Quote.ofNameQuote? c = none := by
    rw [Quote.ofNameQuote?, if_neg (hne _ (by decide)), if_neg (hne _ (by decide))]
  simp only [visible, hmark, hne '*' (by decide), hsign, operator?_of_not_special h,
    hne Quote.apostrophe.char (by decide), hname, Bool.false_and, Option.isSome_none,
    Bool.false_eq_true, if_false]

/-- What does not open with a blank or a comment opens with a token. -/
theorem lexeme_eq_visible {c : Char} {cs : List Char} (hblank : CharClass.isBlank c = false)
    (hline : c = '-' → cs.head? ≠ some '-') (hblock : c = '/' → cs.head? ≠ some '*')
    (operandExpected : Bool) :
    lexeme operandExpected (c :: cs) = visible operandExpected (c :: cs) := by
  have hrun : blankRun .between (c :: cs) = ([], c :: cs) := by
    rw [blankRun.eq_4 c cs, if_neg (Bool.eq_false_iff.1 hblank)]
    · rintro ds hc rfl
      exact hline hc rfl
    · rintro ds hc rfl
      exact hblock hc rfl
  rw [lexeme, hrun]
  rfl

theorem lexeme_eq_visible_of_not_special {c : Char} (h : c ∉ special)
    (hblank : CharClass.isBlank c = false) (operandExpected : Bool) (cs : List Char) :
    lexeme operandExpected (c :: cs) = visible operandExpected (c :: cs) := by
  refine lexeme_eq_visible hblank ?_ ?_ operandExpected
  · rintro rfl
    exact absurd (by decide) h
  · rintro rfl
    exact absurd (by decide) h

/-- Whether the characters make up one bare word. -/
def isBareWord : List Char → Bool
  | [] => false
  | c :: cs => (CharClass.isLetter c || c = '_') && cs.all CharClass.isWordChar

theorem lexeme_bareWord {w : List Char} (h : isBareWord w = true) (operandExpected : Bool)
    (rest : List Char) : lexeme operandExpected (w ++ rest) = word (w ++ rest) := by
  cases w with
  | nil => exact absurd h Bool.false_ne_true
  | cons c cs =>
      rw [isBareWord, Bool.and_eq_true] at h
      -- No word opens with a special character.
      have hnone : (special.any fun d => CharClass.isLetter d || d = '_') = false := by decide
      have hspecial : c ∉ special := fun hc => List.any_eq_false.1 hnone c hc h.1
      have hclass : CharClass.isBlank c = false ∧ c.isDigit = false := by
        rcases Bool.or_eq_true_iff.1 h.1 with hc | hc
        · have hblank := CharClass.isBlank_of_isWordChar (CharClass.isWordChar_of_isLetter hc)
          exact ⟨hblank, CharClass.isDigit_of_isLetter hc⟩
        · rw [decide_eq_true_eq] at hc
          rw [hc]
          exact ⟨by decide, by decide⟩
      rw [List.cons_append, lexeme_eq_visible_of_not_special hspecial hclass.1,
        visible_of_not_special hspecial, if_neg (Bool.eq_false_iff.1 hclass.2), if_pos h.1]

theorem isBareWord_of_isBuiltinType {w : List Char}
    (h : isBuiltinType (String.ofList w) = true) : isBareWord w = true := by
  have hupper : ∀ b ∈ builtinTypes, b.toList ≠ [] ∧ b.toList.all Char.isUpper = true := by
    decide +kernel
  rw [isBuiltinType, List.contains_iff_mem] at h
  have hw := hupper _ h
  rw [upperCase, String.toList_ofList, String.toList_ofList, List.all_eq_true] at hw
  have hletter : ∀ c ∈ w, CharClass.isLetter c = true := fun c hc =>
    CharClass.isLetter_of_isUpper_toUpper (hw.2 _ (List.mem_map_of_mem hc))
  cases w with
  | nil => exact absurd rfl hw.1
  | cons c cs =>
      rw [isBareWord, hletter c List.mem_cons_self, Bool.true_or, Bool.true_and, List.all_eq_true]
      exact fun d hd => CharClass.isWordChar_of_isLetter (hletter d (List.mem_cons_of_mem _ hd))

theorem forall_isWordChar {w : List Char} (h : isBareWord w = true) :
    ∀ c ∈ w, CharClass.isWordChar c = true := by
  cases w with
  | nil => exact absurd h Bool.false_ne_true
  | cons c cs =>
      rw [isBareWord, Bool.and_eq_true, List.all_eq_true] at h
      intro d hd
      rcases List.mem_cons.1 hd with rfl | hd
      · exact isWordChar_of_opens h.1
      · exact h.2 d hd

/-- A run of characters that pass ends where one does not. -/
theorem span_append {p : Char → Bool} {as bs : List Char} (has : ∀ c ∈ as, p c = true)
    (hbs : ∀ c, bs.head? = some c → p c = false) :
    (as ++ bs).takeWhile p = as ∧ (as ++ bs).dropWhile p = bs := by
  rw [List.takeWhile_append_of_pos has, List.dropWhile_append_of_pos has]
  cases bs with
  | nil => exact ⟨List.append_nil as, rfl⟩
  | cons b bs =>
      have hb := hbs b rfl
      rw [List.takeWhile_cons_of_neg (Bool.eq_false_iff.1 hb),
        List.dropWhile_cons_of_neg (Bool.eq_false_iff.1 hb)]
      exact ⟨List.append_nil as, rfl⟩

section BareWord

variable {w rest : List Char} (h : isBareWord w = true)
  (hrest : ∀ c, rest.head? = some c → CharClass.isWordChar c = false)

include h hrest

theorem word_eq_keyword {k : Keyword} (hk : Keyword.ofWord? (String.ofList w) = some k)
    (hnot : k ≠ .not) : word (w ++ rest) = ⟨.keyword k, w, rest⟩ := by
  have hspan := span_append (forall_isWordChar h) hrest
  simp only [word, hspan.1, hspan.2, hk, if_neg hnot]

theorem word_eq_builtin (hk : Keyword.ofWord? (String.ofList w) = none)
    (htype : isBuiltinType (String.ofList w) = true) (hparen : rest.head? ≠ some '(') :
    word (w ++ rest) = ⟨.builtin, w, rest⟩ := by
  have hspan := span_append (forall_isWordChar h) hrest
  simp only [word, hspan.1, hspan.2, hk, htype, bne_iff_ne.2 hparen, Bool.and_true, if_true]

theorem word_eq_name (hk : Keyword.ofWord? (String.ofList w) = none)
    (htype : (isBuiltinType (String.ofList w) && rest.head? != some '(') = false) :
    word (w ++ rest) = ⟨.name, w, rest⟩ := by
  have hspan := span_append (forall_isWordChar h) hrest
  simp only [word, hspan.1, hspan.2, hk, htype, Bool.false_eq_true, if_false]

end BareWord

/-- Blanks and the word `NULL` behind them are taken for a part of `NOT NULL`. -/
theorem nullSuffix?_blanks {gap w rest : List Char} (hne : gap ≠ [])
    (hgap : ∀ c ∈ gap, CharClass.isBlank c = true)
    (hw : ∀ c ∈ w, CharClass.isWordChar c = true)
    (hnull : w.map Char.toUpper = "NULL".toList) (hrest : continuesNull rest = false) :
    nullSuffix? (gap ++ (w ++ rest)) = some (gap ++ w, rest) := by
  have hlen : w.length = 4 := by
    have hfour := congrArg List.length hnull
    rwa [List.length_map] at hfour
  have hhead : ∀ c, (w ++ rest).head? = some c → CharClass.isBlank c = false := by
    intro c hc
    cases w with
    | nil => exact absurd hlen (by decide)
    | cons d w =>
        rw [List.cons_append, List.head?_cons, Option.some.injEq] at hc
        exact CharClass.isBlank_of_isWordChar (hw c (hc ▸ List.mem_cons_self))
  have hspan := span_append hgap hhead
  have hfull : gap.isEmpty = false := List.isEmpty_eq_false_iff.2 hne
  simp only [nullSuffix?, hspan.1, hspan.2, hfull]
  rw [← hlen, List.take_left, List.drop_left, hnull, hrest]
  rfl

theorem startsWithDigit_append {ds : List Char} (hne : ds ≠ [])
    (hds : ∀ d ∈ ds, d.isDigit = true) (rest : List Char) :
    startsWithDigit (ds ++ rest) = true := by
  rcases List.exists_cons_of_ne_nil hne with ⟨d, tail, rfl⟩
  exact hds d List.mem_cons_self

/-- What opens with a digit opens with a number. -/
theorem lexeme_number {cs : List Char} (h : startsWithDigit cs = true) (operandExpected : Bool) :
    lexeme operandExpected cs = ⟨.number, (number cs).1, (number cs).2⟩ := by
  cases cs with
  | nil => exact absurd h Bool.false_ne_true
  | cons d cs =>
      have hd : d.isDigit = true := h
      have hspecial : d ∉ special := by
        have hnone : (special.any Char.isDigit) = false := by decide
        exact fun hmem => List.any_eq_false.1 hnone d hmem hd
      have hblank := CharClass.isBlank_of_isWordChar (CharClass.isWordChar_of_isDigit hd)
      rw [lexeme_eq_visible_of_not_special hspecial hblank, visible_of_not_special hspecial,
        if_pos hd]

/-- A sign in front of a digit opens a number where an operand is expected. -/
theorem lexeme_signed {sign : Char} (hsign : sign = '+' ∨ sign = '-') {cs : List Char}
    (h : startsWithDigit cs = true) :
    lexeme true (sign :: cs) = ⟨.number, sign :: (number cs).1, (number cs).2⟩ := by
  have hvisible : visible true (sign :: cs) = ⟨.number, sign :: (number cs).1, (number cs).2⟩ := by
    rcases hsign with rfl | rfl <;>
      rw [visible, if_neg (by decide), if_neg (by decide), h, if_pos (by decide)]
  rw [lexeme_eq_visible, hvisible]
  · rcases hsign with rfl | rfl <;> decide
  · -- Behind the sign stands a digit, so no comment opens.
    intro _ hminus
    rw [startsWithDigit, hminus] at h
    exact absurd h (by decide)
  · rintro rfl
    exact absurd hsign (by decide)

/-- A run of digits in front of a separator is a number. -/
theorem number_digits {ds rest : List Char} (h : ∀ d ∈ ds, d.isDigit = true)
    (hrest : Separated rest) : number (ds ++ rest) = (ds, rest) := by
  have hspan := span_append h fun c hc => by
    rcases hrest c hc with rfl | rfl | rfl <;> decide
  -- Neither a point nor an exponent separates.
  have hfraction : fraction rest = ([], rest) := by
    cases rest with
    | nil => rfl
    | cons c cs =>
        rw [fraction, if_neg]
        rintro ⟨rfl, -⟩
        exact absurd (hrest '.' rfl) (by decide)
  have hexponent : exponent rest = ([], rest) := by
    fun_cases exponent rest with
    | case3 c d cs hc hd =>
        rcases hc with rfl | rfl <;> exact absurd (hrest _ rfl) (by decide)
    | case4 c d cs hc hd hdigit =>
        rcases hc with rfl | rfl <;> exact absurd (hrest _ rfl) (by decide)
    | _ => rfl
  rw [number, digits, hspan.1, hspan.2, hfraction, hexponent]
  simp only [List.append_nil]

end Lexeme

/-- The kind of a token in these quotes. -/
def Quote.kind : Quote → TokenKind
  | .apostrophe => .string
  | .double => .name
  | .grave => .name

namespace Token

/-- A keyword as it is spelled. -/
def ofKeyword (k : Keyword) : Token :=
  bare (.keyword k) k.spelling

/-- A name in double quotes. -/
def quotedName (name : String) : Token :=
  bare .name (String.ofList (Text.enclose Quote.double.char name.toList))

/-- A string literal. -/
def stringLiteral (value : String) : Token :=
  bare .string (String.ofList (Text.enclose Quote.apostrophe.char value.toList))

/-- A bare word opens with no quote. -/
theorem nameQuote?_of_isWordChar {t : Token}
    (h : ∀ c ∈ t.text.toList, CharClass.isWordChar c = true) : t.nameQuote? = none := by
  rw [nameQuote?]
  cases hchars : t.text.toList with
  | nil => rfl
  | cons c cs =>
      rw [hchars] at h
      have hc := h c List.mem_cons_self
      have hne (q : Quote) : c ≠ q.char := by
        rintro rfl
        exact absurd hc (by cases q <;> decide)
      rw [List.head?_cons, Option.bind_some, Quote.ofNameQuote?, if_neg (hne _), if_neg (hne _)]

theorem value_bareName {word : String} (hbare : Lexeme.isBareWord word.toList = true) :
    (bare .name word).value = word := by
  have hquote : (bare .name word).nameQuote? = none :=
    nameQuote?_of_isWordChar (Lexeme.forall_isWordChar hbare)
  rw [value, hquote]
  rfl

/-- A text in quotes. -/
def inQuotes (q : Quote) (value : String) : Token :=
  bare q.kind (String.ofList (Text.enclose q.char value.toList))

/-- The quote that a string or a quoted name is written in. -/
def quote? (t : Token) : Option Quote :=
  match t.kind with
  | .string => some .apostrophe
  | .name => t.nameQuote?
  | _ => none

theorem value_of_quote? {t : Token} {q : Quote} (h : t.quote? = some q) :
    t.value = String.ofList (Text.unquote q.char t.text.toList) := by
  rw [value]
  cases hkind : t.kind with
  | string =>
      rw [quote?, hkind] at h
      rw [← Option.some.inj h]
  | name =>
      rw [quote?, hkind] at h
      simp only [h]
  | _ =>
      rw [quote?, hkind] at h
      exact absurd h.symm (Option.some_ne_none q)

theorem quote?_inQuotes (q : Quote) (value : String) : (inQuotes q value).quote? = some q := by
  -- A string tells its quote by its kind, and a name by its first character.
  have hname : (inQuotes q value).nameQuote? = Quote.ofNameQuote? q.char := by
    simp only [nameQuote?, inQuotes, bare, String.toList_ofList, Text.enclose, List.head?_cons,
      Option.bind_some]
  cases q with
  | apostrophe => rfl
  | double => exact hname
  | grave => exact hname

theorem value_inQuotes (q : Quote) (value : String) : (inQuotes q value).value = value := by
  rw [value_of_quote? (quote?_inQuotes q value), inQuotes, bare, String.toList_ofList,
    Text.unquote_enclose, String.ofList_toList]

theorem value_quotedName (name : String) : (quotedName name).value = name :=
  value_inQuotes .double name

theorem value_stringLiteral (value : String) : (stringLiteral value).value = value :=
  value_inQuotes .apostrophe value

/-- A quoted text ends where no other quote follows. -/
theorem quoted_enclose (kind : TokenKind) (cause : LexicalError) (q : Char) (cs rest : List Char)
    (h : rest.head? ≠ some q) :
    Lexeme.quoted kind cause q (Text.double q cs ++ q :: rest) =
      ⟨kind, Text.enclose q cs, rest⟩ := by
  rw [Lexeme.quoted, Text.closeQuote?_double q cs rest h]
  rfl

/-- A text in quotes is read back where no other quote follows. -/
theorem reads_inQuotes (operandExpected : Bool) (q : Quote) (value : String) {rest : List Char}
    (h : rest.head? ≠ some q.char) : (inQuotes q value).Reads operandExpected rest := by
  -- No quote is a blank, and none opens a comment.
  have hvisible (cs : List Char) :
      lexeme operandExpected (q.char :: cs) = Lexeme.visible operandExpected (q.char :: cs) := by
    refine Lexeme.lexeme_eq_visible ?_ (fun hc => absurd hc ?_) (fun hc => absurd hc ?_) _
    · cases q <;> decide
    · cases q <;> decide
    · cases q <;> decide
  rw [Reads, show (inQuotes q value).text.toList =
      q.char :: (Text.double q.char value.toList ++ [q.char]) from String.toList_ofList,
    List.cons_append, List.append_assoc, List.singleton_append, hvisible]
  cases q with
  | apostrophe => exact quoted_enclose .string .unterminatedString _ value.toList rest h
  | double => exact quoted_enclose .name .unterminatedName _ value.toList rest h
  | grave => exact quoted_enclose .name .unterminatedName _ value.toList rest h

/-- A quoted name is read back where no other quote follows. -/
theorem reads_quotedName (operandExpected : Bool) (name : String) {rest : List Char}
    (h : rest.head? ≠ some Quote.double.char) :
    (quotedName name).Reads operandExpected rest :=
  reads_inQuotes operandExpected .double name h

theorem word_quotedName (operandExpected : Bool) (name : String) :
    Word operandExpected (quotedName name) where
  kind := TokenKind.noConfusion
  reads rest hrest := by
    refine reads_quotedName operandExpected name fun hc => ?_
    exact absurd (hrest _ hc) (by decide)

/-- A quoted name with a parenthesis right behind it. -/
theorem phrase_quotedCall (name : String) {ts : List Token} (h : Phrase (mark "(" :: ts)) :
    Phrase (quotedName name :: mark "(" :: ts) where
  opens := ⟨quotedName name, mark "(" :: ts, rfl, TokenKind.noConfusion⟩
  spelled operandExpected rest hrest :=
    ⟨reads_quotedName operandExpected name fun hc => absurd (Option.some.inj hc) (by decide),
      h.spelled _ rest hrest⟩

theorem word_stringLiteral (operandExpected : Bool) (value : String) :
    Word operandExpected (stringLiteral value) where
  kind := TokenKind.noConfusion
  reads rest hrest := by
    refine reads_inQuotes operandExpected .apostrophe value fun hc => ?_
    exact absurd (hrest _ hc) (by decide)

theorem word_ofKeyword (operandExpected : Bool) {k : Keyword} (hnot : k ≠ .not)
    (hnull : k ≠ .notNull) : Word operandExpected (ofKeyword k) where
  kind := TokenKind.noConfusion
  reads rest hrest := by
    have hbare : Lexeme.isBareWord k.spelling.toList = true := by
      cases k <;> first | exact absurd rfl hnull | decide +kernel
    have hk : Keyword.ofWord? (String.ofList k.spelling.toList) = some k := by
      rw [String.ofList_toList]
      exact Keyword.ofWord?_spelling hnull
    rw [Reads, ofKeyword, bare, Lexeme.lexeme_bareWord hbare,
      Lexeme.word_eq_keyword hbare hrest.not_wordChar hk hnot]

/-- `NOT NULL` is read as one keyword, blank included. -/
theorem word_notNull (operandExpected : Bool) : Word operandExpected (ofKeyword .notNull) where
  kind := TokenKind.noConfusion
  reads rest hrest := by
    -- A separator does not go on the second word.
    have hcontinues : Lexeme.continuesNull rest = false := by
      cases rest with
      | nil => rfl
      | cons c cs =>
          have hc := hrest c rfl
          rw [Lexeme.continuesNull, List.head?_cons, Option.any_some]
          rcases hc with rfl | rfl | rfl <;> decide
    have hsuffix : Lexeme.nullSuffix? (" NULL".toList ++ rest) = some (" NULL".toList, rest) :=
      @Lexeme.nullSuffix?_blanks [' '] "NULL".toList rest (List.cons_ne_nil _ _)
        (List.all_eq_true.1 (by decide)) (List.all_eq_true.1 (by decide)) (by decide) hcontinues
    -- The first word ends at the blank, and is `NOT`, so the second is looked for.
    have hword : ∀ c ∈ "NOT".toList, CharClass.isWordChar c = true :=
      List.all_eq_true.1 (by decide)
    have hspan := Lexeme.span_append hword fun c
        (hc : (" NULL".toList ++ rest).head? = some c) => by
      rw [show " NULL".toList = [' ', 'N', 'U', 'L', 'L'] from rfl, List.cons_append,
        List.head?_cons, Option.some.injEq] at hc
      rw [← hc]
      decide
    have hnot : Keyword.ofWord? (String.ofList "NOT".toList) = some .not := rfl
    rw [Reads, show (ofKeyword .notNull).text.toList ++ rest =
        "NOT".toList ++ (" NULL".toList ++ rest) from rfl, Lexeme.lexeme_bareWord (by decide)]
    simp only [Lexeme.word, hspan.1, hspan.2, hnot, if_true, hsuffix]
    rfl

theorem word_number (operandExpected : Bool) {ds : List Char} (hne : ds ≠ [])
    (hds : ∀ d ∈ ds, d.isDigit = true) :
    Word operandExpected (bare .number (String.ofList ds)) where
  kind := TokenKind.noConfusion
  reads rest hrest := by
    have hstarts := Lexeme.startsWithDigit_append hne hds rest
    rw [Reads, bare, String.toList_ofList, Lexeme.lexeme_number hstarts,
      Lexeme.number_digits hds hrest]

/-- A number with a sign is one where an operand is expected. -/
theorem word_signed {sign : Char} (hsign : sign = '+' ∨ sign = '-') {ds : List Char}
    (hne : ds ≠ []) (hds : ∀ d ∈ ds, d.isDigit = true) :
    Word true (bare .number (String.ofList (sign :: ds))) where
  kind := TokenKind.noConfusion
  reads rest hrest := by
    have hstarts := Lexeme.startsWithDigit_append hne hds rest
    rw [Reads, bare, String.toList_ofList, List.cons_append, Lexeme.lexeme_signed hsign hstarts,
      Lexeme.number_digits hds hrest]

/-- What follows an operator in a separated text does not prolong it. -/
theorem word_operator (operandExpected : Bool) {text : String}
    (h : text ∈ Node.comparisonOperators) : Word operandExpected (bare .operator text) where
  kind := TokenKind.noConfusion
  reads rest hrest := by
    have hrest' : rest = [] ∨ ∃ c cs, rest = c :: cs ∧ (c = ' ' ∨ c = ',' ∨ c = ')') := by
      cases rest with
      | nil => exact Or.inl rfl
      | cons c cs => exact Or.inr ⟨c, cs, rfl, hrest c rfl⟩
    simp only [Node.comparisonOperators, List.mem_cons, List.not_mem_nil, or_false] at h
    rcases h with rfl | rfl | rfl | rfl | rfl | rfl | rfl <;>
      rcases hrest' with rfl | ⟨c, cs, rfl, rfl | rfl | rfl⟩ <;> rfl

theorem word_wildcard (operandExpected : Bool) :
    Word operandExpected (bare .wildcard "*") where
  kind := TokenKind.noConfusion
  reads _ _ := rfl

theorem word_builtin (operandExpected : Bool) {word : String} (h : isBuiltinType word = true) :
    Word operandExpected (bare .builtin word) where
  kind := TokenKind.noConfusion
  reads rest hrest := by
    have htype : isBuiltinType (String.ofList word.toList) = true := by rwa [String.ofList_toList]
    have hbare := Lexeme.isBareWord_of_isBuiltinType htype
    have hparen : rest.head? ≠ some '(' := by
      intro hc
      exact absurd (hrest _ hc) (by decide)
    rw [Reads, bare, Lexeme.lexeme_bareWord hbare,
      Lexeme.word_eq_builtin hbare hrest.not_wordChar (ofWord?_of_isBuiltinType htype) htype hparen]

section BareName

variable (operandExpected : Bool) {word : String}
  (hbare : Lexeme.isBareWord word.toList = true) (hk : Keyword.ofWord? word = none)

include hbare hk

/-- A word that is neither a keyword nor a type is a name. -/
theorem word_bareName (htype : isBuiltinType word = false) :
    Word operandExpected (bare .name word) where
  kind := TokenKind.noConfusion
  reads rest hrest := by
    rw [Reads, bare, Lexeme.lexeme_bareWord hbare, Lexeme.word_eq_name hbare hrest.not_wordChar]
    · rwa [String.ofList_toList]
    · rw [String.ofList_toList, htype, Bool.false_and]

/-- A word that is no keyword is a name in front of a parenthesis, even if it
    is a type. -/
theorem reads_callName (rest : List Char) :
    (bare .name word).Reads operandExpected ('(' :: rest) := by
  have hparen : ∀ c, ('(' :: rest).head? = some c → CharClass.isWordChar c = false := by
    intro c hc
    rw [List.head?_cons, Option.some.injEq] at hc
    rw [← hc]
    decide
  rw [Reads, bare, Lexeme.lexeme_bareWord hbare, Lexeme.word_eq_name hbare hparen]
  · rwa [String.ofList_toList]
  · rw [List.head?_cons, bne_self_eq_false, Bool.and_false]

/-- A name with a parenthesis right behind it. -/
theorem phrase_call {ts : List Token} (h : Phrase (mark "(" :: ts)) :
    Phrase (bare .name word :: mark "(" :: ts) where
  opens := ⟨bare .name word, mark "(" :: ts, rfl, TokenKind.noConfusion⟩
  spelled operandExpected rest hrest :=
    ⟨reads_callName operandExpected hbare hk _, h.spelled _ rest hrest⟩

end BareName

end Token

end SqlGist
