import SqlGist.Proofs.Token.Partition

/-!
# Spelling Tokens Out

The way from tokens to a text. Tokens are spelled by writing their texts one
behind the other, and they are read back if each of them ends where it should.
That hangs on what is written behind it: `a` in front of `b` is one word, and a
quoted name in front of a quote does not end at all.

What a statement needs is said once, for a stretch that opens with a separator
and is read back in front of any other. Such a `Chunk` may be put behind such a
chunk without a look at what either holds, so a whole rendering is a chunk
because its parts are.

What is due next, an operand or not, is carried along. Only a sign in front of
a number asks for it, and a chunk is read back either way.

## Main definitions

* `Token.bare`: A token without a place.
* `Token.spell`: The text of a list of tokens.
* `Token.Reads`: A token is read back in front of a rest.
* `Token.Spelled`: So are all tokens of a list.
* `Separated`: A rest that no word goes on into.
* `Token.Word`: A token that is read back in front of any such rest.
* `Token.Chunk`: A list of tokens that opens with a separator and is read back
  in front of another.
* `Token.Phrase`: The same of a list that opens with no blank.
* `Token.Argument`: The same where an operand is expected.

## Theorems

* `spelled_append`: A list is read back exactly when both its parts are.
* `tokenize_spell`: The tokens of a spelled list are those of the list.
* `chunk_append`, `chunk_spaced`, `chunk_operand`, `chunk_mark`: How chunks are
  made.
* `phrase_cons`, `phrase_parens`, `chunk_comma`: Phrases, and chunks of them.
-/

namespace SqlGist

/-- The rest of a text that does not go on a word: it is empty or opens with a
    space, a comma or a closing parenthesis. -/
def Separated (cs : List Char) : Prop :=
  ∀ c, cs.head? = some c → c = ' ' ∨ c = ',' ∨ c = ')'

theorem separated_nil : Separated [] := by
  intro c hc
  simp only [List.head?_nil, reduceCtorEq] at hc

theorem separated_cons {c : Char} (h : c = ' ' ∨ c = ',' ∨ c = ')') (cs : List Char) :
    Separated (c :: cs) := by
  intro d hd
  rw [List.head?_cons, Option.some.injEq] at hd
  rw [← hd]
  exact h

/-- A space is a token of its own where no other blank follows. -/
theorem lexeme_space {operandExpected : Bool} {cs : List Char}
    (h : (Lexeme.blankRun .between cs).1 = []) :
    lexeme operandExpected (' ' :: cs) = ⟨.whitespace, [' '], cs⟩ := by
  have happ := Lexeme.blankRun_append .between cs
  rw [h, List.nil_append] at happ
  have hline : ∀ ds, ' ' = '-' → cs = '-' :: ds → False :=
    fun _ hminus => absurd hminus (by decide)
  have hblock : ∀ ds, ' ' = '/' → cs = '*' :: ds → False :=
    fun _ hslash => absurd hslash (by decide)
  have hspace : Lexeme.blankRun .between (' ' :: cs) = ([' '], cs) := by
    rw [Lexeme.blankRun.eq_4 ' ' _ hline hblock, if_pos (by decide), Lexeme.carry, h, happ]
    rfl
  rw [lexeme, hspace]
  rfl

namespace Token

/-- A token of which only the kind and the text are known. -/
def bare (kind : TokenKind) (text : String) : Token :=
  ⟨kind, text, ⟨0, 0⟩⟩

/-- One space. -/
def space : Token :=
  bare .whitespace " "

/-- A punctuation mark. -/
def mark (text : String) : Token :=
  bare .punctuation text

/-- The text of a list of tokens. -/
def spell (ts : List Token) : String :=
  String.ofList (textsOf ts)

theorem spell_append (as bs : List Token) : spell (as ++ bs) = spell as ++ spell bs := by
  rw [spell, textsOf_append, String.ofList_append, spell, spell]

theorem spell_singleton (t : Token) : spell [t] = t.text := by
  rw [spell, textsOf_cons, show textsOf [] = [] from rfl, List.append_nil, String.ofList_toList]

/-- The token is read off the front of its own text and `rest`, and leaves
    `rest`. -/
def Reads (operandExpected : Bool) (t : Token) (rest : List Char) : Prop :=
  lexeme operandExpected (t.text.toList ++ rest) = ⟨t.kind, t.text.toList, rest⟩

/-- Whether an operand is expected behind a list of tokens. -/
def expectsBehind (operandExpected : Bool) (ts : List Token) : Bool :=
  ts.foldl (fun before t => Cursor.expectsOperand before t.kind t.text) operandExpected

/-- Every token of the list is read back in front of those behind it and
    `rest`. -/
def Spelled (operandExpected : Bool) : List Token → List Char → Prop
  | [], _ => True
  | t :: ts, rest =>
    Reads operandExpected t (textsOf ts ++ rest) ∧
      Spelled (Cursor.expectsOperand operandExpected t.kind t.text) ts rest

theorem spelled_append {operandExpected : Bool} {as bs : List Token} {rest : List Char} :
    Spelled operandExpected (as ++ bs) rest ↔
      Spelled operandExpected as (textsOf bs ++ rest) ∧
        Spelled (expectsBehind operandExpected as) bs rest := by
  induction as generalizing operandExpected with
  | nil =>
      simp only [List.nil_append, Spelled, true_and]
      exact Iff.rfl
  | cons a as ih =>
      rw [List.cons_append, Spelled, Spelled, ih, textsOf_append, List.append_assoc, and_assoc]
      exact Iff.rfl

end Token

namespace Cursor

theorem next_of_reads {c : Cursor} {t : Token} {rest : List Char}
    (hrest : c.rest = t.text.toList ++ rest) (h : t.Reads c.operandExpected rest) :
    c.next.1.unplaced = t.unplaced ∧ c.next.2.rest = rest ∧
      c.next.2.operandExpected = expectsOperand c.operandExpected t.kind t.text := by
  have hfound : lexeme c.operandExpected c.rest = ⟨t.kind, t.text.toList, rest⟩ := by
    rw [hrest]
    exact h
  simp only [next, hfound, Token.unplaced, String.ofList_toList, and_self]

theorem tokens_of_spelled {c : Cursor} {ts : List Token} (hrest : c.rest = Token.textsOf ts)
    (h : Token.Spelled c.operandExpected ts []) (heof : ∀ t ∈ ts, t.kind ≠ .eof) :
    c.tokens.map Token.unplaced = ts.map Token.unplaced ++ [Token.ending 0] := by
  induction ts generalizing c with
  | nil =>
      rw [tokens, next_nil hrest]
      rfl
  | cons t ts ih =>
      rw [Token.textsOf_cons] at hrest
      have hreads := h.1
      rw [List.append_nil] at hreads
      rcases next_of_reads hrest hreads with ⟨hnext, hbehind, hexpects⟩
      -- The token that is read is no end, so reading goes on behind it.
      have hkind : c.next.1.kind ≠ .eof := by
        have hsame : c.next.1.kind = t.kind := by
          simpa only [Token.unplaced, Token.mk.injEq] using congrArg Token.kind hnext
        rw [hsame]
        exact heof t List.mem_cons_self
      have hrec := ih hbehind (by rw [hexpects]; exact h.2)
        fun u hu => heof u (List.mem_cons_of_mem _ hu)
      rw [tokens, dif_neg hkind, List.map_cons, hrec, hnext]
      rfl

end Cursor

/-- The tokens of a spelled list are those of the list, places aside. -/
theorem tokenize_spell {ts : List Token} (h : Token.Spelled true ts [])
    (heof : ∀ t ∈ ts, t.kind ≠ .eof) :
    (tokenize (Token.spell ts)).map Token.unplaced =
      ts.map Token.unplaced ++ [Token.ending 0] := by
  refine Cursor.tokens_of_spelled ?_ h heof
  rw [Cursor.start, Token.spell, String.toList_ofList]

namespace Token

/-- The token is no blank, and is read back in front of whatever does not go on
    a word. -/
structure Word (operandExpected : Bool) (t : Token) : Prop where
  kind : t.kind ≠ .whitespace
  reads : ∀ rest, Separated rest → t.Reads operandExpected rest

/-- The tokens open with a separator, if there are any, and are read back in
    front of another. -/
structure Chunk (ts : List Token) : Prop where
  separated : ∀ rest, Separated rest → Separated (textsOf ts ++ rest)
  spelled : ∀ operandExpected rest, Separated rest → Spelled operandExpected ts rest

theorem chunk_nil : Chunk [] where
  separated _ hrest := hrest
  spelled _ _ _ := trivial

theorem chunk_append {as bs : List Token} (has : Chunk as) (hbs : Chunk bs) : Chunk (as ++ bs) where
  separated rest hrest := by
    rw [textsOf_append, List.append_assoc]
    exact has.separated _ (hbs.separated rest hrest)
  spelled operandExpected rest hrest :=
    spelled_append.2 ⟨has.spelled _ _ (hbs.separated rest hrest), hbs.spelled _ _ hrest⟩

theorem chunk_flatMap {α : Type} {as : List α} {f : α → List Token} (h : ∀ a ∈ as, Chunk (f a)) :
    Chunk (as.flatMap f) := by
  induction as with
  | nil => exact chunk_nil
  | cons a as ih =>
      rw [List.flatMap_cons]
      exact chunk_append (h a List.mem_cons_self) (ih fun b hb => h b (List.mem_cons_of_mem _ hb))

/-- A space ends where a token is read that is none. -/
theorem reads_space {operandExpected before : Bool} {t : Token} {rest : List Char}
    (hkind : t.kind ≠ .whitespace) (h : t.Reads before rest) :
    space.Reads operandExpected (t.text.toList ++ rest) := by
  refine lexeme_space ?_
  -- If a blank came next, a blank would be read, and not the token.
  by_contra hne
  refine hkind ?_
  have hfound : (lexeme before (t.text.toList ++ rest)).kind = .whitespace :=
    lexeme_whitespace_iff.2 hne
  rwa [h] at hfound

/-- A space and a list whose first token is read back are read back together. -/
theorem spelled_space {operandExpected : Bool} {t : Token} {ts : List Token} {rest : List Char}
    (hkind : t.kind ≠ .whitespace) (h : Spelled operandExpected (t :: ts) rest) :
    Spelled operandExpected (space :: t :: ts) rest := by
  refine ⟨?_, h⟩
  rw [textsOf_cons, List.append_assoc]
  exact reads_space hkind h.1

theorem separated_space (ts : List Token) (rest : List Char) :
    Separated (textsOf (space :: ts) ++ rest) :=
  separated_cons (Or.inl rfl) _

/-- A space and a word make a chunk. -/
theorem chunk_spaced {t : Token} (h : ∀ operandExpected, Word operandExpected t) :
    Chunk [space, t] where
  separated rest _ := separated_space [t] rest
  spelled operandExpected rest hrest :=
    spelled_space (h operandExpected).kind ⟨(h operandExpected).reads rest hrest, trivial⟩

/-- A word that an operand is expected behind, and the operand. -/
theorem chunk_operand {t operand : Token} (ht : ∀ operandExpected, Word operandExpected t)
    (hexpects : ∀ before, Cursor.expectsOperand before t.kind t.text = true)
    (hoperand : Word true operand) : Chunk [space, t, space, operand] where
  separated rest _ := separated_space _ rest
  spelled operandExpected rest hrest := by
    have hbehind : Spelled true [space, operand] rest :=
      spelled_space hoperand.kind ⟨hoperand.reads rest hrest, trivial⟩
    rw [← hexpects operandExpected] at hbehind
    exact spelled_space (ht operandExpected).kind
      ⟨(ht operandExpected).reads _ (separated_space _ rest), hbehind⟩

/-- The marks that are read alone, whatever follows. -/
theorem reads_mark (operandExpected : Bool) {text : String} (h : text ∈ ["(", ")", ","])
    (rest : List Char) : (mark text).Reads operandExpected rest := by
  simp only [List.mem_cons, List.not_mem_nil, or_false] at h
  rcases h with rfl | rfl | rfl <;> rfl

/-- A comma and a closing parenthesis are separators themselves. -/
theorem chunk_mark {text : String} (h : text ∈ [")", ","]) : Chunk [mark text] where
  separated rest _ := by
    simp only [List.mem_cons, List.not_mem_nil, or_false] at h
    rcases h with rfl | rfl
    · exact separated_cons (Or.inr (Or.inr rfl)) rest
    · exact separated_cons (Or.inr (Or.inl rfl)) rest
  spelled operandExpected rest _ :=
    ⟨reads_mark operandExpected (List.mem_cons_of_mem _ h) rest, trivial⟩

/-- An opening parenthesis keeps apart what stands on either side of it. -/
theorem chunk_open {ts : List Token} (h : Chunk ts) : Chunk (space :: mark "(" :: ts) where
  separated rest _ := separated_space _ rest
  spelled operandExpected rest hrest :=
    spelled_space TokenKind.noConfusion
      ⟨reads_mark operandExpected List.mem_cons_self _, h.spelled _ rest hrest⟩

/-- The tokens open with one that is no blank, and are read back in front of a
    separator. -/
structure Phrase (ts : List Token) : Prop where
  opens : ∃ t us, ts = t :: us ∧ t.kind ≠ .whitespace
  spelled : ∀ operandExpected rest, Separated rest → Spelled operandExpected ts rest

theorem phrase_append {as bs : List Token} (has : Phrase as) (hbs : Chunk bs) :
    Phrase (as ++ bs) where
  opens := by
    rcases has.opens with ⟨t, us, rfl, ht⟩
    exact ⟨t, us ++ bs, List.cons_append, ht⟩
  spelled operandExpected rest hrest :=
    spelled_append.2 ⟨has.spelled _ _ (hbs.separated rest hrest), hbs.spelled _ _ hrest⟩

theorem phrase_cons {t : Token} {ts : List Token} (ht : ∀ operandExpected, Word operandExpected t)
    (hts : Chunk ts) : Phrase (t :: ts) where
  opens := ⟨t, ts, rfl, (ht true).kind⟩
  spelled operandExpected rest hrest :=
    ⟨(ht operandExpected).reads _ (hts.separated rest hrest), hts.spelled _ rest hrest⟩

theorem phrase_singleton {t : Token} (ht : ∀ operandExpected, Word operandExpected t) :
    Phrase [t] :=
  phrase_cons ht chunk_nil

/-- A phrase that may open with a sign, as it does where an operand is expected:
    behind a comma, and behind an opening parenthesis. -/
structure Argument (ts : List Token) : Prop where
  opens : ∃ t us, ts = t :: us ∧ t.kind ≠ .whitespace
  spelled : ∀ rest, Separated rest → Spelled true ts rest

theorem Phrase.argument {ts : List Token} (h : Phrase ts) : Argument ts :=
  ⟨h.opens, h.spelled true⟩

theorem argument_singleton {t : Token} (h : Word true t) : Argument [t] :=
  ⟨⟨t, [], rfl, h.kind⟩, fun rest hrest => ⟨h.reads rest hrest, trivial⟩⟩

theorem argument_append {as bs : List Token} (has : Argument as) (hbs : Chunk bs) :
    Argument (as ++ bs) where
  opens := by
    rcases has.opens with ⟨t, us, rfl, ht⟩
    exact ⟨t, us ++ bs, List.cons_append, ht⟩
  spelled rest hrest :=
    spelled_append.2 ⟨has.spelled _ (hbs.separated rest hrest), hbs.spelled _ _ hrest⟩

/-- Parentheses need nothing on either side to be read. -/
theorem phrase_parens {ts : List Token}
    (h : ∀ rest, Separated rest → Spelled true ts rest) :
    Phrase (mark "(" :: (ts ++ [mark ")"])) where
  opens := ⟨mark "(", ts ++ [mark ")"], rfl, TokenKind.noConfusion⟩
  spelled operandExpected rest _ := by
    have hclose : Separated (textsOf [mark ")"] ++ rest) :=
      separated_cons (Or.inr (Or.inr rfl)) rest
    have hend : ∀ before, Spelled before [mark ")"] rest := fun before =>
      ⟨reads_mark before (by decide) rest, trivial⟩
    exact ⟨reads_mark operandExpected List.mem_cons_self _,
      spelled_append.2 ⟨h _ hclose, hend _⟩⟩

theorem chunk_space {ts : List Token} (h : Phrase ts) : Chunk (space :: ts) where
  separated rest _ := separated_space ts rest
  spelled operandExpected rest hrest := by
    rcases h.opens with ⟨t, us, rfl, ht⟩
    exact spelled_space ht (h.spelled operandExpected rest hrest)

/-- A comma and a space come in front of an argument. -/
theorem chunk_comma {ts : List Token} (h : Argument ts) : Chunk (mark "," :: space :: ts) where
  separated rest _ := separated_cons (Or.inr (Or.inl rfl)) _
  spelled operandExpected rest hrest := by
    rcases h.opens with ⟨t, us, rfl, ht⟩
    exact ⟨reads_mark operandExpected (List.mem_cons_of_mem _ (List.mem_cons_of_mem _
      List.mem_cons_self)) _, spelled_space ht (h.spelled rest hrest)⟩

end Token

end SqlGist
