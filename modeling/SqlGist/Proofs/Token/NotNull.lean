import Mathlib.Data.List.TakeWhile
import SqlGist.Proofs.Token.Words

/-!
# Where `NOT NULL` Is One Keyword

`NOT` and `NULL` are read as one keyword if nothing but blanks stands between
them. A comment does not count as blank there, although it is one everywhere
else: with a comment in between the two words are read as two keywords.

Taken backwards, two keywords `NOT` and `NULL` in this order have something
between them that is no blank. For the first word ends where it can go on no
more, and so does the second, so that if only blanks were left between the two
they would be all that is asked of one keyword.

## Theorems

* `word_keyword`, `lexeme_eq_word`: A keyword is the longest word at the front.
* `next_keyword`: What is ahead of a cursor at a keyword.
* `exists_not_blank_between`: What stands between `NOT` and `NULL`.
-/

namespace SqlGist

namespace Lexeme

/-- A keyword is read off a word. -/
theorem visible_eq_word {operandExpected : Bool} {cs : List Char} {k : Keyword}
    (h : (visible operandExpected cs).kind = .keyword k) :
    visible operandExpected cs = word cs := by
  revert h
  fun_cases visible operandExpected cs with
  | case6 =>
      exact fun h => absurd h (quoted_kind_ne _ _ TokenKind.noConfusion TokenKind.noConfusion)
  | case7 =>
      exact fun h => absurd h (quoted_kind_ne _ _ TokenKind.noConfusion TokenKind.noConfusion)
  | case9 => exact fun _ => rfl
  | _ => exact fun h => TokenKind.noConfusion h

/-- A keyword of one word is the longest word at the front, and `NOT` is one
    only if no `NULL` belongs to it. -/
theorem word_keyword {cs : List Char} {k : Keyword} (h : (word cs).kind = .keyword k)
    (hk : k ≠ .notNull) :
    word cs = ⟨.keyword k, cs.takeWhile CharClass.isWordChar, cs.dropWhile CharClass.isWordChar⟩ ∧
      Keyword.ofWord? (String.ofList (cs.takeWhile CharClass.isWordChar)) = some k ∧
        (k = .not → nullSuffix? (cs.dropWhile CharClass.isWordChar) = none) := by
  revert h
  simp only [word]
  split
  · rename_i k' hword
    split
    · exact fun h => absurd (TokenKind.keyword.inj h).symm hk
    · rename_i hsuffix
      intro h
      obtain rfl := TokenKind.keyword.inj h
      refine ⟨rfl, hword, fun hnot => ?_⟩
      rwa [if_pos hnot] at hsuffix
  · split <;> exact fun h => TokenKind.noConfusion h

/-- A word is as long as it can be. -/
theorem not_wordChar_of_dropWhile {cs rest : List Char} {c : Char}
    (h : cs.dropWhile CharClass.isWordChar = c :: rest) : CharClass.isWordChar c = false := by
  have hhead := List.head?_dropWhile_not CharClass.isWordChar cs
  simp only [h, List.head?_cons] at hhead
  exact hhead

theorem continuesNull_dropWhile (cs : List Char) :
    continuesNull (cs.dropWhile CharClass.isWordChar) = false := by
  cases hdrop : cs.dropWhile CharClass.isWordChar with
  | nil => rfl
  | cons c rest =>
      have hc := not_wordChar_of_dropWhile hdrop
      rw [CharClass.isWordChar, Bool.or_eq_false_iff] at hc
      exact hc.1

end Lexeme

theorem lexeme_eq_word {operandExpected : Bool} {cs : List Char} {k : Keyword}
    (h : (lexeme operandExpected cs).kind = .keyword k) :
    lexeme operandExpected cs = Lexeme.word cs := by
  by_cases hblank : (Lexeme.blankRun .between cs).1 = []
  · rw [lexeme_of_visible hblank] at h ⊢
    exact Lexeme.visible_eq_word h
  · rw [lexeme_of_blank hblank] at h
    exact TokenKind.noConfusion h

namespace Cursor

/-- A keyword of one word is the longest word ahead. -/
theorem next_keyword {c : Cursor} {k : Keyword} (h : c.next.1.keyword? = some k)
    (hk : k ≠ .notNull) :
    c.next.1.text.toList = c.rest.takeWhile CharClass.isWordChar ∧
      c.next.2.rest = c.rest.dropWhile CharClass.isWordChar ∧
        Keyword.ofWord? c.next.1.text = some k ∧
          (k = .not → Lexeme.nullSuffix? c.next.2.rest = none) := by
  have hkind : (lexeme c.operandExpected c.rest).kind = .keyword k := Token.kind_of_keyword? h
  have hword := lexeme_eq_word hkind
  rcases Lexeme.word_keyword (hword ▸ hkind) hk with ⟨hread, hspelled, hsuffix⟩
  simp only [next, hword, hread, String.toList_ofList]
  exact ⟨trivial, trivial, hspelled, hsuffix⟩

end Cursor

/-- Between a `NOT` and a `NULL` that are two tokens stands something that is no
    blank, for else they would be one. -/
theorem exists_not_blank_between {sql : String} {front gap back : List Token} {n m : Token}
    (h : tokenize sql = front ++ n :: (gap ++ m :: back)) (hn : n.keyword? = some .not)
    (hm : m.keyword? = some .null) : ∃ c ∈ Token.textsOf gap, CharClass.isBlank c = false := by
  have hgap : gap ++ m :: back ≠ [] :=
    List.append_ne_nil_of_right_ne_nil gap (List.cons_ne_nil m back)
  have hend : m.kind ≠ .eof := by
    rw [Token.kind_of_keyword? hm]
    exact TokenKind.noConfusion
  -- The two tokens are read at two cursors.
  rcases Cursor.exists_tokens_eq_cons h with ⟨c, hc⟩
  rcases Cursor.tokens_eq_cons hc (Or.inr hgap) with ⟨rfl, -, hbehind⟩
  rcases Cursor.exists_tokens_eq_cons hbehind with ⟨d, hd⟩
  rcases Cursor.tokens_eq_cons hd (Or.inl hend) with ⟨rfl, -, -⟩
  rcases Cursor.next_keyword hn (by decide) with ⟨-, hrest, -, hsuffix⟩
  rcases Cursor.next_keyword hm (by decide) with ⟨htext, hleft, hspelled, -⟩
  have hahead : c.next.2.rest =
      Token.textsOf gap ++ (d.next.1.text.toList ++ d.next.2.rest) := by
    rw [← Cursor.tokens_append, hbehind, Cursor.next_append, ← Cursor.tokens_append d, hd]
    exact Token.textsOf_append _ _
  have hword : ∀ c ∈ d.next.1.text.toList, CharClass.isWordChar c = true := by
    rw [htext]
    exact fun c hc => List.mem_takeWhile_imp hc
  have hnull : d.next.1.text.toList.map Char.toUpper = "NULL".toList :=
    String.ofList_injective (Keyword.upperCase_of_ofWord? hspelled (by decide))
  by_contra hblank
  have hblank : ∀ c ∈ Token.textsOf gap, CharClass.isBlank c = true := by
    intro c hc
    by_contra hc'
    exact hblank ⟨c, hc, Bool.eq_false_iff.2 hc'⟩
  have hne : Token.textsOf gap ≠ [] := by
    -- Nothing in between would make the two words one.
    intro hnil
    rw [hnil, List.nil_append, hrest] at hahead
    cases hchars : d.next.1.text.toList with
    | nil =>
        rw [hchars] at hnull
        exact absurd hnull (by decide)
    | cons ch chars =>
        rw [hchars] at hahead hword
        exact Bool.false_ne_true ((Lexeme.not_wordChar_of_dropWhile hahead).symm.trans
          (hword ch List.mem_cons_self))
  have hends : Lexeme.continuesNull d.next.2.rest = false := by
    rw [hleft]
    exact Lexeme.continuesNull_dropWhile _
  have hjoined := hsuffix rfl
  rw [hahead, Lexeme.nullSuffix?_blanks hne hblank hword hnull hends] at hjoined
  exact Option.some_ne_none _ hjoined

end SqlGist
