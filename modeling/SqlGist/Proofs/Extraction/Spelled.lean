import SqlGist.Proofs.Extraction.Placeless
import SqlGist.Proofs.Token.Words

/-!
# Statements That Are Spelled Out

A statement is written down as nested items without places, and its text is
what their tokens spell. Two things have to be seen to, and neither looks at
the tree: that the tokens are read back, which is the business of chunks, and
that no token but those around a pair is a parenthesis.

Behind `classify_spell` there is no text any more. What such a statement is
about is what the tree of its items is about.

## Main definitions

* `Token.Plain`: A token that can be an item.
* `Nested.Plain`: An item made of such tokens.
* `Nested.spaced`: Words with a space in front of each.

## Theorems

* `plain_bare`: Everything but marks is plain.
* `chunk_spacedWords`: Words with a space in front of each make a chunk.
* `classify_spell`: What a spelled statement is about.
-/

namespace SqlGist

namespace Token

/-- A token without a place that can stand anywhere inside a statement, and is
    no parenthesis. -/
structure Plain (t : Token) : Prop where
  inside : t.Inside
  opening : t.isMark "(" = false
  closing : t.isMark ")" = false
  placeless : t.unplaced = t

theorem plain_bare {kind : TokenKind} (text : String) (hmark : kind ≠ .punctuation)
    (heof : kind ≠ .eof) (herror : ∀ cause, kind ≠ .error cause) : (bare kind text).Plain := by
  have hnone : ∀ mark, (bare kind text).isMark mark = false := by
    intro mark
    rw [isMark, bare, decide_eq_false hmark, Bool.false_and]
  refine ⟨⟨?_, heof, hnone ";"⟩, hnone "(", hnone ")", rfl⟩
  rw [error?, bare]
  cases kind with
  | error cause => exact absurd rfl (herror cause)
  | _ => rfl

theorem plain_space : space.Plain :=
  plain_bare " " TokenKind.noConfusion TokenKind.noConfusion fun _ => TokenKind.noConfusion

theorem plain_ofKeyword (k : Keyword) : (ofKeyword k).Plain :=
  plain_bare k.spelling TokenKind.noConfusion TokenKind.noConfusion fun _ => TokenKind.noConfusion

theorem plain_name (text : String) : (bare .name text).Plain :=
  plain_bare text TokenKind.noConfusion TokenKind.noConfusion fun _ => TokenKind.noConfusion

theorem plain_comma : (mark ",").Plain :=
  ⟨⟨rfl, TokenKind.noConfusion, rfl⟩, rfl, rfl, rfl⟩

end Token

namespace Nested

/-- An item made of plain tokens, and of parentheses around such items. -/
inductive Plain : Nested → Prop
  | token {t : Token} (h : t.Plain) : Plain (.token t)
  | parens {inner : List Nested} (h : ∀ item ∈ inner, Plain item) :
      Plain (.parens (Token.mark "(") inner (Token.mark ")"))

theorem Plain.matched {item : Nested} (h : item.Plain) : item.Matched := by
  induction h with
  | token h => exact .token h.opening h.closing
  | parens _ ih => exact .parens rfl rfl ih

theorem mem_tokensOf {t : Token} {items : List Nested} :
    t ∈ tokensOf items ↔ ∃ item ∈ items, t ∈ item.tokens := by
  induction items with
  | nil => simp only [tokensOf, List.not_mem_nil, false_and, exists_false]
  | cons item items ih =>
      rw [tokensOf, List.mem_append, ih, List.exists_mem_cons_iff]

theorem Plain.inside {item : Nested} (h : item.Plain) :
    ∀ t ∈ item.tokens, t.Inside ∧ t.unplaced = t := by
  induction h with
  | token h =>
      intro t ht
      rw [tokens, List.mem_singleton] at ht
      rw [ht]
      exact ⟨h.inside, h.placeless⟩
  | parens _ ih =>
      intro t ht
      rw [tokens] at ht
      rcases List.mem_cons.1 ht with rfl | ht
      · exact ⟨⟨rfl, TokenKind.noConfusion, rfl⟩, rfl⟩
      · rcases List.mem_append.1 ht with ht | ht
        · rcases mem_tokensOf.1 ht with ⟨item, hitem, ht⟩
          exact ih item hitem t ht
        · rw [List.mem_singleton] at ht
          rw [ht]
          exact ⟨⟨rfl, TokenKind.noConfusion, rfl⟩, rfl⟩

/-- The tokens as items, with a space in front of each. -/
def spaced (ts : List Token) : List Nested :=
  ts.flatMap fun t => [.token Token.space, .token t]

theorem plain_spaced {ts : List Token} (h : ∀ t ∈ ts, t.Plain) :
    ∀ item ∈ spaced ts, item.Plain := by
  intro item hitem
  rcases List.mem_flatMap.1 hitem with ⟨t, ht, hitem⟩
  simp only [List.mem_cons, List.not_mem_nil, or_false] at hitem
  rcases hitem with rfl | rfl
  · exact .token Token.plain_space
  · exact .token (h t ht)

theorem tokensOf_spaced (ts : List Token) :
    tokensOf (spaced ts) = ts.flatMap fun t => [Token.space, t] := by
  induction ts with
  | nil => rfl
  | cons t ts ih =>
      rw [spaced, List.flatMap_cons, tokensOf_append, List.flatMap_cons, ← ih]
      rfl

theorem chunk_spacedWords {ts : List Token} (h : ∀ t ∈ ts, ∀ e, Token.Word e t) :
    Token.Chunk (tokensOf (spaced ts)) := by
  rw [tokensOf_spaced]
  exact Token.chunk_flatMap fun t ht => Token.chunk_spaced (h t ht)

end Nested

/-- A statement that opens with a word, and goes on with a chunk, is about what
    the tree of its items is about. -/
theorem classify_spell {items : List Nested} {t : Token} {ts : List Token}
    (htokens : Nested.tokensOf items = t :: ts) (hplain : ∀ item ∈ items, item.Plain)
    (hfirst : Token.Word true t) (hchunk : Token.Chunk ts) :
    classify (Token.spell (Nested.tokensOf items)) =
      classifyTree ⟨.statement, rootNodes items⟩ := by
  have hinside : ∀ u ∈ Nested.tokensOf items, u.Inside ∧ u.unplaced = u := by
    intro u hu
    rcases Nested.mem_tokensOf.1 hu with ⟨item, hitem, hu⟩
    exact (hplain item hitem).inside u hu
  -- The end of the text separates the last token, as a blank would.
  have hspelled : Token.Spelled true (Nested.tokensOf items) [] := by
    rw [htokens]
    exact ⟨hfirst.reads _ (hchunk.separated [] separated_nil),
      hchunk.spelled _ [] separated_nil⟩
  -- No token has a place, so none is lost when the places are taken off.
  have hplaceless : (Nested.tokensOf items).map Token.unplaced = Nested.tokensOf items := by
    rw [List.map_congr_left fun u hu => (hinside u hu).2, List.map_id']
  refine classify_of_tokens ?_ (fun item hitem => (hplain item hitem).matched)
    (fun u hu => (hinside u hu).1) ⟨t, ?_, decide_eq_false hfirst.kind⟩
  · rw [tokenize_spell hspelled fun u hu => (hinside u hu).1.eof, hplaceless]
  · rw [htokens]
    exact List.mem_cons_self

end SqlGist
