/-!
# Byte Offsets

Places in a statement are byte offsets into its UTF-8 text, while everything
here reads characters. This module is where the two meet: how many bytes a
stretch of characters takes, and how a text is cut at a byte offset.

A cut can fail in two ways, by lying past the end or by falling inside a
character, and `splitBytes?` answers `none` to both. `splitBytes?_eq_some_iff`
says that it fails for no other reason.

## Main definitions

* `byteLength`: The bytes a list of characters takes.
* `splitBytes?`: The characters before and after a byte offset.

## Theorems

* `byteLength_append`: Lengths add up.
* `byteLength_eq_zero_iff`: Only the empty text takes no bytes.
* `splitBytes?_byteLength`: Cutting behind a first part gives it back.
* `splitBytes?_eq_some_iff`: A cut is the one way to write the text as two
  parts of which the first has that many bytes.
-/

namespace SqlGist

namespace Text

/-- How many bytes the characters take in UTF-8. -/
def byteLength : List Char → Nat
  | [] => 0
  | c :: cs => c.utf8Size + byteLength cs

/-- The characters before and after a byte offset, or `none` if the offset
    lies past the end or inside a character. -/
def splitBytes? : Nat → List Char → Option (List Char × List Char)
  | 0, cs => some ([], cs)
  | _ + 1, [] => none
  | n + 1, c :: cs =>
    -- An offset inside the first character cuts it, which is refused.
    if c.utf8Size ≤ n + 1 then
      (splitBytes? (n + 1 - c.utf8Size) cs).map fun parts => (c :: parts.1, parts.2)
    else
      none

theorem byteLength_append (as bs : List Char) :
    byteLength (as ++ bs) = byteLength as + byteLength bs := by
  induction as with
  | nil => simp only [List.nil_append, byteLength, Nat.zero_add]
  | cons a as ih => simp only [List.cons_append, byteLength, ih, Nat.add_assoc]

theorem byteLength_eq_zero_iff (cs : List Char) : byteLength cs = 0 ↔ cs = [] := by
  cases cs with
  | nil => simp only [byteLength]
  | cons c cs =>
      have := c.utf8Size_pos
      simp only [byteLength, reduceCtorEq, iff_false]
      omega

theorem splitBytes?_byteLength (as bs : List Char) :
    splitBytes? (byteLength as) (as ++ bs) = some (as, bs) := by
  induction as with
  | nil => simp only [byteLength, List.nil_append, splitBytes?]
  | cons a as ih =>
      -- A character takes at least one byte, so the offset is not zero yet.
      have hpos := a.utf8Size_pos
      rcases Nat.exists_eq_succ_of_ne_zero (show byteLength (a :: as) ≠ 0 by
        simp only [byteLength]; omega) with ⟨n, hn⟩
      have hn' : n + 1 = a.utf8Size + byteLength as := by
        simp only [byteLength] at hn
        omega
      rw [hn, List.cons_append, splitBytes?, if_pos (by omega),
        show n + 1 - a.utf8Size = byteLength as by omega, ih, Option.map_some]

theorem splitBytes?_eq_some_iff (n : Nat) (cs as bs : List Char) :
    splitBytes? n cs = some (as, bs) ↔ as ++ bs = cs ∧ byteLength as = n := by
  constructor
  · intro h
    induction cs generalizing n as with
    | nil =>
        cases n with
        | zero =>
            simp only [splitBytes?, Option.some.injEq, Prod.mk.injEq] at h
            rw [← h.1, ← h.2]
            exact ⟨rfl, rfl⟩
        | succ n => simp only [splitBytes?, reduceCtorEq] at h
    | cons c cs ih =>
        cases n with
        | zero =>
            simp only [splitBytes?, Option.some.injEq, Prod.mk.injEq] at h
            rw [← h.1, ← h.2]
            exact ⟨rfl, rfl⟩
        | succ n =>
            rw [splitBytes?] at h
            split at h
            · rename_i hle
              rcases Option.map_eq_some_iff.1 h with ⟨⟨as', bs'⟩, hrec, heq⟩
              simp only [Prod.mk.injEq] at heq
              rcases ih _ as' (heq.2 ▸ hrec) with ⟨happ, hlen⟩
              rw [← heq.1]
              refine ⟨by rw [List.cons_append, happ], ?_⟩
              simp only [byteLength, hlen]
              omega
            · simp only [reduceCtorEq] at h
  · rintro ⟨rfl, rfl⟩
    exact splitBytes?_byteLength as bs

end Text

end SqlGist
