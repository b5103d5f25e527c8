import SqlGist.Text.CharClass
import SqlGist.Text.Trailing

/-!
# Cutting Text

Trimming, and cutting a text in two at a character. A parameterized type such
as `decimal(10, 2)` is read this way: its name stands before the first
opening parenthesis, its size before the last closing one.

## Main definitions

* `trim`: A text without the blanks at either end.
* `cutFirst?`: What stands before and after the first place of a character.
* `cutLast?`: What stands before and after its last place.

## Theorems

* `cutFirst?_eq_none_iff`: A cut fails exactly when the character is absent.
* `cutFirst?_eq_some_iff`: The parts are those around a place of the character,
  the first of which does not hold it.
* `cutLast?_eq_none_iff`, `cutLast?_eq_some_iff`: The same for the last place,
  with the character absent from the second part.
-/

namespace SqlGist

namespace Text

/-- The text without the blanks at either end. -/
def trim (cs : List Char) : List Char :=
  (cutTrailing CharClass.isBlank (cs.dropWhile CharClass.isBlank)).1

/-- What stands before and after the first place of `d`. -/
def cutFirst? (d : Char) : List Char → Option (List Char × List Char)
  | [] => none
  | c :: cs =>
    if c = d then some ([], cs)
    else (cutFirst? d cs).map fun parts => (c :: parts.1, parts.2)

/-- What stands before and after the last place of `d`. -/
def cutLast? (d : Char) : List Char → Option (List Char × List Char)
  | [] => none
  | c :: cs =>
    -- A later place wins over this one.
    match cutLast? d cs with
    | some parts => some (c :: parts.1, parts.2)
    | none => if c = d then some ([], cs) else none

theorem cutFirst?_eq_none_iff (d : Char) (cs : List Char) : cutFirst? d cs = none ↔ d ∉ cs := by
  induction cs with
  | nil => simp only [cutFirst?, List.not_mem_nil, not_false_eq_true]
  | cons c cs ih =>
      rw [cutFirst?]
      split
      · rename_i hc
        simp only [hc, reduceCtorEq, List.mem_cons, true_or, not_true_eq_false]
      · rename_i hc
        simp only [Option.map_eq_none_iff, ih, List.mem_cons, not_or, Ne.symm hc,
          not_false_eq_true, true_and]

theorem cutFirst?_append {d : Char} {before : List Char} (h : d ∉ before) (after : List Char) :
    cutFirst? d (before ++ d :: after) = some (before, after) := by
  induction before with
  | nil => rw [List.nil_append, cutFirst?, if_pos rfl]
  | cons c before ih =>
      have hc : c ≠ d := fun heq => h (heq ▸ List.mem_cons_self)
      rw [List.cons_append, cutFirst?, if_neg hc, ih fun hmem => h (List.mem_cons_of_mem c hmem)]
      rfl

theorem cutFirst?_eq_some_iff {d : Char} {cs before after : List Char} :
    cutFirst? d cs = some (before, after) ↔ cs = before ++ d :: after ∧ d ∉ before := by
  constructor
  · intro h
    -- A text that is cut holds the character, and so it has a first place.
    have hmem : d ∈ cs := Decidable.of_not_not fun hd =>
      Option.some_ne_none _ (h.symm.trans ((cutFirst?_eq_none_iff d cs).2 hd))
    rcases List.eq_append_cons_of_mem hmem with ⟨front, back, rfl, hfront⟩
    rw [cutFirst?_append hfront, Option.some.injEq, Prod.mk.injEq] at h
    rw [← h.1, ← h.2]
    exact ⟨rfl, hfront⟩
  · rintro ⟨rfl, hbefore⟩
    exact cutFirst?_append hbefore after

theorem cutLast?_eq_none_iff (d : Char) (cs : List Char) : cutLast? d cs = none ↔ d ∉ cs := by
  induction cs with
  | nil => simp only [cutLast?, List.not_mem_nil, not_false_eq_true]
  | cons c cs ih =>
      rw [cutLast?]
      split
      · rename_i parts heq
        -- The tail was cut, so it holds the character.
        have hmem : d ∈ cs := by
          by_cases hd : d ∈ cs
          · exact hd
          · rw [ih.2 hd] at heq
            exact absurd heq (by simp only [reduceCtorEq, not_false_eq_true])
        simp only [reduceCtorEq, List.mem_cons, hmem, or_true, not_true_eq_false]
      · rename_i heq
        split
        · rename_i hc
          simp only [hc, reduceCtorEq, List.mem_cons, true_or, not_true_eq_false]
        · rename_i hc
          simp only [List.mem_cons, not_or, Ne.symm hc, not_false_eq_true, true_and, ih.1 heq]

theorem cutLast?_append {d : Char} {after : List Char} (h : d ∉ after) (before : List Char) :
    cutLast? d (before ++ d :: after) = some (before, after) := by
  induction before with
  | nil => simp only [List.nil_append, cutLast?, (cutLast?_eq_none_iff d after).2 h, if_true]
  | cons c before ih => simp only [List.cons_append, cutLast?, ih]

theorem cutLast?_eq_some_iff {d : Char} {cs before after : List Char} :
    cutLast? d cs = some (before, after) ↔ cs = before ++ d :: after ∧ d ∉ after := by
  constructor
  · intro h
    have hmem : d ∈ cs := Decidable.of_not_not fun hd =>
      Option.some_ne_none _ (h.symm.trans ((cutLast?_eq_none_iff d cs).2 hd))
    -- The last place is the first one from behind.
    rcases List.eq_append_cons_of_mem (List.mem_reverse.2 hmem) with ⟨back, front, hcut, hback⟩
    have hcs : cs = front.reverse ++ d :: back.reverse := by
      rw [← List.reverse_reverse cs, hcut, List.reverse_append, List.reverse_cons,
        List.append_assoc, List.singleton_append]
    have hafter : d ∉ back.reverse := fun hd => hback (List.mem_reverse.1 hd)
    rw [hcs, cutLast?_append hafter, Option.some.injEq, Prod.mk.injEq] at h
    rw [← h.1, ← h.2]
    exact ⟨hcs, hafter⟩
  · rintro ⟨rfl, hafter⟩
    exact cutLast?_append hafter before

end Text

end SqlGist
