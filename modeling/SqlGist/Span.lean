import SqlGist.Text.Bytes

/-!
# Spans

A span is a half-open range of bytes of the statement. Tokens carry the span
they were read from, groups the smallest span over their children, and parse
errors the place they point at.

## Main definitions

* `Span`: A first byte and the byte after the last.
* `merge`: The smallest span over two.
* `hull`: The smallest span over a list, zero when the list is empty.
* `slice?`: The text that a span covers.
* `toText`: The written form `start..stop`.

## Theorems

* `merge_comm`, `merge_assoc`: Merging asks neither for order nor for grouping.
* `slice?_eq_some_iff`: A span covers exactly the middle part of the text
  whose first part ends at `start` and whose second at `stop`.
-/

namespace SqlGist

/-- A half-open range of bytes. Nothing keeps `start` below `stop`: a span may
    come from outside, and `slice?` answers for it. -/
structure Span where
  start : Nat
  stop : Nat
deriving DecidableEq, Repr, Inhabited

namespace Span

/-- The smallest span over two. -/
def merge (a b : Span) : Span :=
  ⟨min a.start b.start, max a.stop b.stop⟩

/-- The smallest span over all of a list, and `0..0` when there is none. -/
def hull : List Span → Span
  | [] => ⟨0, 0⟩
  | s :: ss => ss.foldl merge s

/-- The text that the span covers, or `none` if it runs backwards, leaves the
    text, or cuts a character. -/
def slice? (s : Span) (text : String) : Option String :=
  if s.stop < s.start then none
  else
    (Text.splitBytes? s.start text.toList).bind fun front =>
      (Text.splitBytes? (s.stop - s.start) front.2).map fun back => String.ofList back.1

/-- The written form of a span. -/
def toText (s : Span) : String :=
  toString s.start ++ ".." ++ toString s.stop

theorem merge_comm (a b : Span) : a.merge b = b.merge a := by
  simp only [merge, Nat.min_comm, Nat.max_comm]

theorem merge_assoc (a b c : Span) : (a.merge b).merge c = a.merge (b.merge c) := by
  simp only [merge, Nat.min_assoc, Nat.max_assoc]

theorem slice?_eq_some_iff (s : Span) (text covered : String) :
    s.slice? text = some covered ↔
      ∃ before after, text.toList = before ++ covered.toList ++ after ∧
        Text.byteLength before = s.start ∧
        Text.byteLength (before ++ covered.toList) = s.stop := by
  constructor
  · intro h
    rw [slice?] at h
    split at h
    · simp only [reduceCtorEq] at h
    · rename_i hle
      -- Both cuts succeed, the second as far on as the span is wide.
      rcases Option.bind_eq_some_iff.1 h with ⟨⟨before, tail⟩, hfront, hmap⟩
      rcases Option.map_eq_some_iff.1 hmap with ⟨⟨middle, after⟩, hback, hcov⟩
      rcases (Text.splitBytes?_eq_some_iff _ _ _ _).1 hfront with ⟨happ, hstart⟩
      rcases (Text.splitBytes?_eq_some_iff _ _ _ _).1 hback with ⟨happ', hlen⟩
      have hlist : covered.toList = middle := by rw [← hcov, String.toList_ofList]
      refine ⟨before, after, ?_, hstart, ?_⟩
      · rw [hlist, List.append_assoc]
        simp only at happ'
        rw [happ', happ]
      · rw [hlist, Text.byteLength_append, hstart, hlen]
        omega
  · rintro ⟨before, after, htext, hstart, hstop⟩
    -- The first cut lands behind `before`, the second behind what is covered.
    rw [Text.byteLength_append, hstart] at hstop
    rw [slice?, if_neg (by omega), htext, ← hstart, List.append_assoc,
      Text.splitBytes?_byteLength, Option.bind_some, hstart,
      show s.stop - s.start = Text.byteLength covered.toList by omega,
      Text.splitBytes?_byteLength, Option.map_some, String.ofList_toList]

end Span

end SqlGist
