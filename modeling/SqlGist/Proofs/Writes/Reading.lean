import SqlGist.Proofs.Extraction.Scanning

/-!
# What a Change Reads Off Its Leaves

A change is read by two scans over the same leaves, one for the names of columns
and one for the values, and the two are paired by position alone. So what a
stretch of leaves is to a change is two lists, the names it adds to the one scan
and the values it adds to the other, and both grow in step with the leaves.

Most leaves add nothing to either. A leaf that is neither a name nor a value is
idle wherever it stands, and so is every leaf of the condition.

## Main definitions

* `Leaf.written`: What a value adds to its column.
* `Column.assigned`: The column of a name and a value.
* `Leaf.Idle`: A leaf that adds nothing.
* `Reads`: The names and values that a stretch of leaves adds.
* `namingShapes`: The shapes in which names are columns.

## Theorems

* `pairColumns_eq_ok_iff`: When names and values are paired, and to what.
* `Reads.append`, `Reads.of_idle`: How stretches add up.
* `Reads.columns_eq`: The columns of a change, from what its leaves add.
* `isColumn_nameRef`: When a name is a column.
-/

namespace SqlGist

/-- What a value adds to its column: itself, and what is done with it. -/
def Leaf.written (l : Leaf) : String × Action :=
  (l.value, l.writeAction)

/-- The column of a name and a value. -/
def Column.assigned (name : String) (value : String × Action) : Column :=
  { Column.named name value.2 with value := some value.1 }

/-- Names and values are paired one for one, and values alone are columns
    without names. -/
theorem pairColumns_eq_ok_iff {names values : List Leaf} {columns : List Column} :
    pairColumns names values = .ok columns ↔
      names = [] ∧ columns = (values.map Leaf.written).map (fun v => Column.positional v.1 v.2) ∨
        names ≠ [] ∧ names.length = values.length ∧
          columns = List.zipWith Column.assigned (names.map Leaf.value)
            (values.map Leaf.written) := by
  have hzip : List.zipWith Column.assigned (names.map Leaf.value) (values.map Leaf.written) =
      List.zipWith (fun n v => { Column.named n.value v.writeAction with value := some v.value })
        names values := by
    rw [List.zipWith_map]
    rfl
  have hlone : (values.map Leaf.written).map (fun v => Column.positional v.1 v.2) =
      values.map fun v => Column.positional v.value v.writeAction := by
    rw [List.map_map]
    rfl
  rw [hzip, hlone, pairColumns]
  cases names with
  | nil =>
      rw [if_pos List.isEmpty_nil, Except.ok.injEq]
      constructor
      · exact fun h => Or.inl ⟨rfl, h.symm⟩
      · rintro (⟨-, h⟩ | ⟨hne, -⟩)
        · exact h.symm
        · exact absurd rfl hne
  | cons n ns =>
      rw [if_neg (by simp only [List.isEmpty_cons, Bool.false_eq_true, not_false_eq_true])]
      split
      · rename_i hlength
        rw [Except.ok.injEq]
        constructor
        · exact fun h => Or.inr ⟨List.cons_ne_nil _ _, hlength, h.symm⟩
        · rintro (⟨hnil, -⟩ | ⟨-, -, h⟩)
          · exact absurd hnil (List.cons_ne_nil _ _)
          · exact h.symm
      · rename_i hlength
        constructor
        · exact fun h => absurd h (by simp only [reduceCtorEq, not_false_eq_true])
        · rintro (⟨hnil, -⟩ | ⟨-, h, -⟩)
          · exact absurd hnil (List.cons_ne_nil _ _)
          · exact absurd h hlength

/-- The leaf adds no name and no value to a change whose values stand behind
    `k`. -/
def Leaf.Idle (k : Keyword) (l : Leaf) : Prop :=
  l.isColumn = false ∧ l.isWritten k = false

instance (k : Keyword) (l : Leaf) : Decidable (l.Idle k) :=
  inferInstanceAs (Decidable (_ ∧ _))

/-- The leaves add these names and these values to a change. -/
structure Reads (k : Keyword) (ls : List Leaf) (names : List String)
    (values : List (String × Action)) : Prop where
  names : (ls.filter Leaf.isColumn).map Leaf.value = names
  values : (ls.filter fun l => l.isWritten k).map Leaf.written = values

namespace Reads

variable {k : Keyword} {as bs : List Leaf} {names names' : List String}
  {values values' : List (String × Action)}

theorem append (ha : Reads k as names values) (hb : Reads k bs names' values') :
    Reads k (as ++ bs) (names ++ names') (values ++ values') where
  names := by rw [List.filter_append, List.map_append, ha.names, hb.names]
  values := by rw [List.filter_append, List.map_append, ha.values, hb.values]

theorem of_idle (h : ∀ l ∈ as, l.Idle k) : Reads k as [] [] where
  names := by
    rw [List.filter_eq_nil_iff.2 fun l hl => Bool.eq_false_iff.1 (h l hl).1]
    rfl
  values := by
    rw [List.filter_eq_nil_iff.2 fun l hl => Bool.eq_false_iff.1 (h l hl).2]
    rfl

theorem idle_append (h : ∀ l ∈ as, l.Idle k) (hb : Reads k bs names values) :
    Reads k (as ++ bs) names values :=
  (of_idle h).append hb

theorem append_idle (ha : Reads k as names values) (h : ∀ l ∈ bs, l.Idle k) :
    Reads k (as ++ bs) names values := by
  rw [← List.append_nil names, ← List.append_nil values]
  exact ha.append (of_idle h)

theorem self (k : Keyword) (ls : List Leaf) :
    Reads k ls ((ls.filter Leaf.isColumn).map Leaf.value)
      ((ls.filter fun l => l.isWritten k).map Leaf.written) :=
  ⟨rfl, rfl⟩

theorem name {l : Leaf} (hcolumn : l.isColumn = true) (hwritten : l.isWritten k = false) :
    Reads k [l] [l.value] [] where
  names := by simp only [List.filter_cons, hcolumn, if_true, List.filter_nil, List.map_cons,
    List.map_nil]
  values := by simp only [List.filter_cons, hwritten, Bool.false_eq_true, if_false,
    List.filter_nil, List.map_nil]

theorem value {l : Leaf} (hcolumn : l.isColumn = false) (hwritten : l.isWritten k = true) :
    Reads k [l] [] [l.written] where
  names := by simp only [List.filter_cons, hcolumn, Bool.false_eq_true, if_false,
    List.filter_nil, List.map_nil]
  values := by simp only [List.filter_cons, hwritten, if_true, List.filter_nil, List.map_cons,
    List.map_nil]

/-- The columns of a change are its names and values, paired one for one, or
    its values where it has no names. -/
theorem columns_eq (h : Reads k as names values) {columns : List Column}
    (hpair : pairColumns (as.filter Leaf.isColumn) (as.filter fun l => l.isWritten k) =
      .ok columns) :
    names = [] ∧ columns = values.map (fun v => Column.positional v.1 v.2) ∨
      names.length = values.length ∧ columns = List.zipWith Column.assigned names values := by
  have hlength : names.length = (as.filter Leaf.isColumn).length := by
    rw [← h.names, List.length_map]
  rcases pairColumns_eq_ok_iff.1 hpair with ⟨hnil, hcolumns⟩ | ⟨-, hlengths, hcolumns⟩
  · rw [hnil, List.length_nil, List.length_eq_zero_iff] at hlength
    exact Or.inl ⟨hlength, by rw [hcolumns, h.values]⟩
  · refine Or.inr ⟨?_, by rw [hcolumns, h.names, h.values]⟩
    rw [hlength, hlengths, ← h.values, List.length_map]

/-- As many values as names make as many columns. -/
theorem pairColumns_eq (h : Reads k as names values) (hlength : names.length = values.length) :
    pairColumns (as.filter Leaf.isColumn) (as.filter fun l => l.isWritten k) =
      .ok (List.zipWith Column.assigned names values) := by
  have hnames : (as.filter Leaf.isColumn).length = names.length := by
    rw [← h.names, List.length_map]
  have hvalues : (as.filter fun l => l.isWritten k).length = values.length := by
    rw [← h.values, List.length_map]
  rw [pairColumns_eq_ok_iff, h.names, h.values]
  by_cases hnil : as.filter Leaf.isColumn = []
  · -- Without names there are no values either, so both ways of reading agree.
    rw [hnil, List.length_nil] at hnames
    have hvalue := List.length_eq_zero_iff.1 (hlength.symm.trans hnames.symm)
    exact Or.inl ⟨hnil, by rw [hvalue, List.zipWith_nil_right]; rfl⟩
  · exact Or.inr ⟨hnil, hnames.trans (hlength.trans hvalues.symm), rfl⟩

/-- Values without names make a column each. -/
theorem pairColumns_positional (h : Reads k as [] values) :
    pairColumns (as.filter Leaf.isColumn) (as.filter fun l => l.isWritten k) =
      .ok (values.map fun v => Column.positional v.1 v.2) :=
  pairColumns_eq_ok_iff.2 (Or.inl ⟨List.map_eq_nil_iff.1 h.names, by rw [h.values]⟩)

end Reads

namespace Leaf

variable {k : Keyword} {l : Leaf}

/-- What is no name and no value is idle wherever it stands. -/
theorem idle_of_token (hname : l.token.isName = false) (hvalue : l.token.isValue = false) :
    l.Idle k :=
  ⟨by rw [isColumn, hname]; rfl, by rw [isWritten, hvalue]; rfl⟩

/-- Inside the condition every leaf is idle. -/
theorem idle_of_inWhere (h : l.inWhere = true) : l.Idle k :=
  ⟨by rw [isColumn, h, Bool.not_true, Bool.and_false]; rfl,
    by rw [isWritten, h, Bool.not_true, Bool.and_false]; rfl⟩

end Leaf

namespace Token

theorem isValue_of_isName {t : Token} (h : t.isName = true) : t.isValue = false := by
  have hkind : t.kind = .name := of_decide_eq_true h
  simp only [isValue, isLiteral, hkind, reduceCtorEq, decide_false, Bool.or_self]

theorem isName_of_isValue {t : Token} (h : t.isValue = true) : t.isName = false := by
  refine Bool.eq_false_iff.2 fun hname => ?_
  exact absurd ((isValue_of_isName hname).symm.trans h) Bool.false_ne_true

/-- A blank is no name and no value. -/
theorem idle_of_isWhitespace {t : Token} (h : t.isWhitespace = true) :
    t.isName = false ∧ t.isValue = false := by
  have hkind : t.kind = .whitespace := of_decide_eq_true h
  simp only [isName, isValue, isLiteral, hkind, reduceCtorEq, decide_false, Bool.or_self, and_self]

/-- A mark is no name and no value. -/
theorem idle_of_isMark {t : Token} {mark : String} (h : t.isMark mark = true) :
    t.isName = false ∧ t.isValue = false := by
  rw [isMark, Bool.and_eq_true, decide_eq_true_eq] at h
  simp only [isName, isValue, isLiteral, h.1, reduceCtorEq, decide_false, Bool.or_self, and_self]

end Token

/-- The shapes in which names are columns, unless a neighbour takes them for
    something else. -/
def namingShapes : List Shape :=
  [.parenthesis, .nameList, .comparison]

theorem Frame.holdsColumn_eq {f : Frame} (h : f.shape ∈ namingShapes) :
    f.holdsColumn = (!(f.prev?.any fun n => n.keyword? = some .constraint) &&
      !(f.next?.any fun n => n.isMark ".")) := by
  simp only [namingShapes, List.mem_cons, List.not_mem_nil, or_false] at h
  rw [holdsColumn]
  rcases h with h | h | h <;> simp only [h, Bool.and_true]

/-- A name is a column exactly if the group around its own holds columns. -/
theorem isColumn_nameRef {t : Token} {g : Group} {path : List Frame} (ht : t.isName = true)
    (houtside : g.Outside path) (index : Nat) :
    Leaf.isColumn ⟨t, ⟨⟨.nameRef, [.leaf t]⟩, 0⟩ :: ⟨g, index⟩ :: path⟩ =
      Frame.holdsColumn ⟨g, index⟩ := by
  have hinner : Group.Outside ⟨.nameRef, [.leaf t]⟩ (⟨g, index⟩ :: path) :=
    houtside.inner Shape.noConfusion index
  rw [Leaf.isColumn, ht, hinner.inWhere 0 t]
  rfl

end SqlGist
