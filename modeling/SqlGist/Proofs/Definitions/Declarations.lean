import SqlGist.Proofs.Constraints.Columns

/-!
# Declared Types and Their Columns

Reading a definition carries the columns found so far and the name that was met
last, and a name that is met again moves the attention back to a column in the
midst of the others. Without any of this, a column is a name, and its type is
what a leaf declares that has this name nearest in front of it.

The two agree because the name met last is the nearest one in front of whatever
comes next, whether or not it was new. `Gathered.Reads` says so of the state,
together with what is known of each column, and it holds behind every leaf that
does not fail. A leaf fails if it declares a type that no column can take: there
is none in front of it, or the nearest has a type from a leaf before.

## Main definitions

* `Leaf.Declares`: The leaf declares a type.
* `Declared`: A type is declared for the column of this name.
* `Misdeclared`: Some declared type has no column, or is the second of its
  column.
* `Column.TypedIn`: A column has the type that is declared for it.
* `Gathered.Reads`: What was gathered is what the leaves say.

## Theorems

* `misdeclared_iff`: The first leaf at fault is one no column can take.
* `Reads.mention`, `Reads.setType`, `Reads.pass`: What one leaf does.
* `Reads.read`, `Reads.gatherFrom`: One leaf, and all of them.
* `definedColumns_reading`: Defined columns are what the leaves say.
* `definition_reading`: So are those of every tree that defines columns.
-/

namespace SqlGist

/-- The leaf declares this type. -/
def Leaf.Declares (l : Leaf) (type : ColumnType) : Prop :=
  l.isType = true ∧ l.columnType? = some type

/-- Some leaf declares the type, and the nearest column in front of it has this
    name. -/
def Declared (leaves : List Leaf) (name : String) (type : ColumnType) : Prop :=
  ∃ front l back, leaves = front ++ l :: back ∧ l.Declares type ∧ Nearest name front.reverse

/-- Some leaf declares a type and has no column in front of it, or two leaves
    declare types and have columns of one name nearest in front of them. -/
inductive Misdeclared (leaves : List Leaf) : Prop
  | homeless {front back : List Leaf} {l : Leaf} {type : ColumnType}
      (heq : leaves = front ++ l :: back) (hdeclares : l.Declares type)
      (hnone : ∀ m ∈ front, m.isColumn = false)
  | second {front middle back : List Leaf} {l m : Leaf} {first second : ColumnType} {name : String}
      (heq : leaves = front ++ l :: (middle ++ m :: back)) (hfirst : l.Declares first)
      (hname : Nearest name front.reverse) (hsecond : m.Declares second)
      (hsame : Nearest name (front ++ l :: middle).reverse)

/-- The column has the type that is declared for its name, and none if none
    is. -/
def Column.TypedIn (c : Column) (leaves : List Leaf) (name : String) : Prop :=
  (∀ type, Declared leaves name type → c.typeName = some type.name ∧ c.size = type.size) ∧
    ((∀ type, ¬Declared leaves name type) → c.typeName = none ∧ c.size = none)

/-- The leaf declares a type that no column can take: whatever column is nearest
    in front of it has one. -/
def Leaf.Misplaced (l : Leaf) (front : List Leaf) : Prop :=
  ∃ type, l.Declares type ∧
    ∀ name, Nearest name front.reverse → ∃ first, Declared front name first

/-- What was gathered is what the leaves that were read say. -/
structure Gathered.Reads (g : Gathered) (seen : List Leaf) : Prop where
  current : ∀ name, g.current = some name ↔ Nearest name seen.reverse
  names : g.columns.map Column.name = (columnNames seen).map some
  typed : ∀ c ∈ g.columns, ∀ name, c.name = some name → c.TypedIn seen name

/-- A place in a list is its front, or one in the rest. -/
theorem exists_split_cons_iff {α : Type} {a : α} {as : List α}
    {p : List α → α → List α → Prop} :
    (∃ front b back, a :: as = front ++ b :: back ∧ p front b back) ↔
      p [] a as ∨ ∃ front b back, as = front ++ b :: back ∧ p (a :: front) b back := by
  constructor
  · rintro ⟨front, b, back, heq, h⟩
    cases front with
    | nil =>
        rcases List.cons.inj heq with ⟨rfl, rfl⟩
        exact Or.inl h
    | cons c front =>
        rcases List.cons.inj heq with ⟨rfl, hrest⟩
        exact Or.inr ⟨front, b, back, hrest, h⟩
  · rintro (h | ⟨front, b, back, rfl, h⟩)
    · exact ⟨[], a, as, rfl, h⟩
    · exact ⟨a :: front, b, back, rfl, h⟩

/-! ### The nearest column -/

/-- A leaf that names a column declares no type: the name of a call names
    none. -/
theorem Leaf.isType_of_isColumn {l : Leaf} (h : l.isColumn = true) : l.isType = false := by
  simp only [isColumn, Bool.and_eq_true] at h
  rcases h with ⟨⟨⟨hname, -⟩, -⟩, hplace⟩
  have hkind : l.token.kind = .name := of_decide_eq_true hname
  rw [isType, hkind, Bool.or_eq_false_iff]
  refine ⟨rfl, Bool.eq_false_iff.2 fun hcall => ?_⟩
  rw [isCallName, Bool.and_eq_true, ancestorsAre, List.isPrefixOf_iff_prefix] at hcall
  rcases (Option.any_eq_true_iff_get _ _).1 hplace with ⟨hsome, hcolumn⟩
  rcases l with ⟨t, _ | ⟨f, _ | ⟨f', path⟩⟩⟩
  · exact absurd hsome Bool.false_ne_true
  · exact absurd hsome Bool.false_ne_true
  · -- The group around the name is a call, and a call holds no column.
    have hshape : f'.shape = .functionCall :=
      (List.cons_prefix_cons.1 (List.cons_prefix_cons.1 hcall.2).2).1.symm
    have hcolumn : f'.holdsColumn = true := hcolumn
    simp only [Frame.holdsColumn, hshape, Bool.and_false, Bool.false_eq_true] at hcolumn

theorem Nearest.unique {name name' : String} {before : List Leaf} (h : Nearest name before)
    (h' : Nearest name' before) : name' = name := by
  rcases h with ⟨l, hl, rfl⟩
  rcases h' with ⟨l', hl', rfl⟩
  rw [hl, Option.some.injEq] at hl'
  rw [hl']

theorem nearest_cons_iff {name : String} {before : List Leaf} {l : Leaf} :
    Nearest name (l :: before) ↔
      if l.isColumn then l.value = name else Nearest name before := by
  unfold Nearest
  split
  · rename_i hcolumn
    simp only [List.find?_cons_of_pos hcolumn, Option.some.injEq, exists_eq_left']
  · rename_i hcolumn
    rw [List.find?_cons_of_neg hcolumn]

/-- Either some column is nearest, or there is none. -/
theorem exists_nearest (front : List Leaf) :
    (∃ name, Nearest name front.reverse) ∨ ∀ m ∈ front, m.isColumn = false := by
  cases hfind : front.reverse.find? Leaf.isColumn with
  | some l => exact Or.inl ⟨l.value, l, hfind, rfl⟩
  | none =>
      exact Or.inr fun m hm =>
        Bool.eq_false_iff.2 (List.find?_eq_none.1 hfind m (List.mem_reverse.2 hm))

theorem Nearest.mem_columnNames {name : String} {front : List Leaf}
    (h : Nearest name front.reverse) : name ∈ columnNames front := by
  rcases h with ⟨l, hl, rfl⟩
  exact mem_columnNames_iff.2 ⟨l, List.mem_reverse.1 (List.mem_of_find?_eq_some hl),
    List.find?_some hl, rfl⟩

theorem distinctBehind_append (known names names' : List String) :
    distinctBehind known (names ++ names') =
      distinctBehind (distinctBehind known names) names' := by
  induction names generalizing known with
  | nil => rfl
  | cons name names ih => rw [List.cons_append, distinctBehind, ih, distinctBehind]

theorem columnNames_concat (front : List Leaf) (l : Leaf) :
    columnNames (front ++ [l]) =
      distinctBehind (columnNames front) (if l.isColumn then [l.value] else []) := by
  rw [columnNames, List.filter_append, List.map_append, distinctBehind_append, List.filter_cons]
  split <;> rfl

/-! ### Declared types -/

section Declaring

variable {front : List Leaf} {l : Leaf} {name : String} {type : ColumnType}

theorem Leaf.Declares.not_isColumn (h : l.Declares type) : l.isColumn = false :=
  Bool.eq_false_iff.2 fun hcolumn =>
    Bool.false_ne_true ((isType_of_isColumn hcolumn).symm.trans h.1)

theorem Leaf.Declares.unique {type' : ColumnType} (h : l.Declares type) (h' : l.Declares type') :
    type' = type :=
  Option.some.inj (h'.2.symm.trans h.2)

theorem Declared.mem_columnNames (h : Declared front name type) : name ∈ columnNames front := by
  rcases h with ⟨before, l, back, rfl, -, hname⟩
  rcases mem_columnNames_iff.1 hname.mem_columnNames with ⟨m, hm, hcolumn⟩
  exact mem_columnNames_iff.2 ⟨m, List.mem_append_left _ hm, hcolumn⟩

/-- One leaf more declares what it declares for the column nearest to it. -/
theorem declared_concat_iff :
    Declared (front ++ [l]) name type ↔
      Declared front name type ∨ l.Declares type ∧ Nearest name front.reverse := by
  constructor
  · rintro ⟨before, m, back, heq, hdeclares, hname⟩
    rcases List.eq_nil_or_concat back with rfl | ⟨back, last, rfl⟩
    · rcases List.append_inj' heq rfl with ⟨rfl, hlast⟩
      rw [(List.cons.inj hlast).1]
      exact Or.inr ⟨hdeclares, hname⟩
    · rw [List.concat_eq_append, ← List.cons_append, ← List.append_assoc] at heq
      exact Or.inl ⟨before, m, back, (List.append_inj' heq rfl).1, hdeclares, hname⟩
  · rintro (⟨before, m, back, rfl, hdeclares, hname⟩ | ⟨hdeclares, hname⟩)
    · exact ⟨before, m, back ++ [l], by rw [List.append_assoc, List.cons_append], hdeclares, hname⟩
    · exact ⟨front, l, [], rfl, hdeclares, hname⟩

theorem declared_concat_of_not_declares (h : ∀ type, ¬l.Declares type) :
    Declared (front ++ [l]) name type ↔ Declared front name type := by
  rw [declared_concat_iff, or_iff_left fun hlast => h type hlast.1]

/-- A declared type is at fault exactly if it is one that no column can take. -/
theorem misdeclared_iff {leaves : List Leaf} :
    Misdeclared leaves ↔ ∃ front l back, leaves = front ++ l :: back ∧ l.Misplaced front := by
  constructor
  · intro h
    cases h with
    | @homeless front back l type heq hdeclares hnone =>
        refine ⟨front, l, back, heq, type, hdeclares, fun name hname => ?_⟩
        rcases mem_columnNames_iff.1 hname.mem_columnNames with ⟨m, hm, hcolumn, -⟩
        exact absurd ((hnone m hm).symm.trans hcolumn) Bool.false_ne_true
    | @second front middle back l m first second name heq hfirst hname hsecond hsame =>
        refine ⟨front ++ l :: middle, m, back, ?_, second, hsecond, fun name' hname' => ?_⟩
        · rw [heq, List.append_assoc, List.cons_append]
        · rw [hsame.unique hname']
          exact ⟨first, front, l, middle, rfl, hfirst, hname⟩
  · rintro ⟨front, m, back, rfl, second, hsecond, htaken⟩
    rcases exists_nearest front with ⟨name, hsame⟩ | hnone
    · rcases htaken name hsame with ⟨first, before, l, middle, rfl, hfirst, hname⟩
      exact .second (by rw [List.append_assoc, List.cons_append]) hfirst hname hsecond hsame
    · exact .homeless rfl hsecond hnone

end Declaring

namespace Gathered

variable {g g' : Gathered} {seen : List Leaf} {l : Leaf}

theorem column?_eq_some {name : String} {c : Column} (h : g.column? name = some c) :
    c ∈ g.columns ∧ c.name = some name := by
  rw [column?] at h
  refine ⟨List.mem_of_find?_eq_some h, ?_⟩
  simpa only [decide_eq_true_eq] using List.find?_some h

theorem reads_nil : Reads ⟨[], none⟩ [] where
  current name := iff_of_false (fun h => Option.some_ne_none name h.symm) fun h =>
    absurd h.mem_columnNames List.not_mem_nil
  names := rfl
  typed _ hc := absurd hc List.not_mem_nil

namespace Reads

variable (h : g.Reads seen)

include h

/-- A column leaf is taken up, whether its name is new or not. -/
theorem mention (hcolumn : l.isColumn = true) (action : Action) :
    (g.mention action l.value).Reads (seen ++ [l]) := by
  have hquiet : ∀ type, ¬l.Declares type := fun type hdeclares =>
    Bool.false_ne_true (hdeclares.not_isColumn.symm.trans hcolumn)
  refine ⟨fun name => ?_, ?_, fun c hc name hname => ?_⟩
  · have hcurrent : (g.mention action l.value).current = some l.value := by
      rw [Gathered.mention]
      split <;> rfl
    rw [hcurrent, List.reverse_concat, nearest_cons_iff, if_pos hcolumn, Option.some.injEq]
  · rw [names_mention h.names, columnNames_concat, if_pos hcolumn]
    rfl
  · simp only [Column.TypedIn, declared_concat_of_not_declares hquiet]
    rw [Gathered.mention] at hc
    split at hc
    · exact h.typed c hc name hname
    · rename_i hnew
      rcases List.mem_append.1 hc with hc | hc
      · exact h.typed c hc name hname
      · -- A type for a new column would have been declared behind its name.
        rw [List.mem_singleton.1 hc] at hname ⊢
        have hname : l.value = name := Option.some.inj hname
        rw [column?_eq_none_iff, h.names, List.mem_map_of_injective fun _ _ => Option.some.inj]
          at hnew
        exact ⟨fun type hdeclared => absurd (hname ▸ hdeclared.mem_columnNames) hnew,
          fun _ => ⟨rfl, rfl⟩⟩

/-- A leaf that neither names a column nor declares a type changes nothing. -/
theorem pass (hcolumn : l.isColumn = false) (hquiet : ∀ type, ¬l.Declares type) :
    g.Reads (seen ++ [l]) := by
  refine ⟨fun name => ?_, ?_, fun c hc name hname => ?_⟩
  · rw [h.current, List.reverse_concat, nearest_cons_iff, if_neg (Bool.eq_false_iff.1 hcolumn)]
  · rw [h.names, columnNames_concat, if_neg (Bool.eq_false_iff.1 hcolumn)]
    rfl
  · simp only [Column.TypedIn, declared_concat_of_not_declares hquiet]
    exact h.typed c hc name hname

/-- A type goes to the nearest column, if that has none. -/
theorem setType {type : ColumnType} (hdeclares : l.Declares type) {name : String}
    (hname : Nearest name seen.reverse) (hfree : ∀ first, ¬Declared seen name first) :
    (g.setType name type).Reads (seen ++ [l]) := by
  have hcolumn := Bool.eq_false_iff.1 hdeclares.not_isColumn
  refine ⟨fun name' => ?_, ?_, fun c hc name' hname' => ?_⟩
  · rw [List.reverse_concat, nearest_cons_iff, if_neg hcolumn]
    exact h.current name'
  · rw [names_setType, h.names, columnNames_concat, if_neg hcolumn]
    rfl
  · rcases List.mem_map.1 hc with ⟨d, hd, rfl⟩
    simp only [Column.TypedIn, declared_concat_iff]
    split at hname'
    · rename_i hsame
      -- This is the column, and the leaf that was read is all that declares its type.
      rw [if_pos hsame]
      have hname' : name = name' := Option.some.inj (hsame.symm.trans hname')
      subst hname'
      refine ⟨fun type' hdeclared => ?_, fun hnone => absurd (Or.inr ⟨hdeclares, hname⟩)
        (hnone type)⟩
      rcases hdeclared with hdeclared | ⟨hdeclared, -⟩
      · exact absurd hdeclared (hfree type')
      · rw [hdeclares.unique hdeclared]
        exact ⟨rfl, rfl⟩
    · rename_i hother
      rw [if_neg hother]
      have hne : ¬Nearest name' seen.reverse := by
        intro hnearest
        rw [hname.unique hnearest] at hname'
        exact hother hname'
      simp only [hne, and_false, or_false]
      exact h.typed d hd name' hname'

/-- The type of the nearest column is known exactly if one was declared. -/
theorem bind_typeName_eq_none_iff {name : String} (hname : Nearest name seen.reverse) :
    (g.column? name).bind Column.typeName = none ↔ ∀ first, ¬Declared seen name first := by
  have hknown : g.column? name ≠ none := by
    rw [ne_eq, column?_eq_none_iff, h.names,
      List.mem_map_of_injective fun _ _ => Option.some.inj, not_not]
    exact hname.mem_columnNames
  rcases Option.ne_none_iff_exists'.1 hknown with ⟨c, hc⟩
  rcases column?_eq_some hc with ⟨hmem, hcolumn⟩
  have htyped := h.typed c hmem name hcolumn
  rw [hc, Option.bind_some]
  refine ⟨fun hnone first hdeclared => ?_, fun hfree => (htyped.2 hfree).1⟩
  rw [(htyped.1 first hdeclared).1] at hnone
  exact Option.some_ne_none _ hnone

/-- A declared type fails where no column can take it, and is set elsewhere. -/
theorem declare {type : ColumnType} (hdeclares : l.Declares type) :
    (∀ g', g.declare type = .ok g' → g'.Reads (seen ++ [l])) ∧
      ((∃ m, g.declare type = .error m) ↔ l.Misplaced seen) := by
  rw [Gathered.declare]
  split
  · rename_i hnone
    have hhomeless : ∀ name, ¬Nearest name seen.reverse := fun name hname =>
      Option.some_ne_none name (((h.current name).2 hname).symm.trans hnone)
    refine ⟨fun g' hg' => absurd hg' (by simp only [reduceCtorEq, not_false_eq_true]), ?_⟩
    exact iff_of_true ⟨_, rfl⟩ ⟨type, hdeclares, fun name hname => absurd hname (hhomeless name)⟩
  · rename_i name hcurrent
    have hname := (h.current name).1 hcurrent
    split
    · rename_i first hfirst
      refine ⟨fun g' hg' => absurd hg' (by simp only [reduceCtorEq, not_false_eq_true]), ?_⟩
      refine iff_of_true ⟨_, rfl⟩ ⟨type, hdeclares, fun name' hname' => ?_⟩
      rw [hname.unique hname']
      by_contra hfree
      rw [(h.bind_typeName_eq_none_iff hname).2 (not_exists.1 hfree)] at hfirst
      exact Option.some_ne_none first hfirst.symm
    · rename_i hnone
      have hfree := (h.bind_typeName_eq_none_iff hname).1 hnone
      refine ⟨fun g' hg' => ?_, ?_⟩
      · rw [← Except.ok.inj hg']
        exact h.setType hdeclares hname hfree
      · simp only [reduceCtorEq, exists_false, false_iff]
        rintro ⟨-, -, htaken⟩
        rcases htaken name hname with ⟨first, hfirst⟩
        exact hfree first hfirst

/-- What one leaf does: it is taken up, or it declares a type that no column
    can take. -/
theorem read (action : Action) (l : Leaf) :
    (∀ g', g.read true action l = .ok g' → g'.Reads (seen ++ [l])) ∧
      ((∃ m, g.read true action l = .error m) ↔ l.Misplaced seen) := by
  -- A leaf that declares nothing is not at fault.
  have hok : ∀ {g₁ : Gathered}, (∀ type, ¬l.Declares type) → g₁.Reads (seen ++ [l]) →
      (∀ g', (.ok g₁ : Except Mismatch Gathered) = .ok g' → g'.Reads (seen ++ [l])) ∧
        ((∃ m, (.ok g₁ : Except Mismatch Gathered) = .error m) ↔ l.Misplaced seen) := by
    refine fun hquiet hreads => ⟨fun g' hg' => Except.ok.inj hg' ▸ hreads, ?_⟩
    simp only [reduceCtorEq, exists_false, false_iff]
    exact fun ⟨type, hdeclares, _⟩ => hquiet type hdeclares
  rw [Gathered.read]
  by_cases hcolumn : l.isColumn = true
  · rw [if_pos hcolumn]
    exact hok (fun type hdeclares =>
      Bool.false_ne_true (hdeclares.not_isColumn.symm.trans hcolumn)) (h.mention hcolumn action)
  rw [if_neg hcolumn, Bool.true_and]
  rw [Bool.not_eq_true] at hcolumn
  by_cases htype : l.isType = true
  · rw [if_pos htype]
    split
    · rename_i type hread
      exact h.declare ⟨htype, hread⟩
    · rename_i hread
      have hquiet : ∀ type, ¬l.Declares type := fun type hdeclares =>
        Option.some_ne_none type (hdeclares.2.symm.trans hread)
      exact hok hquiet (h.pass hcolumn hquiet)
  · have hquiet : ∀ type, ¬l.Declares type := fun type hdeclares => htype hdeclares.1
    rw [if_neg htype]
    exact hok hquiet (h.pass hcolumn hquiet)

/-- What all leaves do: they are taken up one by one, up to the first that
    declares a type no column can take. -/
theorem gatherFrom (action : Action) (leaves : List Leaf) :
    (∀ g', gatherFrom true action g leaves = .ok g' → g'.Reads (seen ++ leaves)) ∧
      ((∃ m, gatherFrom true action g leaves = .error m) ↔
        ∃ front l back, leaves = front ++ l :: back ∧ l.Misplaced (seen ++ front)) := by
  induction leaves generalizing g seen with
  | nil =>
      refine ⟨fun g' hg' => ?_, iff_of_false ?_ ?_⟩
      · rw [← Except.ok.inj hg', List.append_nil]
        exact h
      · rintro ⟨m, hm⟩
        simp only [SqlGist.gatherFrom, reduceCtorEq] at hm
      · rintro ⟨front, l, back, heq, -⟩
        exact List.append_ne_nil_of_right_ne_nil _ (List.cons_ne_nil _ _) heq.symm
  | cons l leaves ih =>
      have hstep := h.read action l
      -- The first leaf at fault is this one or one of those behind it.
      rw [SqlGist.gatherFrom, exists_split_cons_iff, List.append_nil, ← hstep.2]
      cases hread : g.read true action l with
      | error m =>
          refine ⟨fun g' hg' => absurd hg' (by simp only [reduceCtorEq, not_false_eq_true]), ?_⟩
          exact iff_of_true ⟨m, rfl⟩ (Or.inl ⟨m, rfl⟩)
      | ok g₁ =>
          have hrest := ih (hstep.1 g₁ hread)
          simp only [List.append_assoc, List.singleton_append] at hrest
          refine ⟨hrest.1, hrest.2.trans ?_⟩
          simp only [reduceCtorEq, exists_false, false_or]

end Reads

end Gathered

/-- Once all constraints have owners, the columns of a definition are the names
    that its leaves mention, each with the type that is declared for it, unless
    some declared type is at fault. -/
theorem definedColumns_reading {leaves : List Leaf} {all : List Owned}
    (hall : owned leaves = .ok all) (action : Action) :
    ((∃ e, definedColumns action leaves = .error e) ↔ Misdeclared leaves) ∧
      ∀ columns, definedColumns action leaves = .ok columns →
        columns.map Column.name = (columnNames leaves).map some ∧
          ∀ c ∈ columns, ∀ name, c.name = some name → c.TypedIn leaves name := by
  have hrun := Gathered.reads_nil.gatherFrom action leaves
  simp only [List.nil_append] at hrun
  rw [misdeclared_iff, ← hrun.2]
  simp only [definedColumns, hall, gather]
  cases hgather : gatherFrom true action ⟨[], none⟩ leaves with
  | error m =>
      refine ⟨iff_of_true ⟨_, rfl⟩ ⟨m, rfl⟩, fun columns hcolumns => ?_⟩
      simp only [reduceCtorEq] at hcolumns
  | ok g =>
      have hreads := hrun.1 g hgather
      refine ⟨by simp only [reduceCtorEq, exists_false], fun columns hcolumns => ?_⟩
      rw [← Except.ok.inj hcolumns]
      refine ⟨?_, fun c hc name hname => ?_⟩
      · rw [List.map_map, ← hreads.names]
        rfl
      · -- The constraints are added behind the types and leave them as they are.
        rcases List.mem_map.1 hc with ⟨d, hd, rfl⟩
        exact hreads.typed d hd name hname

/-- A command that defines columns yields a table of what is defined. -/
theorem extract_of_defining {c : Command} (hc : c ∈ definingCommands) {root : Group}
    {name : String} (htarget : target root.leaves = .ok name) :
    ∃ table column, c.extract root = (definedColumns column root.leaves).map fun columns =>
      .table ⟨name, table, columns, none⟩ := by
  have hplan : ∃ table column, c.extraction = .table ⟨table, some column, true, false⟩ := by
    simp only [definingCommands, List.mem_cons, List.not_mem_nil, or_false] at hc
    rcases hc with rfl | rfl | rfl | rfl <;> exact ⟨_, _, rfl⟩
  rcases hplan with ⟨table, column, hplan⟩
  refine ⟨table, column, ?_⟩
  simp only [Command.extract, hplan, Extraction.run, tableOf, htarget, bind, Except.bind,
    TablePlan.columns, if_true]
  cases definedColumns column root.leaves <;> rfl

/-- Whatever tree defines columns, once it names a table and all its constraints
    have owners: the definition fails exactly if a declared type has no column in
    front of it or two have columns of one name nearest in front of them. Else the
    columns are the distinct names that were read, in order of first mention, and
    each has the type of the leaf that has its name nearest in front of it, or no
    type if there is no such leaf. -/
theorem definition_reading {c : Command} {root : Group} {name : String} {all : List Owned}
    (hc : c ∈ definingCommands) (htarget : target root.leaves = .ok name)
    (hall : owned root.leaves = .ok all) :
    ((∃ e, c.extract root = .error e) ↔ Misdeclared root.leaves) ∧
      (¬Misdeclared root.leaves → ∃ t, c.extract root = .ok (.table t) ∧
        t.columns.map Column.name = (columnNames root.leaves).map some ∧
        ∀ column ∈ t.columns, ∀ name, column.name = some name →
          column.TypedIn root.leaves name) := by
  rcases extract_of_defining hc htarget with ⟨table, column, hextract⟩
  rcases definedColumns_reading hall column with ⟨hfails, hreads⟩
  rw [hextract, ← hfails]
  cases hcolumns : definedColumns column root.leaves with
  | error e => exact ⟨iff_of_true ⟨e, rfl⟩ ⟨e, rfl⟩, fun hno => absurd ⟨e, rfl⟩ hno⟩
  | ok columns =>
      refine ⟨by simp only [Except.map, reduceCtorEq], fun _ => ⟨_, rfl, hreads columns hcolumns⟩⟩

/-- A key at the end mentions its column again, and the type of the first column
    is not that of the second. -/
theorem definition_reading_key :
    ∃ root name all,
      Group.ofText "CREATE TABLE t (a int, b varchar(10), PRIMARY KEY (a))" = .ok root ∧
      .createTable ∈ definingCommands ∧ target root.leaves = .ok name ∧
      owned root.leaves = .ok all ∧
      ((∃ e, Command.createTable.extract root = .error e) ↔ Misdeclared root.leaves) ∧
      (¬Misdeclared root.leaves → ∃ t, Command.createTable.extract root = .ok (.table t) ∧
        t.columns.map Column.name = (columnNames root.leaves).map some ∧
        ∀ column ∈ t.columns, ∀ name, column.name = some name →
          column.TypedIn root.leaves name) := by
  have hcheck : (Group.ofText
      "CREATE TABLE t (a int, b varchar(10), PRIMARY KEY (a))").toOption.any (fun root =>
        (target root.leaves).toOption.isSome && (owned root.leaves).toOption.isSome) = true := by
    decide +kernel
  rcases exists_of_toOption_any hcheck with ⟨root, hroot, hboth⟩
  rw [Bool.and_eq_true] at hboth
  rcases Option.isSome_iff_exists.1 hboth.1 with ⟨name, hname⟩
  rcases Option.isSome_iff_exists.1 hboth.2 with ⟨all, hall⟩
  have hname := eq_ok_of_toOption hname
  have hall := eq_ok_of_toOption hall
  have hc : .createTable ∈ definingCommands := by decide
  exact ⟨root, name, all, hroot, hc, hname, hall, definition_reading hc hname hall⟩

end SqlGist
