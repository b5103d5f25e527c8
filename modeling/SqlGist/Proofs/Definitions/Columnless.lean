import SqlGist.Classify
import SqlGist.Proofs.Definitions.Declarations

/-!
# Statements That Name No Column

The commands that add, change or drop a column read columns off the statement
and never ask whether there are any, as those that name a constraint or a default
do. So `ALTER TABLE t DROP COLUMN` drops nothing and is a table without columns.

That such a statement fails now and then is due to something else in it that
wants a column: a type, which has to have one in front of it, or a constraint,
unless it is a key with a parenthesis behind it. To drop a column neither is
looked at, and then nothing fails for the lack of a column.

## Main definitions

* `columnCommands`: The commands that add, change or drop a column.
* `Wanting`: Something in a definition wants a column.

## Theorems

* `ownedAt_fails_iff`, `ownedFrom_fails_iff`: When a constraint has no owner.
* `definedColumns_fails_iff`: When a definition without columns fails.
* `columns_eq_nil_iff`: There are no columns if no leaf is one.
* `columnless_iff`: Which statements are accepted without columns.
* `columnless_of_drop`: One of them.
-/

namespace SqlGist

/-- The commands that add, change or drop a column. -/
def columnCommands : List Command :=
  [.addColumn, .modifyColumn, .dropColumn]

/-- A definition without columns fails: it declares a type, or it has a constraint
    that is not read at all, or one that is no key with a parenthesis right behind
    it. -/
inductive Wanting (leaves : List Leaf) : Prop
  | type {l : Leaf} {type : ColumnType} (hl : l ∈ leaves) (hdeclares : l.Declares type)
  | unread {l : Leaf} {k : Keyword} (hl : l ∈ leaves) (hk : l.constraintKeyword? = some k)
      (hunread : k ∈ unreadConstraints)
  | constraint {front back : List Leaf} {l : Leaf} {k : Keyword}
      (heq : leaves = front ++ l :: back) (hk : l.constraintKeyword? = some k)
      (hread : k ∈ readConstraints)
      (hunlisted : k = .primary ∨ k = .unique → listedColumns? back = none)

/-! ### Constraints without owners -/

section Owners

variable {k : Keyword} {before after leaves : List Leaf} {l : Leaf}

/-- Behind leaves without a column, only a key that lists its columns has
    owners. -/
theorem ownedAt_fails_iff (hnone : ∀ m ∈ before, m.isColumn = false) :
    (∃ e, ownedAt before l after = .error e) ↔
      ∃ k, l.constraintKeyword? = some k ∧ k ∈ readConstraints ∧
        (k = .primary ∨ k = .unique → listedColumns? after = none) := by
  simp only [ownedAt_eq_error_iff]
  constructor
  · rintro ⟨e, k, hk, hconstraint | ⟨hconstraint, howners⟩⟩
    · rcases constraintAt_eq_error_iff.1 hconstraint with ⟨rfl, -⟩
      exact ⟨_, hk, by decide, fun h => absurd h (by decide)⟩
    · exact ⟨k, hk, (exists_constraintAt_iff.1 hconstraint).1,
        (ownersAt_eq_error_iff.1 howners).1⟩
  · rintro ⟨k, hk, hread, hunlisted⟩
    -- A constraint asks for the nearest column, if it does not fail before.
    rcases hconstraint : constraintAt k after with e | _ | c
    · exact ⟨e, k, hk, Or.inl hconstraint⟩
    · exact absurd hconstraint (constraintAt_ne_none hread)
    · exact ⟨_, k, hk, Or.inr ⟨⟨c, hconstraint⟩,
        ownersAt_eq_error_iff.2 ⟨hunlisted, hnone, rfl⟩⟩⟩

/-- The scan fails exactly if it does at some leaf. -/
theorem ownedFrom_fails_iff :
    (∃ e, ownedFrom before leaves = .error e) ↔
      ∃ front l back, leaves = front ++ l :: back ∧
        ∃ e, ownedAt (front.reverse ++ before) l back = .error e := by
  induction leaves generalizing before with
  | nil =>
      refine iff_of_false ?_ ?_
      · rintro ⟨e, he⟩
        simp only [ownedFrom, reduceCtorEq] at he
      · rintro ⟨front, l, back, heq, -⟩
        exact List.append_ne_nil_of_right_ne_nil _ (List.cons_ne_nil _ _) heq.symm
  | cons l after ih =>
      have hrest := @ih (l :: before)
      rw [ownedFrom, exists_split_cons_iff]
      simp only [List.reverse_cons, List.reverse_nil, List.nil_append, List.append_assoc,
        List.singleton_append]
      rw [← hrest]
      cases ownedAt before l after with
      | error e => exact iff_of_true ⟨e, rfl⟩ (Or.inl ⟨e, rfl⟩)
      | ok here =>
          cases ownedFrom (l :: before) after with
          | error e => exact iff_of_true ⟨e, rfl⟩ (Or.inr ⟨e, rfl⟩)
          | ok rest => simp only [reduceCtorEq, exists_false, or_false]

theorem owned_fails_iff (hnone : ∀ m ∈ leaves, m.isColumn = false) :
    (∃ e, owned leaves = .error e) ↔
      (∃ l ∈ leaves, ∃ k, l.constraintKeyword? = some k ∧ k ∈ unreadConstraints) ∨
        ∃ front l back, leaves = front ++ l :: back ∧ ∃ k, l.constraintKeyword? = some k ∧
          k ∈ readConstraints ∧ (k = .primary ∨ k = .unique → listedColumns? back = none) := by
  have hfrom : (∃ e, ownedFrom [] leaves = .error e) ↔
      ∃ front l back, leaves = front ++ l :: back ∧ ∃ k, l.constraintKeyword? = some k ∧
        k ∈ readConstraints ∧ (k = .primary ∨ k = .unique → listedColumns? back = none) := by
    rw [ownedFrom_fails_iff]
    refine exists_congr fun front => exists_congr fun l => exists_congr fun back =>
      and_congr_right fun heq => ?_
    rw [List.append_nil]
    refine ownedAt_fails_iff fun m hm => hnone m ?_
    rw [heq]
    exact List.mem_append_left _ (List.mem_reverse.1 hm)
  rw [← hfrom]
  rcases owned_cases leaves with ⟨l, hl, k, hunread, hk, howned⟩ | ⟨hread, howned⟩
  · exact iff_of_true ⟨_, howned⟩ (Or.inl ⟨l, hl, k, hk, hunread⟩)
  · rw [howned]
    refine (or_iff_right ?_).symm
    rintro ⟨l, hl, k, hk, hunread⟩
    exact hread l hl k hunread hk

end Owners

/-! ### Definitions without columns -/

theorem misdeclared_of_no_column {leaves : List Leaf}
    (hnone : ∀ m ∈ leaves, m.isColumn = false) :
    Misdeclared leaves ↔ ∃ l ∈ leaves, ∃ type, l.Declares type := by
  constructor
  · intro h
    rcases misdeclared_iff.1 h with ⟨front, l, back, rfl, type, hdeclares, -⟩
    exact ⟨l, List.mem_append_right _ List.mem_cons_self, type, hdeclares⟩
  · rintro ⟨l, hl, type, hdeclares⟩
    rcases List.append_of_mem hl with ⟨front, back, heq⟩
    refine .homeless heq hdeclares fun m hm => hnone m ?_
    rw [heq]
    exact List.mem_append_left _ hm

theorem definedColumns_fails_iff {leaves : List Leaf} (hnone : ∀ m ∈ leaves, m.isColumn = false)
    (action : Action) : (∃ e, definedColumns action leaves = .error e) ↔ Wanting leaves := by
  have howned := owned_fails_iff hnone
  have hwanting : Wanting leaves ↔
      (∃ e, owned leaves = .error e) ∨ ∃ l ∈ leaves, ∃ type, l.Declares type := by
    rw [howned]
    constructor
    · intro h
      cases h with
      | type hl hdeclares => exact Or.inr ⟨_, hl, _, hdeclares⟩
      | unread hl hk hunread => exact Or.inl (Or.inl ⟨_, hl, _, hk, hunread⟩)
      | constraint heq hk hread hunlisted =>
          exact Or.inl (Or.inr ⟨_, _, _, heq, _, hk, hread, hunlisted⟩)
    · rintro ((⟨l, hl, k, hk, hunread⟩ | ⟨front, l, back, heq, k, hk, hread, hunlisted⟩) |
        ⟨l, hl, type, hdeclares⟩)
      · exact .unread hl hk hunread
      · exact .constraint heq hk hread hunlisted
      · exact .type hl hdeclares
  rw [hwanting]
  cases hall : owned leaves with
  | error e =>
      refine iff_of_true ⟨e, ?_⟩ (Or.inl ⟨e, rfl⟩)
      rw [definedColumns, hall]
  | ok all =>
      rw [(definedColumns_reading hall action).1, misdeclared_of_no_column hnone]
      simp only [reduceCtorEq, exists_false, false_or]

theorem columns_eq_nil_iff {leaves : List Leaf} {columns : List Column}
    (h : columns.map Column.name = (columnNames leaves).map some) :
    columns = [] ↔ ∀ l ∈ leaves, l.isColumn = false := by
  have hnames : columns = [] ↔ columnNames leaves = [] := by
    rw [← List.map_eq_nil_iff (f := Column.name), h, List.map_eq_nil_iff]
  rw [hnames, List.eq_nil_iff_forall_not_mem]
  simp only [mem_columnNames_iff, not_exists, not_and]
  refine ⟨fun hno l hl => Bool.eq_false_iff.2 fun hcolumn => hno l.value l hl hcolumn rfl,
    fun hnone name l hl hcolumn => ?_⟩
  exact absurd ((hnone l hl).symm.trans hcolumn) Bool.false_ne_true

theorem mentionedColumns_of_no_column {leaves : List Leaf}
    (hnone : ∀ m ∈ leaves, m.isColumn = false) (action : Action) :
    mentionedColumns action leaves = .ok [] := by
  rw [mentionedColumns, gather, gatherFrom_of_no_column hnone fun _ _ => rfl]

theorem exists_target_iff {leaves : List Leaf} :
    (∃ name, target leaves = .ok name) ↔ ∃ l ∈ leaves, l.isTarget = true := by
  rw [target]
  cases hfound : leaves.filter Leaf.isTarget with
  | nil =>
      refine iff_of_false ?_ ?_
      · rintro ⟨name, hname⟩
        simp only [reduceCtorEq] at hname
      · rintro ⟨l, hl, htarget⟩
        exact List.filter_eq_nil_iff.1 hfound l hl htarget
  | cons l rest =>
      exact iff_of_true ⟨_, rfl⟩ ⟨l, List.mem_filter.1 (hfound ▸ List.mem_cons_self)⟩

/-- A plan reads no columns off leaves that hold none, unless it reads definitions
    and something in them wants a column. -/
theorem TablePlan.columns_eq_nil_iff {plan : TablePlan} {action : Action}
    (hcolumn : plan.column = some action) {leaves : List Leaf} :
    plan.columns leaves = .ok [] ↔
      (∀ l ∈ leaves, l.isColumn = false) ∧ (plan.definitions = true → ¬Wanting leaves) := by
  rw [TablePlan.columns, hcolumn]
  cases plan.definitions with
  | false =>
      simp only [Bool.false_eq_true, if_false, false_implies, and_true]
      refine ⟨fun h => ?_, fun hnone => mentionedColumns_of_no_column hnone action⟩
      exact (SqlGist.columns_eq_nil_iff (names_gather h)).1 rfl
  | true =>
      simp only [if_true, true_implies]
      constructor
      · intro h
        rcases definedColumns_distribute h with ⟨-, -, hnames, -⟩
        have hnone := (SqlGist.columns_eq_nil_iff hnames).1 rfl
        refine ⟨hnone, fun hwanting => ?_⟩
        rcases (definedColumns_fails_iff hnone action).2 hwanting with ⟨e, he⟩
        simp only [h, reduceCtorEq] at he
      · rintro ⟨hnone, hwanting⟩
        cases hcolumns : definedColumns action leaves with
        | error e => exact absurd ((definedColumns_fails_iff hnone action).1 ⟨e, hcolumns⟩) hwanting
        | ok columns =>
            rcases definedColumns_distribute hcolumns with ⟨-, -, hnames, -⟩
            rw [(SqlGist.columns_eq_nil_iff hnames).2 hnone]

/-- A command that adds, changes or drops a column accepts a statement without any
    exactly if that names a table, no leaf of it is a column, and, unless a column
    is dropped, nothing in it wants one. -/
theorem columnless_iff {sql : String} {root : Group} {c : Command}
    (hroot : Group.ofText sql = .ok root)
    (htag : Command.ofTag? (normalizeTag (commandTag root)) = some c) (hc : c ∈ columnCommands) :
    (∃ t, classify sql = .ok (.table t) ∧ t.columns = []) ↔
      (∃ l ∈ root.leaves, l.isTarget = true) ∧ (∀ l ∈ root.leaves, l.isColumn = false) ∧
        (c ≠ .dropColumn → ¬Wanting root.leaves) := by
  have hplan : ∃ plan action, c.extraction = .table plan ∧ plan.column = some action ∧
      plan.filter = false ∧ (plan.definitions = true ↔ c ≠ .dropColumn) := by
    simp only [columnCommands, List.mem_cons, List.not_mem_nil, or_false] at hc
    rcases hc with rfl | rfl | rfl <;> exact ⟨_, _, rfl, rfl, rfl, by decide⟩
  rcases hplan with ⟨plan, action, hextraction, hcolumn, hfilter, hdefinitions⟩
  have hclassify : classify sql = (tableOf plan root).map .table := by
    simp only [classify, hroot, classifyTree, htag, Command.extract, hextraction, Extraction.run]
  rw [hclassify, ← exists_target_iff, ← hdefinitions, ← TablePlan.columns_eq_nil_iff hcolumn]
  constructor
  · rintro ⟨t, ht, hempty⟩
    rcases map_eq_ok.1 ht with ⟨t', ht', heq⟩
    rcases tableOf_eq_ok_iff.1 ht' with ⟨name, columns, filter, hname, hcolumns, -, rfl⟩
    rw [Entity.table.injEq] at heq
    rw [← heq] at hempty
    have hempty : columns = [] := hempty
    exact ⟨⟨name, hname⟩, hempty ▸ hcolumns⟩
  · rintro ⟨⟨name, hname⟩, hcolumns⟩
    have hnofilter : filterIf plan.filter root = .ok none := by
      rw [hfilter]
      rfl
    refine ⟨⟨name, plan.table, [], none⟩, map_eq_ok.2 ⟨_, ?_, rfl⟩, rfl⟩
    exact tableOf_eq_ok_iff.2 ⟨name, [], none, hname, hcolumns, hnofilter, rfl⟩

/-- A name is added without a type, and it is no column. -/
theorem columnless_iff_untyped :
    ∃ root, Group.ofText "ALTER TABLE t ADD a" = .ok root ∧
      Command.ofTag? (normalizeTag (commandTag root)) = some .addColumn ∧
      .addColumn ∈ columnCommands ∧
      ((∃ t, classify "ALTER TABLE t ADD a" = .ok (.table t) ∧ t.columns = []) ↔
        (∃ l ∈ root.leaves, l.isTarget = true) ∧ (∀ l ∈ root.leaves, l.isColumn = false) ∧
          (Command.addColumn ≠ .dropColumn → ¬Wanting root.leaves)) := by
  have hcheck : (Group.ofText "ALTER TABLE t ADD a").toOption.any
      (fun root => Command.ofTag? (normalizeTag (commandTag root)) = some .addColumn) = true := by
    decide +kernel
  rcases exists_of_toOption_any hcheck with ⟨root, hroot, htag⟩
  have htag := of_decide_eq_true htag
  have hc : .addColumn ∈ columnCommands := by decide
  exact ⟨root, hroot, htag, hc, columnless_iff hroot htag hc⟩

/-- A statement that drops no column is accepted. -/
theorem columnless_of_drop :
    ¬∀ (sql : String) (root : Group) (c : Command) (t : Table), Group.ofText sql = .ok root →
      Command.ofTag? (normalizeTag (commandTag root)) = some c → c ∈ columnCommands →
        classify sql = .ok (.table t) → t.columns ≠ [] := by
  intro hall
  have htree : (Group.ofText "ALTER TABLE t DROP COLUMN").toOption.any
      (fun root => Command.ofTag? (normalizeTag (commandTag root)) = some .dropColumn) = true := by
    decide +kernel
  have htable : ((classify "ALTER TABLE t DROP COLUMN").toOption.bind Entity.table?).any
      (fun t => decide (t.columns = [])) = true := by
    decide +kernel
  rcases exists_of_toOption_any htree with ⟨root, hroot, htag⟩
  rcases exists_table_of_any htable with ⟨t, ht, hempty⟩
  exact hall _ root _ t hroot (of_decide_eq_true htag) (by decide) ht (of_decide_eq_true hempty)

end SqlGist
