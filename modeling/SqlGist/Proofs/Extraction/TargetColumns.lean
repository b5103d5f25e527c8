import SqlGist.Proofs.Extraction.Targets
import SqlGist.Proofs.Writes.Assignments

/-!
# Targets That Are Columns

Whether a leaf is a target and whether it is a column are asked apart, and a name
directly in a statement can be both. It is told a column by its neighbours, a
type behind it or a `COLUMN` in front, and a target whatever they are. So a
statement without a table, whose only name stands behind `COLUMN`, takes that
for its table, and is no mismatch.

The name of a call is never both, since nothing in a call is a column but what
stands in its parentheses.

## Main definitions

* `TakenForColumn`: The neighbours between which a name is a column.

## Theorems

* `holdsColumn_statement`: The same, asked of a place in a statement.
* `exists_target_leaf`: When the target of a child is a column.
* `named_by_targets`: Which targets name an entity and its constraint, and which
  of them are columns.
* `isColumn_target_of_missing_table`: A column that is taken for the table.
-/

namespace SqlGist

/-- A name directly in a statement is taken for a column between these neighbours,
    the nearest ones that are no blanks: behind `COLUMN`, unless a point follows,
    or before a type, unless it names a constraint. -/
def TakenForColumn (before after : Option Node) : Prop :=
  (∃ n, before = some n ∧ n.keyword? = some .column) ∧
      (∀ n, after = some n → n.isMark "." = false) ∨
    (∃ n, after = some n ∧ n.isType = true) ∧
      ∀ n, before = some n → n.keyword? ≠ some .constraint

namespace Node

theorem isMark_of_isType {n : Node} (h : n.isType = true) (mark : String) :
    n.isMark mark = false := by
  cases n with
  | group => rfl
  | leaf t =>
      rw [isType, Bool.or_eq_true] at h
      have hbuiltin : t.kind = .builtin :=
        of_decide_eq_true (h.resolve_left Bool.false_ne_true)
      exact Token.isMark_eq_false (by rw [hbuiltin]; exact TokenKind.noConfusion) mark

theorem getLast?_visibleOf (ns : List Node) :
    (visibleOf ns).getLast? = ns.reverse.find? fun n => !n.isWhitespace := by
  rw [← List.head?_reverse, visibleOf, ← List.filter_reverse, List.head?_filter]

end Node

section Place

variable {root : Group} (hshape : root.shape = .statement) {front back : List Node} {n : Node}
  (hchildren : root.children = front ++ n :: back)

include hshape hchildren

theorem holdsColumn_statement :
    Frame.holdsColumn ⟨root, front.length⟩ = true ↔
      TakenForColumn (Node.visibleOf front).getLast? (Node.visibleOf back).head? := by
  have hprev : Frame.prev? ⟨root, front.length⟩ = (Node.visibleOf front).getLast? := by
    rw [Frame.prev?_of_eq hchildren, Node.getLast?_visibleOf]
  have hnext : Frame.next? ⟨root, front.length⟩ = (Node.visibleOf back).head? := by
    rw [Frame.next?_of_eq hchildren, Node.visibleOf, List.head?_filter]
  have hframe : Frame.shape ⟨root, front.length⟩ = .statement := hshape
  rw [Frame.holdsColumn, hprev, hnext, hframe]
  -- What stands in front cannot be both keywords, nor what follows a type and a point.
  generalize (Node.visibleOf front).getLast? = before
  generalize (Node.visibleOf back).head? = after
  simp only [TakenForColumn, Bool.and_eq_true, Bool.or_eq_true, Bool.not_eq_true',
    Option.any_eq_true, Option.any_eq_false, decide_eq_true_eq, decide_eq_false_iff_not]
  constructor
  · rintro ⟨⟨hconstraint, hpoint⟩, htype | hcolumn⟩
    · exact Or.inr ⟨htype, hconstraint⟩
    · exact Or.inl ⟨hcolumn, hpoint⟩
  · rintro (⟨⟨m, rfl, hcolumn⟩, hpoint⟩ | ⟨⟨m, rfl, htype⟩, hconstraint⟩)
    · refine ⟨⟨fun k hk => ?_, hpoint⟩, Or.inr ⟨m, rfl, hcolumn⟩⟩
      rw [← Option.some.inj hk, hcolumn]
      decide
    · refine ⟨⟨hconstraint, fun k hk => ?_⟩, Or.inl ⟨m, rfl, htype⟩⟩
      rw [← Option.some.inj hk, Node.isMark_of_isType htype]

/-- The target of a child is a column exactly if the child is a name, and no call,
    between such neighbours. -/
theorem exists_target_leaf {t : Token} (ht : n.target? = some t) :
    ∃ l ∈ n.leaves [⟨root, front.length⟩], l.token = t ∧ l.isTarget = true ∧
      (l.isColumn = true ↔ n.isGroup .nameRef = true ∧
        TakenForColumn (Node.visibleOf front).getLast? (Node.visibleOf back).head?) := by
  have houtside := outside_of_statement hshape
  have hf : Frame.shape ⟨root, front.length⟩ = .statement := hshape
  rcases Node.target?_eq_some_iff.1 ht with ⟨hname, rfl | ⟨rest, rfl⟩⟩
  · refine ⟨⟨t, [⟨⟨.nameRef, [.leaf t]⟩, 0⟩, ⟨root, front.length⟩]⟩, List.mem_cons_self, rfl,
      Node.isTarget_name hf hname, ?_⟩
    rw [isColumn_nameRef hname houtside, holdsColumn_statement hshape hchildren]
    exact (and_iff_right rfl).symm
  · refine ⟨⟨t, [⟨⟨.nameRef, [.leaf t]⟩, 0⟩, ⟨⟨.functionCall, Node.nameRef (.leaf t) :: rest⟩, 0⟩,
      ⟨root, front.length⟩]⟩, List.mem_cons_self, rfl, Node.isTarget_call hf hname rest, ?_⟩
    have hcall :
        Frame.holdsColumn ⟨⟨.functionCall, Node.nameRef (.leaf t) :: rest⟩, 0⟩ = false := by
      simp only [Frame.holdsColumn, Frame.shape, Bool.and_false]
    rw [isColumn_nameRef hname (houtside.inner Shape.noConfusion _), hcall]
    exact iff_of_false Bool.false_ne_true fun h => Bool.false_ne_true h.1

end Place

/-- A statement with the tag of a command is named by its targets, the names and
    calls among its children. It is a mismatch if they are too few. If they are
    not, the first names the entity, and the second the constraint of a command
    about a named one. A target is a column as well exactly if it is a name that
    its neighbours make one. -/
theorem named_by_targets {sql : String} {root : Group} {c : Command}
    (hroot : Group.ofText sql = .ok root)
    (hc : Command.ofTag? (normalizeTag (commandTag root)) = some c) :
    ((Node.targets root.children).length < c.targets →
      classify sql = .error (.mismatch
        (.missingTargets c.targets (Node.targets root.children).length))) ∧
    (∀ e, classify sql = .ok e →
      (∃ u rest, Node.targets root.children = u :: rest ∧ e.name = u.value) ∧
      (c.targets = 2 → ∃ u v rest, Node.targets root.children = u :: v :: rest ∧
        e.columns ≠ [] ∧
        ∀ column ∈ e.columns, column.constraints.map Constraint.name = [v.value])) ∧
    ∀ front n back t, root.children = front ++ n :: back → n.target? = some t →
      ∃ l ∈ n.leaves [⟨root, front.length⟩], l.token = t ∧ l.isTarget = true ∧
        (l.isColumn = true ↔ n.isGroup .nameRef = true ∧
          TakenForColumn (Node.visibleOf front).getLast? (Node.visibleOf back).head?) := by
  have hstatement := isStatement_of_ofText hroot
  have hclassify : classify sql = c.extract root := by
    simp only [classify, hroot, classifyTree, hc]
  rw [hclassify]
  refine ⟨fun hmissing => ?_, fun e he => ⟨Extraction.name_of_run hstatement he, fun htwo => ?_⟩,
    fun front n back t hchildren ht => exists_target_leaf hstatement.shape hchildren ht⟩
  · rw [← c.targets_extraction] at hmissing ⊢
    exact Extraction.run_of_missing hstatement hmissing
  · rw [← c.targets_extraction] at htwo
    rcases Extraction.constraint_of_run hstatement htwo he with ⟨u, v, rest, htargets, -, hrest⟩
    exact ⟨u, v, rest, htargets, hrest⟩

/-- A constraint is named by the second target, which is no column. -/
theorem named_by_targets_constraint :
    ∃ root, Group.ofText "ALTER TABLE t ADD CONSTRAINT c UNIQUE (a)" = .ok root ∧
      Command.ofTag? (normalizeTag (commandTag root)) = some .addUnique ∧
      ∀ e, classify "ALTER TABLE t ADD CONSTRAINT c UNIQUE (a)" = .ok e →
        ∃ u v rest, Node.targets root.children = u :: v :: rest ∧ e.columns ≠ [] ∧
          ∀ column ∈ e.columns, column.constraints.map Constraint.name = [v.value] := by
  have hcheck : (Group.ofText "ALTER TABLE t ADD CONSTRAINT c UNIQUE (a)").toOption.any
      (fun root => Command.ofTag? (normalizeTag (commandTag root)) = some .addUnique) = true := by
    decide +kernel
  rcases exists_of_toOption_any hcheck with ⟨root, hroot, htag⟩
  have htag := of_decide_eq_true htag
  exact ⟨root, hroot, htag, fun e he => ((named_by_targets hroot htag).2.1 e he).2 rfl⟩

/-- Without a table, the column behind `COLUMN` is taken for the table, and it is
    one of the columns of that table too. -/
theorem isColumn_target_of_missing_table :
    ∃ root l t, Group.ofText "ALTER TABLE DROP COLUMN a" = .ok root ∧
      root.leaves.filter Leaf.isTarget = [l] ∧ l.isColumn = true ∧
      classify "ALTER TABLE DROP COLUMN a" = .ok (.table t) ∧ t.name = l.value ∧
      t.columnNames = [l.value] := by
  have htree : (Group.ofText "ALTER TABLE DROP COLUMN a").toOption.any (fun root =>
      ((root.leaves.filter Leaf.isTarget).map fun l => (l.value, l.isColumn)) = [("a", true)]) =
        true := by
    decide +kernel
  have htable : ((classify "ALTER TABLE DROP COLUMN a").toOption.bind Entity.table?).any
      (fun t => decide (t.name = "a") && decide (t.columnNames = ["a"])) = true := by
    decide +kernel
  rcases exists_of_toOption_any htree with ⟨root, hroot, htargets⟩
  rcases exists_table_of_any htable with ⟨t, ht, hnames⟩
  rcases List.map_eq_singleton_iff.1 (of_decide_eq_true htargets) with ⟨l, hl, hread⟩
  rw [Prod.mk.injEq] at hread
  rw [Bool.and_eq_true, decide_eq_true_eq, decide_eq_true_eq] at hnames
  exact ⟨root, l, t, hroot, hl, hread.2, ht, hread.1 ▸ hnames.1, hread.1 ▸ hnames.2⟩

end SqlGist
