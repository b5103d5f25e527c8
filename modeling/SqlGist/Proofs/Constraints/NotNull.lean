import SqlGist.Proofs.Constraints.Columns
import SqlGist.Proofs.Dispatch
import SqlGist.Proofs.Token.NotNull
import SqlGist.Proofs.Tree.Lossless

/-!
# Modifying a Column to `NOT NULL`

The command is named by its tag, and its constraint by a keyword. The tag runs
the keywords together, so it is the same whether `NOT NULL` is one keyword or
two; the constraint needs the one. A statement of this command therefore adds
the constraint to a column whenever the two words are one keyword, and may add
none where something other than blanks keeps them apart.

## Main definitions

* `notNullConstraint`: What `NOT NULL` stands for.
* `Group.KeepsApart`: Something stands between `NOT` and `NULL`.

## Theorems

* `exists_keyword_of_ownedFrom`, `exists_keyword_of_column`: A constraint comes
  from a keyword.
* `notNull_on_column_iff`: When a defined column has the constraint.
* `keepsApart_of_keywords`: What separates two keywords `NOT` and `NULL`.
* `modifyNotNull_delivers`: When the command adds the constraint.
* `not_delivered_across_comment`: A comment between the words loses it.
-/

namespace SqlGist

/-- The constraint that `NOT NULL` stands for. -/
def notNullConstraint : Constraint :=
  ⟨.notNull, "notnull", .addConstraint⟩

theorem constraintAt_eq_notNull_iff {k : Keyword} {after : List Leaf} :
    constraintAt k after = .ok (some notNullConstraint) ↔ k = .notNull := by
  constructor
  · intro h
    rw [constraintAt.eq_def] at h
    split at h
    · exact absurd h (by decide)
    · rfl
    · exact absurd h (by decide)
    · split at h
      · exact absurd h (by decide)
      · simp only [Except.ok.injEq, Option.some.injEq, notNullConstraint, Constraint.mk.injEq,
          reduceCtorEq, false_and] at h
    · exact absurd h (by decide)
  · rintro rfl
    rfl

/-- Every constraint is the one that some keyword stands for. -/
theorem exists_keyword_of_ownedFrom {before leaves : List Leaf} {all : List Owned}
    (h : ownedFrom before leaves = .ok all) {o : Owned} (ho : o ∈ all) :
    ∃ front l after k, leaves = front ++ l :: after ∧ l.constraintKeyword? = some k ∧
      constraintAt k after = .ok (some o.constraint) := by
  induction leaves generalizing before all with
  | nil =>
      obtain rfl := Except.ok.inj h
      exact absurd ho List.not_mem_nil
  | cons l after ih =>
      rcases ownedFrom_cons_eq_ok_iff.1 h with ⟨here, rest, hhere, hrest, rfl⟩
      rcases List.mem_append.1 ho with ho | ho
      · rcases ownedAt_eq_ok_iff.1 hhere with ⟨rfl, -⟩ | ⟨k, hk, c, hc, columns, -, rfl⟩
        · exact absurd ho List.not_mem_nil
        · rcases List.mem_map.1 ho with ⟨name, -, rfl⟩
          exact ⟨[], l, after, k, rfl, hk, hc⟩
      · rcases ih hrest ho with ⟨front, m, behind, k, rfl, hk, hc⟩
        exact ⟨l :: front, m, behind, k, rfl, hk, hc⟩

theorem exists_keyword_of_column {action : Action} {leaves : List Leaf} {columns : List Column}
    (h : definedColumns action leaves = .ok columns) {column : Column} (hcolumn : column ∈ columns)
    {c : Constraint} (hc : c ∈ column.constraints) :
    ∃ front l after k, leaves = front ++ l :: after ∧ l.constraintKeyword? = some k ∧
      constraintAt k after = .ok (some c) := by
  rcases definedColumns_distribute h with ⟨all, hall, -, -, hown⟩
  rw [hown column hcolumn] at hc
  cases hname : column.name with
  | none =>
      rw [hname] at hc
      exact absurd hc List.not_mem_nil
  | some name =>
      rw [hname] at hc
      rcases List.mem_map.1 hc with ⟨o, ho, rfl⟩
      exact exists_keyword_of_ownedFrom (ownedFrom_of_owned hall) (List.mem_filter.1 ho).1

/-- A defined column has the constraint exactly if `NOT NULL` stands outside the
    condition as one keyword. -/
theorem notNull_on_column_iff {action : Action} {leaves : List Leaf} {columns : List Column}
    (h : definedColumns action leaves = .ok columns) :
    (∃ column ∈ columns, notNullConstraint ∈ column.constraints) ↔
      ∃ l ∈ leaves, l.constraintKeyword? = some .notNull := by
  rcases definedColumns_distribute h with ⟨all, hall, hnames, howners, hown⟩
  have hfrom := ownedFrom_of_owned hall
  constructor
  · rintro ⟨column, hcolumn, hmem⟩
    rcases exists_keyword_of_column h hcolumn hmem with ⟨front, l, after, k, rfl, hk, hc⟩
    rw [constraintAt_eq_notNull_iff] at hc
    exact ⟨l, List.mem_append_right _ List.mem_cons_self, hc ▸ hk⟩
  · rintro ⟨l, hl, hk⟩
    rcases List.append_of_mem hl with ⟨before, after, rfl⟩
    rcases exists_ownedAt_of_ownedFrom hfrom with ⟨front, here, back, hhere, rfl⟩
    have hc : constraintAt .notNull after = .ok (some notNullConstraint) := rfl
    rcases ownedAt_eq_ok_iff.1 hhere with ⟨-, hnone⟩ | ⟨k, hk', c, hc', names, howner, rfl⟩
    · exact absurd ((hnone _ hk).symm.trans hc) (by decide)
    · obtain rfl : k = .notNull := Option.some.inj (hk'.symm.trans hk)
      obtain rfl : c = notNullConstraint := by
        rw [hc, Except.ok.injEq, Option.some.injEq] at hc'
        exact hc'.symm
      -- Its owner is the nearest column in front, which is one of the columns.
      rcases ownersAt_eq_ok_iff.1 howner with ⟨hkey, -⟩ | ⟨-, m, -, rfl⟩
      · exact absurd hkey (by decide)
      have howned : (⟨m.value, notNullConstraint⟩ : Owned) ∈
          front ++ ([m.value].map (fun name => (⟨name, notNullConstraint⟩ : Owned)) ++ back) :=
        List.mem_append_right _ (List.mem_append_left _ List.mem_cons_self)
      have hname : some m.value ∈ columns.map Column.name := by
        rw [hnames]
        exact List.mem_map_of_mem (howners _ howned)
      rcases List.mem_map.1 hname with ⟨column, hcolumn, hname⟩
      refine ⟨column, hcolumn, ?_⟩
      rw [hown column hcolumn, hname]
      exact List.mem_map.2 ⟨_, List.mem_filter.2 ⟨howned, decide_eq_true rfl⟩, rfl⟩

/-- A keyword outside all groups is a leaf outside the condition. -/
theorem exists_leaf_of_keywords {root : Group} (hshape : root.shape ≠ .whereClause) {k : Keyword}
    (hk : k ∈ root.keywords) : ∃ l ∈ root.leaves, l.constraintKeyword? = some k := by
  rcases Node.exists_keyword_leaf hk root [] 0 with ⟨t, place, hkeyword, hmem⟩
  refine ⟨_, hmem, ?_⟩
  have hout : Leaf.inWhere ⟨t, [⟨root, place⟩]⟩ = false := by
    rw [Leaf.inWhere, Leaf.hasAncestor, List.any_cons, List.any_nil, Bool.or_false]
    exact decide_eq_false hshape
  exact Leaf.constraintKeyword?_eq_some_iff.2 ⟨hout, hkeyword⟩

/-- `NOT` and `NULL` follow each other among the keywords outside all groups, and
    something between them is no blank. -/
def Group.KeepsApart (root : Group) : Prop :=
  ∃ front n gap m back, root.children = front ++ .leaf n :: (gap ++ .leaf m :: back) ∧
    n.keyword? = some .not ∧ m.keyword? = some .null ∧ (∀ g ∈ gap, g.keyword? = none) ∧
      ∃ c ∈ (Node.textOf gap).toList, CharClass.isBlank c = false

theorem keepsApart_of_keywords {sql : String} {root : Group} {front back : List Keyword}
    (hroot : Group.ofText sql = .ok root) (h : root.keywords = front ++ .not :: .null :: back) :
    root.KeepsApart := by
  rcases List.filterMap_eq_append_iff.1 h with ⟨first, last, hchildren, -, hlast⟩
  rcases List.filterMap_eq_cons_iff.1 hlast with ⟨pre, n, rest, rfl, -, hn, hrest⟩
  rcases List.filterMap_eq_cons_iff.1 hrest with ⟨gap, m, behind, rfl, hgap, hm, -⟩
  cases n with
  | group shape children => exact absurd hn.symm (Option.some_ne_none _)
  | leaf n =>
  cases m with
  | group shape children => exact absurd hm.symm (Option.some_ne_none _)
  | leaf m =>
  refine ⟨first ++ pre, n, gap, m, behind, ?_, hn, hm, hgap, ?_⟩
  · rw [hchildren, List.append_assoc]
  · -- The nodes stand next to each other in the text, and so do their tokens.
    rcases ofText_tokens hroot with ⟨statement, hread, hleaves⟩
    rcases (isFirstStatement_of_readStatement hread).2 with ⟨before, after, htokens, -⟩
    rw [← hleaves, Group.leaves_tokens, Group.toNode, Node.tokens, hchildren] at htokens
    simp only [Node.tokensOf_append, Node.tokensOf, Node.tokens, List.append_assoc,
      List.cons_append] at htokens
    rw [← List.append_assoc, ← List.append_assoc] at htokens
    have hblank := exists_not_blank_between htokens hn hm
    rwa [Token.textsOf, ← Node.textOf_eq_tokens] at hblank

/-- A statement that modifies a column to `NOT NULL` adds this constraint exactly
    if the two words are one keyword somewhere outside the condition. That is so
    unless they stand outside all groups as two keywords, and then more than
    blanks is between them. -/
theorem modifyNotNull_delivers {sql : String} {e : Entity} (h : classify sql = .ok e)
    (htag : statementTag sql = .ok Command.modifyNotNull.tag) :
    ∃ root t, Group.ofText sql = .ok root ∧ e = .table t ∧ t.action = .addConstraint ∧
      ((∃ column ∈ t.columns, notNullConstraint ∈ column.constraints) ↔
        ∃ l ∈ root.leaves, l.constraintKeyword? = some .notNull) ∧
      ((∃ column ∈ t.columns, notNullConstraint ∈ column.constraints) ∨ root.KeepsApart) := by
  rcases classify_eq_ok_iff.1 h with ⟨root, c, hroot, hcommand, -⟩
  have hextract := extract_of_tag h htag hroot
  rcases exists_definedColumns (by decide) hextract with ⟨t, action, rfl, hcolumns⟩
  have hiff := notNull_on_column_iff hcolumns
  refine ⟨root, t, hroot, rfl, ?_, hiff, ?_⟩
  · exact (run_eq_table hextract).1
  · have hexpand : expand root.keywords = [.alter, .table, .modify, .not, .null] :=
      names_of_statementTag htag hroot
    rcases exists_of_expand_eq_cons (by decide) hexpand with ⟨_, hks, htable⟩
    rcases exists_of_expand_eq_cons (by decide) htable with ⟨_, rfl, hmodify⟩
    rcases exists_of_expand_eq_cons (by decide) hmodify with ⟨_, rfl, hlast⟩
    rcases eq_of_expand_eq_pair hlast with rfl | ⟨k, rfl, hk⟩
    · exact Or.inr (@keepsApart_of_keywords _ _ [.alter, .table, .modify] [] hroot hks)
    · obtain rfl : k = .notNull := Keyword.parts_injective hk
      have hmem : .notNull ∈ root.keywords := by
        rw [hks]
        decide
      have hshape : root.shape ≠ .whereClause := by
        rcases ofText_eq_ok_iff.1 hroot with ⟨_, _, -, -, rfl⟩
        exact Shape.noConfusion
      exact Or.inl (hiff.2 (exists_leaf_of_keywords hshape hmem))

/-- Cases do not matter, and neither do several blanks. -/
theorem modifyNotNull_delivers_blanks :
    ∃ e root t, classify "alter table t modify a int not \t null" = .ok e ∧
      statementTag "alter table t modify a int not \t null" = .ok Command.modifyNotNull.tag ∧
        Group.ofText "alter table t modify a int not \t null" = .ok root ∧ e = .table t ∧
          t.action = .addConstraint ∧
          ((∃ column ∈ t.columns, notNullConstraint ∈ column.constraints) ↔
            ∃ l ∈ root.leaves, l.constraintKeyword? = some .notNull) ∧
          ((∃ column ∈ t.columns, notNullConstraint ∈ column.constraints) ∨ root.KeepsApart) := by
  have hok : (classify "alter table t modify a int not \t null").toOption.isSome = true := by
    decide +kernel
  have htag : (statementTag "alter table t modify a int not \t null").toOption =
      some Command.modifyNotNull.tag := by
    decide +kernel
  rcases Option.isSome_iff_exists.1 hok with ⟨e, he⟩
  have he := eq_ok_of_toOption he
  have htag := eq_ok_of_toOption htag
  rcases modifyNotNull_delivers he htag with ⟨root, t, hrest⟩
  exact ⟨e, root, t, he, htag, hrest⟩

/-- A comment between the two words loses the constraint: the statement is still
    taken for this command, and its column has none. -/
theorem not_delivered_across_comment :
    ∃ t, classify "ALTER TABLE t MODIFY a int NOT /* c */ NULL" = .ok (.table t) ∧
      statementTag "ALTER TABLE t MODIFY a int NOT /* c */ NULL" =
          .ok Command.modifyNotNull.tag ∧
        t.action = .addConstraint ∧
          ¬∃ column ∈ t.columns, notNullConstraint ∈ column.constraints := by
  have hcheck : ((classify "ALTER TABLE t MODIFY a int NOT /* c */ NULL").toOption.bind
      Entity.table?).any (fun t => decide (t.action = .addConstraint) &&
        t.columns.all fun column => !column.constraints.contains notNullConstraint) = true := by
    decide +kernel
  have htag : (statementTag "ALTER TABLE t MODIFY a int NOT /* c */ NULL").toOption =
      some Command.modifyNotNull.tag := by
    decide +kernel
  rcases exists_table_of_any hcheck with ⟨t, ht, hcheck⟩
  rw [Bool.and_eq_true, decide_eq_true_eq, List.all_eq_true] at hcheck
  refine ⟨t, ht, eq_ok_of_toOption htag, hcheck.1, ?_⟩
  rintro ⟨column, hcolumn, hmem⟩
  have hnone := hcheck.2 column hcolumn
  rw [List.contains_iff_mem.2 hmem] at hnone
  exact Bool.false_ne_true hnone

end SqlGist
