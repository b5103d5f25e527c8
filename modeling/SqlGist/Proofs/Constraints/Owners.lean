import SqlGist.Proofs.Extraction.Scanning

/-!
# Owners of Constraints

A constraint belongs to columns, and these are columns of the statement: the
nearest one in front of its keyword, or those in the parenthesis right behind
it. So whatever the scan over the leaves finds is owned by a leaf that it has
passed or is about to pass.

The other direction is where the two ways of finding owners part. A nearest
column is one column, or the scan fails for the lack of it. A parenthesis is
read for its columns without asking whether it holds any, so the constraint of
`PRIMARY KEY ()` is owned by nobody and is not reported.
`constraint_unowned_iff` says that nothing else gets lost.

## Main definitions

* `readConstraints`: The keywords of constraints that are read.

## Theorems

* `ownersAt_eq_ok_iff`, `ownedAt_eq_ok_iff`: What a keyword contributes.
* `constraintAt_eq_error_iff`, `ownersAt_eq_error_iff`, `ownedAt_eq_error_iff`:
  When a keyword fails.
* `exists_column_of_ownedAt`, `exists_column_of_ownedFrom`: Owners are columns
  of the statement.
* `exists_ownedAt_of_ownedFrom`: Each leaf contributes its own stretch.
* `ownedFrom_eq_error`: How the scan can fail.
* `constraint_unowned_iff`: When a constraint has no owner.
* `unowned_of_empty_key`: A key of no columns has none.
-/

namespace SqlGist

/-- The keywords of constraints that are read. -/
def readConstraints : List Keyword :=
  [.primary, .notNull, .unique, .default]

section Contributions

variable {k : Keyword} {before after : List Leaf} {l : Leaf}

/-- The owners of a constraint are the columns listed behind a key, or the
    nearest column in front where none are listed. -/
theorem ownersAt_eq_ok_iff {columns : List String} :
    ownersAt k before after = .ok columns ↔
      (k = .primary ∨ k = .unique) ∧ listedColumns? after = some columns ∨
        (k = .primary ∨ k = .unique → listedColumns? after = none) ∧
          ∃ l, before.find? Leaf.isColumn = some l ∧ columns = [l.value] := by
  have hnearest : nearestColumn k before = .ok columns ↔
      ∃ l, before.find? Leaf.isColumn = some l ∧ columns = [l.value] := by
    rw [nearestColumn]
    cases before.find? Leaf.isColumn with
    | none => simp only [reduceCtorEq, false_and, exists_false]
    | some l => simp only [Except.ok.injEq, Option.some.injEq, exists_eq_left', eq_comm]
  rw [ownersAt]
  by_cases hkey : k = .primary ∨ k = .unique
  · rw [if_pos hkey]
    cases hlist : listedColumns? after with
    | none => simp only [hnearest, reduceCtorEq, and_false, implies_true, true_and, false_or]
    | some listed =>
        simp only [hkey, Except.ok.injEq, Option.some.injEq, reduceCtorEq, true_and, true_implies,
          false_and, or_false]
  · rw [if_neg hkey, hnearest]
    simp only [hkey, false_and, false_implies, true_and, false_or]

/-- A keyword that introduces a constraint contributes it to each of its
    owners, and any other leaf contributes nothing. -/
theorem ownedAt_eq_ok_iff {here : List Owned} :
    ownedAt before l after = .ok here ↔
      here = [] ∧ (∀ k, l.constraintKeyword? = some k → constraintAt k after = .ok none) ∨
        ∃ k, l.constraintKeyword? = some k ∧ ∃ c, constraintAt k after = .ok (some c) ∧
          ∃ columns, ownersAt k before after = .ok columns ∧
            here = columns.map fun column => ⟨column, c⟩ := by
  rw [ownedAt]
  cases l.constraintKeyword? with
  | none =>
      simp only [Except.ok.injEq, reduceCtorEq, false_implies, implies_true, and_true, false_and,
        exists_false, or_false, eq_comm]
  | some k =>
      simp only [Option.some.injEq, forall_eq', exists_eq_left']
      rcases constraintAt k after with e | _ | c
      · simp only [reduceCtorEq, and_false, false_and, exists_false, or_false]
      · simp only [Except.ok.injEq, and_true, reduceCtorEq, false_and, exists_false, or_false,
          eq_comm]
      · simp only [Except.ok.injEq, reduceCtorEq, and_false, Option.some.injEq, exists_eq_left',
          false_or]
        cases ownersAt k before after with
        | error e => simp only [reduceCtorEq, false_and, exists_false]
        | ok columns => simp only [Except.ok.injEq, exists_eq_left', eq_comm]

/-- The keywords of constraints that are read stand for one, whatever
    follows, unless they fail. -/
theorem constraintAt_ne_none (hread : k ∈ readConstraints) : constraintAt k after ≠ .ok none := by
  intro h
  rw [constraintAt.eq_def] at h
  split at h
  · simp only [Except.ok.injEq, reduceCtorEq] at h
  · simp only [Except.ok.injEq, reduceCtorEq] at h
  · simp only [Except.ok.injEq, reduceCtorEq] at h
  · split at h
    · simp only [reduceCtorEq] at h
    · simp only [Except.ok.injEq, reduceCtorEq] at h
  · rename_i hprimary hnull hunique hdefault
    simp only [readConstraints, List.mem_cons, List.not_mem_nil, or_false] at hread
    rcases hread with hk | hk | hk | hk
    · exact hprimary hk
    · exact hnull hk
    · exact hunique hk
    · exact hdefault hk

theorem constraintAt_of_not_read (h : k ∉ readConstraints) : constraintAt k after = .ok none := by
  fun_cases constraintAt k after with
  | case6 => rfl
  | _ => exact absurd (by decide) h

theorem constraintAt_eq_error_iff {e : ClassifyError} :
    constraintAt k after = .error e ↔
      k = .default ∧ skipBlanks after = [] ∧ e = .malformedConstraint .default := by
  fun_cases constraintAt k after with
  | case4 hnil => simp only [Except.error.injEq, hnil, true_and, eq_comm]
  | case5 l rest hcons => simp only [reduceCtorEq, hcons, false_and, and_false]
  | case6 _ _ _ _ hdefault =>
      refine iff_of_false ?_ fun h => hdefault h.1
      simp only [reduceCtorEq, not_false_eq_true]
  | _ => simp only [reduceCtorEq, false_and]

/-- The keyword of a constraint that is read stands for one, unless it is a
    `DEFAULT` with nothing but blanks behind it. -/
theorem exists_constraintAt_iff :
    (∃ c, constraintAt k after = .ok (some c)) ↔
      k ∈ readConstraints ∧ (k = .default → skipBlanks after ≠ []) := by
  rcases hc : constraintAt k after with e | _ | c
  · rcases constraintAt_eq_error_iff.1 hc with ⟨rfl, hnil, -⟩
    simp only [reduceCtorEq, exists_false, hnil, ne_eq, not_true, imp_false, and_false]
  · simp only [Except.ok.injEq, reduceCtorEq, exists_false, false_iff]
    exact fun h => constraintAt_ne_none h.1 hc
  · refine iff_of_true ⟨c, rfl⟩ ⟨?_, fun hdefault hnil => ?_⟩
    · by_contra hread
      simp only [constraintAt_of_not_read hread, Except.ok.injEq, reduceCtorEq] at hc
    · simp only [constraintAt_eq_error_iff.2 ⟨hdefault, hnil, rfl⟩, reduceCtorEq] at hc

/-- A constraint has no owner if no columns are listed behind it and none is in
    front. -/
theorem ownersAt_eq_error_iff {e : ClassifyError} :
    ownersAt k before after = .error e ↔
      (k = .primary ∨ k = .unique → listedColumns? after = none) ∧
        (∀ m ∈ before, m.isColumn = false) ∧ e = .mismatch (.constraintWithoutColumn k) := by
  have hnearest : nearestColumn k before = .error e ↔
      (∀ m ∈ before, m.isColumn = false) ∧ e = .mismatch (.constraintWithoutColumn k) := by
    have hnone : before.find? Leaf.isColumn = none ↔ ∀ m ∈ before, m.isColumn = false := by
      simp only [List.find?_eq_none, Bool.not_eq_true]
    rw [nearestColumn, ← hnone]
    cases before.find? Leaf.isColumn with
    | none => simp only [Except.error.injEq, true_and, eq_comm]
    | some m => simp only [reduceCtorEq, false_and]
  rw [ownersAt, ← hnearest]
  by_cases hkey : k = .primary ∨ k = .unique
  · rw [if_pos hkey, imp_iff_right hkey]
    cases listedColumns? after with
    | none => simp only [true_and]
    | some columns => simp only [reduceCtorEq, false_and]
  · rw [if_neg hkey]
    exact (and_iff_right fun h => absurd h hkey).symm

/-- A leaf fails if its constraint does, and then if that has no owner. -/
theorem ownedAt_eq_error_iff {e : ClassifyError} :
    ownedAt before l after = .error e ↔
      ∃ k, l.constraintKeyword? = some k ∧ (constraintAt k after = .error e ∨
        (∃ c, constraintAt k after = .ok (some c)) ∧ ownersAt k before after = .error e) := by
  rw [ownedAt]
  cases l.constraintKeyword? with
  | none => simp only [reduceCtorEq, false_and, exists_false]
  | some k =>
      simp only [Option.some.injEq, exists_eq_left']
      rcases constraintAt k after with e' | _ | c
      · simp only [Except.error.injEq, reduceCtorEq, exists_false, false_and, or_false]
      · simp only [Except.ok.injEq, reduceCtorEq, exists_false, false_and, or_self]
      · cases ownersAt k before after with
        | error e' =>
            simp only [Except.error.injEq, Except.ok.injEq, Option.some.injEq, exists_eq',
              reduceCtorEq, true_and, false_or]
        | ok columns => simp only [reduceCtorEq, and_false, or_self]

/-- What is passed on the way to a list is a stretch of the leaves ahead. -/
theorem skipKey_suffix (after : List Leaf) : skipKey after <:+ after := by
  have hblanks : skipBlanks after <:+ after := List.dropWhile_suffix _
  rw [skipKey]
  cases hfirst : skipBlanks after with
  | nil => exact List.nil_suffix
  | cons l rest =>
      rw [hfirst] at hblanks
      simp only
      -- If the first leaf is the `KEY`, then it is passed too.
      split
      · exact ((List.dropWhile_suffix _).trans (List.suffix_cons l rest)).trans hblanks
      · exact hblanks

/-- Listed columns are columns of the leaves ahead. -/
theorem exists_column_of_listedColumns? {columns : List String}
    (h : listedColumns? after = some columns) {name : String} (hname : name ∈ columns) :
    ∃ m ∈ after, m.isColumn = true ∧ m.value = name := by
  rw [listedColumns?] at h
  split at h
  · exact absurd h.symm (Option.some_ne_none columns)
  · rename_i first rest hfirst
    split at h
    · rw [Option.some.injEq] at h
      rw [← h] at hname
      rcases List.mem_map.1 hname with ⟨m, hm, hvalue⟩
      rcases List.mem_filter.1 hm with ⟨hm, hcolumn⟩
      refine ⟨m, (skipKey_suffix after).subset ?_, hcolumn, hvalue⟩
      rw [hfirst]
      exact List.mem_cons_of_mem _ (List.takeWhile_subset _ hm)
    · exact absurd h.symm (Option.some_ne_none columns)

/-- Whoever owns a constraint is a column in front of its keyword or behind. -/
theorem exists_column_of_ownedAt {here : List Owned} (h : ownedAt before l after = .ok here)
    {o : Owned} (ho : o ∈ here) :
    ∃ m, (m ∈ before ∨ m ∈ after) ∧ m.isColumn = true ∧ m.value = o.column := by
  rcases ownedAt_eq_ok_iff.1 h with ⟨rfl, -⟩ | ⟨k, -, c, -, columns, howners, rfl⟩
  · exact absurd ho List.not_mem_nil
  · rcases List.mem_map.1 ho with ⟨name, hname, rfl⟩
    rcases ownersAt_eq_ok_iff.1 howners with ⟨-, hlist⟩ | ⟨-, m, hm, rfl⟩
    · rcases exists_column_of_listedColumns? hlist hname with ⟨m, hm, hcolumn, hvalue⟩
      exact ⟨m, Or.inr hm, hcolumn, hvalue⟩
    · rw [List.mem_singleton.1 hname]
      exact ⟨m, Or.inl (List.mem_of_find?_eq_some hm), List.find?_some hm, rfl⟩

end Contributions

theorem ownedFrom_cons_eq_ok_iff {before after : List Leaf} {l : Leaf} {all : List Owned} :
    ownedFrom before (l :: after) = .ok all ↔
      ∃ here rest, ownedAt before l after = .ok here ∧ ownedFrom (l :: before) after = .ok rest ∧
        all = here ++ rest := by
  rw [ownedFrom]
  cases ownedAt before l after with
  | error e => simp only [reduceCtorEq, false_and, exists_false]
  | ok here =>
      cases ownedFrom (l :: before) after with
      | error e => simp only [reduceCtorEq, false_and, and_false, exists_false]
      | ok rest => simp only [Except.ok.injEq, exists_and_left, exists_eq_left', eq_comm]

/-- The scan fails where its first leaf does, and if that does not, where the rest
    does. -/
theorem ownedFrom_cons_eq_error_iff {before after : List Leaf} {l : Leaf} {e : ClassifyError} :
    ownedFrom before (l :: after) = .error e ↔
      ownedAt before l after = .error e ∨
        ∃ here, ownedAt before l after = .ok here ∧ ownedFrom (l :: before) after = .error e := by
  rw [ownedFrom]
  cases ownedAt before l after with
  | error e' => simp only [Except.error.injEq, reduceCtorEq, false_and, exists_false, or_false]
  | ok here =>
      cases ownedFrom (l :: before) after with
      | error e' =>
          simp only [Except.error.injEq, Except.ok.injEq, exists_eq_left', reduceCtorEq, false_or]
      | ok rest => simp only [reduceCtorEq, and_false, exists_false, or_self]

theorem ownedFrom_of_owned {leaves : List Leaf} {all : List Owned} (h : owned leaves = .ok all) :
    ownedFrom [] leaves = .ok all := by
  rw [owned] at h
  split at h
  · simp only [reduceCtorEq] at h
  · exact h

/-- Whoever owns a constraint of a statement is a column of it. -/
theorem exists_column_of_ownedFrom {before leaves : List Leaf} {all : List Owned}
    (h : ownedFrom before leaves = .ok all) {o : Owned} (ho : o ∈ all) :
    ∃ m, (m ∈ before ∨ m ∈ leaves) ∧ m.isColumn = true ∧ m.value = o.column := by
  induction leaves generalizing before all with
  | nil =>
      obtain rfl := Except.ok.inj h
      exact absurd ho List.not_mem_nil
  | cons l after ih =>
      rcases ownedFrom_cons_eq_ok_iff.1 h with ⟨here, rest, hhere, hrest, rfl⟩
      rcases List.mem_append.1 ho with ho | ho
      · rcases exists_column_of_ownedAt hhere ho with ⟨m, hm, hcolumn⟩
        exact ⟨m, hm.imp_right (List.mem_cons_of_mem l), hcolumn⟩
      · -- The leaf itself is in front of what follows.
        rcases ih hrest ho with ⟨m, hm, hcolumn⟩
        rw [List.mem_cons, or_comm (a := m = l), or_assoc, ← List.mem_cons] at hm
        exact ⟨m, hm, hcolumn⟩

/-- What a leaf contributes stands in one piece among all constraints. -/
theorem exists_ownedAt_of_ownedFrom {before as after : List Leaf} {l : Leaf} {all : List Owned}
    (h : ownedFrom before (as ++ l :: after) = .ok all) :
    ∃ front here back, ownedAt (as.reverse ++ before) l after = .ok here ∧
      all = front ++ (here ++ back) := by
  induction as generalizing before all with
  | nil =>
      rcases ownedFrom_cons_eq_ok_iff.1 h with ⟨here, rest, hhere, -, rfl⟩
      exact ⟨[], here, rest, hhere, rfl⟩
  | cons a as ih =>
      rcases ownedFrom_cons_eq_ok_iff.1 h with ⟨first, rest, -, hrest, rfl⟩
      rcases ih hrest with ⟨front, here, back, hhere, rfl⟩
      refine ⟨first ++ front, here, back, ?_, (List.append_assoc _ _ _).symm⟩
      rw [List.reverse_cons, List.append_assoc]
      exact hhere

/-- A leaf fails for a `DEFAULT` without a value, or for the lack of a column
    in front. -/
theorem ownedAt_eq_error {before after : List Leaf} {l : Leaf} {e : ClassifyError}
    (h : ownedAt before l after = .error e) :
    (∃ k, e = .malformedConstraint k) ∨ ∃ k, e = .mismatch (.constraintWithoutColumn k) := by
  rcases ownedAt_eq_error_iff.1 h with ⟨k, -, hconstraint | ⟨-, howners⟩⟩
  · exact Or.inl ⟨_, (constraintAt_eq_error_iff.1 hconstraint).2.2⟩
  · exact Or.inr ⟨_, (ownersAt_eq_error_iff.1 howners).2.2⟩

theorem ownedFrom_eq_error {before leaves : List Leaf} {e : ClassifyError}
    (h : ownedFrom before leaves = .error e) :
    (∃ k, e = .malformedConstraint k) ∨ ∃ k, e = .mismatch (.constraintWithoutColumn k) := by
  induction leaves generalizing before with
  | nil => simp only [ownedFrom, reduceCtorEq] at h
  | cons l after ih =>
      rcases ownedFrom_cons_eq_error_iff.1 h with hl | ⟨here, -, hrest⟩
      · exact ownedAt_eq_error hl
      · exact ih hrest

/-- In a tree whose constraints are resolved, every keyword outside the
    condition that introduces one contributes it to at least one column, but
    for a key with a parenthesis right behind that holds no column. Where they
    are not resolved, a constraint is malformed or has no column in front. -/
theorem constraint_unowned_iff (root : Group) :
    (∀ e, owned root.leaves = .error e →
      (∃ k, e = .malformedConstraint k) ∨ ∃ k, e = .mismatch (.constraintWithoutColumn k)) ∧
    ∀ all, owned root.leaves = .ok all → ∀ before l after k, root.leaves = before ++ l :: after →
      l.constraintKeyword? = some k → k ∈ readConstraints →
      ∃ front here back, ownedAt before.reverse l after = .ok here ∧
        all = front ++ (here ++ back) ∧
        (here = [] ↔ (k = .primary ∨ k = .unique) ∧ listedColumns? after = some []) := by
  constructor
  · intro e he
    rw [owned] at he
    split at he
    · exact Or.inl ⟨_, (Except.error.inj he).symm⟩
    · exact ownedFrom_eq_error he
  · intro all hall before l after k hsplit hk hread
    have hfrom := ownedFrom_of_owned hall
    rw [hsplit] at hfrom
    rcases exists_ownedAt_of_ownedFrom hfrom with ⟨front, here, back, hhere, hall⟩
    rw [List.append_nil] at hhere
    refine ⟨front, here, back, hhere, hall, ?_⟩
    rcases ownedAt_eq_ok_iff.1 hhere with ⟨-, hnone⟩ | ⟨k', hk', c, -, columns, howners, rfl⟩
    · exact absurd (hnone k hk) (constraintAt_ne_none hread)
    · obtain rfl : k = k' := Option.some.inj (hk.symm.trans hk')
      rw [List.map_eq_nil_iff]
      rcases ownersAt_eq_ok_iff.1 howners with ⟨hkey, hlist⟩ | ⟨hlist, m, -, rfl⟩
      · rw [hlist, Option.some.injEq]
        exact (and_iff_right hkey).symm
      · -- A nearest column is one owner, and nothing is listed then.
        refine ⟨fun h => absurd h (List.cons_ne_nil _ _), fun h => ?_⟩
        rw [hlist h.1] at h
        exact absurd h.2.symm (Option.some_ne_none [])

/-- Two keys, of which one lists a column. -/
theorem constraint_unowned_iff_two_keys :
    ∃ root all before l after,
      Group.ofText "CREATE TABLE t (a int, UNIQUE (a), PRIMARY KEY ())" = .ok root ∧
      owned root.leaves = .ok all ∧ root.leaves = before ++ l :: after ∧
      l.constraintKeyword? = some .unique ∧ .unique ∈ readConstraints ∧
      ∃ front here back, ownedAt before.reverse l after = .ok here ∧
        all = front ++ (here ++ back) ∧
        (here = [] ↔ (Keyword.unique = .primary ∨ Keyword.unique = .unique) ∧
          listedColumns? after = some []) := by
  have hcheck : (Group.ofText
      "CREATE TABLE t (a int, UNIQUE (a), PRIMARY KEY ())").toOption.any (fun root =>
        decide ((owned root.leaves).toOption =
          some [⟨"a", ⟨.unique, "unique", .addConstraint⟩⟩]) &&
        root.leaves.any fun l => l.constraintKeyword? = some .unique) = true := by
    decide +kernel
  rcases exists_of_toOption_any hcheck with ⟨root, hroot, hcheck⟩
  rw [Bool.and_eq_true, List.any_eq_true] at hcheck
  rcases hcheck with ⟨hall, l, hl, hk⟩
  have hall := eq_ok_of_toOption (of_decide_eq_true hall)
  have hk := of_decide_eq_true hk
  have hread : .unique ∈ readConstraints := by decide
  rcases List.append_of_mem hl with ⟨before, after, hsplit⟩
  exact ⟨root, _, before, l, after, hroot, hall, hsplit, hk, hread,
    (constraint_unowned_iff root).2 _ hall before l after .unique hsplit hk hread⟩

/-- The key of a table is resolved to nothing if it lists no columns. -/
theorem unowned_of_empty_key :
    ∃ root before l after, Group.ofText "CREATE TABLE t (a int, PRIMARY KEY ())" = .ok root ∧
      owned root.leaves = .ok [] ∧ root.leaves = before ++ l :: after ∧
      l.constraintKeyword? = some .primary := by
  have hcheck : (Group.ofText "CREATE TABLE t (a int, PRIMARY KEY ())").toOption.any (fun root =>
      decide ((owned root.leaves).toOption = some []) &&
        root.leaves.any fun l => l.constraintKeyword? = some .primary) = true := by
    decide +kernel
  rcases exists_of_toOption_any hcheck with ⟨root, hroot, hcheck⟩
  rw [Bool.and_eq_true, List.any_eq_true] at hcheck
  rcases hcheck with ⟨hnone, l, hl, hk⟩
  rcases List.append_of_mem hl with ⟨before, after, hsplit⟩
  exact ⟨root, before, l, after, hroot, eq_ok_of_toOption (of_decide_eq_true hnone), hsplit,
    of_decide_eq_true hk⟩

end SqlGist
