import SqlGist.Proofs.Constraints.Defaults
import SqlGist.Proofs.Constraints.NotNull
import SqlGist.Proofs.Definitions.Columnless
import SqlGist.Proofs.Extraction.Actions
import SqlGist.Proofs.Extraction.Targets
import SqlGist.Proofs.Tree.Clauses

/-!
# What Defaults Are Taken From

Two commands give a column a default: one that defines it, and one that sets the
default of a column that is there. Both take the value of the next token behind
`DEFAULT`, whatever token that is. Where a value stands behind `DEFAULT`, it is the
value. Where none does, the next token is the mark that ends the definition, or
`WHERE`, or a parenthesis, and that is taken as well. `a int DEFAULT` in the
definition of a table has the closing parenthesis for its default.

No other stage of an extraction reports a malformed constraint: all else that can
be wrong with a tree is something that it lacks.

## Main definitions

* `BehindDefault`: A leaf comes next behind a `DEFAULT`.

## Theorems

* `exists_outer_leaves`: The keywords of a statement are outside the condition.
* `exists_first_default`: So is the default that is set.
* `default_of_run`: Where defaults are read.
* `exists_default_of_definedColumns`: A default on a column that is defined.
* `run_malformed_iff`: Where constraints are malformed.
* `default_of_classify`, `classify_malformed_iff`: What a default is taken from,
  and when one is malformed.
* `default_taken`: Both, for every text.
* `default_of_close`: A default that is a parenthesis.
-/

namespace SqlGist

/-! ### The first `DEFAULT` -/

section FirstDefault

variable {before after : List Leaf} {d : Leaf}
  (hbefore : ∀ m ∈ before, m.keyword? ≠ some .default) (hd : d.keyword? = some .default)

include hbefore hd

theorem defaultValue_eq_ok_iff {value : String} :
    defaultValue (before ++ d :: after) = .ok value ↔
      ∃ l rest, skipBlanks after = l :: rest ∧ value = l.value := by
  rw [defaultValue, dropWhile_first hbefore hd, List.drop_succ_cons, List.drop_zero]
  cases skipBlanks after with
  | nil => simp only [reduceCtorEq, false_and, exists_false]
  | cons l rest =>
      simp only [Except.ok.injEq, List.cons.injEq, exists_and_left, exists_and_right, exists_eq',
        and_true, exists_eq_left', eq_comm]

theorem defaultValue_eq_error_iff {e : ClassifyError} :
    defaultValue (before ++ d :: after) = .error e ↔
      (∀ m ∈ after, m.isWhitespace = true) ∧ e = .malformedConstraint .default := by
  rw [defaultValue, dropWhile_first hbefore hd, List.drop_succ_cons, List.drop_zero,
    ← skipBlanks_eq_nil_iff]
  cases skipBlanks after with
  | nil => simp only [Except.error.injEq, true_and, eq_comm]
  | cons l rest => simp only [reduceCtorEq, false_and]

end FirstDefault

theorem defaultValue_malformed_iff {leaves : List Leaf}
    (h : ∃ l ∈ leaves, l.keyword? = some .default) :
    defaultValue leaves = .error (.malformedConstraint .default) ↔
      ∃ before d after, leaves = before ++ d :: after ∧
        (∀ m ∈ before, m.keyword? ≠ some .default) ∧ d.keyword? = some .default ∧
          ∀ m ∈ after, m.isWhitespace = true := by
  constructor
  · intro hmalformed
    rcases exists_first h with ⟨before, d, after, rfl, hbefore, hd⟩
    exact ⟨before, d, after, rfl, hbefore, hd,
      ((defaultValue_eq_error_iff hbefore hd).1 hmalformed).1⟩
  · rintro ⟨before, d, after, rfl, hbefore, hd, hblank⟩
    exact (defaultValue_eq_error_iff hbefore hd).2 ⟨hblank, rfl⟩

/-- All keywords of a statement stand in front of the condition, if none of them
    ends one. -/
theorem exists_outer_leaves {sql : String} {root : Group} (hroot : Group.ofText sql = .ok root)
    (hends : ∀ k ∈ root.keywords, k ∉ Node.conditionEnds) :
    ∃ outer rest, root.leaves = outer ++ rest ∧ (∀ l ∈ outer, l.inWhere = false) ∧
      ∀ k ∈ root.keywords, ∃ l ∈ outer, l.keyword? = some k := by
  have hshape := (isStatement_of_ofText hroot).shape
  rcases ofText_eq_ok_iff.1 hroot with ⟨statement, items, -, hnest, heq⟩
  -- Grouping the condition leaves all keywords of the level in front of it.
  have hkeywords : root.keywords = (rootNodes items).filterMap Node.keyword? := by
    rw [heq]
    rfl
  rw [hkeywords] at hends ⊢
  rcases exists_front_of_rootNodes hends with ⟨front, behind, tail, hlevel, hnodes, hfront, -, -⟩
  have hchildren : root.children = front ++ tail := by
    rw [heq]
    exact hnodes
  refine ⟨Node.leavesFrom root [] 0 front, Node.leavesFrom root [] (0 + front.length) tail,
    ?_, fun l hl => ?_, fun k hk => ?_⟩
  · rw [show root.leaves = Node.leavesFrom root [] 0 root.children from rfl, hchildren,
      Node.leavesFrom_append]
  · rcases Node.mem_leavesFrom hl with ⟨n, hn, place, hl⟩
    have hn : n ∈ ungroupedNodes items := hlevel ▸ List.mem_append_left behind hn
    exact inWhere_of_tidy (tidy_ungroupedNodes (Nested.matched_nest hnest) n hn)
      (outside_of_statement hshape) place l hl
  · rw [← hfront] at hk
    rcases Node.exists_keyword_leaf hk root [] 0 with ⟨t, place, hkeyword, hleaf⟩
    exact ⟨_, hleaf, hkeyword⟩

/-- The first `DEFAULT` of a statement that sets one is outside the condition,
    since the one that names the command is. -/
theorem exists_first_default {sql : String} {root : Group} (hroot : Group.ofText sql = .ok root)
    (htag : statementTag sql = .ok Command.setDefault.tag) :
    ∃ before d after, root.leaves = before ++ d :: after ∧
      (∀ m ∈ before, m.keyword? ≠ some .default) ∧ d.constraintKeyword? = some .default := by
  have hkeywords := keywords_of_statementTag (by decide) htag hroot
  rcases exists_outer_leaves hroot (by rw [hkeywords]; decide) with
    ⟨outer, rest, hleaves, houtside, hkeyword⟩
  rcases exists_first (hkeyword .default (by rw [hkeywords]; decide)) with
    ⟨before, d, after, rfl, hbefore, hd⟩
  refine ⟨before, d, after ++ rest, ?_, hbefore, ?_⟩
  · rw [hleaves, List.append_assoc, List.cons_append]
  · exact Leaf.constraintKeyword?_eq_some_iff.2
      ⟨houtside d (List.mem_append_right _ List.mem_cons_self), hd⟩

/-! ### Where defaults are read -/

/-- The leaf comes next behind a `DEFAULT` outside the condition, blanks aside. -/
def BehindDefault (leaves after : List Leaf) (l : Leaf) : Prop :=
  ∃ before d rest, leaves = before ++ d :: after ∧ d.constraintKeyword? = some .default ∧
    skipBlanks after = l :: rest

theorem exists_next_of_default {k : Keyword} {after : List Leaf} {c : Constraint} {value : String}
    (h : constraintAt k after = .ok (some c)) (hkind : c.kind = .default value) :
    k = .default ∧ ∃ l rest, skipBlanks after = l :: rest ∧ value = l.value := by
  revert h
  fun_cases constraintAt k after with
  | case4 => simp only [reduceCtorEq, false_implies]
  | case5 l rest hnext =>
      intro h
      rw [← Option.some.inj (Except.ok.inj h)] at hkind
      exact ⟨rfl, l, rest, hnext, (ConstraintKind.default.inj hkind).symm⟩
  | case6 => simp only [Except.ok.injEq, reduceCtorEq, false_implies]
  | _ =>
      intro h
      rw [← Option.some.inj (Except.ok.inj h)] at hkind
      simp only [reduceCtorEq] at hkind

theorem exists_default_of_definedColumns {action : Action} {leaves : List Leaf}
    {columns : List Column} (h : definedColumns action leaves = .ok columns) {column : Column}
    (hcolumn : column ∈ columns) {c : Constraint} (hc : c ∈ column.constraints) {value : String}
    (hkind : c.kind = .default value) :
    ∃ after l, BehindDefault leaves after l ∧ value = l.value := by
  rcases exists_keyword_of_column h hcolumn hc with ⟨before, d, after, k, hsplit, hk, hconstraint⟩
  rcases exists_next_of_default hconstraint hkind with ⟨rfl, l, rest, hnext, hvalue⟩
  exact ⟨after, l, ⟨before, d, rest, hsplit, hk, hnext⟩, hvalue⟩

theorem constraints_pairColumns {names values : List Leaf} {columns : List Column}
    (h : pairColumns names values = .ok columns) : ∀ column ∈ columns, column.constraints = [] := by
  intro column hcolumn
  rcases pairColumns_eq_ok_iff.1 h with ⟨-, rfl⟩ | ⟨-, -, rfl⟩
  · rcases List.mem_map.1 hcolumn with ⟨value, -, rfl⟩
    rfl
  · rw [← List.map_uncurry_zip_eq_zipWith] at hcolumn
    rcases List.mem_map.1 hcolumn with ⟨pair, -, rfl⟩
    rfl

section Run

variable {x : Extraction} {root : Group} {e : Entity} {column : Column} {c : Constraint}
  {value : String} (hcolumn : column ∈ e.columns) (hc : c ∈ column.constraints)
  (hkind : c.kind = .default value)

include hcolumn hc hkind

/-- A default stands in a definition, or it is the one that is set. -/
theorem default_of_run (h : x.run root = .ok e) (hx : x ≠ .addConstraint (.default value)) :
    (∃ action, definedColumns action root.leaves = .ok e.columns) ∨
      x = .setDefault ∧ defaultValue root.leaves = .ok value := by
  cases x with
  | database action =>
      rcases map_eq_ok.1 h with ⟨name, -, rfl⟩
      exact absurd hcolumn List.not_mem_nil
  | table plan =>
      rcases map_eq_ok.1 h with ⟨t, ht, rfl⟩
      rcases tableOf_eq_ok_iff.1 ht with ⟨name, columns, filter, -, hcolumns, -, rfl⟩
      rw [TablePlan.columns] at hcolumns
      split at hcolumns
      · rw [← Except.ok.inj hcolumns] at hcolumn
        exact absurd hcolumn List.not_mem_nil
      · rename_i action hplan
        split at hcolumns
        · exact Or.inl ⟨action, hcolumns⟩
        · -- Columns that are only mentioned have no constraints.
          rw [constraints_gather hcolumns column hcolumn] at hc
          exact absurd hc List.not_mem_nil
  | write plan =>
      rw [constraints_pairColumns (pairColumns_of_run h) column hcolumn] at hc
      exact absurd hc List.not_mem_nil
  | addConstraint kind =>
      rcases map_eq_ok.1 h with ⟨t, ht, rfl⟩
      rcases constrainedTable_eq_ok_iff.1 ht with ⟨name, constraint, -, -, rfl⟩
      rcases List.mem_map.1 hcolumn with ⟨l, -, rfl⟩
      rw [List.mem_singleton.1 hc] at hkind
      exact absurd (congrArg Extraction.addConstraint hkind) hx
  | dropConstraint =>
      rcases map_eq_ok.1 h with ⟨t, ht, rfl⟩
      rcases releasedTable_eq_ok_iff.1 ht with ⟨name, constraint, -, rfl⟩
      rw [List.mem_singleton.1 hcolumn] at hc
      rw [List.mem_singleton.1 hc] at hkind
      simp only [reduceCtorEq] at hkind
  | setDefault =>
      rcases map_eq_ok.1 h with ⟨t, ht, rfl⟩
      rcases defaultedTable_eq_ok_iff.1 ht with ⟨name, value', name', -, hvalue, -, rfl⟩
      rw [List.mem_singleton.1 hcolumn] at hc
      rw [List.mem_singleton.1 hc] at hkind
      rw [hvalue, ConstraintKind.default.inj hkind]
      exact Or.inr ⟨rfl, rfl⟩
  | dropDefault =>
      rcases map_eq_ok.1 h with ⟨t, ht, rfl⟩
      rcases undefaultedTable_eq_ok_iff.1 ht with ⟨name, name', -, -, rfl⟩
      rw [List.mem_singleton.1 hcolumn] at hc
      rw [List.mem_singleton.1 hc] at hkind
      simp only [reduceCtorEq] at hkind

end Run

/-! ### Where defaults fail -/

section Malformed

variable {k : Keyword} {leaves : List Leaf} {root : Group}

theorem target_ne_malformed : target leaves ≠ .error (.malformedConstraint k) := by
  rw [target]
  split <;> simp only [ne_eq, Except.error.injEq, reduceCtorEq, not_false_eq_true]

theorem targetPair_ne_malformed : targetPair leaves ≠ .error (.malformedConstraint k) := by
  rw [targetPair]
  split <;> simp only [ne_eq, Except.error.injEq, reduceCtorEq, not_false_eq_true]

theorem firstColumn_ne_malformed : firstColumn leaves ≠ .error (.malformedConstraint k) := by
  rw [firstColumn]
  split <;> simp only [ne_eq, Except.error.injEq, reduceCtorEq, not_false_eq_true]

theorem gather_ne_malformed {definitions : Bool} {action : Action} :
    gather definitions action leaves ≠ .error (.malformedConstraint k) := by
  rw [gather]
  split <;> simp only [ne_eq, Except.error.injEq, reduceCtorEq, not_false_eq_true]

theorem filterIf_ne_malformed {asked : Bool} :
    filterIf asked root ≠ .error (.malformedConstraint k) := by
  rw [filterIf, filterOf]
  split
  · split
    · simp only [ne_eq, reduceCtorEq, not_false_eq_true]
    · split <;> simp only [ne_eq, Except.error.injEq, reduceCtorEq, not_false_eq_true]
  · simp only [ne_eq, reduceCtorEq, not_false_eq_true]

theorem definedColumns_malformed_iff {action : Action} :
    definedColumns action leaves = .error (.malformedConstraint k) ↔
      owned leaves = .error (.malformedConstraint k) := by
  rw [definedColumns]
  cases owned leaves with
  | error e => simp only [Except.error.injEq]
  | ok all =>
      have hgather := @gather_ne_malformed k leaves true action
      cases hcolumns : gather true action leaves with
      | error e =>
          rw [hcolumns] at hgather
          simpa only [ne_eq, Except.error.injEq, reduceCtorEq, iff_false] using hgather
      | ok columns => simp only [reduceCtorEq]

theorem tableOf_malformed_iff {plan : TablePlan} :
    tableOf plan root = .error (.malformedConstraint k) ↔
      (∃ name, target root.leaves = .ok name) ∧ plan.column ≠ none ∧ plan.definitions = true ∧
        owned root.leaves = .error (.malformedConstraint k) := by
  have hcolumns : plan.columns root.leaves = .error (.malformedConstraint k) ↔
      plan.column ≠ none ∧ plan.definitions = true ∧
        owned root.leaves = .error (.malformedConstraint k) := by
    rw [TablePlan.columns]
    cases plan.column with
    | none => simp only [reduceCtorEq, ne_eq, not_true, false_and]
    | some action =>
        cases plan.definitions with
        | false =>
            simp only [Bool.false_eq_true, if_false, mentionedColumns, gather_ne_malformed,
              false_and, and_false]
        | true =>
            simp only [if_true, definedColumns_malformed_iff, ne_eq, reduceCtorEq,
              not_false_eq_true, true_and]
  simp only [tableOf, bind_eq_error, target_ne_malformed, filterIf_ne_malformed, hcolumns, pure,
    Except.pure, reduceCtorEq, and_false, exists_false, or_false, false_or, exists_and_right]

theorem writtenTable_ne_malformed {plan : WritePlan} :
    writtenTable plan root ≠ .error (.malformedConstraint k) := by
  simp only [writtenTable, bind_eq_error, target_ne_malformed, filterIf_ne_malformed,
    mapError_eq_error, pure, Except.pure, reduceCtorEq, and_false, exists_false, or_false, ne_eq,
    not_false_eq_true]

theorem constrainedTable_ne_malformed {kind : ConstraintKind} :
    constrainedTable kind root ≠ .error (.malformedConstraint k) := by
  rw [constrainedTable, ne_eq, bind_eq_error]
  rintro (h | ⟨⟨name, constraint⟩, -, h⟩)
  · exact targetPair_ne_malformed h
  · simp only [pure, Except.pure] at h
    split at h <;> simp only [Except.error.injEq, reduceCtorEq] at h

theorem releasedTable_ne_malformed : releasedTable root ≠ .error (.malformedConstraint k) := by
  simp only [releasedTable, bind_eq_error, targetPair_ne_malformed, pure, Except.pure, reduceCtorEq,
    and_false, exists_false, or_false, ne_eq, not_false_eq_true]

theorem defaultedTable_malformed_iff :
    defaultedTable root = .error (.malformedConstraint k) ↔
      (∃ name, target root.leaves = .ok name) ∧
        defaultValue root.leaves = .error (.malformedConstraint k) := by
  simp only [defaultedTable, bind_eq_error, target_ne_malformed, firstColumn_ne_malformed, pure,
    Except.pure, reduceCtorEq, and_false, exists_false, or_false, false_or, exists_and_right]

theorem undefaultedTable_ne_malformed :
    undefaultedTable root ≠ .error (.malformedConstraint k) := by
  simp only [undefaultedTable, bind_eq_error, target_ne_malformed, firstColumn_ne_malformed, pure,
    Except.pure, reduceCtorEq, and_false, exists_false, or_false, ne_eq, not_false_eq_true]

/-- A constraint is malformed only where definitions are read and where a default
    is set, and only if the target is there. -/
theorem run_malformed_iff {x : Extraction} :
    x.run root = .error (.malformedConstraint k) ↔
      (∃ name, target root.leaves = .ok name) ∧
        ((∃ plan, x = .table plan ∧ plan.column ≠ none ∧ plan.definitions = true ∧
          owned root.leaves = .error (.malformedConstraint k)) ∨
          x = .setDefault ∧ defaultValue root.leaves = .error (.malformedConstraint k)) := by
  cases x with
  | table plan =>
      simp only [Extraction.run, map_eq_error, tableOf_malformed_iff, Extraction.table.injEq,
        exists_eq_left', reduceCtorEq, false_and, or_false]
  | setDefault =>
      simp only [Extraction.run, map_eq_error, defaultedTable_malformed_iff, reduceCtorEq,
        false_and, exists_false, false_or, true_and]
  | _ =>
      -- No stage of the others reports a constraint.
      simp only [Extraction.run, map_eq_error, target_ne_malformed, writtenTable_ne_malformed,
        constrainedTable_ne_malformed, releasedTable_ne_malformed, undefaultedTable_ne_malformed,
        reduceCtorEq, false_and, exists_false, or_self, and_false]

end Malformed

/-! ### What defaults are taken from -/

theorem addConstraint_ne_default {c : Command} (value : String) :
    c.extraction ≠ .addConstraint (.default value) := by
  cases c <;> simp only [Command.extraction, ne_eq, Extraction.addConstraint.injEq, reduceCtorEq,
    not_false_eq_true]

theorem mem_definingCommands_iff {c : Command} :
    c ∈ definingCommands ↔
      ∃ plan, c.extraction = .table plan ∧ plan.column ≠ none ∧ plan.definitions = true := by
  cases c with
  | createTable => exact iff_of_true (by decide) ⟨_, rfl, by decide, rfl⟩
  | addColumn => exact iff_of_true (by decide) ⟨_, rfl, by decide, rfl⟩
  | modifyColumn => exact iff_of_true (by decide) ⟨_, rfl, by decide, rfl⟩
  | modifyNotNull => exact iff_of_true (by decide) ⟨_, rfl, by decide, rfl⟩
  | _ =>
      refine iff_of_false (by decide) ?_
      simp [Command.extraction]

theorem extraction_eq_setDefault_iff {c : Command} :
    c.extraction = .setDefault ↔ c = .setDefault := by
  cases c with
  | setDefault => exact iff_of_true rfl rfl
  | _ => simp only [Command.extraction, reduceCtorEq]

/-- A statement gives malformed constraints only if it is one of a command. -/
theorem malformed_iff_of_classify {sql : String} {k : Keyword} :
    classify sql = .error (.malformedConstraint k) ↔
      ∃ root c, Group.ofText sql = .ok root ∧ statementTag sql = .ok (Command.tag c) ∧
        c.extract root = .error (.malformedConstraint k) := by
  constructor
  · intro h
    cases hroot : Group.ofText sql with
    | error e =>
        simp only [classify, hroot, reduceCtorEq, Except.error.injEq] at h
    | ok root =>
        simp only [classify, hroot, classifyTree] at h
        split at h
        · simp only [Except.error.injEq, reduceCtorEq] at h
        · rename_i c hc
          refine ⟨root, c, rfl, ?_, h⟩
          rw [statementTag, hroot, Command.ofTag?_eq_some_iff.1 hc]
          rfl
  · rintro ⟨root, c, hroot, htag, h⟩
    rw [classify_eq_extract htag hroot, h]

/-- Every default is the value of the token behind a `DEFAULT`, and what that token
    is tells whether the definition gives it. -/
theorem default_of_classify {sql : String} {e : Entity} (h : classify sql = .ok e) :
    ∃ root, Group.ofText sql = .ok root ∧
      ∀ column ∈ e.columns, ∀ c ∈ column.constraints, ∀ value, c.kind = .default value →
        ∃ after l, BehindDefault root.leaves after l ∧ value = l.value ∧
          (l.IsGiven after ↔ l.token.kind ≠ .punctuation ∧ l.endsDefinition = false) ∧
          ((∀ m ∈ restOfDefinition 0 after, m.isWhitespace = true) ↔ l.endsDefinition = true) := by
  rcases classify_eq_ok_iff.1 h with ⟨root, command, hroot, hcommand, hextract⟩
  refine ⟨root, hroot, fun column hcolumn c hc value hkind => ?_⟩
  -- Wherever the default is read, it is read behind a keyword, and the next token decides.
  have htaken : ∃ after l, BehindDefault root.leaves after l ∧ value = l.value := by
    rcases default_of_run hcolumn hc hkind hextract (addConstraint_ne_default value) with
      ⟨action, hcolumns⟩ | ⟨hset, hvalue⟩
    · exact exists_default_of_definedColumns hcolumns hcolumn hc hkind
    · have htag : statementTag sql = .ok Command.setDefault.tag := by
        rw [statementTag, hroot, ← extraction_eq_setDefault_iff.1 hset,
          Command.ofTag?_eq_some_iff.1 hcommand]
        rfl
      rcases exists_first_default hroot htag with ⟨before, d, after, hsplit, hbefore, hd⟩
      rw [hsplit, defaultValue_eq_ok_iff hbefore (Leaf.constraintKeyword?_eq_some_iff.1 hd).2]
        at hvalue
      rcases hvalue with ⟨l, rest, hnext, hvalue⟩
      exact ⟨after, l, ⟨before, d, rest, hsplit, hd, hnext⟩, hvalue⟩
  rcases htaken with ⟨after, l, hbehind, hvalue⟩
  rcases id hbehind with ⟨-, -, rest, -, -, hnext⟩
  exact ⟨after, l, hbehind, hvalue, isGiven_iff hnext, definition_ends_iff hnext⟩

/-- A default is malformed exactly if only blanks follow: behind the last `DEFAULT`
    of a statement that defines columns, in which nothing else is wrong so far, or
    behind the first one of a statement that sets a default. -/
theorem classify_malformed_iff {sql : String} :
    classify sql = .error (.malformedConstraint .default) ↔
      ∃ root c, Group.ofText sql = .ok root ∧ statementTag sql = .ok (Command.tag c) ∧
        (∃ l ∈ root.leaves, l.isTarget = true) ∧
        (c ∈ definingCommands ∧
            (∀ l ∈ root.leaves, ∀ k ∈ unreadConstraints, l.constraintKeyword? ≠ some k) ∧
              (∃ before d after, EndsInDefault root.leaves before d after) ∨
          c = .setDefault ∧ ∃ before d after, root.leaves = before ++ d :: after ∧
            (∀ m ∈ before, m.keyword? ≠ some .default) ∧ d.keyword? = some .default ∧
              ∀ m ∈ after, m.isWhitespace = true) := by
  rw [malformed_iff_of_classify]
  refine exists_congr fun root => exists_congr fun c => and_congr_right fun hroot =>
    and_congr_right fun htag => ?_
  rw [Command.extract, run_malformed_iff, exists_target_iff, owned_malformed_iff,
    mem_definingCommands_iff, extraction_eq_setDefault_iff]
  refine and_congr_right fun _ => or_congr ?_ (and_congr_right fun hset => ?_)
  · simp only [← and_assoc, exists_and_right]
  · -- The keyword is there, since it is one of the command, so only its value can be missing.
    refine defaultValue_malformed_iff ?_
    rw [hset] at htag
    rcases exists_first_default hroot htag with ⟨before, d, after, hsplit, -, hd⟩
    refine ⟨d, ?_, (Leaf.constraintKeyword?_eq_some_iff.1 hd).2⟩
    rw [hsplit]
    exact List.mem_append_right _ List.mem_cons_self

/-- Every default is the value of the token behind a `DEFAULT`. The definition gives
    it unless that token is punctuation or ends the definition, and nothing is left
    of the definition in the latter case. A default is malformed exactly if only
    blanks follow: behind the last `DEFAULT` of a statement that defines columns, in
    which nothing else is wrong so far, or behind the first one of a statement that
    sets a default. -/
theorem default_taken (sql : String) :
    (∀ e, classify sql = .ok e → ∃ root, Group.ofText sql = .ok root ∧
      ∀ column ∈ e.columns, ∀ c ∈ column.constraints, ∀ value, c.kind = .default value →
        ∃ after l, BehindDefault root.leaves after l ∧ value = l.value ∧
          (l.IsGiven after ↔ l.token.kind ≠ .punctuation ∧ l.endsDefinition = false) ∧
          ((∀ m ∈ restOfDefinition 0 after, m.isWhitespace = true) ↔
            l.endsDefinition = true)) ∧
    (classify sql = .error (.malformedConstraint .default) ↔
      ∃ root c, Group.ofText sql = .ok root ∧ statementTag sql = .ok (Command.tag c) ∧
        (∃ l ∈ root.leaves, l.isTarget = true) ∧
        (c ∈ definingCommands ∧
            (∀ l ∈ root.leaves, ∀ k ∈ unreadConstraints, l.constraintKeyword? ≠ some k) ∧
              (∃ before d after, EndsInDefault root.leaves before d after) ∨
          c = .setDefault ∧ ∃ before d after, root.leaves = before ++ d :: after ∧
            (∀ m ∈ before, m.keyword? ≠ some .default) ∧ d.keyword? = some .default ∧
              ∀ m ∈ after, m.isWhitespace = true)) :=
  ⟨fun _ => default_of_classify, classify_malformed_iff⟩

/-- Nothing stands between `DEFAULT` and the end of its definition, and that end is
    the default. -/
theorem default_of_close :
    ∃ t, classify "CREATE TABLE t (a int DEFAULT)" = .ok (.table t) ∧
      (∃ column ∈ t.columns, ∃ c ∈ column.constraints, c.kind = .default ")") ∧
      ∀ u ∈ tokenize "CREATE TABLE t (a int DEFAULT)", u.value = ")" → u.kind = .punctuation := by
  have hcheck : ((classify "CREATE TABLE t (a int DEFAULT)").toOption.bind Entity.table?).any
      (fun t => t.columns.any fun column => column.constraints.any fun c =>
        c.kind = .default ")") = true := by
    decide +kernel
  have htokens : ((tokenize "CREATE TABLE t (a int DEFAULT)").all fun u =>
      !decide (u.value = ")") || decide (u.kind = .punctuation)) = true := by
    decide +kernel
  rcases exists_table_of_any hcheck with ⟨t, ht, hcheck⟩
  rcases List.any_eq_true.1 hcheck with ⟨column, hcolumn, hcheck⟩
  rcases List.any_eq_true.1 hcheck with ⟨c, hc, hkind⟩
  refine ⟨t, ht, ⟨column, hcolumn, c, hc, of_decide_eq_true hkind⟩, fun u hu hvalue => ?_⟩
  have hu := List.all_eq_true.1 htokens u hu
  rw [hvalue] at hu
  exact of_decide_eq_true hu

end SqlGist
