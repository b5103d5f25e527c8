import SqlGist.Proofs.Writes.LastClause

/-!
# Pairing the Assignments of an Update

The columns of an update are its names and its values, paired by position. That
pairs an assignment with itself as long as every item in front of it has as many
names as values. An item such as `a = b` has two names and no value, and one such
as `1 = 2` two values and no name, so the two together are paired across.

From the ends of the clause nothing of that is seen. The counts of the two scans
agree when there are columns at all, so the names and values of the last
assignments are the last ones of each scan, and those of the first assignments
the first ones if nothing in front of the clause is scanned. `update_pairs` says
so, and that a clause made of assignments alone has no columns but theirs.

The tag of an update has one reading as keywords, so the tree of such a statement
has one `SET` clause, which runs to the condition or to the end.

## Main definitions

* `Group.setItems`: The items of the clause.
* `Group.Undisturbed`: In front of the clause stands nothing that is scanned.
* `assignedColumn`: The column of an assignment.
* `Group.SoundlyPaired`: Every item is an assignment with a column of its own.

## Theorems

* `exists_setClause`: The tree of an update has one clause behind `SET`.
* `exists_reads_listRun`, `exists_reads_behind`: A statement with a clause reads
  as what stands in front of that, and then item by item.
* `exists_columns_of_reads`: Assignments at either end are paired right.
* `update_pairs`: So they are in every update.
* `not_soundlyPaired_across`: Items between them need not be.
-/

namespace SqlGist

/-- The tree of an update has one `SET` clause, at its end. -/
theorem exists_setClause {sql : String} {root : Group} (hroot : Group.ofText sql = .ok root)
    (htag : statementTag sql = .ok "UPDATESET") :
    ∃ front opening run tail, root.shape = .statement ∧
      IsLastClause root.children .set front opening run tail := by
  have hkeywords : root.keywords = [.update] ++ [.set] :=
    keywords_of_statementTag (c := .update) (by decide) htag hroot
  rcases exists_clause hroot hkeywords (by decide) (by decide) (by decide) with
    ⟨items, front, opening, run, tail, -, rfl, hclause, -⟩
  exact ⟨front, opening, run, tail, rfl, hclause⟩

/-- The items of a `SET` clause, without blanks. -/
def Group.setItems (root : Group) : List (List Node) :=
  Node.splitItems ((root.behind .set).flatMap Node.opened)

/-- In front of `SET` stands no leaf that would be taken for a column or for a
    value. -/
def Group.Undisturbed (root : Group) : Prop :=
  ∀ l ∈ root.leaves, l.isBehind .set = false → l.Idle .set

instance (root : Group) : Decidable root.Undisturbed :=
  inferInstanceAs (Decidable (∀ l ∈ root.leaves, _))

/-- The column of an assignment. -/
def assignedColumn (sides : Token × Token) : Column :=
  Column.assigned sides.1.value (sides.2.value, .update)

/-- The list of a run reads as the run does. -/
theorem exists_reads_listRun {k : Keyword} {g : Group} {path : List Frame} {index : Nat}
    {forced : Bool} {run after : List Node} (houtside : g.Outside path)
    (hbehind : ∀ place, index ≤ place → StandsBehind k (⟨g, place⟩ :: path))
    (hdrop : g.children.drop index = Node.listRun forced run ++ after) :
    ∃ rs : List ItemReading, rs.map ItemReading.item = Node.splitItems run ∧
      Reads k (Node.leavesFrom g path index (Node.listRun forced run))
        (rs.flatMap ItemReading.names) (rs.flatMap ItemReading.values) := by
  rcases Node.listRun_cases forced run with heq | ⟨gap, items, gap', rfl, heq, hgap, hgap'⟩
  · rw [heq] at hdrop ⊢
    exact exists_reads houtside hbehind hdrop
  · -- The blanks around the list are idle, and no part of any item.
    have hinner : Group.Outside ⟨.nameList, items⟩ (⟨g, index + gap.length⟩ :: path) :=
      houtside.inner Shape.noConfusion _
    have hitems : (⟨.nameList, items⟩ : Group).children.drop 0 = items ++ [] :=
      (List.append_nil items).symm
    rcases exists_reads hinner
      (fun place _ => (hbehind _ (Nat.le_add_right _ _)).inner _) hitems with ⟨rs, hrs, hreads⟩
    refine ⟨rs, ?_, ?_⟩
    · rw [hrs, Node.splitItems, Node.splitItems, Node.visibleOf_append, Node.visibleOf_append,
        Node.visibleOf_blank hgap, Node.visibleOf_blank hgap', List.nil_append, List.append_nil]
    · rw [heq, Node.leavesFrom_append, Node.leavesFrom]
      refine Reads.idle_append (idle_blanks hgap _) ?_
      exact hreads.append_idle (idle_blanks hgap' _)

/-- A statement with a `SET` clause at its end reads as what stands in front of
    that, and then item by item. -/
theorem exists_reads_behind {root : Group} {front run tail : List Node} {opening : Node}
    (h : IsLastClause root.children .set front opening run tail) (hshape : root.shape = .statement)
    {names : List String} {values : List (String × Action)}
    (hfront : Reads .set (Node.leavesFrom root [] 0 front) names values) :
    ∃ rs : List ItemReading, rs.map ItemReading.item = Node.splitItems run ∧
      Reads .set root.leaves (names ++ rs.flatMap ItemReading.names)
        (values ++ rs.flatMap ItemReading.values) := by
  have houtside := outside_of_statement hshape
  have hchildren : root.children.drop 0 = front ++ opening :: (Node.listRun false run ++ tail) :=
    h.eq_append
  rcases exists_reads_listRun (k := .set) houtside
    (fun place hplace => h.standsBehind (by omega)) (drop_behind hchildren) with
    ⟨rs, hrs, hreads⟩
  have hset : opening.isIdle = true := Node.isIdle_of_keyword? h.opens (by decide)
  refine ⟨rs, hrs, ?_⟩
  rw [h.leaves_eq]
  refine hfront.append (Reads.idle_append (idle_word hset _) ?_)
  exact hreads.append_idle (idle_tail h.tail_eq)

/-- In front of the clause a statement may read as anything, if nothing is said
    of it. -/
theorem exists_reads_set {root : Group} {front run tail : List Node} {opening : Node}
    (h : IsLastClause root.children .set front opening run tail)
    (hshape : root.shape = .statement) :
    ∃ names values, ∃ rs : List ItemReading, rs.map ItemReading.item = Node.splitItems run ∧
      Reads .set root.leaves (names ++ rs.flatMap ItemReading.names)
        (values ++ rs.flatMap ItemReading.values) ∧
      (root.Undisturbed → names = [] ∧ values = []) := by
  rcases exists_reads_behind h hshape (Reads.self .set _) with ⟨rs, hrs, hreads⟩
  refine ⟨_, _, rs, hrs, hreads, fun hfree => ?_⟩
  have hidle : ∀ l ∈ Node.leavesFrom root [] 0 front, l.Idle .set := by
    intro l hl
    refine hfree l ?_ (h.isBehind_of_front hl)
    rw [h.leaves_eq]
    exact List.mem_append_left _ hl
  exact ⟨(Reads.of_idle hidle).names, (Reads.of_idle hidle).values⟩

/-- The items of the clause are those of its run. -/
theorem setItems_eq {root : Group} {front run tail : List Node} {opening : Node}
    (h : IsLastClause root.children .set front opening run tail) :
    root.setItems = Node.splitItems run := by
  rw [Group.setItems, h.opened_behind]

theorem zipWith_assigned (sides : List (Token × Token)) :
    List.zipWith Column.assigned (sides.map fun s => s.1.value)
      (sides.map fun s => (s.2.value, Action.update)) = sides.map assignedColumn := by
  rw [List.zipWith_map, List.zipWith_self]
  rfl

/-- Assignments in front and behind are paired among themselves, if the rest
    pairs off. -/
theorem zipWith_between {names : List String} {values : List (String × Action)}
    (first last : List (Token × Token)) (hlength : names.length = values.length) :
    List.zipWith Column.assigned
        ((first.map fun s => s.1.value) ++ (names ++ last.map fun s => s.1.value))
        ((first.map fun s => (s.2.value, Action.update)) ++
          (values ++ last.map fun s => (s.2.value, .update))) =
      first.map assignedColumn ++
        (List.zipWith Column.assigned names values ++ last.map assignedColumn) := by
  rw [List.zipWith_append (by rw [List.length_map, List.length_map]), List.zipWith_append hlength,
    zipWith_assigned, zipWith_assigned]

/-- The columns of an update begin with its first assignments and end with its
    last ones, where the first ones follow nothing that reads. -/
theorem exists_columns_of_reads {ls : List Leaf} {names : List String}
    {values : List (String × Action)} {rs : List ItemReading} {columns : List Column}
    {first last : List (Token × Token)} {middle : List (Option (Token × Token))}
    (hreads : Reads .set ls (names ++ rs.flatMap ItemReading.names)
      (values ++ rs.flatMap ItemReading.values))
    (hrs : rs.map (fun r => assignment? r.item) = first.map some ++ (middle ++ last.map some))
    (hfront : first = [] ∨ names = [] ∧ values = [])
    (hpair : pairColumns (ls.filter Leaf.isColumn) (ls.filter fun l => l.isWritten .set) =
      .ok columns) :
    ∃ more, columns = first.map assignedColumn ++ (more ++ last.map assignedColumn) ∧
      (middle = [] → names = [] ∧ values = [] → more = []) := by
  rcases List.map_eq_append_iff.1 hrs with ⟨as, rest, rfl, has, hrest⟩
  rcases List.map_eq_append_iff.1 hrest with ⟨ms, bs, rfl, rfl, hbs⟩
  have hfirst := flatMap_assigned has
  have hlast := flatMap_assigned hbs
  simp only [List.flatMap_append, hfirst, hlast] at hreads
  rcases hreads.columns_eq hpair with ⟨hnil, hcolumns⟩ | ⟨hlength, hcolumns⟩
  · -- Without a name there is no assignment either.
    simp only [List.append_eq_nil_iff, List.map_eq_nil_iff] at hnil
    rcases hnil with ⟨-, rfl, -, rfl⟩
    refine ⟨columns, (List.append_nil _).symm, fun hms hempty => ?_⟩
    rw [List.map_eq_nil_iff] at hms
    rw [hcolumns, hempty.2, hms]
    rfl
  · refine ⟨List.zipWith Column.assigned (names ++ ms.flatMap ItemReading.names)
      (values ++ ms.flatMap ItemReading.values), ?_, fun hms hempty => ?_⟩
    · rcases hfront with rfl | ⟨rfl, rfl⟩
      · simp only [List.map_nil, List.nil_append, ← List.append_assoc] at hlength hcolumns
        simp only [List.length_append, List.length_map] at hlength
        rw [hcolumns]
        exact zipWith_between [] last (by simp only [List.length_append]; omega)
      · simp only [List.nil_append, List.length_append, List.length_map] at hlength
        rw [hcolumns]
        exact zipWith_between first last (by omega)
    · rw [List.map_eq_nil_iff] at hms
      rw [hempty.1, hms]
      rfl

/-- In an update the assignments at either end of the `SET` clause are paired
    right, whatever stands between them. The columns end with one column for
    each of the last ones, in order, with its left side for a name and the right
    side of the same comparison for a value. They begin with those of the first
    ones likewise, and are these alone if the clause is made of assignments, as
    long as nothing in front of `SET` would be taken for a column or a value. -/
theorem update_pairs {sql : String} {t : Table} {root : Group}
    {first last : List (Token × Token)} {middle : List (Option (Token × Token))}
    (h : classify sql = .ok (.table t)) (htag : statementTag sql = .ok "UPDATESET")
    (hroot : Group.ofText sql = .ok root)
    (hitems : root.setItems.map assignment? = first.map some ++ (middle ++ last.map some))
    (hfront : first = [] ∨ root.Undisturbed) :
    ∃ more, t.columns = first.map assignedColumn ++ (more ++ last.map assignedColumn) ∧
      (middle = [] → root.Undisturbed → more = []) := by
  rcases exists_setClause hroot htag with ⟨front, opening, run, tail, hshape, hclause⟩
  rcases exists_reads_set hclause hshape with ⟨names, values, rs, hrs, hreads, hidle⟩
  rw [setItems_eq hclause, ← hrs, List.map_map] at hitems
  rcases exists_columns_of_reads hreads hitems (hfront.imp id hidle)
    (pairColumns_of_write (c := .update) rfl h htag hroot) with ⟨more, hcolumns, hmore⟩
  exact ⟨more, hcolumns, fun hmiddle hfree => hmore hmiddle (hidle hfree)⟩

/-- Assignments at both ends, and between them two comparisons that are none. -/
theorem update_pairs_around :
    ∃ t root, ∃ a d : Token × Token,
      classify "UPDATE t SET a = 1, b = c, 2 = 3, t.d = 'x' WHERE e = 4" = .ok (.table t) ∧
      statementTag "UPDATE t SET a = 1, b = c, 2 = 3, t.d = 'x' WHERE e = 4" = .ok "UPDATESET" ∧
      Group.ofText "UPDATE t SET a = 1, b = c, 2 = 3, t.d = 'x' WHERE e = 4" = .ok root ∧
      root.setItems.map assignment? = [a].map some ++ ([none, none] ++ [d].map some) ∧
      root.Undisturbed ∧ assignedColumn a = Column.assigned "a" ("1", .update) ∧
      assignedColumn d = Column.assigned "d" ("x", .update) ∧
      ∃ more, t.columns = [a].map assignedColumn ++ (more ++ [d].map assignedColumn) ∧
        ([none, none] = ([] : List (Option (Token × Token))) → root.Undisturbed → more = []) := by
  let a : Token × Token := (⟨.name, "a", ⟨13, 14⟩⟩, ⟨.number, "1", ⟨17, 18⟩⟩)
  let d : Token × Token := (⟨.name, "d", ⟨36, 37⟩⟩, ⟨.string, "'x'", ⟨40, 43⟩⟩)
  have htable : ((classify "UPDATE t SET a = 1, b = c, 2 = 3, t.d = 'x' WHERE e = 4").toOption.bind
      Entity.table?).any (fun _ => true) = true := by
    decide +kernel
  have htag : statementTag "UPDATE t SET a = 1, b = c, 2 = 3, t.d = 'x' WHERE e = 4" =
      .ok "UPDATESET" := by
    decide +kernel
  have hroot : (Group.ofText
      "UPDATE t SET a = 1, b = c, 2 = 3, t.d = 'x' WHERE e = 4").toOption.any (fun root =>
        decide (root.setItems.map assignment? = [a].map some ++ ([none, none] ++ [d].map some) ∧
          root.Undisturbed)) = true := by
    decide +kernel
  rcases exists_table_of_any htable with ⟨t, ht, -⟩
  rcases exists_of_toOption_any hroot with ⟨root, hroot, hcheck⟩
  rcases of_decide_eq_true hcheck with ⟨hitems, hfree⟩
  exact ⟨t, root, a, d, ht, htag, hroot, hitems, hfree, by decide +kernel, by decide +kernel,
    update_pairs ht htag hroot hitems (Or.inr hfree)⟩

/-- The clause has items, each is an assignment, and each makes one column. -/
def Group.SoundlyPaired (root : Group) (columns : List Column) : Prop :=
  ∃ sides : List (Token × Token), sides ≠ [] ∧
    root.setItems.map assignment? = sides.map some ∧ columns = sides.map assignedColumn

/-- Two items that are no assignments have as many names as values between them,
    and are paired across. -/
theorem not_soundlyPaired_across :
    ∃ t root, classify "UPDATE t SET a = b, 1 = 2" = .ok (.table t) ∧
      statementTag "UPDATE t SET a = b, 1 = 2" = .ok "UPDATESET" ∧
      Group.ofText "UPDATE t SET a = b, 1 = 2" = .ok root ∧
      t.columns = [Column.assigned "a" ("1", .update), Column.assigned "b" ("2", .update)] ∧
      ¬root.SoundlyPaired t.columns := by
  have htable : ((classify "UPDATE t SET a = b, 1 = 2").toOption.bind Entity.table?).any (fun t =>
      t.columns = [Column.assigned "a" ("1", .update), Column.assigned "b" ("2", .update)]) =
        true := by
    decide +kernel
  have htag : statementTag "UPDATE t SET a = b, 1 = 2" = .ok "UPDATESET" := by
    decide +kernel
  have hroot : ((Group.ofText "UPDATE t SET a = b, 1 = 2").toOption.any fun root =>
      decide (root.setItems.map assignment? = [none, none])) = true := by
    decide +kernel
  rcases exists_table_of_any htable with ⟨t, ht, hcolumns⟩
  rcases exists_of_toOption_any hroot with ⟨root, hroot, hitems⟩
  refine ⟨t, root, ht, htag, hroot, of_decide_eq_true hcolumns, ?_⟩
  rintro ⟨sides, -, hsides, -⟩
  rw [of_decide_eq_true hitems] at hsides
  cases sides with
  | nil => exact List.cons_ne_nil _ _ hsides
  | cons s sides => exact Option.some_ne_none s (List.cons.inj hsides).1.symm

end SqlGist
