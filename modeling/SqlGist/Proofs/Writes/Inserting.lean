import SqlGist.Proofs.Writes.Lists

/-!
# Pairing the Names and Values of an Insertion

The columns of an insertion are the names that one scan finds and the values that
another finds, paired by position. Neither scan knows of `VALUES`. A name in a
tuple is taken for the name of a column, an item such as `DEFAULT` makes no value
at all, and the items of several tuples are one list of values.

What the scans cannot mix up is values. In front of `VALUES` nothing of a column
list is one, and behind it every value in a tuple is, in whatever place. So the
values of the columns are those of the tuples in order, and the names begin with
the column list. If the items of the tuples are single values there is no other
name, and each item is the value of a column of its own.

The tag of an insertion has two readings as keywords, since `INTO` can also be
`IN` and `TO`, but in both the last keyword is `VALUES`.

## Main definitions

* `Group.columnItems`, `Group.tupleItems`: The items in front of `VALUES` and
  behind it.
* `Group.ListsColumns`: In front of `VALUES` only parentheses are scanned.
* `Group.HoldsTuples`: Behind it stand tuples and nothing else.
* `insertedColumns`: The columns of names and values.
* `Group.SoundlyInserted`: One tuple, and for each item of it one column.

## Theorems

* `exists_valuesClause`: The tree of an insertion has one clause behind `VALUES`.
* `reads_front`: In front of it a statement reads as its column list.
* `isWritten_body`, `reads_body`: What the tuples read as.
* `insert_pairs`: Names and values of every insertion.
* `not_soundlyInserted_default`: An item that is no value has no column.
-/

namespace SqlGist

/-- The tree of an insertion has one `VALUES` clause, at its end. -/
theorem exists_valuesClause {sql : String} {root : Group} (hroot : Group.ofText sql = .ok root)
    (htag : statementTag sql = .ok "INSERTINTOVALUES") :
    ∃ items front opening run tail, (∀ item ∈ items, Nested.Matched item) ∧
      root = ⟨.statement, rootNodes items⟩ ∧
      IsLastClause root.children .values front opening run tail ∧
      opening :: run <:+: levelNodes items := by
  have hnames : expand root.keywords = expand [.insert, .into, .values] :=
    names_of_statementTag (c := .insert) htag hroot
  rcases exists_of_expand_eq_cons (by decide) hnames with ⟨behind, hkeywords, hbehind⟩
  have hbehind : expand behind = [.inKw, .to] ++ [.values] := hbehind
  rcases exists_of_expand_eq_concat (by decide) hbehind with ⟨into, rfl, hinto⟩
  rw [← List.cons_append] at hkeywords
  -- `INTO` may be spelled in one word or in two.
  rcases eq_of_expand_eq_pair hinto with rfl | ⟨k, rfl, hk⟩
  · exact exists_clause hroot hkeywords (by decide) (by decide) (by decide)
  · obtain rfl : k = .into := Keyword.parts_injective hk
    exact exists_clause hroot hkeywords (by decide) (by decide) (by decide)

/-- The items of the parentheses in front of `VALUES`. -/
def Group.columnItems (root : Group) : List (List Node) :=
  (root.children.takeWhile fun n => n.keyword? != some .values).flatMap Node.parenItems

/-- The items of the parentheses behind `VALUES`. -/
def Group.tupleItems (root : Group) : List (List Node) :=
  ((root.behind .values).flatMap Node.opened).flatMap Node.parenItems

/-- Behind `VALUES` stand parentheses, and at most commas between them. -/
def Group.HoldsTuples (root : Group) : Prop :=
  ∀ n ∈ (root.behind .values).flatMap Node.opened, n.isTuplePart = true

/-- Whether the leaf stands in a parenthesis of the statement, or in that of a
    call there. -/
def Leaf.inColumnList (l : Leaf) : Bool :=
  match (l.path.map Frame.shape).reverse with
  | _ :: .parenthesis :: _ => true
  | _ :: .functionCall :: .parenthesis :: _ => true
  | _ => false

/-- In front of `VALUES`, outside the parentheses, stands no leaf that would be
    taken for a column or for a value. -/
def Group.ListsColumns (root : Group) : Prop :=
  ∀ l ∈ root.leaves, l.isBehind .values = false → l.inColumnList = false → l.Idle .values

instance (root : Group) : Decidable root.HoldsTuples :=
  inferInstanceAs (Decidable (∀ n ∈ (root.behind .values).flatMap Node.opened, _))

instance (root : Group) : Decidable root.ListsColumns :=
  inferInstanceAs (Decidable (∀ l ∈ root.leaves, _))

namespace Node

theorem parenItems_leaf (t : Token) : parenItems (.leaf t) = [] := rfl

theorem parenItems_of_not_group {n : Node} (hparens : n.isGroup .parenthesis = false)
    (hcall : n.isGroup .functionCall = false) : n.parenItems = [] := by
  rw [parenItems.eq_def]
  split
  · exact absurd (hparens.symm.trans (decide_eq_true rfl)) Bool.false_ne_true
  · exact absurd (hcall.symm.trans (decide_eq_true rfl)) Bool.false_ne_true
  · rfl

theorem flatMap_parenItems_blank {ns : List Node} (h : ∀ n ∈ ns, n.isWhitespace = true) :
    ns.flatMap parenItems = [] := by
  refine List.flatMap_eq_nil_iff.2 fun n hn => ?_
  cases n with
  | leaf t => rfl
  | group => exact absurd (h _ hn) Bool.false_ne_true

/-- A call has the items of its parenthesis. -/
theorem parenItems_call {forced : Bool} {name p : Node} (h : p.IsEnclosed forced) :
    parenItems (.group .functionCall [name, p]) = p.parenItems := by
  rcases h with ⟨_, _, _, rfl, -⟩
  rfl

end Node

/-- Directly in the statement, only a parenthesis or a call has a leaf that stands
    in a parenthesis of the statement. -/
theorem inColumnList_of_mem {root : Group} {n : Node} {place : Nat} {l : Leaf}
    (hparens : n.isGroup .parenthesis = false) (hcall : n.isGroup .functionCall = false)
    (h : l ∈ n.leaves [⟨root, place⟩]) : l.inColumnList = false := by
  cases n with
  | leaf t =>
      rw [List.mem_singleton.1 h]
      rfl
  | group shape children =>
      rcases Node.suffix_of_mem_leavesFrom ⟨shape, children⟩ _ 0 children h with
        ⟨inner, -, path, hpath⟩
      have hpath : (l.path.map Frame.shape).reverse =
          root.shape :: shape :: (path.map Frame.shape).reverse := by
        rw [← hpath, List.map_append, List.reverse_append]
        rfl
      rw [Leaf.inColumnList, hpath]
      cases shape with
      | parenthesis => exact absurd (hparens.symm.trans (decide_eq_true rfl)) Bool.false_ne_true
      | functionCall => exact absurd (hcall.symm.trans (decide_eq_true rfl)) Bool.false_ne_true
      | _ => rfl

section Parentheses

variable {k : Keyword} {g : Group} {path : List Frame} {index : Nat} {ns : List Node}
  {single : List Node → Option Token} {P : Leaf → Prop}

/-- If every parenthesis reads as what its items are, so do several. -/
theorem reads_flatMap_parenItems (names : Token → List String)
    (values : Token → List (String × Action))
    (hleaves : ∀ l ∈ Node.leavesFrom g path index ns, P l)
    (hnode : ∀ n ∈ ns, ∀ (place : Nat) (xs : List Token),
      (∀ l ∈ n.leaves (⟨g, place⟩ :: path), P l) → n.parenItems.map single = xs.map some →
      Reads k (n.leaves (⟨g, place⟩ :: path)) (xs.flatMap names) (xs.flatMap values))
    {xs : List Token} (h : (ns.flatMap Node.parenItems).map single = xs.map some) :
    Reads k (Node.leavesFrom g path index ns) (xs.flatMap names) (xs.flatMap values) := by
  induction ns generalizing index xs with
  | nil =>
      rw [List.flatMap_nil, List.map_nil, eq_comm, List.map_eq_nil_iff] at h
      rw [h]
      exact Reads.of_idle fun l hl => absurd hl List.not_mem_nil
  | cons n ns ih =>
      rw [List.flatMap_cons, List.map_append, eq_comm, List.map_eq_append_iff] at h
      rcases h with ⟨first, rest, rfl, hfirst, hrest⟩
      rw [Node.leavesFrom] at hleaves ⊢
      rw [List.flatMap_append, List.flatMap_append]
      exact (hnode n List.mem_cons_self index first
        (fun l hl => hleaves l (List.mem_append_left _ hl)) hfirst.symm).append
        (ih (fun l hl => hleaves l (List.mem_append_right _ hl))
          (fun m hm => hnode m (List.mem_cons_of_mem n hm)) hrest.symm)

end Parentheses

/-- A node in front of `VALUES` reads as the names in its parenthesis. -/
theorem reads_frontNode {items : List Nested} (hmatched : ∀ item ∈ items, Nested.Matched item)
    {root : Group} (hshape : root.shape = .statement) {n : Node} (hn : n ∈ rootNodes items)
    {place : Nat}
    (hlisted : ∀ l ∈ n.leaves [⟨root, place⟩], l.inColumnList = false → l.Idle .values)
    {names : List Token} (h : n.parenItems.map columnName? = names.map some) :
    Reads .values (n.leaves [⟨root, place⟩]) (names.map Token.value) [] := by
  have houtside := outside_of_statement hshape
  cases hparens : n.isGroup .parenthesis with
  | true =>
      rcases enclosed_of_mem_rootNodes hmatched hn hparens with ⟨forced, henclosed⟩
      exact reads_enclosed henclosed (houtside.frames place) h
  | false =>
      cases hcall : n.isGroup .functionCall with
      | true =>
          rcases call_of_mem_rootNodes hmatched hn hcall with ⟨name, p, forced, -, hp, rfl⟩
          rw [Node.parenItems_call hp] at h
          have hinner : Group.Outside ⟨.functionCall, [Node.nameRef (.leaf name), p]⟩
              [⟨root, place⟩] := houtside.inner Shape.noConfusion place
          -- The name of the call stands outside its parenthesis.
          have hname : ∀ l ∈ (Node.nameRef (.leaf name)).leaves
              [⟨⟨.functionCall, [Node.nameRef (.leaf name), p]⟩, 0⟩, ⟨root, place⟩],
              l.Idle .values := by
            intro l hl
            refine hlisted l (List.mem_append_left _ hl) ?_
            rw [List.mem_singleton.1 hl]
            rfl
          rw [Node.leaves, Node.leavesFrom, Node.leavesFrom, Node.leavesFrom, List.append_nil]
          exact Reads.idle_append hname (reads_enclosed hp (hinner.frames 1) h)
      | false =>
          rw [Node.parenItems_of_not_group hparens hcall, List.map_nil, eq_comm,
            List.map_eq_nil_iff] at h
          rw [h]
          exact Reads.of_idle fun l hl => hlisted l hl (inColumnList_of_mem hparens hcall hl)

/-- In front of `VALUES` a statement reads as its column list. -/
theorem reads_front {items : List Nested} (hmatched : ∀ item ∈ items, Nested.Matched item)
    {root : Group} (hroot : root = ⟨.statement, rootNodes items⟩) {front run tail : List Node}
    {opening : Node} (hclause : IsLastClause root.children .values front opening run tail)
    (hlists : root.ListsColumns) {names : List Token}
    (hnames : root.columnItems.map columnName? = names.map some) :
    Reads .values (Node.leavesFrom root [] 0 front) (names.map Token.value) [] := by
  rw [Group.columnItems, hclause.takeWhile_front] at hnames
  have hleaves : ∀ l ∈ Node.leavesFrom root [] 0 front, l.inColumnList = false →
      l.Idle .values := by
    intro l hl
    refine hlists l ?_ (hclause.isBehind_of_front hl)
    rw [hclause.leaves_eq]
    exact List.mem_append_left _ hl
  have hmem : ∀ n ∈ front, n ∈ rootNodes items := by
    intro n hn
    have hchild : n ∈ root.children := by
      rw [hclause.eq_append]
      exact List.mem_append_left _ hn
    rwa [hroot] at hchild
  have hnone : ∀ xs : List Token, (xs.flatMap fun _ => ([] : List (String × Action))) = [] :=
    fun xs => List.flatMap_eq_nil_iff.2 fun _ _ => rfl
  rw [← hnone names, List.map_eq_flatMap]
  refine reads_flatMap_parenItems (P := fun l => l.inColumnList = false → l.Idle .values) _ _
    hleaves (fun n hn place xs hlisted hxs => ?_) hnames
  rw [hnone, ← List.map_eq_flatMap]
  exact reads_frontNode hmatched (by rw [hroot]) (hmem n hn) hlisted hxs

/-- In a part of a clause of tuples exactly the values are written. -/
theorem isWritten_tuplePart {k : Keyword} {n : Node} (hpart : n.isTuplePart = true)
    (htuple : n.isGroup .parenthesis = true → n.IsEnclosed true) {path : List Frame}
    (hpath : ∀ f ∈ path, f.shape ≠ .whereClause) :
    ∀ l ∈ n.leaves path, l.isWritten k = l.token.isValue := by
  rcases Node.isTuplePart_iff.1 hpart with hblank | hcomma | hparens
  · exact isWritten_of_isIdle (Node.isIdle_of_isWhitespace hblank)
  · exact isWritten_of_isIdle (Node.isIdle_of_isMark hcomma)
  · exact isWritten_enclosed (htuple hparens) hpath

/-- A part of a clause of tuples reads as its values, if these are all its
    items. -/
theorem reads_tuplePart {k : Keyword} {n : Node} (hpart : n.isTuplePart = true)
    (htuple : n.isGroup .parenthesis = true → n.IsEnclosed true) {path : List Frame}
    (hpath : ∀ f ∈ path, f.shape ≠ .whereClause ∧ f.shape ≠ .comparison) {values : List Token}
    (h : n.parenItems.map singleValue? = values.map some) :
    Reads k (n.leaves path) [] (values.map fun v => (v.value, .insert)) := by
  have hidle : n.isIdle = true →
      Reads k (n.leaves path) [] (values.map fun v => (v.value, .insert)) := by
    intro hidle
    cases n with
    | leaf t =>
        rw [Node.parenItems_leaf, List.map_nil, eq_comm, List.map_eq_nil_iff] at h
        rw [h]
        exact Reads.of_idle (idle_word hidle path)
    | group => exact absurd hidle Bool.false_ne_true
  rcases Node.isTuplePart_iff.1 hpart with hblank | hcomma | hparens
  · exact hidle (Node.isIdle_of_isWhitespace hblank)
  · exact hidle (Node.isIdle_of_isMark hcomma)
  · exact reads_valueTuple (htuple hparens) hpath h

section Tuples

variable {k : Keyword} {g : Group} {path : List Frame} {index : Nat} {run : List Node}
  (hparts : ∀ n ∈ run, n.isTuplePart = true)
  (htuples : ∀ n ∈ run, n.isGroup .parenthesis = true → n.IsEnclosed true)

include hparts htuples

/-- In a clause of tuples exactly the values are written. -/
theorem isWritten_body (houtside : g.Outside path) :
    ∀ l ∈ Node.leavesFrom g path index (Node.listRun false run),
      l.isWritten k = l.token.isValue := by
  intro l hl
  rcases Node.mem_leavesFrom hl with ⟨n, hn, place, hl⟩
  rcases Node.mem_listRun hn with hn | ⟨items, rfl, -, -, hitems⟩
  · exact isWritten_tuplePart (hparts n hn) (htuples n hn) (houtside.frames place) l hl
  · rcases Node.mem_leavesFrom hl with ⟨m, hm, inner, hl⟩
    have hlist : Group.Outside ⟨.nameList, items⟩ (⟨g, place⟩ :: path) :=
      houtside.inner Shape.noConfusion place
    exact isWritten_tuplePart (hparts m (hitems m hm)) (htuples m (hitems m hm))
      (hlist.frames inner) l hl

theorem reads_tuples (hpath : ∀ place, ∀ f ∈ (⟨g, place⟩ : Frame) :: path,
      f.shape ≠ .whereClause ∧ f.shape ≠ .comparison) {values : List Token}
    (h : (run.flatMap Node.parenItems).map singleValue? = values.map some) :
    Reads k (Node.leavesFrom g path index run) [] (values.map fun v => (v.value, .insert)) := by
  have hnone : ∀ xs : List Token, (xs.flatMap fun _ => ([] : List String)) = [] :=
    fun xs => List.flatMap_eq_nil_iff.2 fun _ _ => rfl
  rw [← hnone values, List.map_eq_flatMap]
  refine reads_flatMap_parenItems (P := fun _ => True) _ _ (fun _ _ => trivial)
    (fun n hn place xs _ hxs => ?_) h
  rw [hnone, ← List.map_eq_flatMap]
  exact reads_tuplePart (hparts n hn) (htuples n hn) (hpath place) hxs

/-- A clause of tuples reads as its values, if these are all its items. -/
theorem reads_body (hpath : ∀ place, ∀ f ∈ (⟨g, place⟩ : Frame) :: path,
      f.shape ≠ .whereClause ∧ f.shape ≠ .comparison) {values : List Token}
    (h : (run.flatMap Node.parenItems).map singleValue? = values.map some) :
    Reads k (Node.leavesFrom g path index (Node.listRun false run)) []
      (values.map fun v => (v.value, .insert)) := by
  rcases Node.listRun_cases false run with heq | ⟨gap, items, gap', rfl, heq, hgap, hgap'⟩
  · rw [heq]
    exact reads_tuples hparts htuples hpath h
  · have hsub : ∀ n ∈ items, n ∈ gap ++ (items ++ gap') :=
      fun n hn => List.mem_append_right _ (List.mem_append_left _ hn)
    have hinner : ∀ place, ∀ f ∈ (⟨⟨.nameList, items⟩, place⟩ : Frame) ::
        ⟨g, index + gap.length⟩ :: path, f.shape ≠ .whereClause ∧ f.shape ≠ .comparison := by
      intro place f hf
      rcases List.mem_cons.1 hf with rfl | hf
      · exact ⟨Shape.noConfusion, Shape.noConfusion⟩
      · exact hpath _ f hf
    rw [List.flatMap_append, List.flatMap_append, Node.flatMap_parenItems_blank hgap,
      Node.flatMap_parenItems_blank hgap', List.nil_append, List.append_nil] at h
    rw [heq, Node.leavesFrom_append, Node.leavesFrom]
    exact Reads.idle_append (idle_blanks hgap _)
      ((reads_tuples (fun n hn => hparts n (hsub n hn)) (fun n hn => htuples n (hsub n hn))
        hinner h).append_idle (idle_blanks hgap' _))

end Tuples

/-- The columns of names and values: one for each pair, or one for each value
    where there are no names. -/
def insertedColumns (names values : List Token) : List Column :=
  if names.isEmpty then values.map fun v => Column.positional v.value .insert
  else List.zipWith (fun n v => Column.assigned n.value (v.value, .insert)) names values

/-- Names and inserted values are paired to the columns of both. -/
theorem Reads.columns_inserted {k : Keyword} {ls : List Leaf} {names values : List Token}
    (h : Reads k ls (names.map Token.value) (values.map fun v => (v.value, .insert)))
    {columns : List Column}
    (hpair : pairColumns (ls.filter Leaf.isColumn) (ls.filter fun l => l.isWritten k) =
      .ok columns) :
    (names = [] ∨ names.length = values.length) ∧ columns = insertedColumns names values := by
  rcases h.columns_eq hpair with ⟨hnil, rfl⟩ | ⟨hlength, rfl⟩
  · rw [List.map_eq_nil_iff] at hnil
    refine ⟨Or.inl hnil, ?_⟩
    rw [hnil, List.map_map]
    rfl
  · rw [List.length_map, List.length_map] at hlength
    refine ⟨Or.inr hlength, ?_⟩
    rw [List.zipWith_map]
    cases names with
    | nil =>
        rw [List.length_eq_zero_iff.1 hlength.symm]
        rfl
    | cons name names => rfl

/-- What columns are paired from can be read off them again. -/
theorem Reads.columns_fields {k : Keyword} {ls : List Leaf} {names : List String}
    {values : List (String × Action)} (h : Reads k ls names values) {columns : List Column}
    (hpair : pairColumns (ls.filter Leaf.isColumn) (ls.filter fun l => l.isWritten k) =
      .ok columns) :
    columns.map Column.value = values.map (fun v => some v.1) ∧
      (names = [] ∧ (∀ c ∈ columns, c.name = none) ∨ columns.map Column.name = names.map some) := by
  rcases h.columns_eq hpair with ⟨hnil, rfl⟩ | ⟨hlength, rfl⟩
  · refine ⟨?_, Or.inl ⟨hnil, fun c hc => ?_⟩⟩
    · rw [List.map_map]
      rfl
    · rcases List.mem_map.1 hc with ⟨v, -, rfl⟩
      rfl
  · have hnames : (names.zip values).map Prod.fst = names := List.map_fst_zip hlength.le
    have hvalues : (names.zip values).map Prod.snd = values := List.map_snd_zip hlength.ge
    rw [← List.map_uncurry_zip_eq_zipWith]
    refine ⟨?_, Or.inr ?_⟩
    · conv_rhs => rw [← hvalues, List.map_map]
      rw [List.map_map]
      rfl
    · conv_rhs => rw [← hnames, List.map_map]
      rw [List.map_map]
      rfl

/-- Where exactly the values are written, what is written are the values. -/
theorem map_written_eq {k : Keyword} {ls : List Leaf}
    (h : ∀ l ∈ ls, l.isWritten k = l.token.isValue) :
    ((ls.filter fun l => l.isWritten k).map Leaf.written).map (fun v => some v.1) =
      ((ls.map Leaf.token).filter Token.isValue).map fun v => some v.value := by
  rw [List.filter_congr h, List.map_map, List.filter_map, List.map_map]
  rfl

/-- Columns are among the names. -/
theorem map_columns_sublist (ls : List Leaf) :
    ((ls.filter Leaf.isColumn).map Leaf.token).Sublist
      ((ls.map Leaf.token).filter Token.isName) := by
  rw [List.filter_map]
  refine (List.monotone_filter_right ls fun l hl => ?_).map Leaf.token
  rw [Leaf.isColumn, Bool.and_eq_true, Bool.and_eq_true, Bool.and_eq_true] at hl
  exact hl.1.1.1

/-- Whatever stands in the tuples of an insertion, the values of its columns are
    all the values there, in order, and none from the column list. The names of
    the columns are those of the list, in order, and behind these some that stand
    in the tuples, or there are none at all. If the items of the tuples are single
    values, each of them is the value of one column, in order, and the names are
    exactly those of the list, as many as there are values, or none if the list
    has none. -/
theorem insert_pairs {sql : String} {t : Table} {root : Group} {names : List Token}
    (h : classify sql = .ok (.table t)) (htag : statementTag sql = .ok "INSERTINTOVALUES")
    (hroot : Group.ofText sql = .ok root) (htuples : root.HoldsTuples) (hlists : root.ListsColumns)
    (hnames : root.columnItems.map columnName? = names.map some) :
    t.columns.map Column.value =
        ((Node.tokensOf (root.behind .values)).filter Token.isValue).map
          (fun v => some v.value) ∧
      (∃ more, List.Sublist more ((Node.tokensOf (root.behind .values)).filter Token.isName) ∧
        (names ++ more = [] ∧ (∀ c ∈ t.columns, c.name = none) ∨
          t.columns.map Column.name = (names ++ more).map fun n => some n.value)) ∧
      ∀ values : List Token, root.tupleItems.map singleValue? = values.map some →
        (names = [] ∨ names.length = values.length) ∧
          t.columns = insertedColumns names values := by
  rcases exists_valuesClause hroot htag with
    ⟨items, front, opening, run, tail, hmatched, hstatement, hclause, hrun⟩
  have hpair := pairColumns_of_write (c := .insert) rfl h htag hroot
  have houtside : root.Outside [] := by
    rw [hstatement]
    exact ⟨Shape.noConfusion, fun f hf => absurd hf List.not_mem_nil⟩
  have hparts : ∀ n ∈ run, n.isTuplePart = true := by
    rwa [Group.HoldsTuples, hclause.opened_behind] at htuples
  have henclosed : ∀ n ∈ run, n.isGroup .parenthesis = true → n.IsEnclosed true :=
    fun n hn => enclosed_behind_values hmatched hrun hclause.opens hparts hn
  -- Both scans go on behind the names of the list.
  have hwhole : ∀ {ns : List String} {vs : List (String × Action)},
      Reads .values (Node.leavesFrom root [] (0 + front.length + 1) (Node.listRun false run)) ns
        vs → Reads .values root.leaves (names.map Token.value ++ ns) vs := by
    intro ns vs hbody
    rw [hclause.leaves_eq]
    refine (reads_front hmatched hstatement hclause hlists hnames).append ?_
    exact Reads.idle_append (idle_word (Node.isIdle_of_keyword? hclause.opens (by decide)) _)
      (hbody.append_idle (idle_tail hclause.tail_eq))
  generalize hls : Node.leavesFrom root [] (0 + front.length + 1) (Node.listRun false run) = ls
    at hwhole
  have htokens : Node.tokensOf (root.behind .values) = ls.map Leaf.token := by
    rw [hclause.behind_eq, ← hls, Node.leavesFrom_tokens]
  have hwritten : ∀ l ∈ ls, l.isWritten .values = l.token.isValue := by
    rw [← hls]
    exact isWritten_body hparts henclosed houtside
  have hfields := (hwhole (Reads.self .values ls)).columns_fields hpair
  rw [htokens]
  refine ⟨hfields.1.trans (map_written_eq hwritten),
    ⟨(ls.filter Leaf.isColumn).map Leaf.token, map_columns_sublist ls, ?_⟩,
    fun values hvalues => ?_⟩
  · have hmore : (names ++ (ls.filter Leaf.isColumn).map Leaf.token).map Token.value =
        names.map Token.value ++ (ls.filter Leaf.isColumn).map Leaf.value := by
      rw [List.map_append, List.map_map]
      rfl
    rw [← hmore] at hfields
    refine hfields.2.imp (And.imp_left List.map_eq_nil_iff.1) fun hnamed => ?_
    rw [hnamed, List.map_map]
    rfl
  · rw [Group.tupleItems, hclause.opened_behind] at hvalues
    have hpath : ∀ place, ∀ f ∈ [(⟨root, place⟩ : Frame)],
        f.shape ≠ .whereClause ∧ f.shape ≠ .comparison := by
      intro place f hf
      rw [List.mem_singleton.1 hf, hstatement]
      exact ⟨Shape.noConfusion, Shape.noConfusion⟩
    have hbody : Reads .values ls [] (values.map fun v => (v.value, .insert)) := by
      rw [← hls]
      exact reads_body hparts henclosed hpath hvalues
    have hreads := hwhole hbody
    rw [List.append_nil] at hreads
    exact hreads.columns_inserted hpair

/-- A column list and a tuple of values, each of them with a column of its own. -/
theorem insert_pairs_listed :
    ∃ t root, ∃ names values : List Token,
      classify "INSERT INTO t (a, s.b) VALUES (1, 'x')" = .ok (.table t) ∧
      statementTag "INSERT INTO t (a, s.b) VALUES (1, 'x')" = .ok "INSERTINTOVALUES" ∧
      Group.ofText "INSERT INTO t (a, s.b) VALUES (1, 'x')" = .ok root ∧
      root.HoldsTuples ∧ root.ListsColumns ∧
      root.columnItems.map columnName? = names.map some ∧
      root.tupleItems.map singleValue? = values.map some ∧
      insertedColumns names values =
        [Column.assigned "a" ("1", .insert), Column.assigned "b" ("x", .insert)] ∧
      (names = [] ∨ names.length = values.length) ∧ t.columns = insertedColumns names values := by
  let names : List Token := [⟨.name, "a", ⟨15, 16⟩⟩, ⟨.name, "b", ⟨20, 21⟩⟩]
  let values : List Token := [⟨.number, "1", ⟨31, 32⟩⟩, ⟨.string, "'x'", ⟨34, 37⟩⟩]
  have htable : ((classify "INSERT INTO t (a, s.b) VALUES (1, 'x')").toOption.bind
      Entity.table?).any (fun _ => true) = true := by
    decide +kernel
  have htag : statementTag "INSERT INTO t (a, s.b) VALUES (1, 'x')" = .ok "INSERTINTOVALUES" := by
    decide +kernel
  have hroot : (Group.ofText "INSERT INTO t (a, s.b) VALUES (1, 'x')").toOption.any (fun root =>
      decide (root.HoldsTuples ∧ root.ListsColumns ∧
        root.columnItems.map columnName? = names.map some ∧
        root.tupleItems.map singleValue? = values.map some)) = true := by
    decide +kernel
  rcases exists_table_of_any htable with ⟨t, ht, -⟩
  rcases exists_of_toOption_any hroot with ⟨root, hroot, hcheck⟩
  rcases of_decide_eq_true hcheck with ⟨htuples, hlists, hnames, hvalues⟩
  exact ⟨t, root, names, values, ht, htag, hroot, htuples, hlists, hnames, hvalues,
    by decide +kernel, (insert_pairs ht htag hroot htuples hlists hnames).2.2 values hvalues⟩

/-- The clause has one tuple, each of its items has one column with its value, and
    the names of the columns are those of the column list, or there are none in
    either. -/
def Group.SoundlyInserted (root : Group) (columns : List Column) : Prop :=
  ∃ (tuple : Node) (names : List Token),
    ((root.behind .values).flatMap Node.opened).filter (Node.isGroup · .parenthesis) = [tuple] ∧
    root.columnItems.map columnName? = names.map some ∧
    List.Forall₂ (fun item c => ∀ v, singleValue? item = some v → c.value = some v.value)
      tuple.parenItems columns ∧
    (names = [] ∧ (∀ c ∈ columns, c.name = none) ∨
      columns.map Column.name = names.map fun n => some n.value)

/-- An item that is no value is skipped. -/
theorem not_soundlyInserted_default :
    ∃ t root, classify "INSERT INTO t VALUES (DEFAULT, 1)" = .ok (.table t) ∧
      statementTag "INSERT INTO t VALUES (DEFAULT, 1)" = .ok "INSERTINTOVALUES" ∧
      Group.ofText "INSERT INTO t VALUES (DEFAULT, 1)" = .ok root ∧
      root.HoldsTuples ∧ root.ListsColumns ∧ root.tupleItems.length = 2 ∧
      t.columns = [Column.positional "1" .insert] ∧ ¬root.SoundlyInserted t.columns := by
  have htable : ((classify "INSERT INTO t VALUES (DEFAULT, 1)").toOption.bind
      Entity.table?).any (fun t => t.columns = [Column.positional "1" .insert]) = true := by
    decide +kernel
  have htag : statementTag "INSERT INTO t VALUES (DEFAULT, 1)" = .ok "INSERTINTOVALUES" := by
    decide +kernel
  have hroot : (Group.ofText "INSERT INTO t VALUES (DEFAULT, 1)").toOption.any (fun root =>
      decide (root.HoldsTuples ∧ root.ListsColumns ∧ root.tupleItems.length = 2) &&
        (((root.behind .values).flatMap Node.opened).filter (Node.isGroup · .parenthesis)).all
          fun tuple => tuple.parenItems.length = 2) = true := by
    decide +kernel
  rcases exists_table_of_any htable with ⟨t, ht, hcolumns⟩
  rcases exists_of_toOption_any hroot with ⟨root, hroot, hcheck⟩
  rcases (Bool.and_eq_true _ _).mp hcheck with ⟨hitems, htuples⟩
  rcases of_decide_eq_true hitems with ⟨hholds, hlists, hlength⟩
  have hcolumns := of_decide_eq_true hcolumns
  refine ⟨t, root, ht, htag, hroot, hholds, hlists, hlength, hcolumns, ?_⟩
  rintro ⟨tuple, names, htuple, -, hcolumn, -⟩
  -- The tuple has two items, and there is one column.
  have htwo := List.all_eq_true.1 htuples tuple (by rw [htuple]; exact List.mem_singleton_self _)
  have hone := hcolumn.length_eq
  rw [of_decide_eq_true htwo, hcolumns] at hone
  exact absurd hone (by decide)

end SqlGist
