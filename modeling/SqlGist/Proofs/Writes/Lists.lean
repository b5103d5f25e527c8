import SqlGist.Proofs.Tree.Shapes
import SqlGist.Proofs.Tree.Tuples
import SqlGist.Proofs.Writes.LastClause

/-!
# The Lists of an Insertion

An insertion has its names in one parenthesis and its values in another, and
each is read by a scan that knows nothing of the other. A parenthesis adds to the
names what stands in it as a name, and to the values what stands in it as a
value, if it is a list.

For a list of names that is said item by item: an item that is a name, with at
most a qualifier in front, adds that name and nothing else. A tuple is different,
since behind `VALUES` a parenthesis is a list whatever it holds. So every value in
it is written, however deep and between whatever else, and its items come in only
to say which values these are.

## Main definitions

* `columnName?`, `singleValue?`: An item that is a name, and one that is a value.
* `Node.parenItems`: The items of a parenthesis, also that of a call.

## Theorems

* `reads_runItems`: A run reads as its items do.
* `reads_columnNames`, `reads_enclosed`: Names in a list or in a parenthesis read
  as themselves.
* `reads_valueList`, `reads_valueTuple`: So do values in a list or in a tuple.
* `isWritten_enclosed`: In a tuple exactly the values are written.
-/

namespace SqlGist

/-- The name of a column, if that is all the item is, a qualifier in front
    aside. -/
def columnName? (item : List Node) : Option Token :=
  match item with
  | [.group .nameRef [.leaf name]] => if name.isName then some name else none
  | [.group .nameRef [.leaf qualifier], point, .group .nameRef [.leaf name]] =>
    if qualifier.isName && point.isMark "." && name.isName then some name else none
  | _ => none

/-- The value, if that is all the item is. -/
def singleValue? (item : List Node) : Option Token :=
  match item with
  | [.leaf value] => if value.isValue then some value else none
  | _ => none

theorem columnName?_eq_some_iff {item : List Node} {name : Token} :
    columnName? item = some name ↔ name.isName = true ∧
      (item = [Node.nameRef (.leaf name)] ∨
        ∃ qualifier point, item = [Node.nameRef (.leaf qualifier), point,
          Node.nameRef (.leaf name)] ∧ qualifier.isName = true ∧ point.isMark "." = true) := by
  constructor
  · intro h
    rw [columnName?.eq_def] at h
    split at h
    · split at h
      · rename_i hname
        rw [← Option.some.inj h]
        exact ⟨hname, Or.inl rfl⟩
      · exact absurd h.symm (Option.some_ne_none name)
    · split at h
      · rename_i hchecks
        rw [Bool.and_eq_true, Bool.and_eq_true] at hchecks
        rw [← Option.some.inj h]
        exact ⟨hchecks.2, Or.inr ⟨_, _, rfl, hchecks.1.1, hchecks.1.2⟩⟩
      · exact absurd h.symm (Option.some_ne_none name)
    · exact absurd h.symm (Option.some_ne_none name)
  · rintro ⟨hname, rfl | ⟨qualifier, point, rfl, hqualifier, hpoint⟩⟩
    · simp only [columnName?, Node.nameRef, hname, if_true]
    · simp only [columnName?, Node.nameRef, hname, hqualifier, hpoint, Bool.and_self, if_true]

theorem singleValue?_eq_some_iff {item : List Node} {value : Token} :
    singleValue? item = some value ↔ item = [.leaf value] ∧ value.isValue = true := by
  constructor
  · intro h
    rw [singleValue?.eq_def] at h
    split at h
    · split at h
      · rename_i hvalue
        rw [← Option.some.inj h]
        exact ⟨rfl, hvalue⟩
      · exact absurd h.symm (Option.some_ne_none value)
    · exact absurd h.symm (Option.some_ne_none value)
  · rintro ⟨rfl, hvalue⟩
    simp only [singleValue?, hvalue, if_true]

namespace Node

/-- The items of a run. Blanks alone have none. -/
def runItems (ns : List Node) : List (List Node) :=
  if (visibleOf ns).isEmpty then [] else splitItems ns

/-- The items of a parenthesis, or of that of a call. -/
def parenItems : Node → List (List Node)
  | .group .parenthesis children => runItems ((children.drop 1).dropLast.flatMap opened)
  | .group .functionCall [_, .group .parenthesis children] =>
    runItems ((children.drop 1).dropLast.flatMap opened)
  | _ => []

theorem parenItems_eq {forced : Bool} {run : List Node} {opening closing : Node}
    (h : ∀ n ∈ run, n.isGroup .nameList = false) :
    parenItems (.group .parenthesis (opening :: (listRun forced run ++ [closing]))) =
      runItems run := by
  rw [parenItems, List.drop_succ_cons, List.drop_zero, List.dropLast_concat,
    flatMap_opened_listRun h]

theorem runItems_listed {gap items gap' : List Node} (hgap : ∀ n ∈ gap, n.isWhitespace = true)
    (hgap' : ∀ n ∈ gap', n.isWhitespace = true) :
    runItems (gap ++ (items ++ gap')) = runItems items := by
  rw [runItems, runItems, splitItems, splitItems, visibleOf_append, visibleOf_append,
    visibleOf_blank hgap, visibleOf_blank hgap', List.nil_append, List.append_nil]

/-- A run is blank, or has the items that stand between its commas. -/
theorem runItems_cases (ns : List Node) :
    (∀ n ∈ ns, n.isWhitespace = true) ∧ runItems ns = [] ∨ runItems ns = splitItems ns := by
  rw [runItems]
  split
  · rename_i hempty
    exact Or.inl ⟨blank_of_visibleOf_nil (List.isEmpty_iff.1 hempty), rfl⟩
  · exact Or.inr rfl

theorem runItems_eq {ns : List Node} (h : splitItems ns ≠ [[]]) : runItems ns = splitItems ns := by
  rw [runItems, if_neg]
  intro hempty
  rw [splitItems, List.isEmpty_iff.1 hempty, List.splitOnP_nil] at h
  exact h rfl

/-- What holds of blanks and commas and of the nodes of every item holds of the
    run. -/
theorem forall_of_splitItems {P : Node → Prop} {ns : List Node}
    (hblank : ∀ n, n.isWhitespace = true → P n) (hcomma : ∀ n, n.isMark "," = true → P n)
    (hitems : ∀ item ∈ splitItems ns, ∀ n ∈ item, P n) : ∀ n ∈ ns, P n := by
  have hvisible : ∀ ms : List Node, (∀ n ∈ visibleOf ms, P n) → ∀ n ∈ ms, P n := by
    intro ms hms n hn
    by_cases hn' : n.isWhitespace = true
    · exact hblank n hn'
    · exact hms n (List.mem_filter.2 ⟨hn, by rw [Bool.eq_false_iff.2 hn']; rfl⟩)
  generalize hns : splitItems ns = items at hitems
  induction items generalizing ns with
  | nil => exact absurd hns (splitItems_ne_nil ns)
  | cons item items ih =>
      have hitem := hitems item List.mem_cons_self
      rcases exists_of_splitItems_cons hns with
        ⟨rfl, -⟩ | ⟨front, comma, back, rfl, rfl, hmark, hback⟩
      · exact hvisible ns hitem
      · intro n hn
        rcases List.mem_append.1 hn with hn | hn
        · exact hvisible front hitem n hn
        · rcases List.mem_cons.1 hn with rfl | hn
          · exact hcomma n hmark
          · exact ih hback (fun i hi => hitems i (List.mem_cons_of_mem _ hi)) n hn

end Node

/-- Among names there are no keywords. -/
theorem keyword?_of_columnNames {ns : List Node} {names : List Token}
    (h : (Node.runItems ns).map columnName? = names.map some) :
    ∀ n ∈ ns, n.keyword? = none := by
  rcases Node.runItems_cases ns with ⟨hblank, -⟩ | hitems
  · exact fun n hn => Node.keyword?_of_isWhitespace (hblank n hn)
  rw [hitems] at h
  refine Node.forall_of_splitItems (fun n => Node.keyword?_of_isWhitespace)
    (fun n => Node.keyword?_of_isMark) fun item hitem n hn => ?_
  have hmem := List.mem_map_of_mem (f := columnName?) hitem
  rw [h] at hmem
  rcases List.mem_map.1 hmem with ⟨name, -, hname⟩
  rcases (columnName?_eq_some_iff.1 hname.symm).2 with rfl | ⟨_, _, rfl, -, hpoint⟩
  · rw [List.mem_singleton.1 hn]
    rfl
  · simp only [List.mem_cons, List.not_mem_nil, or_false] at hn
    rcases hn with rfl | rfl | rfl
    · rfl
    · exact Node.keyword?_of_isMark hpoint
    · rfl

section Items

variable {k : Keyword} {g : Group} {path : List Frame} {index : Nat} {ns after : List Node}
  {single : List Node → Option Token}

/-- If every item reads as what it is, up to a point behind it, so does the run,
    item by item. -/
theorem reads_runItems (names : Token → List String) (values : Token → List (String × Action))
    (hsingle : ∀ {index : Nat} {ns after : List Node} {x : Token},
      g.children.drop index = ns ++ after →
      (∀ n, (Node.visibleOf after).head? = some n → n.isMark "." = false) →
      single (Node.visibleOf ns) = some x →
      Reads k (Node.leavesFrom g path index ns) (names x) (values x))
    (hdrop : g.children.drop index = ns ++ after)
    (hafter : ∀ n, (Node.visibleOf after).head? = some n → n.isMark "." = false)
    {xs : List Token} (h : (Node.runItems ns).map single = xs.map some) :
    Reads k (Node.leavesFrom g path index ns) (xs.flatMap names) (xs.flatMap values) := by
  rcases Node.runItems_cases ns with ⟨hblank, hitems⟩ | hitems
  · rw [hitems, eq_comm, List.map_nil, List.map_eq_nil_iff] at h
    rw [h]
    exact Reads.of_idle (idle_blanks hblank index)
  rw [hitems] at h
  clear hitems
  generalize hitems : Node.splitItems ns = items at h
  induction items generalizing ns index xs with
  | nil => exact absurd hitems (Node.splitItems_ne_nil ns)
  | cons item items ih =>
      rw [List.map_cons, eq_comm, List.map_eq_cons_iff] at h
      rcases h with ⟨x, rest, rfl, hx, hrest⟩
      rcases Node.exists_of_splitItems_cons hitems with
        ⟨rfl, rfl⟩ | ⟨front, comma, back, rfl, rfl, hcomma, hback⟩
      · rw [List.map_nil, List.map_eq_nil_iff] at hrest
        rw [hrest, List.flatMap_singleton, List.flatMap_singleton]
        exact hsingle hdrop hafter hx.symm
      · -- A comma follows the first item, and that is no point.
        rw [List.append_assoc, List.cons_append] at hdrop
        have hnext : ∀ n, (Node.visibleOf (comma :: (back ++ after))).head? = some n →
            n.isMark "." = false := by
          intro n hn
          have hvisible : comma.isWhitespace = false := Node.isWhitespace_of_isMark hcomma
          rw [Node.visibleOf, List.filter_cons_of_pos (by rw [hvisible]; rfl), List.head?_cons,
            Option.some.injEq] at hn
          rw [← hn]
          exact Node.isMark_of_ne hcomma (by decide)
        have hothers := ih (drop_behind hdrop) hback hrest.symm
        rw [Node.leavesFrom_append, Node.leavesFrom, List.flatMap_cons, List.flatMap_cons]
        exact (hsingle hdrop hnext hx.symm).append
          (hothers.idle_append (idle_word (Node.isIdle_of_isMark hcomma) _))

end Items

/-- A parenthesis reads as what stands between its marks. -/
theorem reads_between {k : Keyword} {opening closing : Token} {path : List Frame}
    (body : List Node) (hopen : opening.isMark "(" = true) (hclose : closing.isMark ")" = true)
    {names : List String} {values : List (String × Action)}
    (h : Reads k (Node.leavesFrom ⟨.parenthesis, .leaf opening :: (body ++ [.leaf closing])⟩ path 1
      body) names values) :
    Reads k ((Node.group .parenthesis (.leaf opening :: (body ++ [.leaf closing]))).leaves path)
      names values := by
  have hopens : (Node.leaf opening).isIdle = true :=
    Node.isIdle_of_isMark (n := .leaf opening) hopen
  have hcloses : (Node.leaf closing).isIdle = true :=
    Node.isIdle_of_isMark (n := .leaf closing) hclose
  rw [Node.leaves, Node.leavesFrom, Node.leavesFrom_append]
  exact Reads.idle_append (idle_word hopens _)
    (h.append_idle (idle_words (List.forall_mem_singleton.2 hcloses) _))

section Names

variable {k : Keyword} {g : Group} {path : List Frame} {index : Nat} {ns after : List Node}
  (houtside : g.Outside path) (hshape : g.shape ∈ namingShapes)
  (hfree : ∀ n ∈ g.children, n.keyword? = none) (hdrop : g.children.drop index = ns ++ after)
  (hafter : ∀ n, (Node.visibleOf after).head? = some n → n.isMark "." = false)

include hshape hfree in
/-- Where no keyword stands, a name is a column unless a point follows. -/
theorem holdsColumn_of_next {place : Nat}
    (hnext : ∀ n, Frame.next? ⟨g, place⟩ = some n → n.isMark "." = false) :
    Frame.holdsColumn ⟨g, place⟩ = true := by
  have hprev : (Frame.prev? ⟨g, place⟩).any (fun n => n.keyword? = some .constraint) = false := by
    rw [Option.any_eq_false]
    intro n hn
    have hmem := List.mem_of_mem_take (List.mem_reverse.1 (List.mem_of_find?_eq_some hn))
    rw [hfree n hmem]
    rfl
  have hpoint : (Frame.next? ⟨g, place⟩).any (fun n => n.isMark ".") = false := by
    rw [Option.any_eq_false]
    exact hnext
  rw [Frame.holdsColumn_eq (f := ⟨g, place⟩) hshape, hprev, hpoint]
  rfl

include houtside hshape hfree hdrop hafter

/-- An item that is a name reads as that. Its qualifier is no column, since a
    point stands behind it. -/
theorem reads_columnName {name : Token} (h : columnName? (Node.visibleOf ns) = some name) :
    Reads k (Node.leavesFrom g path index ns) [name.value] [] := by
  rcases columnName?_eq_some_iff.1 h with ⟨hname, hitem | ⟨qualifier, point, hitem, hrest⟩⟩
  · rcases Node.exists_of_visibleOf_cons hitem with ⟨gap, blanks, rfl, hgap, hblanks⟩
    rw [List.append_assoc, List.cons_append] at hdrop
    have hcolumn : Frame.holdsColumn ⟨g, index + gap.length⟩ = true := by
      refine holdsColumn_of_next hshape hfree fun n hn => hafter n ?_
      rw [← hn, Frame.next?_eq hdrop, Node.visibleOf_append, hblanks, List.nil_append]
    exact reads_gap_cons hgap (reads_name hname houtside hcolumn)
      (Reads.of_idle (idle_blanks (Node.blank_of_visibleOf_nil hblanks) _))
  · rcases Node.exists_of_visibleOf_cons hitem with ⟨gap, rest, rfl, hgap, hvisible⟩
    rcases Node.exists_of_visibleOf_cons hvisible with ⟨gap', rest', rfl, hgap', hvisible'⟩
    rcases Node.exists_of_visibleOf_cons hvisible' with ⟨gap'', blanks, rfl, hgap'', hblanks⟩
    rw [List.append_assoc, List.cons_append] at hdrop
    have hqualifier : Frame.holdsColumn ⟨g, index + gap.length⟩ = false := by
      have hnext : Frame.next? ⟨g, index + gap.length⟩ = some point := by
        rw [Frame.next?_eq hdrop, Node.visibleOf_append, hvisible]
        rfl
      rw [Frame.holdsColumn, hnext, Option.any_some, hrest.2, Bool.not_true, Bool.and_false]
      rfl
    -- The name stands behind the point, and what follows it is what follows the item.
    have hbehind := drop_behind hdrop
    rw [List.append_assoc, List.cons_append] at hbehind
    have hbehind' := drop_behind hbehind
    rw [List.append_assoc, List.cons_append] at hbehind'
    have hcolumn : Frame.holdsColumn
        ⟨g, index + gap.length + 1 + gap'.length + 1 + gap''.length⟩ = true := by
      refine holdsColumn_of_next hshape hfree fun n hn => hafter n ?_
      rw [← hn, Frame.next?_eq hbehind', Node.visibleOf_append, hblanks, List.nil_append]
    exact reads_gap_cons hgap (Reads.of_idle (idle_name hrest.1 houtside hqualifier))
      (reads_gap_cons hgap' (Reads.of_idle (idle_word (Node.isIdle_of_isMark hrest.2) _))
        (reads_gap_cons hgap'' (reads_name hname houtside hcolumn)
          (Reads.of_idle (idle_blanks (Node.blank_of_visibleOf_nil hblanks) _))))

/-- Names in a list read as themselves, in order. -/
theorem reads_columnNames {names : List Token}
    (h : (Node.runItems ns).map columnName? = names.map some) :
    Reads k (Node.leavesFrom g path index ns) (names.map Token.value) [] := by
  have hreads := reads_runItems (k := k) (fun name => [name.value]) (fun _ => [])
    (fun hdrop hafter => reads_columnName houtside hshape hfree hdrop hafter) hdrop hafter h
  rwa [← List.map_eq_flatMap, List.flatMap_eq_nil_iff.2 fun _ _ => rfl] at hreads

end Names

/-- A parenthesis of names reads as these. -/
theorem reads_enclosed {k : Keyword} {forced : Bool} {n : Node} (h : n.IsEnclosed forced)
    {path : List Frame} (hpath : ∀ f ∈ path, f.shape ≠ .whereClause) {names : List Token}
    (hnames : n.parenItems.map columnName? = names.map some) :
    Reads k (n.leaves path) (names.map Token.value) [] := by
  rcases h with ⟨opening, run, closing, rfl, hopen, hclose, hrun⟩
  rw [Node.parenItems_eq fun n hn => (hrun n hn).2] at hnames
  have hfree := keyword?_of_columnNames hnames
  have hopen : (Node.leaf opening).isMark "(" = true := hopen
  have hclose : (Node.leaf closing).isMark ")" = true := hclose
  have hend : ∀ m, (Node.visibleOf [.leaf closing]).head? = some m → m.isMark "." = false := by
    intro m hm
    rw [Node.visibleOf, List.filter_cons_of_pos (by rw [Node.isWhitespace_of_isMark hclose]; rfl),
      List.head?_cons, Option.some.injEq] at hm
    rw [← hm]
    exact Node.isMark_of_ne hclose (by decide)
  generalize hg : (⟨.parenthesis, .leaf opening :: (Node.listRun forced run ++ [.leaf closing])⟩ :
    Group) = g
  have houtside : g.Outside path := by
    rw [← hg]
    exact ⟨Shape.noConfusion, hpath⟩
  have hdrop : g.children.drop 1 = Node.listRun forced run ++ [.leaf closing] := by
    rw [← hg]
    rfl
  -- The names stand in the parenthesis itself or in a list there.
  have hbody : Reads k (Node.leavesFrom g path 1 (Node.listRun forced run))
      (names.map Token.value) [] := by
    rcases Node.listRun_cases forced run with heq | ⟨gap, items, gap', rfl, heq, hgap, hgap'⟩
    · rw [heq] at hdrop hg ⊢
      refine reads_columnNames houtside (by rw [← hg]; exact List.mem_cons_self)
        (fun m hm => ?_) hdrop hend hnames
      rw [← hg] at hm
      rcases List.mem_cons.1 hm with rfl | hm
      · exact Node.keyword?_of_isMark hopen
      · rcases List.mem_append.1 hm with hm | hm
        · exact hfree m hm
        · rw [List.mem_singleton.1 hm]
          exact Node.keyword?_of_isMark hclose
    · rw [Node.runItems_listed hgap hgap'] at hnames
      have hitems : (⟨.nameList, items⟩ : Group).children.drop 0 = items ++ [] :=
        (List.append_nil items).symm
      have hlist := reads_columnNames (k := k) (houtside.inner Shape.noConfusion (1 + gap.length))
        (List.mem_cons_of_mem _ List.mem_cons_self)
        (fun m hm => hfree m (List.mem_append_right _ (List.mem_append_left _ hm))) hitems
        (fun m hm => absurd hm.symm (Option.some_ne_none m)) hnames
      rw [heq, Node.leavesFrom_append, Node.leavesFrom]
      exact Reads.idle_append (idle_blanks hgap _) (hlist.append_idle (idle_blanks hgap' _))
  rw [← hg] at hbody
  exact reads_between _ hopen hclose hbody

section Values

variable {k : Keyword} {g : Group} {path : List Frame} {index : Nat} {ns : List Node}
  (hshape : g.shape = .nameList)
  (hpath : ∀ f ∈ path, f.shape ≠ .whereClause ∧ f.shape ≠ .comparison)

include hshape hpath

/-- A value in a list is inserted. -/
theorem reads_listedValue {value : Token} (h : value.isValue = true) (place : Nat) :
    Reads k ((Node.leaf value).leaves (⟨g, place⟩ :: path)) [] [(value.value, .insert)] := by
  have hlist : Leaf.hasAncestor ⟨value, ⟨g, place⟩ :: path⟩ .nameList = true := by
    rw [Leaf.hasAncestor, List.any_cons, Frame.shape, decide_eq_true hshape, Bool.true_or]
  have hnone : ∀ shape, (shape = .whereClause ∨ shape = .comparison) →
      Leaf.hasAncestor ⟨value, ⟨g, place⟩ :: path⟩ shape = false := by
    intro shape hcases
    refine List.any_eq_false.2 fun f hf => ?_
    rw [decide_eq_true_eq]
    rcases List.mem_cons.1 hf with rfl | hf
    · rw [Frame.shape, hshape]
      rcases hcases with rfl | rfl <;> exact Shape.noConfusion
    · rcases hcases with rfl | rfl
      · exact (hpath f hf).1
      · exact (hpath f hf).2
  have hwritten : Leaf.written ⟨value, ⟨g, place⟩ :: path⟩ = (value.value, .insert) := by
    rw [Leaf.written, Leaf.writeAction, hnone .comparison (Or.inr rfl)]
    rfl
  rw [Node.leaves, ← hwritten]
  refine Reads.value ?_ ?_
  · rw [Leaf.isColumn, Token.isName_of_isValue h]
    rfl
  · rw [Leaf.isWritten, h, Leaf.inWhere, hnone .whereClause (Or.inl rfl), hlist]
    rfl

theorem reads_singleValue {value : Token} (h : singleValue? (Node.visibleOf ns) = some value) :
    Reads k (Node.leavesFrom g path index ns) [] [(value.value, .insert)] := by
  rcases singleValue?_eq_some_iff.1 h with ⟨hitem, hvalue⟩
  rcases Node.exists_of_visibleOf_cons hitem with ⟨gap, blanks, rfl, hgap, hblanks⟩
  exact reads_gap_cons hgap (reads_listedValue hshape hpath hvalue _)
    (Reads.of_idle (idle_blanks (Node.blank_of_visibleOf_nil hblanks) _))

end Values

/-- A list of values reads as these, in order. -/
theorem reads_valueList {k : Keyword} {items : List Node} {path : List Frame}
    (hpath : ∀ f ∈ path, f.shape ≠ .whereClause ∧ f.shape ≠ .comparison) {values : List Token}
    (h : (Node.runItems items).map singleValue? = values.map some) :
    Reads k ((Node.group .nameList items).leaves path) []
      (values.map fun v => (v.value, .insert)) := by
  have hdrop : (⟨.nameList, items⟩ : Group).children.drop 0 = items ++ [] :=
    (List.append_nil items).symm
  have hreads := reads_runItems (k := k) (fun _ => []) (fun v => [(v.value, Action.insert)])
    (fun _ _ => reads_singleValue rfl hpath) hdrop
    (fun m hm => absurd hm.symm (Option.some_ne_none m)) h
  rwa [List.flatMap_eq_nil_iff.2 fun _ _ => rfl, ← List.map_eq_flatMap] at hreads

/-- A tuple of values reads as these. -/
theorem reads_valueTuple {k : Keyword} {n : Node} (h : n.IsEnclosed true) {path : List Frame}
    (hpath : ∀ f ∈ path, f.shape ≠ .whereClause ∧ f.shape ≠ .comparison) {values : List Token}
    (hvalues : n.parenItems.map singleValue? = values.map some) :
    Reads k (n.leaves path) [] (values.map fun v => (v.value, .insert)) := by
  rcases h with ⟨opening, run, closing, rfl, hopen, hclose, hrun⟩
  rw [Node.parenItems_eq fun n hn => (hrun n hn).2] at hvalues
  generalize hg : (⟨.parenthesis, .leaf opening :: (Node.listRun true run ++ [.leaf closing])⟩ :
    Group) = g
  have hinner : ∀ place, ∀ f ∈ (⟨g, place⟩ : Frame) :: path,
      f.shape ≠ .whereClause ∧ f.shape ≠ .comparison := by
    intro place f hf
    rcases List.mem_cons.1 hf with rfl | hf
    · rw [← hg]
      exact ⟨Shape.noConfusion, Shape.noConfusion⟩
    · exact hpath f hf
  have hbody : Reads k (Node.leavesFrom g path 1 (Node.listRun true run)) []
      (values.map fun v => (v.value, .insert)) := by
    rw [show Node.listRun true run = Node.wrapList run from rfl]
    rcases Node.wrapList_cases run with ⟨hblank, heq⟩ | ⟨gap, items, gap', rfl, heq, hgap, hgap'⟩
    · -- Blanks alone have no items, so there are no values.
      have hempty : Node.runItems run = [] := by
        rw [Node.runItems, Node.visibleOf_blank hblank]
        rfl
      rw [hempty, List.map_nil, eq_comm, List.map_eq_nil_iff] at hvalues
      rw [heq, hvalues]
      exact Reads.of_idle (idle_blanks hblank 1)
    · rw [Node.runItems_listed hgap hgap'] at hvalues
      have hlist := reads_valueList (k := k) (hinner (1 + gap.length)) hvalues
      rw [heq, Node.leavesFrom_append, Node.leavesFrom]
      exact Reads.idle_append (idle_blanks hgap _) (hlist.append_idle (idle_blanks hgap' _))
  rw [← hg] at hbody
  exact reads_between _ hopen hclose hbody

/-- What is no value is not written as one. -/
theorem isWritten_of_isIdle {k : Keyword} {n : Node} (h : n.isIdle = true) {path : List Frame} :
    ∀ l ∈ n.leaves path, l.isWritten k = l.token.isValue := by
  intro l hl
  cases n with
  | leaf t =>
      rw [Node.isIdle, Node.leaf?, Option.any_some, Bool.and_eq_true, Bool.not_eq_true',
        Bool.not_eq_true'] at h
      rw [List.mem_singleton.1 hl, Leaf.isWritten, h.2]
      rfl
  | group => exact absurd h Bool.false_ne_true

/-- In a list exactly the values are written, however deep. -/
theorem isWritten_listed {k : Keyword} {items : List Node}
    (hitems : ∀ n ∈ items, n.Tidy) {g : Group} {path : List Frame} (houtside : g.Outside path)
    (index : Nat) :
    ∀ l ∈ (Node.group .nameList items).leaves (⟨g, index⟩ :: path),
      l.isWritten k = l.token.isValue := by
  intro l hl
  have hlist : l.hasAncestor .nameList = true := Node.hasAncestor_of_mem_group hl
  have hwhere : l.inWhere = false := by
    rcases Node.mem_leavesFrom hl with ⟨m, hm, place, hl⟩
    exact inWhere_of_tidy (hitems m hm) (houtside.inner Shape.noConfusion index) place l hl
  rw [Leaf.isWritten, hlist, hwhere, Bool.true_or, Bool.and_true]
  exact Bool.and_true _

/-- In a tuple exactly the values are written. -/
theorem isWritten_enclosed {k : Keyword} {n : Node} (h : n.IsEnclosed true) {path : List Frame}
    (hpath : ∀ f ∈ path, f.shape ≠ .whereClause) :
    ∀ l ∈ n.leaves path, l.isWritten k = l.token.isValue := by
  rcases h with ⟨opening, run, closing, rfl, hopen, hclose, hrun⟩
  intro l hl
  rcases Node.mem_leavesFrom hl with ⟨m, hm, place, hl⟩
  have houtside : Group.Outside
      ⟨.parenthesis, .leaf opening :: (Node.listRun true run ++ [.leaf closing])⟩ path :=
    ⟨Shape.noConfusion, hpath⟩
  rcases List.mem_cons.1 hm with rfl | hm
  · exact isWritten_of_isIdle (Node.isIdle_of_isMark (n := .leaf opening) hopen) l hl
  · rcases List.mem_append.1 hm with hm | hm
    · -- Blanks apart, the run is one list.
      have hblank : m.isWhitespace = true → l.isWritten k = l.token.isValue :=
        fun hm => isWritten_of_isIdle (Node.isIdle_of_isWhitespace hm) l hl
      rw [show Node.listRun true run = Node.wrapList run from rfl] at hm
      rcases Node.wrapList_cases run with ⟨hblanks, heq⟩ | ⟨gap, items, gap', rfl, heq, hgap, hgap'⟩
      · rw [heq] at hm
        exact hblank (hblanks m hm)
      · rw [heq] at hm
        rcases List.mem_append.1 hm with hm | hm
        · exact hblank (hgap m hm)
        · rcases List.mem_cons.1 hm with rfl | hm
          · exact isWritten_listed (fun n hn => (hrun n (List.mem_append_right _
              (List.mem_append_left _ hn))).1) houtside place l hl
          · exact hblank (hgap' m hm)
    · rw [List.mem_singleton.1 hm] at hl
      exact isWritten_of_isIdle (Node.isIdle_of_isMark (n := .leaf closing) hclose) l hl

end SqlGist
