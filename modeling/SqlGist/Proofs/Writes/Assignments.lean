import SqlGist.Proofs.Filter.Reading
import SqlGist.Proofs.Writes.Reading

/-!
# Assignments

An item of a `SET` clause is an assignment if it is one comparison of a name and
a value, with at most a qualifier and a point in front. `assignment?` is that
condition as a program, on the nodes of the item that are no blanks.

An assignment reads as one name and one value, so it pairs with itself. What
other items read as is nobody's guess, but each item reads by itself: the leaves
of a run of items are those of each, with idle commas between. `exists_reads`
says both at once, and is all that pairing needs to know about the tree.

## Main definitions

* `Node.visibleOf`: The nodes of a list that are no blanks.
* `sides?`: The name and the value that a comparison compares.
* `assignment?`: The name and the value that an item assigns.
* `splitItems`: The items of a run.
* `ItemReading`: What an item reads as.

## Theorems

* `sides?_eq_some_iff`: The parts of such a comparison.
* `exists_of_visibleOf_cons`, `exists_of_splitItems_cons`: What stands around the
  first visible node, and behind the first item.
* `reads_comparison`, `reads_assignment`: An assignment reads as its two sides.
* `exists_reads`: A run reads item by item.
-/

namespace SqlGist

namespace Node

/-- The nodes of a list that are no blanks. -/
def visibleOf (ns : List Node) : List Node :=
  ns.filter fun n => !n.isWhitespace

theorem visibleOf_append (as bs : List Node) :
    visibleOf (as ++ bs) = visibleOf as ++ visibleOf bs :=
  List.filter_append _ _

theorem visibleOf_blank {ns : List Node} (h : ∀ n ∈ ns, n.isWhitespace = true) :
    visibleOf ns = [] := by
  refine List.filter_eq_nil_iff.2 fun n hn => ?_
  rw [h n hn]
  exact Bool.false_ne_true

/-- In front of the first visible node are blanks alone. -/
theorem exists_of_visibleOf_cons {ns ms : List Node} {m : Node} (h : visibleOf ns = m :: ms) :
    ∃ gap rest, ns = gap ++ m :: rest ∧ (∀ n ∈ gap, n.isWhitespace = true) ∧
      visibleOf rest = ms := by
  rcases List.filter_eq_cons_iff.1 h with ⟨gap, rest, hns, hgap, -, hrest⟩
  refine ⟨gap, rest, hns, fun n hn => ?_, hrest⟩
  simpa only [Bool.not_eq_true', Bool.not_eq_false] using hgap n hn

theorem blank_of_visibleOf_nil {ns : List Node} (h : visibleOf ns = []) :
    ∀ n ∈ ns, n.isWhitespace = true := by
  intro n hn
  simpa only [Bool.not_eq_true', Bool.not_eq_false] using List.filter_eq_nil_iff.1 h n hn

/-- The items of a run: what stands between its commas, blanks aside. -/
def splitItems (ns : List Node) : List (List Node) :=
  (visibleOf ns).splitOnP fun n => n.isMark ","

theorem splitItems_ne_nil (ns : List Node) : splitItems ns ≠ [] :=
  List.splitOnP_ne_nil _ _

/-- The first item is all there is, or a comma stands behind it. -/
theorem exists_of_splitItems_cons {ns item : List Node} {items : List (List Node)}
    (h : splitItems ns = item :: items) :
    visibleOf ns = item ∧ items = [] ∨
      ∃ front comma back, ns = front ++ comma :: back ∧ visibleOf front = item ∧
        comma.isMark "," = true ∧ splitItems back = items := by
  induction ns generalizing item items with
  | nil =>
      rw [splitItems, visibleOf, List.filter_nil, List.splitOnP_nil, List.cons.injEq] at h
      exact Or.inl ⟨h.1, h.2.symm⟩
  | cons n ns ih =>
      by_cases hblank : n.isWhitespace = true
      · have hvisible : visibleOf (n :: ns) = visibleOf ns := by
          rw [visibleOf, List.filter_cons_of_neg (by rw [hblank]; exact Bool.false_ne_true)]
          rfl
        rw [splitItems, hvisible] at h
        rw [hvisible]
        rcases ih h with hend | ⟨front, comma, back, rfl, hfront, hrest⟩
        · exact Or.inl hend
        · refine Or.inr ⟨n :: front, comma, back, rfl, ?_, hrest⟩
          rw [visibleOf, List.filter_cons_of_neg (by rw [hblank]; exact Bool.false_ne_true)]
          exact hfront
      · rw [Bool.not_eq_true] at hblank
        have hvisible : ∀ ms, visibleOf (n :: ms) = n :: visibleOf ms := by
          intro ms
          rw [visibleOf, List.filter_cons_of_pos (by rw [hblank]; rfl)]
          rfl
        rw [splitItems, hvisible, List.splitOnP_cons_eq_if_modifyHead] at h
        rw [hvisible]
        split at h
        · -- The comma ends an item that holds nothing.
          rename_i hcomma
          rw [List.cons.injEq] at h
          exact Or.inr ⟨[], n, ns, rfl, h.1, hcomma, h.2⟩
        · rcases List.exists_cons_of_ne_nil (splitItems_ne_nil ns) with ⟨first, others, hns⟩
          rw [show (visibleOf ns).splitOnP (fun n => n.isMark ",") = first :: others from hns,
            List.modifyHead_cons, List.cons.injEq] at h
          rw [← h.1]
          rcases ih hns with ⟨hfirst, hothers⟩ | ⟨front, comma, back, rfl, hfront, hcomma, hback⟩
          · exact Or.inl ⟨by rw [hfirst], h.2.symm.trans hothers⟩
          · exact Or.inr ⟨n :: front, comma, back, rfl, by rw [hvisible, hfront], hcomma,
              hback.trans h.2⟩

end Node

/-- The name and the value of a comparison that has a name on its left side and
    a value on its right. -/
def sides? (parts : List Node) : Option (Token × Token) :=
  match Node.visibleOf parts with
  | [.group .nameRef [.leaf name], operator, .leaf value] =>
    if name.isName && operator.isComparisonOperator && value.isValue then some (name, value)
    else none
  | _ => none

/-- The name and the value of an item that is one assignment, with at most a
    qualifier in front. Any operator that compares stands for the `=`. -/
def assignment? (item : List Node) : Option (Token × Token) :=
  match item with
  | [.group .comparison parts] => sides? parts
  | [.group .nameRef [.leaf qualifier], point, .group .comparison parts] =>
    if qualifier.isName && point.isMark "." then sides? parts else none
  | _ => none

theorem sides?_eq_some_iff {parts : List Node} {name value : Token} :
    sides? parts = some (name, value) ↔
      ∃ operator, Node.visibleOf parts = [Node.nameRef (.leaf name), operator, .leaf value] ∧
        name.isName = true ∧ operator.isComparisonOperator = true ∧ value.isValue = true := by
  constructor
  · intro h
    rw [sides?] at h
    split at h
    · rename_i hparts
      split at h
      · rename_i hchecks
        rw [Option.some.injEq, Prod.mk.injEq] at h
        rw [← h.1, ← h.2]
        rw [Bool.and_eq_true, Bool.and_eq_true] at hchecks
        exact ⟨_, hparts, hchecks.1.1, hchecks.1.2, hchecks.2⟩
      · simp only [reduceCtorEq] at h
    · simp only [reduceCtorEq] at h
  · rintro ⟨operator, hparts, hname, hoperator, hvalue⟩
    rw [sides?, hparts]
    simp only [Node.nameRef, hname, hoperator, hvalue, Bool.and_self, if_true]

theorem assignment?_eq_some_iff {item : List Node} {sides : Token × Token} :
    assignment? item = some sides ↔
      ∃ parts, sides? parts = some sides ∧
        (item = [.group .comparison parts] ∨
          ∃ qualifier point, item = [Node.nameRef (.leaf qualifier), point,
            .group .comparison parts] ∧ qualifier.isName = true ∧ point.isMark "." = true) := by
  constructor
  · intro h
    rw [assignment?.eq_def] at h
    split at h
    · exact ⟨_, h, Or.inl rfl⟩
    · split at h
      · rename_i hchecks
        rw [Bool.and_eq_true] at hchecks
        exact ⟨_, h, Or.inr ⟨_, _, rfl, hchecks.1, hchecks.2⟩⟩
      · simp only [reduceCtorEq] at h
    · simp only [reduceCtorEq] at h
  · rintro ⟨parts, hsides, rfl | ⟨qualifier, point, rfl, hqualifier, hpoint⟩⟩
    · exact hsides
    · simp only [assignment?, Node.nameRef, hqualifier, hpoint, Bool.and_self, if_true, hsides]

namespace Node

/-- Whether the node is a leaf that is no name and no value. -/
def isIdle (n : Node) : Bool :=
  n.leaf?.any fun t => !t.isName && !t.isValue

theorem isIdle_of_any {n : Node} {p : Token → Bool} (h : n.leaf?.any p = true)
    (hp : ∀ t, p t = true → t.isName = false ∧ t.isValue = false) : n.isIdle = true := by
  cases n with
  | leaf t =>
      have ht := hp t h
      rw [isIdle, leaf?, Option.any_some, ht.1, ht.2]
      rfl
  | group => exact absurd h Bool.false_ne_true

theorem isIdle_of_isWhitespace {n : Node} (h : n.isWhitespace = true) : n.isIdle = true :=
  isIdle_of_any h fun _ => Token.idle_of_isWhitespace

theorem isIdle_of_isMark {n : Node} {mark : String} (h : n.isMark mark = true) :
    n.isIdle = true :=
  isIdle_of_any h fun _ => Token.idle_of_isMark

theorem isIdle_of_keyword? {n : Node} {k : Keyword} (h : n.keyword? = some k)
    (hk : k ∉ [Keyword.null, .trueKw, .falseKw]) : n.isIdle = true := by
  simp only [List.mem_cons, List.not_mem_nil, or_false, not_or] at hk
  cases n with
  | leaf t =>
      have hkind : t.kind = .keyword k := by
        have ht : t.keyword? = some k := h
        rw [Token.keyword?] at ht
        split at ht
        · rename_i hkind
          rw [hkind, Option.some.inj ht]
        · exact absurd ht.symm (Option.some_ne_none _)
      simp only [isIdle, leaf?, Option.any_some, Token.isName, Token.isValue, Token.isLiteral,
        hkind, reduceCtorEq, TokenKind.keyword.injEq, hk.1, hk.2.1, hk.2.2, decide_false,
        Bool.or_self, Bool.not_false, Bool.and_self]
  | group => exact absurd h.symm (Option.some_ne_none _)

theorem isIdle_of_isComparisonOperator {n : Node} (h : n.isComparisonOperator = true) :
    n.isIdle = true := by
  rcases isComparisonOperator_iff.1 h with ⟨t, rfl, ⟨hkind, -⟩ | hkind⟩ <;>
    simp only [isIdle, leaf?, Option.any_some, Token.isName, Token.isValue, Token.isLiteral, hkind,
      reduceCtorEq, TokenKind.keyword.injEq, decide_false, Bool.or_self, Bool.not_false,
      Bool.and_self]

end Node

section Places

variable {k : Keyword} {g : Group} {path : List Frame}

/-- Such a leaf is idle wherever it stands. -/
theorem idle_word {n : Node} (h : n.isIdle = true) (path : List Frame) :
    ∀ l ∈ n.leaves path, l.Idle k := by
  intro l hl
  cases n with
  | leaf t =>
      rw [Node.isIdle, Node.leaf?, Option.any_some, Bool.and_eq_true, Bool.not_eq_true',
        Bool.not_eq_true'] at h
      rw [Node.leaves, List.mem_singleton] at hl
      rw [hl]
      exact Leaf.idle_of_token h.1 h.2
  | group => exact absurd h Bool.false_ne_true

theorem idle_words {ns : List Node} (h : ∀ n ∈ ns, n.isIdle = true) (index : Nat) :
    ∀ l ∈ Node.leavesFrom g path index ns, l.Idle k := by
  intro l hl
  rcases Node.mem_leavesFrom hl with ⟨n, hn, place, hl⟩
  exact idle_word (h n hn) _ l hl

theorem idle_blanks {gap : List Node} (h : ∀ n ∈ gap, n.isWhitespace = true) (index : Nat) :
    ∀ l ∈ Node.leavesFrom g path index gap, l.Idle k :=
  idle_words (fun n hn => Node.isIdle_of_isWhitespace (h n hn)) index

theorem drop_behind {index : Nat} {before rest : List Node} {n : Node}
    (h : g.children.drop index = before ++ n :: rest) :
    g.children.drop (index + before.length + 1) = rest := by
  rw [Nat.add_assoc, ← List.drop_drop, h, List.drop_length_add_append]
  rfl

theorem Frame.next?_eq {index : Nat} {before rest : List Node} {n : Node}
    (h : g.children.drop index = before ++ n :: rest) :
    Frame.next? ⟨g, index + before.length⟩ = (Node.visibleOf rest).head? := by
  rw [Frame.next?, Group.nextSibling?, drop_behind h, Node.visibleOf, List.head?_filter]

theorem Frame.prev?_eq_none {index : Nat} {before rest : List Node}
    (h : g.children = before ++ rest) (hindex : index = before.length)
    (hblank : ∀ n ∈ before, n.isWhitespace = true) : Frame.prev? ⟨g, index⟩ = none := by
  have htake : g.children.take index = before := by rw [h, hindex, List.take_left]
  rw [Frame.prev?, Group.prevSibling?, htake, List.find?_eq_none]
  intro n hn
  rw [hblank n (List.mem_reverse.1 hn)]
  exact Bool.false_ne_true

/-- Behind blanks, what a node reads as comes first. -/
theorem reads_gap_cons {gap rest : List Node} {n : Node} {index : Nat}
    {names names' : List String} {values values' : List (String × Action)}
    (hgap : ∀ m ∈ gap, m.isWhitespace = true)
    (hn : Reads k (n.leaves (⟨g, index + gap.length⟩ :: path)) names values)
    (hrest : Reads k (Node.leavesFrom g path (index + gap.length + 1) rest) names' values') :
    Reads k (Node.leavesFrom g path index (gap ++ n :: rest)) (names ++ names')
      (values ++ values') := by
  rw [Node.leavesFrom_append, Node.leavesFrom]
  exact (hn.append hrest).idle_append (idle_blanks hgap index)

/-- A name reads as itself where names are columns. -/
theorem reads_name {t : Token} {index : Nat} (ht : t.isName = true) (houtside : g.Outside path)
    (hcolumn : Frame.holdsColumn ⟨g, index⟩ = true) :
    Reads k ((Node.nameRef (.leaf t)).leaves (⟨g, index⟩ :: path)) [t.value] [] := by
  refine Reads.name ((isColumn_nameRef ht houtside index).trans hcolumn) ?_
  rw [Leaf.isWritten, Token.isValue_of_isName ht]
  rfl

/-- A name is idle where names are no columns. -/
theorem idle_name {t : Token} {index : Nat} (ht : t.isName = true) (houtside : g.Outside path)
    (hcolumn : Frame.holdsColumn ⟨g, index⟩ = false) :
    ∀ l ∈ (Node.nameRef (.leaf t)).leaves (⟨g, index⟩ :: path), l.Idle k := by
  intro l hl
  rw [Node.nameRef, Node.leaves, Node.leavesFrom, Node.leavesFrom, Node.leaves, List.append_nil,
    List.mem_singleton] at hl
  rw [hl]
  refine ⟨(isColumn_nameRef ht houtside index).trans hcolumn, ?_⟩
  rw [Leaf.isWritten, Token.isValue_of_isName ht]
  rfl

end Places

/-- The path goes down behind the keyword, directly in the outermost group. -/
def StandsBehind (k : Keyword) (path : List Frame) : Prop :=
  (path.getLast?.any fun f => (f.group.children.take f.index).any fun n => n.keyword? = some k) =
    true

theorem StandsBehind.isBehind {k : Keyword} {path : List Frame} (h : StandsBehind k path)
    (front : List Frame) (t : Token) : Leaf.isBehind ⟨t, front ++ path⟩ k = true := by
  rcases (Option.any_eq_true _ _).1 h with ⟨f, hlast, hf⟩
  rw [Leaf.isBehind, Leaf.root?, List.getLast?_append, hlast, Option.some_or, Option.any_some]
  exact hf

section Assigned

variable {k : Keyword} {path : List Frame} {name value : Token} {parts : List Node}

/-- A value of a comparison behind the keyword reads as what is assigned. -/
theorem reads_value (hvalue : value.isValue = true) (hpath : ∀ f ∈ path, f.shape ≠ .whereClause)
    (hbehind : StandsBehind k path) (index : Nat) :
    Reads k ((Node.leaf value).leaves (⟨⟨.comparison, parts⟩, index⟩ :: path)) []
      [(value.value, .update)] := by
  have houtside : Group.Outside ⟨.comparison, parts⟩ path := ⟨Shape.noConfusion, hpath⟩
  have hcomparison : Leaf.hasAncestor ⟨value, ⟨⟨.comparison, parts⟩, index⟩ :: path⟩
      .comparison = true := rfl
  have hwritten : Leaf.written ⟨value, ⟨⟨.comparison, parts⟩, index⟩ :: path⟩ =
      (value.value, .update) := by
    rw [Leaf.written, Leaf.writeAction, hcomparison]
    rfl
  have hset : Leaf.isBehind ⟨value, ⟨⟨.comparison, parts⟩, index⟩ :: path⟩ k = true :=
    hbehind.isBehind [⟨⟨.comparison, parts⟩, index⟩] value
  rw [Node.leaves, ← hwritten]
  refine Reads.value ?_ ?_
  · rw [Leaf.isColumn, Token.isName_of_isValue hvalue]
    rfl
  · rw [Leaf.isWritten, hvalue, houtside.inWhere index value, hcomparison, hset, Bool.and_self,
      Bool.or_true]
    rfl

/-- A comparison of a name and a value reads as the two. -/
theorem reads_comparison (h : sides? parts = some (name, value))
    (hpath : ∀ f ∈ path, f.shape ≠ .whereClause) (hbehind : StandsBehind k path) :
    Reads k ((Node.group .comparison parts).leaves path) [name.value]
      [(value.value, .update)] := by
  rcases sides?_eq_some_iff.1 h with ⟨operator, hvisible, hname, hoperator, hvalue⟩
  rcases Node.exists_of_visibleOf_cons hvisible with ⟨gap, rest, hparts, hgap, hvisible'⟩
  rcases Node.exists_of_visibleOf_cons hvisible' with ⟨gap', rest', rfl, hgap', hvisible''⟩
  rcases Node.exists_of_visibleOf_cons hvisible'' with ⟨gap'', blanks, rfl, hgap'', hblanks⟩
  -- The name is a column, since nothing but an operator stands behind it.
  have hcolumn : Frame.holdsColumn ⟨⟨.comparison, parts⟩, 0 + gap.length⟩ = true := by
    have hprev : Frame.prev? ⟨⟨.comparison, parts⟩, 0 + gap.length⟩ = none :=
      Frame.prev?_eq_none hparts (Nat.zero_add _) hgap
    have hnext : Frame.next? ⟨⟨.comparison, parts⟩, 0 + gap.length⟩ = some operator := by
      have hdrop : (⟨.comparison, parts⟩ : Group).children.drop 0 = _ := hparts
      rw [Frame.next?_eq hdrop, hvisible']
      rfl
    have hpoint : operator.isMark "." = false := by
      rcases Node.isComparisonOperator_iff.1 hoperator with ⟨t, rfl, ⟨hkind, -⟩ | hkind⟩ <;>
        simp only [Node.isMark, Node.leaf?, Option.any_some, Token.isMark, hkind, reduceCtorEq,
          decide_false, Bool.false_and]
    rw [Frame.holdsColumn, hprev, hnext, Option.any_some, hpoint]
    rfl
  have hidle := Node.isIdle_of_isComparisonOperator hoperator
  have hreads := reads_gap_cons (k := k) hgap (reads_name hname ⟨Shape.noConfusion, hpath⟩ hcolumn)
    (reads_gap_cons hgap' (Reads.of_idle (idle_word hidle _))
      (reads_gap_cons hgap'' (reads_value hvalue hpath hbehind _)
        (Reads.of_idle (idle_blanks (Node.blank_of_visibleOf_nil hblanks) _))))
  rw [← hparts] at hreads
  exact hreads

end Assigned

/-- What an item reads as: two lists, which are its two sides if it is an
    assignment. -/
structure ItemReading where
  item : List Node
  names : List String
  values : List (String × Action)
  assigned : ∀ sides, assignment? item = some sides →
    names = [sides.1.value] ∧ values = [(sides.2.value, .update)]

/-- Assignments read as their sides, one for one. -/
theorem flatMap_assigned {rs : List ItemReading} {sides : List (Token × Token)}
    (h : rs.map (fun r => assignment? r.item) = sides.map some) :
    rs.flatMap ItemReading.names = sides.map (fun s => s.1.value) ∧
      rs.flatMap ItemReading.values = sides.map fun s => (s.2.value, Action.update) := by
  induction rs generalizing sides with
  | nil =>
      rw [List.map_nil, eq_comm, List.map_eq_nil_iff] at h
      rw [h]
      exact ⟨rfl, rfl⟩
  | cons r rs ih =>
      rw [List.map_cons, eq_comm, List.map_eq_cons_iff] at h
      rcases h with ⟨s, sides, rfl, hs, hsides⟩
      have hr := r.assigned s hs.symm
      have hrest := ih hsides.symm
      rw [List.flatMap_cons, List.flatMap_cons, hr.1, hr.2, hrest.1, hrest.2]
      exact ⟨rfl, rfl⟩

section Items

variable {k : Keyword} {g : Group} {path : List Frame} {index : Nat} {ns after : List Node}
  {name value : Token} (houtside : g.Outside path)
  (hbehind : ∀ place, index ≤ place → StandsBehind k (⟨g, place⟩ :: path))
  (hdrop : g.children.drop index = ns ++ after)

include houtside hbehind hdrop

/-- An assignment reads as its two sides. Its qualifier is no column, since a
    point stands behind it. -/
theorem reads_assignment (h : assignment? (Node.visibleOf ns) = some (name, value)) :
    Reads k (Node.leavesFrom g path index ns) [name.value] [(value.value, .update)] := by
  rcases assignment?_eq_some_iff.1 h with ⟨parts, hsides, hitem | ⟨qualifier, point, hitem, hrest⟩⟩
  · rcases Node.exists_of_visibleOf_cons hitem with ⟨gap, blanks, rfl, hgap, hblanks⟩
    exact reads_gap_cons hgap
      (reads_comparison hsides (houtside.frames _) (hbehind _ (Nat.le_add_right _ _)))
      (Reads.of_idle (idle_blanks (Node.blank_of_visibleOf_nil hblanks) _))
  · rcases Node.exists_of_visibleOf_cons hitem with ⟨gap, rest, rfl, hgap, hvisible⟩
    rw [List.append_assoc, List.cons_append] at hdrop
    have hnext : Frame.next? ⟨g, index + gap.length⟩ = some point := by
      rw [Frame.next?_eq hdrop, Node.visibleOf_append, hvisible]
      rfl
    have hcolumn : Frame.holdsColumn ⟨g, index + gap.length⟩ = false := by
      rw [Frame.holdsColumn, hnext, Option.any_some, hrest.2, Bool.not_true, Bool.and_false]
      rfl
    have hqualifier := Reads.of_idle (idle_name (k := k) hrest.1 houtside hcolumn)
    rcases Node.exists_of_visibleOf_cons hvisible with ⟨gap', rest', rfl, hgap', hvisible'⟩
    rcases Node.exists_of_visibleOf_cons hvisible' with ⟨gap'', blanks, rfl, hgap'', hblanks⟩
    exact reads_gap_cons hgap hqualifier
      (reads_gap_cons hgap' (Reads.of_idle (idle_word (Node.isIdle_of_isMark hrest.2) _))
        (reads_gap_cons hgap''
          (reads_comparison hsides (houtside.frames _) (hbehind _ (by omega)))
          (Reads.of_idle (idle_blanks (Node.blank_of_visibleOf_nil hblanks) _))))

/-- One item reads as some names and values. -/
theorem exists_reads_item :
    ∃ r : ItemReading, r.item = Node.visibleOf ns ∧
      Reads k (Node.leavesFrom g path index ns) r.names r.values := by
  cases h : assignment? (Node.visibleOf ns) with
  | none =>
      refine ⟨⟨Node.visibleOf ns, _, _, fun sides hsides => ?_⟩, rfl, Reads.self k _⟩
      rw [h] at hsides
      exact absurd hsides.symm (Option.some_ne_none sides)
  | some sides =>
      refine ⟨⟨Node.visibleOf ns, _, _, fun sides' hsides => ?_⟩, rfl,
        reads_assignment houtside hbehind hdrop h⟩
      rw [h, Option.some.injEq] at hsides
      rw [← hsides]
      exact ⟨rfl, rfl⟩

/-- A run reads item by item. -/
theorem exists_reads :
    ∃ rs : List ItemReading, rs.map ItemReading.item = Node.splitItems ns ∧
      Reads k (Node.leavesFrom g path index ns) (rs.flatMap ItemReading.names)
        (rs.flatMap ItemReading.values) := by
  generalize hitems : Node.splitItems ns = items
  induction items generalizing ns index with
  | nil => exact absurd hitems (Node.splitItems_ne_nil ns)
  | cons item items ih =>
      rcases Node.exists_of_splitItems_cons hitems with
        ⟨hitem, rfl⟩ | ⟨front, comma, back, rfl, hitem, hcomma, hback⟩
      · rcases exists_reads_item houtside hbehind hdrop with ⟨r, hr, hreads⟩
        refine ⟨[r], by rw [List.map_singleton, hr, hitem], ?_⟩
        rw [List.flatMap_singleton, List.flatMap_singleton]
        exact hreads
      · -- The item in front of the comma reads by itself, and so does what follows it.
        rw [List.append_assoc, List.cons_append] at hdrop
        rcases exists_reads_item houtside hbehind hdrop with ⟨r, hr, hreads⟩
        rcases ih (fun place hplace => hbehind place (by omega)) (drop_behind hdrop) hback with
          ⟨rs, hrs, hrest⟩
        refine ⟨r :: rs, by rw [List.map_cons, hr, hitem, hrs], ?_⟩
        rw [Node.leavesFrom_append, Node.leavesFrom, List.flatMap_cons, List.flatMap_cons]
        exact hreads.append (hrest.idle_append (idle_word (Node.isIdle_of_isMark hcomma) _))

end Items

end SqlGist
