import SqlGist.Proofs.Extraction.Blind
import SqlGist.Proofs.Extraction.Placeless
import SqlGist.Proofs.Extraction.Scanning
import SqlGist.Proofs.Tree.Lossless

/-!
# Conditions Do Not Reach the Columns

A query or a change is about the same table whatever its condition is, and
whether it has one: the target, the columns and the values written are the same,
and only the filter differs.

No leaf of the condition is read, so what could still differ is the place of the
leaves around it. Taking the condition out brings the nodes on its two sides
together, and a role can depend on a neighbour. It does not here: the condition
reaches up to a keyword or to the end, so the node in front of it gets a keyword
for its next neighbour, or none, where it had the condition, and none of the
three is a type or a point. Behind the condition the first neighbour to lose it
is that keyword, and a keyword has no role.

So each tree is compared with itself without the condition. Two trees that are
the same without it then have the same table.

## Main definitions

* `Group.withoutCondition`: A tree without its condition, and without blanks
  outside all groups.
* `Group.Clausal`: How a condition stands in the tree of a statement.
* `Group.EqualButCondition`: Trees that are the same but for their conditions.

## Theorems

* `alike_withoutCondition`: Places stay alike where the condition is taken out.
* `readings_withoutCondition`: The same is read of the leaves.
* `clausal_of_ofText`: Trees of statements are `Clausal`.
* `extract_withoutCondition`: A tree without its condition is about the same
  table without its filter.
* `equalButCondition_of_clauses`, `equalButCondition_of_no_clause`: Conditions
  with other children, and no condition.
* `same_table_of_equalButCondition`: Trees that are the same but for their
  conditions are about tables that are the same but for their filters.
-/

namespace SqlGist

/-- Whether a node is neither a blank nor the group of a condition. -/
def Node.isKept (n : Node) : Bool :=
  !n.isWhitespace && !n.isGroup .whereClause

/-- The tree without the group of its condition, and without the blanks around
    it and elsewhere in the outermost group. -/
def Group.withoutCondition (g : Group) : Group :=
  ⟨g.shape, g.children.filter Node.isKept⟩

/-- The nearest visible child behind a condition is a keyword, if there is one. -/
def Group.ClosesCondition (g : Group) : Prop :=
  ∀ front clause back, g.children = front ++ clause :: back → clause.isGroup .whereClause = true →
    ∀ n, back.find? (fun m => !m.isWhitespace) = some n → n.keyword? ≠ none

/-- A search for less finds the same where the first that is found is wanted. -/
theorem find?_of_imp {α : Type} {p q : α → Bool} (himp : ∀ a, p a = true → q a = true)
    {as : List α} (h : ∀ a, as.find? q = some a → p a = true) : as.find? p = as.find? q := by
  induction as with
  | nil => rfl
  | cons a as ih =>
      by_cases hq : q a = true
      · have hp := h a (List.find?_cons_of_pos hq)
        rw [List.find?_cons_of_pos hq, List.find?_cons_of_pos hp]
      · rw [List.find?_cons_of_neg hq] at h ⊢
        rw [List.find?_cons_of_neg (mt (himp a) hq), ih h]

namespace Node

theorem exists_group_of_clause {n : Node} (h : n.isGroup .whereClause = true) :
    ∃ children, n = .group .whereClause children := by
  cases n with
  | leaf => exact absurd h Bool.false_ne_true
  | group shape children => exact ⟨children, by rw [Option.some.inj (of_decide_eq_true h)]⟩

theorem exists_leaf_of_keyword {n : Node} (h : n.keyword? ≠ none) :
    ∃ t k, n = .leaf t ∧ t.kind = .keyword k := by
  cases n with
  | leaf t =>
      rcases Option.ne_none_iff_exists'.1 h with ⟨k, hk⟩
      exact ⟨t, k, rfl, Token.kind_of_keyword? hk⟩
  | group => exact absurd rfl h

theorem isKept_iff {n : Node} :
    n.isKept = true ↔ (!n.isWhitespace) = true ∧ n.isGroup .whereClause = false := by
  rw [isKept, Bool.and_eq_true, Bool.not_eq_true' (n.isGroup _)]

theorem isKept_of_keyword {n : Node} (h : n.keyword? ≠ none) : n.isKept = true := by
  rcases exists_leaf_of_keyword h with ⟨t, k, rfl, hkind⟩
  refine isKept_iff.2 ⟨?_, rfl⟩
  simp only [isWhitespace, leaf?, Option.any_some, Token.isWhitespace, hkind, reduceCtorEq,
    decide_false, Bool.not_false]

theorem keyword?_of_not_kept {n : Node} (h : n.isKept = false) : n.keyword? = none := by
  by_contra hne
  exact Bool.false_ne_true (h.symm.trans (isKept_of_keyword hne))

theorem isGroup_of_not_kept {n : Node} (hkept : n.isKept ≠ true)
    (hvisible : (!n.isWhitespace) = true) : n.isGroup .whereClause = true := by
  by_contra hgroup
  exact hkept (isKept_iff.2 ⟨hvisible, Bool.eq_false_iff.2 hgroup⟩)

theorem find?_visible_behind {as : List Node} (has : ∀ a ∈ as, a.isWhitespace = true)
    (bs : List Node) :
    (as ++ bs).find? (fun m => !m.isWhitespace) = bs.find? fun m => !m.isWhitespace := by
  have hnone : as.find? (fun m => !m.isWhitespace) = none := by
    refine List.find?_eq_none.2 fun a ha => ?_
    rw [has a ha]
    exact Bool.false_ne_true
  rw [List.find?_append, hnone, Option.none_or]

/-- The first visible node, and the blanks before it. -/
theorem exists_of_find?_visible {ns : List Node} {n : Node}
    (h : ns.find? (fun m => !m.isWhitespace) = some n) :
    ∃ blanks rest, ns = blanks ++ n :: rest ∧ (∀ m ∈ blanks, m.isWhitespace = true) ∧
      (!n.isWhitespace) = true := by
  rcases List.find?_eq_some_iff_append.1 h with ⟨hvisible, blanks, rest, hsplit, hblanks⟩
  refine ⟨blanks, rest, hsplit, fun m hm => ?_, hvisible⟩
  have hm' := hblanks m hm
  rwa [Bool.not_not] at hm'

theorem find?_isKept {ns : List Node}
    (h : ∀ n, ns.find? (fun m => !m.isWhitespace) = some n → n.isKept = true) :
    ns.find? isKept = ns.find? fun m => !m.isWhitespace :=
  find?_of_imp (fun _ hm => (isKept_iff.1 hm).1) h

/-- What is kept is visible. -/
theorem find?_filter_isKept (ns : List Node) :
    (ns.filter isKept).find? (fun m => !m.isWhitespace) = ns.find? isKept := by
  have himp (m : Node) : decide (m.isKept = true ∧ (!m.isWhitespace) = true) = m.isKept := by
    cases hm : m.isKept with
    | true => exact decide_eq_true ⟨rfl, (isKept_iff.1 hm).1⟩
    | false => exact decide_eq_false fun h => Bool.false_ne_true h.1
  rw [List.find?_filter]
  exact congrArg (ns.find? ·) (funext himp)

/-- What is not kept is no keyword. -/
theorem any_keyword_filter_isKept (ns : List Node) (k : Keyword) :
    ((ns.filter isKept).any fun m => m.keyword? = some k) =
      ns.any fun m => m.keyword? = some k := by
  rw [List.any_filter]
  refine congrArg ns.any (funext fun m => ?_)
  cases hm : m.isKept with
  | true => rw [Bool.true_and]
  | false =>
      rw [keyword?_of_not_kept hm]
      rfl

end Node

namespace Group

section Alike

variable {g : Group} {front back : List Node} {n : Node}
  (hchildren : g.children = front ++ n :: back)

include hchildren

theorem withoutCondition_children (hkept : n.isKept = true) : g.withoutCondition.children =
    front.filter Node.isKept ++ n :: back.filter Node.isKept := by
  rw [withoutCondition, hchildren, List.filter_append, List.filter_cons_of_pos hkept]

theorem behind_withoutCondition (hkept : n.isKept = true) (k : Keyword) :
    ((g.withoutCondition.children.take (front.filter Node.isKept).length).any
        fun m => m.keyword? = some k) =
      (g.children.take front.length).any fun m => m.keyword? = some k := by
  rw [withoutCondition_children hchildren hkept, hchildren, List.take_left, List.take_left,
    Node.any_keyword_filter_isKept]

variable (hcloses : g.ClosesCondition)

include hcloses

theorem prev?_withoutCondition (hkept : n.isKept = true) (hkeyword : n.keyword? = none) :
    (Frame.mk g.withoutCondition (front.filter Node.isKept).length).prev? =
      (Frame.mk g front.length).prev? := by
  rw [Frame.prev?_of_eq (withoutCondition_children hchildren hkept), Frame.prev?_of_eq hchildren,
    ← List.filter_reverse, Node.find?_filter_isKept]
  refine Node.find?_isKept fun m hm => ?_
  by_contra hm'
  -- Behind a condition only a keyword stands, and the node is none.
  rcases Node.exists_of_find?_visible hm with ⟨blanks, rest, hsplit, hblanks, hvisible⟩
  have hfront : front = rest.reverse ++ m :: blanks.reverse := by
    rw [← List.reverse_reverse front, hsplit, List.reverse_append, List.reverse_cons,
      List.append_assoc, List.singleton_append]
  have hnext : (blanks.reverse ++ n :: back).find? (fun m => !m.isWhitespace) = some n := by
    rw [Node.find?_visible_behind fun a ha => hblanks a (List.mem_reverse.1 ha)]
    exact List.find?_cons_of_pos (Node.isKept_iff.1 hkept).1
  refine hcloses rest.reverse m (blanks.reverse ++ n :: back) ?_
    (Node.isGroup_of_not_kept hm' hvisible) n hnext hkeyword
  rw [hchildren, hfront, List.append_assoc, List.cons_append]

theorem next?_withoutCondition (hkept : n.isKept = true) {p : Node → Bool}
    (hclause : ∀ m, m.isGroup .whereClause = true → p m = false)
    (hkeyword : ∀ m, m.keyword? ≠ none → p m = false) :
    (Frame.mk g.withoutCondition (front.filter Node.isKept).length).next?.any p =
      (Frame.mk g front.length).next?.any p := by
  rw [Frame.next?_of_eq (withoutCondition_children hchildren hkept), Frame.next?_of_eq hchildren,
    Node.find?_filter_isKept]
  by_cases hall : ∀ m, back.find? (fun m => !m.isWhitespace) = some m → m.isKept = true
  · rw [Node.find?_isKept hall]
  · -- The condition comes next, and behind it a keyword or nothing.
    rcases not_forall.1 hall with ⟨m, hm⟩
    rcases Classical.not_imp.1 hm with ⟨hfind, hm'⟩
    rcases Node.exists_of_find?_visible hfind with ⟨blanks, rest, rfl, hblanks, hvisible⟩
    have hgroup := Node.isGroup_of_not_kept hm' hvisible
    have hrest := hcloses (front ++ n :: blanks) m rest
      (by rw [hchildren, List.append_assoc, List.cons_append]) hgroup
    have hblank : blanks.find? Node.isKept = none := by
      refine List.find?_eq_none.2 fun a ha hkept => ?_
      have ha' := (Node.isKept_iff.1 hkept).1
      rw [hblanks a ha] at ha'
      exact Bool.false_ne_true ha'
    rw [hfind, Option.any_some, hclause m hgroup, List.find?_append, hblank, Option.none_or,
      List.find?_cons_of_neg hm',
      Node.find?_isKept fun a ha => Node.isKept_of_keyword (hrest a ha)]
    cases hlast : rest.find? fun m => !m.isWhitespace with
    | none => rfl
    | some a => exact hkeyword a (hrest a hlast)

theorem alike_withoutCondition (hkept : n.isKept = true) (hkeyword : n.keyword? = none) :
    Frame.Alike ⟨g, front.length⟩ ⟨g.withoutCondition, (front.filter Node.isKept).length⟩ := by
  have hprev := prev?_withoutCondition hchildren hcloses hkept hkeyword
  -- Neither a condition nor a keyword is a point or a type.
  have hmark := @next?_withoutCondition g front back n hchildren hcloses hkept
    (fun m => m.isMark ".")
    (fun m hm => by
      rcases Node.exists_group_of_clause hm with ⟨children, rfl⟩
      rfl)
    fun m hm => by
      rcases Node.exists_leaf_of_keyword hm with ⟨t, k, rfl, hkind⟩
      exact Token.isMark_eq_false (by rw [hkind]; exact TokenKind.noConfusion) "."
  have htype := @next?_withoutCondition g front back n hchildren hcloses hkept Node.isType
    (fun m hm => by
      rcases Node.exists_group_of_clause hm with ⟨children, rfl⟩
      rfl)
    fun m hm => by
      rcases Node.exists_leaf_of_keyword hm with ⟨t, k, rfl, hkind⟩
      simp only [Node.isType, Node.isGroup, Node.shape?, Node.leaf?, Option.any_some, hkind,
        reduceCtorEq, decide_false, Bool.or_self]
  refine ⟨rfl, ?_, fun k => (behind_withoutCondition hchildren hkept k).symm⟩
  rw [Frame.holdsColumn, Frame.holdsColumn, hprev, hmark, htype]
  rfl

end Alike

/-- How a condition stands in the tree of a statement: there is a keyword or nothing
    behind it, and no statement and no other condition inside. -/
structure Clausal (g : Group) : Prop where
  shape : g.shape = .statement
  closes : g.ClosesCondition
  parts : ∀ condition, .group .whereClause condition ∈ g.children → ∀ m ∈ condition, m.IsPart

section Readings

variable {β : Type} {chosen : Leaf → Bool} {read : Leaf → β} (hb : Leaf.Blind chosen read)
  {g : Group}

include hb

theorem readings_clause {condition : List Node} (hcondition : ∀ m ∈ condition, m.IsPart)
    (index : Nat) : Leaf.readings chosen read
      ((Node.group .whereClause condition).leaves [⟨g, index⟩]) = [] := by
  refine Leaf.readings_eq_nil fun l hl => ?_
  rcases Node.mem_leavesFrom hl with ⟨m, hm, place, hl⟩
  rcases hcondition m hm _ l hl with ⟨front, hpath, hfront⟩
  have hinside := hb.inside l.token front ⟨⟨.whereClause, condition⟩, place⟩ ⟨g, index⟩ rfl
    fun f hf => (hfront f hf).1
  rwa [← hpath] at hinside

variable (hg : g.Clausal)

include hg

theorem readings_leavesFrom (front back : List Node) (hchildren : g.children = front ++ back) :
    Leaf.readings chosen read (Node.leavesFrom g [] front.length back) =
      Leaf.readings chosen read (Node.leavesFrom g.withoutCondition []
        (front.filter Node.isKept).length (back.filter Node.isKept)) := by
  induction back generalizing front with
  | nil => rfl
  | cons n back ih =>
      have hrest := ih (front ++ [n]) (by rw [hchildren, List.append_assoc, List.singleton_append])
      rw [List.length_append, List.length_singleton, List.filter_append] at hrest
      have hcons : Node.leavesFrom g [] front.length (n :: back) =
          n.leaves [⟨g, front.length⟩] ++ Node.leavesFrom g [] (front.length + 1) back := rfl
      rw [hcons, Leaf.readings_append, hrest]
      have houter (t : Token) (f : Frame) (hf : f.shape = .statement) :
          Leaf.readings chosen read ((Node.leaf t).leaves [f]) = [] :=
        Leaf.readings_eq_nil fun l hl => List.mem_singleton.1 hl ▸ hb.outer t f hf
      by_cases hkept : n.isKept = true
      · have hcons' : Node.leavesFrom g.withoutCondition [] (front.filter Node.isKept).length
              (n :: back.filter Node.isKept) =
            n.leaves [⟨g.withoutCondition, (front.filter Node.isKept).length⟩] ++
              Node.leavesFrom g.withoutCondition [] ((front.filter Node.isKept).length + 1)
                (back.filter Node.isKept) := rfl
        rw [@List.filter_cons_of_pos _ _ n back hkept, hcons', Leaf.readings_append,
          @List.filter_cons_of_pos _ _ n [] hkept, List.filter_nil, List.length_append,
          List.length_singleton]
        congr 1
        -- A leaf is not read here at all, and a group stands at a like place.
        cases n with
        | leaf t => rw [houter t ⟨g, _⟩ hg.shape, houter t ⟨g.withoutCondition, _⟩ hg.shape]
        | group shape children =>
            exact Leaf.readings_leaves_alike hb
              (alike_withoutCondition hchildren hg.closes hkept rfl) [] _
      · have hnone : Leaf.readings chosen read (n.leaves [⟨g, front.length⟩]) = [] := by
          cases n with
          | leaf t => exact houter t ⟨g, _⟩ hg.shape
          | group shape children =>
              rcases Node.exists_group_of_clause (Node.isGroup_of_not_kept hkept rfl) with
                ⟨condition, hcondition⟩
              rw [hcondition] at hchildren ⊢
              refine readings_clause hb (hg.parts condition ?_) _
              rw [hchildren]
              exact List.mem_append_right _ List.mem_cons_self
        rw [@List.filter_cons_of_neg _ _ n back hkept, @List.filter_cons_of_neg _ _ n [] hkept,
          List.filter_nil, List.append_nil, hnone, List.nil_append]

/-- What is read of the leaves is read without the condition. -/
theorem readings_withoutCondition : Leaf.readings chosen read g.leaves =
    Leaf.readings chosen read g.withoutCondition.leaves :=
  readings_leavesFrom hb hg [] g.children rfl

end Readings

theorem filterOf_withoutCondition (g : Group) : filterOf g.withoutCondition = .ok none := by
  have hnone : g.withoutCondition.find? .whereClause = none := by
    refine List.find?_eq_none.2 fun child hchild hshape => ?_
    rcases List.mem_filterMap.1 hchild with ⟨n, hn, hgroup⟩
    have hkept := Node.isKept_iff.1 (List.mem_filter.1 hn).2
    cases n with
    | leaf => exact Option.some_ne_none child hgroup.symm
    | group shape children =>
        rw [← Option.some.inj hgroup] at hshape
        exact Bool.false_ne_true
          (hkept.2.symm.trans (decide_eq_true (congrArg some (of_decide_eq_true hshape))))
  rw [filterOf, hnone]

/-- A level is cut in one way only at the one node of a kind. -/
theorem append_cons_unique {p : Node → Bool} {before after front back : List Node} {n m : Node}
    (hbefore : ∀ a ∈ before, p a = false) (hafter : ∀ a ∈ after, p a = false) (hm : p m = true)
    (h : front ++ m :: back = before ++ n :: after) : m = n ∧ back = after := by
  rcases List.append_eq_append_iff.1 h with ⟨more, rfl, heq⟩ | ⟨more, rfl, heq⟩
  · cases more with
    | nil => exact List.cons.inj heq
    | cons a more =>
        obtain rfl := (List.cons.inj heq).1
        exact absurd (hbefore m (List.mem_append_right _ List.mem_cons_self)) (by rw [hm]; decide)
  · cases more with
    | nil => exact (List.cons.inj heq).imp Eq.symm Eq.symm
    | cons a more =>
        rw [(List.cons.inj heq).2] at hafter
        exact absurd (hafter m (List.mem_append_right _ List.mem_cons_self)) (by rw [hm]; decide)

end Group

theorem Node.Tidy.not_clause {n : Node} (h : n.Tidy) : n.isGroup .whereClause = false := by
  cases h <;> rfl

theorem Node.SplitAtWhere.closes {ns before condition after : List Node} {clause : Node}
    (h : SplitAtWhere ns before clause condition after) {n : Node}
    (hn : after.find? (fun m => !m.isWhitespace) = some n) : n.keyword? ≠ none := by
  rcases h.ends with ⟨blanks, rest, rfl, hblanks, hrest⟩
  rw [find?_visible_behind hblanks] at hn
  cases rest with
  | nil => exact absurd hn.symm (Option.some_ne_none n)
  | cons m rest =>
      rcases (Option.any_eq_true _ _).1 (hrest m rfl) with ⟨k, hk, -⟩
      have hkeyword : m.keyword? ≠ none := hk ▸ Option.some_ne_none k
      have hfirst : (m :: rest).find? (fun m => !m.isWhitespace) = some m :=
        List.find?_cons_of_pos (isKept_iff.1 (isKept_of_keyword hkeyword)).1
      rwa [← Option.some.inj (hfirst.symm.trans hn)]

/-- The tree of a statement has one condition at most, and it was grouped last. -/
theorem clausal_of_ofText {sql : String} {root : Group} (h : Group.ofText sql = .ok root) :
    root.Clausal := by
  rcases ofText_eq_ok_iff.1 h with ⟨statement, items, -, hnest, rfl⟩
  have hmatched := Nested.matched_nest hnest
  have htidy := tidy_ungroupedNodes hmatched
  refine ⟨rfl, ?_, ?_⟩
  · intro front clause back hchildren hclause n hn
    replace hchildren : Node.groupWhere (ungroupedNodes items) = front ++ clause :: back :=
      hchildren
    rcases Node.groupWhere_cases (ungroupedNodes items) with
      ⟨-, heq⟩ | ⟨before, opening, condition, after, hsplit, heq⟩
    · have hmem : clause ∈ ungroupedNodes items := by
        rw [← heq, hchildren]
        exact List.mem_append_right _ List.mem_cons_self
      exact absurd hclause (by rw [(htidy clause hmem).not_clause]; decide)
    · have hplain : ∀ m ∈ before ++ after, m.isGroup .whereClause = false := by
        intro m hm
        refine (htidy m ?_).not_clause
        rw [hsplit.eq_append]
        rcases List.mem_append.1 hm with hm | hm
        · exact List.mem_append_left _ hm
        · exact List.mem_append_right _ (List.mem_cons_of_mem _ (List.mem_append_right _ hm))
      have hcut := Group.append_cons_unique (fun m hm => hplain m (List.mem_append_left _ hm))
        (fun m hm => hplain m (List.mem_append_right _ hm)) hclause (hchildren.symm.trans heq)
      exact hsplit.closes (hcut.2 ▸ hn)
  · intro condition hcondition m hm
    rcases mem_rootNodes hmatched hcondition with hn | ⟨clause, rest, heq, -, hmem, -⟩
    · exact absurd hn.not_clause.symm Bool.false_ne_true
    · rw [(Node.group.inj heq).2] at hm
      exact (htidy m (hmem m hm)).isPart

namespace Leaf

theorem target_eq_readings (ls : List Leaf) :
    target ls = match readings isTarget value ls with
      | name :: _ => .ok name
      | [] => .error (.mismatch (.missingTargets 1 0)) := by
  rw [target, readings]
  cases ls.filter isTarget <;> rfl

/-- Columns without definitions are mentioned one by one, by name. -/
theorem gatherFrom_mentions (action : Action) (g : Gathered) (ls : List Leaf) :
    gatherFrom false action g ls =
      .ok ((readings isColumn value ls).foldl (fun g => g.mention action) g) := by
  induction ls generalizing g with
  | nil => rfl
  | cons l ls ih =>
      rw [gatherFrom, Gathered.read, readings, List.filter_cons, Bool.false_and,
        if_neg Bool.false_ne_true]
      by_cases hcolumn : l.isColumn = true
      · rw [if_pos hcolumn, if_pos hcolumn]
        exact ih _
      · rw [if_neg hcolumn, if_neg hcolumn]
        exact ih _

theorem columns_of_readings {plan : TablePlan} (hplan : plan.definitions = false)
    {ls ls' : List Leaf} (h : readings isColumn value ls = readings isColumn value ls') :
    plan.columns ls = plan.columns ls' := by
  simp only [TablePlan.columns, hplan, mentionedColumns, gather, gatherFrom_mentions, h,
    Bool.false_eq_true, if_false]

theorem pairColumns_of_readings {names names' values values' : List Leaf}
    (hnames : names.map value = names'.map value)
    (hvalues : values.map (fun v => (v.value, v.writeAction)) =
      values'.map fun v => (v.value, v.writeAction)) :
    pairColumns names values = pairColumns names' values' := by
  have hpositional (vs : List Leaf) : (vs.map fun v => Column.positional v.value v.writeAction) =
      (vs.map fun v => (v.value, v.writeAction)).map fun v => Column.positional v.1 v.2 := by
    rw [List.map_map]
    rfl
  have hnamed (ns vs : List Leaf) : List.zipWith
      (fun n v => { Column.named n.value v.writeAction with value := some v.value }) ns vs =
      List.zipWith (fun n v => { Column.named n v.2 with value := some v.1 }) (ns.map value)
        (vs.map fun v => (v.value, v.writeAction)) := by
    rw [List.zipWith_map]
  have hempty : names.isEmpty = names'.isEmpty := by
    rw [← List.isEmpty_map (f := value), hnames, List.isEmpty_map]
  have hlength : names.length = names'.length := by
    rw [← List.length_map value, hnames, List.length_map]
  have hlength' : values.length = values'.length := by
    rw [← List.length_map fun v : Leaf => (v.value, v.writeAction), hvalues, List.length_map]
  rw [pairColumns, pairColumns, hpositional, hvalues, hpositional values', hnamed, hnames, hvalues,
    hnamed names', hempty, hlength, hlength']

end Leaf

section Tables

variable {g : Group} (hg : g.Clausal)

include hg

theorem target_withoutCondition : target g.withoutCondition.leaves = target g.leaves := by
  rw [Leaf.target_eq_readings, Leaf.target_eq_readings,
    Group.readings_withoutCondition Leaf.blind_isTarget hg]

theorem tableOf_withoutCondition {plan : TablePlan} (hplan : plan.definitions = false) {t : Table}
    (h : tableOf plan g = .ok t) :
    tableOf plan g.withoutCondition = .ok { t with filter := none } := by
  rcases tableOf_eq_ok_iff.1 h with ⟨name, columns, filter, hname, hcolumns, -, rfl⟩
  refine tableOf_eq_ok_iff.2 ⟨name, columns, none, ?_, ?_, ?_, rfl⟩
  · rw [target_withoutCondition hg, hname]
  · rw [← hcolumns]
    exact Leaf.columns_of_readings hplan
      (Group.readings_withoutCondition Leaf.blind_isColumn hg).symm
  · rw [filterIf, Group.filterOf_withoutCondition, ite_self]

theorem writtenTable_withoutCondition {plan : WritePlan} {t : Table}
    (h : writtenTable plan g = .ok t) :
    writtenTable plan g.withoutCondition = .ok { t with filter := none } := by
  rcases writtenTable_eq_ok_iff.1 h with ⟨name, columns, filter, hname, hcolumns, -, rfl⟩
  refine writtenTable_eq_ok_iff.2 ⟨name, columns, none, ?_, ?_, ?_, rfl⟩
  · rw [target_withoutCondition hg, hname]
  · rw [← hcolumns]
    exact Leaf.pairColumns_of_readings
      (Group.readings_withoutCondition Leaf.blind_isColumn hg).symm
      (Group.readings_withoutCondition (Leaf.blind_isWritten plan.keyword) hg).symm
  · rw [filterIf, Group.filterOf_withoutCondition, ite_self]

/-- A query or a change is about the table that it is about without its condition. -/
theorem extract_withoutCondition {c : Command}
    (hc : c ∈ [Command.select, Command.insert, Command.update, Command.delete]) {e : Entity}
    (h : c.extract g = .ok e) :
    ∃ t, e = .table t ∧ c.extract g.withoutCondition = .ok (.table { t with filter := none }) := by
  have htable (plan : TablePlan) (hplan : plan.definitions = false)
      (h : (tableOf plan g).map Entity.table = .ok e) : ∃ t, e = .table t ∧
        (tableOf plan g.withoutCondition).map Entity.table =
          .ok (.table { t with filter := none }) := by
    rcases map_eq_ok.1 h with ⟨t, ht, rfl⟩
    exact ⟨t, rfl, map_eq_ok.2 ⟨_, tableOf_withoutCondition hg hplan ht, rfl⟩⟩
  have hwrite (plan : WritePlan) (h : (writtenTable plan g).map Entity.table = .ok e) :
      ∃ t, e = .table t ∧ (writtenTable plan g.withoutCondition).map Entity.table =
        .ok (.table { t with filter := none }) := by
    rcases map_eq_ok.1 h with ⟨t, ht, rfl⟩
    exact ⟨t, rfl, map_eq_ok.2 ⟨_, writtenTable_withoutCondition hg ht, rfl⟩⟩
  simp only [List.mem_cons, List.not_mem_nil, or_false] at hc
  rcases hc with rfl | rfl | rfl | rfl
  · exact htable _ rfl h
  · exact hwrite _ h
  · exact hwrite _ h
  · exact htable _ rfl h

end Tables

namespace Node

mutual

/-- Trees are compared node by node. -/
def decEq : (n m : Node) → Decidable (n = m)
  | .leaf t, .leaf u => decidable_of_iff (t = u) ⟨congrArg leaf, leaf.inj⟩
  | .leaf _, .group _ _ => isFalse Node.noConfusion
  | .group _ _, .leaf _ => isFalse Node.noConfusion
  | .group shape ns, .group shape' ms =>
    match decEqAll ns ms with
    | isTrue h => decidable_of_iff (shape = shape')
        ⟨fun hshape => hshape ▸ h ▸ rfl, fun heq => (group.inj heq).1⟩
    | isFalse h => isFalse fun heq => h (group.inj heq).2

/-- Lists of trees are compared one by one. -/
def decEqAll : (ns ms : List Node) → Decidable (ns = ms)
  | [], [] => isTrue rfl
  | [], _ :: _ => isFalse fun h => List.cons_ne_nil _ _ h.symm
  | _ :: _, [] => isFalse (List.cons_ne_nil _ _)
  | n :: ns, m :: ms =>
    match decEq n m, decEqAll ns ms with
    | isTrue h, isTrue hrest => isTrue (h ▸ hrest ▸ rfl)
    | isFalse h, _ => isFalse fun heq => h (List.cons.inj heq).1
    | _, isFalse h => isFalse fun heq => h (List.cons.inj heq).2

end

instance : DecidableEq Node :=
  decEq

end Node

namespace Group

instance : DecidableEq Group := fun ⟨shape, children⟩ ⟨shape', children'⟩ =>
  decidable_of_iff (shape = shape' ∧ children = children')
    ⟨fun ⟨hshape, hchildren⟩ => hshape ▸ hchildren ▸ rfl, Group.mk.inj⟩

/-- Two trees that are the same but for the condition, the blanks outside all
    groups, and the places in the text. -/
def EqualButCondition (g h : Group) : Prop :=
  g.withoutCondition.relabel Token.unplaced = h.withoutCondition.relabel Token.unplaced

instance (g h : Group) : Decidable (g.EqualButCondition h) :=
  inferInstanceAs (Decidable (_ = _))

/-- The children of a condition make no difference. -/
theorem equalButCondition_of_clauses (shape : Shape) (before after : List Node)
    (condition condition' : List Node) :
    EqualButCondition ⟨shape, before ++ .group .whereClause condition :: after⟩
      ⟨shape, before ++ .group .whereClause condition' :: after⟩ := by
  simp only [EqualButCondition, withoutCondition, List.filter_append]
  rfl

/-- Nor does it make one if there is no condition. -/
theorem equalButCondition_of_no_clause (shape : Shape) (before after : List Node)
    (condition : List Node) :
    EqualButCondition ⟨shape, before ++ .group .whereClause condition :: after⟩
      ⟨shape, before ++ after⟩ := by
  simp only [EqualButCondition, withoutCondition, List.filter_append]
  rfl

end Group

/-- The condition of a statement does not reach its table, but for the filter: two
    statements that are the same but for their conditions are about tables of one
    name, with one action, and with the same columns. -/
theorem same_table_of_equalButCondition {sql sql' : String} {root root' : Group} {c : Command}
    {e e' : Entity} (hroot : Group.ofText sql = .ok root) (hroot' : Group.ofText sql' = .ok root')
    (hsame : root.EqualButCondition root')
    (hc : c ∈ [Command.select, Command.insert, Command.update, Command.delete])
    (he : c.extract root = .ok e) (he' : c.extract root' = .ok e') :
    ∃ t filter, e = .table t ∧ e' = .table { t with filter := filter } := by
  rcases extract_withoutCondition (clausal_of_ofText hroot) hc he with ⟨t, rfl, ht⟩
  rcases extract_withoutCondition (clausal_of_ofText hroot') hc he' with ⟨u, rfl, hu⟩
  rw [Command.extract, ← run_relabel Token.verbatim_unplaced, hsame,
    run_relabel Token.verbatim_unplaced, ← Command.extract, hu, Except.ok.injEq,
    Entity.table.injEq, Table.mk.injEq] at ht
  rcases ht with ⟨hname, haction, hcolumns, -⟩
  refine ⟨t, u.filter, rfl, ?_⟩
  rw [← hname, ← haction, ← hcolumns]

/-- A condition with parentheses, names and values, and no condition at all. -/
theorem same_table_of_dropped_condition :
    ∃ root root' t filter,
      Group.ofText "UPDATE t SET a = 1, b = 'x' WHERE (c = 2 OR d = 3) LIMIT 4" = .ok root ∧
        Group.ofText "UPDATE t SET a = 1, b = 'x' LIMIT 4" = .ok root' ∧
        Command.update.extract root = .ok (.table t) ∧
        Command.update.extract root' = .ok (.table { t with filter := filter }) := by
  have hok : (Group.ofText
      "UPDATE t SET a = 1, b = 'x' WHERE (c = 2 OR d = 3) LIMIT 4").toOption.any
      (fun r => (Command.update.extract r).isOk) = true := by decide +kernel
  have hok' : (Group.ofText "UPDATE t SET a = 1, b = 'x' LIMIT 4").toOption.any
      (fun r => (Command.update.extract r).isOk) = true := by decide +kernel
  have hsame : ((Group.ofText
      "UPDATE t SET a = 1, b = 'x' WHERE (c = 2 OR d = 3) LIMIT 4").toOption.bind fun r =>
      (Group.ofText "UPDATE t SET a = 1, b = 'x' LIMIT 4").toOption.map fun s =>
        decide (r.EqualButCondition s)) = some true := by decide +kernel
  rcases exists_of_toOption_any hok with ⟨root, hroot, hextract⟩
  rcases exists_of_toOption_any hok' with ⟨root', hroot', hextract'⟩
  rw [hroot, hroot'] at hsame
  have hsame := of_decide_eq_true (Option.some.inj hsame)
  cases he : Command.update.extract root with
  | error e =>
      rw [he] at hextract
      exact absurd hextract Bool.false_ne_true
  | ok e =>
      cases he' : Command.update.extract root' with
      | error e =>
          rw [he'] at hextract'
          exact absurd hextract' Bool.false_ne_true
      | ok e' =>
          rcases same_table_of_equalButCondition hroot hroot' hsame (by decide) he he' with
            ⟨t, filter, rfl, rfl⟩
          exact ⟨root, root', t, filter, hroot, hroot', he, he'⟩

end SqlGist
