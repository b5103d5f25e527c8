import SqlGist.Proofs.Token.Spelling
import SqlGist.Proofs.Tree.Grammar

/-!
# Grouping a Level That Is Known

What the passes make of a level can be read off from left to right, a few nodes
at a time. Three of them act on neighbours alone, and together they are
`groupLevel`: a node that joins nothing is passed, and a name, a call or a
comparison at the front is taken off. The two behind them act on runs, so their
laws say where a run ends.

A name or a value in front joins what follows if an operator comes next, blanks
aside. `NoOperatorNext` says that none does, and it is not hurt by grouping what
comes next.

## Main definitions

* `Node.groupLevel`: The passes that act on neighbours.
* `Node.NoOperatorNext`: What comes next does not compare.
* `Node.groupListsBehind`: The lists behind a keyword.
* `Node.Settled`: A node that nothing is left to do with.

## Theorems

* `groupLevel_cons`, `groupLevel_name`, `groupLevel_call`,
  `groupLevel_comparison`: What is taken off the front.
* `listRun_of_no_comma`, `wrapList_of_trimmed`: A run that is no list, and one
  that is.
* `wrapList_cases`, `listRun_cases`: What listing can make of a run.
* `groupListsBehind_append`: A run ends at a keyword.
* `groupWhere_append`: A condition reaches to the end.
* `groupBehind_of_settled`: Where nothing is left to do.
-/

namespace SqlGist

namespace Node

/-- The passes that act on neighbours, calls first and comparisons last. -/
def groupLevel (ns : List Node) : List Node :=
  groupComparisons (groupNames (groupCalls ns))

/-- The first node that is no blank does not compare, if there is one. -/
def NoOperatorNext (ns : List Node) : Prop :=
  ∀ n, (ns.dropWhile isWhitespace).head? = some n → n.isComparisonOperator = false

theorem noOperatorNext_nil : NoOperatorNext [] := by
  intro n hn
  simp only [List.dropWhile_nil, List.head?_nil, reduceCtorEq] at hn

theorem noOperatorNext_cons_blank {n : Node} (h : n.isWhitespace = true) (ns : List Node) :
    NoOperatorNext (n :: ns) ↔ NoOperatorNext ns := by
  rw [NoOperatorNext, List.dropWhile_cons_of_pos h]
  exact Iff.rfl

theorem noOperatorNext_cons {n : Node} (h : n.isComparisonOperator = false) {ns : List Node}
    (hns : n.isWhitespace = true → NoOperatorNext ns) : NoOperatorNext (n :: ns) := by
  by_cases hblank : n.isWhitespace = true
  · exact (noOperatorNext_cons_blank hblank ns).2 (hns hblank)
  · intro m hm
    rw [List.dropWhile_cons_of_neg hblank, List.head?_cons, Option.some.injEq] at hm
    rw [← hm]
    exact h

theorem isName_of_isWhitespace {n : Node} (h : n.isWhitespace = true) : n.isName = false := by
  cases n with
  | leaf t =>
      simp only [isWhitespace, leaf?, Option.any_some, Token.isWhitespace, decide_eq_true_eq] at h
      simp only [isName, leaf?, Option.any_some, Token.isName, h, reduceCtorEq, decide_false]
  | group => rfl

theorem groupCalls_cons {n : Node} (h : n.isName = false) (ns : List Node) :
    groupCalls (n :: ns) = n :: groupCalls ns := by
  cases ns with
  | nil => rfl
  | cons p ns =>
      rw [groupCalls, h, Bool.false_and]
      exact if_neg Bool.false_ne_true

theorem groupCalls_cons_name {n : Node} {ns : List Node}
    (h : ∀ p, ns.head? = some p → p.isGroup .parenthesis = false) :
    groupCalls (n :: ns) = n :: groupCalls ns := by
  cases ns with
  | nil => rfl
  | cons p ns =>
      rw [groupCalls, h p rfl, Bool.and_false]
      exact if_neg Bool.false_ne_true

theorem groupNames_cons (n : Node) (ns : List Node) :
    groupNames (n :: ns) = (if n.isName then nameRef n else n) :: groupNames ns := rfl

/-- Calls and names are made of nodes that do not compare, and do not either. -/
theorem noOperatorNext_grouped {ns : List Node} (h : NoOperatorNext ns) :
    NoOperatorNext (groupNames (groupCalls ns)) := by
  induction ns with
  | nil => exact noOperatorNext_nil
  | cons n ns ih =>
      by_cases hblank : n.isWhitespace = true
      · have hname := isName_of_isWhitespace hblank
        rw [groupCalls_cons hname, groupNames_cons, hname, if_neg Bool.false_ne_true,
          noOperatorNext_cons_blank hblank]
        exact ih ((noOperatorNext_cons_blank hblank ns).1 h)
      · have hn : n.isComparisonOperator = false := by
          refine h n ?_
          rw [List.dropWhile_cons_of_neg hblank, List.head?_cons]
        -- What the node becomes, a name or a call, is no operator and no blank.
        cases ns with
        | nil =>
            rw [groupCalls, groupNames_cons]
            split
            · exact noOperatorNext_cons rfl fun _ => noOperatorNext_nil
            · exact noOperatorNext_cons hn fun _ => noOperatorNext_nil
        | cons p ns =>
            rw [groupCalls]
            split
            · exact noOperatorNext_cons rfl fun hgroup => absurd hgroup Bool.false_ne_true
            · rw [groupNames_cons]
              split
              · exact noOperatorNext_cons rfl fun hgroup => absurd hgroup Bool.false_ne_true
              · exact noOperatorNext_cons hn fun hvisible => absurd hvisible hblank

theorem comparisonRest?_of_noOperatorNext {ns : List Node} (h : NoOperatorNext ns) :
    comparisonRest? ns = none := by
  cases hnext : ns.dropWhile isWhitespace with
  | nil => rw [comparisonRest?, nextVisible?, hnext, Option.bind_none]
  | cons n rest =>
      have hn := h n (by rw [hnext, List.head?_cons])
      rw [comparisonRest?, nextVisible?, hnext]
      simp only [Option.bind_some, hn, Bool.false_eq_true, if_false]

theorem groupComparisons_cons {n : Node} {ns : List Node}
    (h : n.isOperand = true → NoOperatorNext ns) :
    groupComparisons (n :: ns) = n :: groupComparisons ns := by
  have hnone : (if n.isOperand then comparisonRest? ns else none) = none := by
    split
    · rename_i hoperand
      exact comparisonRest?_of_noOperatorNext (h hoperand)
    · rfl
  rw [groupComparisons, hnone]

theorem noOperatorNext_of_forall {ns : List Node} (h : ∀ n ∈ ns, n.isComparisonOperator = false) :
    NoOperatorNext ns := by
  intro n hn
  exact h n ((List.dropWhile_sublist _).subset (List.mem_of_head? hn))

theorem groupComparisons_of_no_operator {ns : List Node}
    (h : ∀ n ∈ ns, n.isComparisonOperator = false) : groupComparisons ns = ns := by
  induction ns with
  | nil => rw [groupComparisons]
  | cons n ns ih =>
      have hrest := fun m hm => h m (List.mem_cons_of_mem n hm)
      rw [groupComparisons_cons fun _ => noOperatorNext_of_forall hrest, ih hrest]

theorem groupLevel_nil : groupLevel [] = [] := by
  rw [groupLevel, groupCalls, groupNames, List.map_nil, groupComparisons]

/-- A node that joins nothing is passed. -/
theorem groupLevel_cons {n : Node} {ns : List Node} (hname : n.isName = false)
    (h : n.isOperand = true → NoOperatorNext ns) : groupLevel (n :: ns) = n :: groupLevel ns := by
  rw [groupLevel, groupCalls_cons hname, groupNames_cons, hname, if_neg Bool.false_ne_true,
    groupComparisons_cons fun hoperand => noOperatorNext_grouped (h hoperand), groupLevel]

theorem groupLevel_pass {n : Node} (hname : n.isName = false) (hoperand : n.isOperand = false)
    (ns : List Node) : groupLevel (n :: ns) = n :: groupLevel ns :=
  groupLevel_cons hname fun h => absurd (hoperand.symm.trans h) Bool.false_ne_true

theorem groupLevel_space (ns : List Node) :
    groupLevel (.leaf .space :: ns) = .leaf .space :: groupLevel ns :=
  groupLevel_pass rfl rfl ns

theorem groupLevel_name {n : Node} {ns : List Node} (hname : n.isName = true)
    (hparen : ∀ p, ns.head? = some p → p.isGroup .parenthesis = false) (h : NoOperatorNext ns) :
    groupLevel (n :: ns) = nameRef n :: groupLevel ns := by
  rw [groupLevel, groupCalls_cons_name hparen, groupNames_cons, if_pos hname,
    groupComparisons_cons fun _ => noOperatorNext_grouped h, groupLevel]

theorem groupLevel_call {n p : Node} {ns : List Node} (hname : n.isName = true)
    (hparen : p.isGroup .parenthesis = true) (h : NoOperatorNext ns) :
    groupLevel (n :: p :: ns) = .group .functionCall [nameRef n, p] :: groupLevel ns := by
  have hcall : (n.isName && p.isGroup .parenthesis) = true := by rw [hname, hparen, Bool.and_self]
  rw [groupLevel, groupCalls, if_pos hcall, groupNames_cons, groupLevel]
  exact groupComparisons_cons fun _ => noOperatorNext_grouped h

/-- A name, an operator and a value with a blank between each become one group. -/
theorem groupLevel_comparison {n gap operator gap' : Node} {value : Token} (ns : List Node)
    (hname : n.isName = true) (hgap : gap.isWhitespace = true)
    (hoperator : operator.isComparisonOperator = true) (hbare : operator.isName = false)
    (hblank : operator.isWhitespace = false) (hgap' : gap'.isWhitespace = true)
    (hvalue : value.isValue = true) (hword : value.isWhitespace = false)
    (hliteral : value.isName = false) :
    groupLevel (n :: gap :: operator :: gap' :: .leaf value :: ns) =
      .group .comparison [nameRef n, gap, operator, gap', .leaf value] :: groupLevel ns := by
  have hsplit : groupCalls (n :: gap :: operator :: gap' :: .leaf value :: ns) =
      n :: gap :: operator :: gap' :: .leaf value :: groupCalls ns := by
    rw [groupCalls_cons_name, groupCalls_cons (isName_of_isWhitespace hgap),
      groupCalls_cons hbare, groupCalls_cons (isName_of_isWhitespace hgap'),
      groupCalls_cons (show Node.isName (.leaf value) = false from hliteral)]
    intro p hp
    rw [List.head?_cons, Option.some.injEq] at hp
    rw [← hp]
    cases gap with
    | leaf => rfl
    | group => exact absurd hgap Bool.false_ne_true
  -- Behind the name the operator and the value are the next visible nodes.
  have hrest : comparisonRest? (gap :: operator :: gap' :: .leaf value ::
      groupNames (groupCalls ns)) =
        some ([gap, operator, gap', .leaf value], groupNames (groupCalls ns)) := by
    have hleaf : Node.isWhitespace (.leaf value) = false := hword
    have hoperand : Node.isOperand (.leaf value) = true := hvalue
    simp only [comparisonRest?, nextVisible?, List.dropWhile_cons, List.takeWhile_cons, hgap,
      hblank, hgap', hleaf, hoperator, hoperand, if_true, Bool.false_eq_true, if_false,
      Option.bind_some, List.cons_append, List.nil_append]
  have hleft : (nameRef n).isOperand = true := rfl
  rw [groupLevel, hsplit]
  simp only [groupNames_cons, hname, isName_of_isWhitespace hgap, hbare,
    isName_of_isWhitespace hgap', show Node.isName (.leaf value) = false from hliteral, if_true,
    Bool.false_eq_true, if_false]
  rw [groupComparisons, if_pos hleft, hrest, groupLevel]

theorem listRun_of_no_comma {run : List Node} (h : ∀ n ∈ run, n.isMark "," = false) :
    listRun false run = run := by
  have hany : (run.any fun n => n.isMark ",") = false :=
    List.any_eq_false.2 fun n hn => Bool.eq_false_iff.1 (h n hn)
  rw [listRun, Bool.false_or, hany]
  exact if_neg Bool.false_ne_true

/-- A run without blanks at its ends becomes a list as it is. -/
theorem wrapList_of_trimmed {items : List Node} (hne : items ≠ []) (h : Trimmed items) :
    wrapList items = [.group .nameList items] := by
  rcases List.exists_cons_of_ne_nil hne with ⟨n, ns, rfl⟩
  have hn := Bool.eq_false_iff.1 (h.1 n rfl)
  rw [wrapList, List.dropWhile_cons_of_neg hn, List.takeWhile_cons_of_neg hn,
    cutTrailing_of_getLast h.2]
  rfl

theorem listRun_of_comma {items : List Node} {n : Node} (hmem : n ∈ items)
    (hcomma : n.isMark "," = true) (h : Trimmed items) (forced : Bool) :
    listRun forced items = [.group .nameList items] := by
  have hany : (items.any fun n => n.isMark ",") = true := List.any_eq_true.2 ⟨n, hmem, hcomma⟩
  rw [listRun, hany, Bool.or_true, if_pos rfl, wrapList_of_trimmed (List.ne_nil_of_mem hmem) h]

/-- A run of blanks is wrapped as it is, and any other without the blanks at its
    ends. -/
theorem wrapList_cases (run : List Node) :
    (∀ n ∈ run, n.isWhitespace = true) ∧ wrapList run = run ∨
      ∃ gap items gap', run = gap ++ (items ++ gap') ∧
        wrapList run = gap ++ .group .nameList items :: gap' ∧
        (∀ n ∈ gap, n.isWhitespace = true) ∧ ∀ n ∈ gap', n.isWhitespace = true := by
  have happ := cutTrailing_append isWhitespace (run.dropWhile isWhitespace)
  have hblanks := cutTrailing_snd isWhitespace (run.dropWhile isWhitespace)
  have hrun := List.takeWhile_append_dropWhile (l := run) (p := isWhitespace)
  have hfirst : ∀ n ∈ run.takeWhile isWhitespace, n.isWhitespace = true :=
    fun n hn => List.mem_takeWhile_imp hn
  rw [wrapList]
  split
  · rename_i blanks heq
    rw [heq] at happ hblanks
    refine Or.inl ⟨fun n hn => ?_, rfl⟩
    rw [← hrun, ← happ, List.nil_append] at hn
    exact (List.mem_append.1 hn).elim (hfirst n) (hblanks n)
  · rename_i items blanks _ heq
    rw [heq] at happ hblanks
    exact Or.inr ⟨run.takeWhile isWhitespace, items, blanks, by rw [happ, hrun], rfl, hfirst,
      hblanks⟩

/-- A run is listed as it is, or without the blanks at its ends. -/
theorem listRun_cases (forced : Bool) (run : List Node) :
    listRun forced run = run ∨
      ∃ gap items gap', run = gap ++ (items ++ gap') ∧
        listRun forced run = gap ++ .group .nameList items :: gap' ∧
        (∀ n ∈ gap, n.isWhitespace = true) ∧ ∀ n ∈ gap', n.isWhitespace = true := by
  rw [listRun]
  split
  · exact (wrapList_cases run).imp_left And.right
  · exact Or.inl rfl

theorem sections_append {run : List Node} (h : ∀ n ∈ run, n.keyword? = none) (ns : List Node) :
    sections (run ++ ns) = (run ++ (sections ns).1, (sections ns).2) := by
  induction run with
  | nil => rfl
  | cons n run ih =>
      rw [List.cons_append, sections, h n List.mem_cons_self,
        ih fun m hm => h m (List.mem_cons_of_mem _ hm)]
      rfl

theorem sections_keyword {n : Node} (h : n.keyword?.isSome = true) (ns : List Node) :
    sections (n :: ns) = ([], (n, (sections ns).1) :: (sections ns).2) := by
  rw [sections]
  exact if_pos h

/-- What stands behind a keyword, as lists. The first run is a list in any case
    if `forced`. -/
def groupListsBehind (forced : Bool) (ns : List Node) : List Node :=
  listRun forced (sections ns).1 ++
    (sections ns).2.flatMap fun part => part.1 :: listRun part.1.opensProjection part.2

theorem groupLists_eq (ns : List Node) : groupLists ns = groupListsBehind false ns := rfl

/-- A run ends at the next keyword. -/
theorem groupListsBehind_append {run : List Node} {n : Node} (h : ∀ m ∈ run, m.keyword? = none)
    (hn : n.keyword?.isSome = true) (forced : Bool) (ns : List Node) :
    groupListsBehind forced (run ++ n :: ns) =
      listRun forced run ++ n :: groupListsBehind n.opensProjection ns := by
  rw [groupListsBehind, sections_append h, sections_keyword hn, List.append_nil,
    List.flatMap_cons, List.cons_append]
  rfl

theorem sections_flatten (ns : List Node) :
    (sections ns).1 ++ ((sections ns).2.flatMap fun part => part.1 :: part.2) = ns := by
  induction ns with
  | nil => rfl
  | cons n ns ih =>
      rw [sections]
      split
      · rw [List.flatMap_cons, List.nil_append, List.cons_append, ih]
      · rw [List.cons_append, ih]

/-- Nothing is a list without a comma, and without a projection. -/
theorem groupLists_of_no_comma {ns : List Node}
    (h : ∀ n ∈ ns, n.isMark "," = false ∧ n.opensProjection = false) : groupLists ns = ns := by
  have hmem := mem_of_sections ns
  have hparts : ((sections ns).2.map fun part =>
      part.1 :: listRun part.1.opensProjection part.2) =
        (sections ns).2.map fun part => part.1 :: part.2 := by
    refine List.map_congr_left fun part hpart => ?_
    have hpart := hmem.2 part hpart
    rw [(h _ hpart.1).2, listRun_of_no_comma fun n hn => (h n (hpart.2 n hn)).1]
  rw [groupLists_eq, groupListsBehind, listRun_of_no_comma fun n hn => (h n (hmem.1 n hn)).1,
    List.flatMap_def, hparts, ← List.flatMap_def, sections_flatten]

/-- The condition behind the first `WHERE` reaches to the end, if no keyword
    ends it and no blank stands there. -/
theorem groupWhere_append {before condition : List Node} {n : Node}
    (hbefore : ∀ m ∈ before, m.keyword? ≠ some .whereKw) (hn : n.keyword? = some .whereKw)
    (hend : ∀ m ∈ condition, m.endsCondition = false)
    (hlast : ∀ m, condition.getLast? = some m → m.isWhitespace = false) :
    groupWhere (before ++ n :: condition) = before ++ [.group .whereClause (n :: condition)] := by
  -- The nodes before are passed, the keyword stops, and all behind it is taken.
  have hpass : ∀ m ∈ before, (!decide (m.keyword? = some .whereKw)) = true := by
    intro m hm
    rw [decide_eq_false (hbefore m hm)]
    rfl
  have hstop : ¬(!decide (n.keyword? = some .whereKw)) = true := by
    rw [decide_eq_true hn]
    exact Bool.false_ne_true
  have hcondition : ∀ m ∈ condition, (!m.endsCondition) = true := by
    intro m hm
    rw [hend m hm]
    rfl
  simp only [groupWhere]
  rw [List.dropWhile_append_of_pos hpass, List.takeWhile_append_of_pos hpass,
    List.dropWhile_cons_of_neg (p := fun m : Node => !decide (m.keyword? = some .whereKw)) hstop,
    List.takeWhile_cons_of_neg (p := fun m : Node => !decide (m.keyword? = some .whereKw)) hstop,
    List.append_nil]
  simp only [List.takeWhile_eq_self_iff.2 hcondition, List.dropWhile_eq_nil_iff.2 hcondition,
    cutTrailing_of_getLast hlast, List.append_nil]

theorem groupWhere_of_no_where {ns : List Node} (h : ∀ n ∈ ns, n.keyword? ≠ some .whereKw) :
    groupWhere ns = ns := by
  have hpass : ∀ n ∈ ns, (!decide (n.keyword? = some .whereKw)) = true := by
    intro n hn
    rw [decide_eq_false (h n hn)]
    rfl
  simp only [groupWhere, List.dropWhile_eq_nil_iff.2 hpass]

/-- A node that none of the later passes joins to others: it does not compare,
    parts no list and opens none, and begins no condition. -/
def Settled (n : Node) : Prop :=
  n.isComparisonOperator = false ∧ (n.isMark "," = false ∧ n.opensProjection = false) ∧
    n.keyword? ≠ some .whereKw

instance : DecidablePred Settled := fun _ =>
  inferInstanceAs (Decidable (_ ∧ _ ∧ _))

theorem settled_group (shape : Shape) (children : List Node) : (group shape children).Settled :=
  ⟨rfl, ⟨rfl, rfl⟩, fun h => Option.some_ne_none _ h.symm⟩

theorem settled_name (t : Token) : (nameRef (.leaf t)).Settled :=
  settled_group .nameRef [.leaf t]

/-- The passes behind the one over names leave such nodes as they are. -/
theorem groupBehind_of_settled {ns : List Node} (h : ∀ n ∈ ns, n.Settled) :
    groupWhere (groupLists (groupComparisons ns)) = ns := by
  rw [groupComparisons_of_no_operator fun n hn => (h n hn).1,
    groupLists_of_no_comma fun n hn => (h n hn).2.1,
    groupWhere_of_no_where fun n hn => (h n hn).2.2]

end Node

theorem groupInner_eq (forced : Bool) (ns : List Node) :
    groupInner forced ns = Node.listRun forced (Node.groupLevel ns) := rfl

theorem groupRoot_false_eq (ns : List Node) :
    groupRoot false ns = Node.groupWhere (Node.groupLists (Node.groupLevel ns)) := rfl

theorem Nested.nodes_append (as bs : List Nested) : nodes (as ++ bs) = nodes as ++ nodes bs := by
  induction as with
  | nil => rfl
  | cons a as ih => rw [List.cons_append, nodes, nodes, ih, List.cons_append]

theorem Nested.outerNodes_eq_nodes {items : List Nested}
    (h : ∀ item ∈ items, item.keyword? ≠ some .values) : outerNodes false items = nodes items := by
  induction items with
  | nil => rfl
  | cons item items ih =>
      have hrec := ih fun i hi => h i (List.mem_cons_of_mem _ hi)
      cases hk : item.keyword? with
      | none => simp only [outerNodes, hk, nodes, hrec]
      | some k =>
          have hvalues : k ≠ .values := by
            rintro rfl
            exact h item List.mem_cons_self hk
          simp only [outerNodes, hk, decide_eq_false hvalues, nodes, hrec]

end SqlGist
