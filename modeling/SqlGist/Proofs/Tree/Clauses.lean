import SqlGist.Proofs.Tree.Keywords

/-!
# Clauses

A clause is what stands behind a keyword of a statement, up to the next one. The
passes that make lists work on clauses, so a clause of the finished level is the
list of a run, and of a run that was there before.

Reading this back is less obvious than making it. A level is known by its
keywords, and a list has none, so the keywords of a finished level are those of
the level it was made from, in the same order, and both can be cut at the same
keyword. Where a condition was grouped, it took every keyword behind its own
with it, except those that end a condition.

## Main definitions

* `Node.isFree`: A node is no keyword.
* `IsLastClause`: What stands behind a keyword of a statement.

## Theorems

* `exists_first`, `dropWhile_first`: The first keyword of a kind.
* `exists_groupListsBehind`: A level of lists is cut at a keyword.
* `exists_run_of_groupListsBehind`: What stands in front of the first keyword is
  the list of a run.
* `not_list_of_mem_levelNodes`: Before runs are listed there are no lists.
* `exists_run_of_ungroupedNodes`: What stands behind a keyword, once listed.
* `exists_front_of_rootNodes`: What grouping the condition leaves of a level.
* `exists_lastClause`: The last clause of a statement, by its keywords.
-/

namespace SqlGist

section First

variable {α : Type} {key : α → Option Keyword} {k : Keyword}

theorem exists_first {as : List α} (h : ∃ a ∈ as, key a = some k) :
    ∃ before a after, as = before ++ a :: after ∧ (∀ b ∈ before, key b ≠ some k) ∧
      key a = some k := by
  have hfind : (as.find? fun a => key a = some k).isSome = true := by
    rcases h with ⟨a, ha, hk⟩
    exact List.find?_isSome.2 ⟨a, ha, decide_eq_true hk⟩
  rcases Option.isSome_iff_exists.1 hfind with ⟨a, ha⟩
  rcases List.find?_eq_some_iff_append.1 ha with ⟨ha, before, after, hsplit, hbefore⟩
  refine ⟨before, a, after, hsplit, fun b hb => ?_, of_decide_eq_true ha⟩
  simpa only [Bool.not_eq_true', decide_eq_false_iff_not] using hbefore b hb

/-- What stands from the first keyword of a kind on. -/
theorem dropWhile_first {before after : List α} {a : α} (hbefore : ∀ b ∈ before, key b ≠ some k)
    (ha : key a = some k) :
    (before ++ a :: after).dropWhile (fun b => key b != some k) = a :: after := by
  have hpass : ∀ b ∈ before, (key b != some k) = true := fun b hb => bne_iff_ne.2 (hbefore b hb)
  rw [List.dropWhile_append_of_pos hpass, List.dropWhile_cons, ha, bne_self_eq_false]
  exact if_neg Bool.false_ne_true

end First

namespace Node

theorem groupListsBehind_of_no_keyword {run : List Node} (h : ∀ m ∈ run, m.keyword? = none)
    (forced : Bool) : groupListsBehind forced run = listRun forced run := by
  have hsections := sections_append h []
  rw [List.append_nil] at hsections
  rw [groupListsBehind, hsections]
  simp only [sections, List.append_nil, List.flatMap_nil]

/-- The lists behind a keyword are those of its own run, and what is in front of
    it stays in front. -/
theorem exists_groupListsBehind {n : Node} {k : Keyword} {rest : List Node}
    (hn : n.keyword? = some k) {before : List Node} (hbefore : ∀ m ∈ before, m.keyword? ≠ some k)
    {run : List Node} (hrun : ∀ m ∈ run, m.keyword? = none) (forced : Bool) :
    ∃ front, groupListsBehind forced (run ++ (before ++ n :: rest)) =
        front ++ n :: groupListsBehind n.opensProjection rest ∧
      ∀ m ∈ front, m.keyword? ≠ some k := by
  have hfree : ∀ (forced : Bool) (run : List Node), (∀ m ∈ run, m.keyword? = none) →
      ∀ m ∈ listRun forced run, m.keyword? ≠ some k := by
    intro forced run hrun m hm
    rw [keyword?_of_mem_listRun hrun hm]
    exact (Option.some_ne_none k).symm
  induction before generalizing run forced with
  | nil =>
      refine ⟨listRun forced run, ?_, hfree forced run hrun⟩
      rw [List.nil_append]
      exact groupListsBehind_append hrun (by rw [hn]; rfl) forced rest
  | cons m before ih =>
      have hrest := fun m' hm' => hbefore m' (List.mem_cons_of_mem m hm')
      cases hm : m.keyword? with
      | none =>
          -- The node belongs to the run that is being read.
          have hrun' : ∀ m' ∈ run ++ [m], m'.keyword? = none := by
            intro m' hm'
            rcases List.mem_append.1 hm' with hm' | hm'
            · exact hrun m' hm'
            · rw [List.mem_singleton.1 hm']
              exact hm
          rcases ih hrest hrun' forced with ⟨front, heq, hfront⟩
          rw [List.append_assoc] at heq
          exact ⟨front, heq, hfront⟩
      | some k' =>
          -- The node ends that run, and another begins behind it.
          have hnone : ∀ m' ∈ ([] : List Node), m'.keyword? = none :=
            fun m' hm' => absurd hm' List.not_mem_nil
          rcases ih hrest hnone m.opensProjection with ⟨front, heq, hfront⟩
          rw [List.nil_append] at heq
          refine ⟨listRun forced run ++ m :: front, ?_, ?_⟩
          · rw [List.cons_append, groupListsBehind_append hrun (by rw [hm]; rfl), heq,
              List.append_assoc, List.cons_append]
          · intro m' hm'
            rcases List.mem_append.1 hm' with hm' | hm'
            · exact hfree forced run hrun m' hm'
            · rcases List.mem_cons.1 hm' with rfl | hm'
              · exact hbefore m' List.mem_cons_self
              · exact hfront m' hm'

/-- Whether the node is no keyword, and so part of a run. -/
def isFree (n : Node) : Bool :=
  n.keyword?.isNone

theorem isFree_iff {n : Node} : n.isFree = true ↔ n.keyword? = none :=
  Option.isNone_iff_eq_none

/-- A run stops at the first keyword. -/
theorem takeWhile_run {run rest : List Node} (hrun : ∀ m ∈ run, m.keyword? = none)
    (hrest : ∀ m, rest.head? = some m → m.keyword? ≠ none) :
    (run ++ rest).takeWhile isFree = run := by
  rw [List.takeWhile_append_of_pos fun m hm => isFree_iff.2 (hrun m hm)]
  cases rest with
  | nil => exact List.append_nil run
  | cons m rest =>
      rw [List.takeWhile_cons_of_neg fun h => hrest m rfl (isFree_iff.1 h), List.append_nil]

/-- What stands in front of the first keyword is listed by itself. -/
theorem exists_run_of_groupListsBehind {forced : Bool} {ns body rest : List Node}
    (h : groupListsBehind forced ns = body ++ rest) (hbody : ∀ m ∈ body, m.keyword? = none)
    (hrest : ∀ m, rest.head? = some m → m.keyword? ≠ none) :
    ∃ run, body = listRun forced run ∧ run <+: ns ∧ ∀ m ∈ run, m.keyword? = none := by
  have hrun : ∀ m ∈ ns.takeWhile isFree, m.keyword? = none := by
    intro m hm
    have hm := List.mem_takeWhile_imp hm
    exact isFree_iff.1 hm
  have hlists : ∃ behind,
      groupListsBehind forced ns = listRun forced (ns.takeWhile isFree) ++ behind ∧
        ∀ m, behind.head? = some m → m.keyword? ≠ none := by
    have hns := List.takeWhile_append_dropWhile (l := ns) (p := isFree)
    have hhead := List.head?_dropWhile_not isFree ns
    cases hdrop : ns.dropWhile isFree with
    | nil =>
        rw [hdrop, List.append_nil] at hns
        rw [hns] at hrun ⊢
        rw [groupListsBehind_of_no_keyword hrun]
        exact ⟨[], (List.append_nil _).symm, fun m hm => absurd hm.symm (Option.some_ne_none m)⟩
    | cons n behind =>
        rw [hdrop] at hns hhead
        have hn : n.keyword? ≠ none :=
          fun h => Bool.false_ne_true (hhead.symm.trans (isFree_iff.2 h))
        conv => enter [1, behind, 1, 1]; rw [← hns]
        refine ⟨_, groupListsBehind_append hrun (Option.isSome_iff_ne_none.2 hn) forced behind, ?_⟩
        intro m hm
        rw [List.head?_cons, Option.some.injEq] at hm
        rwa [← hm]
  rcases hlists with ⟨behind, hlists, hbehind⟩
  -- Both ways of reading the level stop at its first keyword.
  refine ⟨ns.takeWhile isFree, ?_, List.takeWhile_prefix _, hrun⟩
  rw [← takeWhile_run hbody hrest, ← h, hlists]
  exact takeWhile_run (fun m hm => keyword?_of_mem_listRun hrun hm) hbehind

end Node

/-- Nesting makes leaves and parentheses. -/
theorem not_list_of_mem_outerNodes {afterValues : Bool} {items : List Nested} {n : Node}
    (h : n ∈ Nested.outerNodes afterValues items) : n.isGroup .nameList = false := by
  induction items generalizing afterValues with
  | nil => exact absurd h List.not_mem_nil
  | cons item items ih =>
      rw [Nested.outerNodes] at h
      rcases List.mem_cons.1 h with rfl | h
      · cases item with
        | token t => rfl
        | parens opening inner closing => rfl
      · exact ih h

/-- Before runs are listed there are no lists. -/
theorem not_list_of_mem_levelNodes {items : List Nested} {n : Node} (h : n ∈ levelNodes items) :
    n.isGroup .nameList = false := by
  -- Each pass adds groups of its own shape alone.
  rcases Node.mem_groupComparisons h with h | ⟨left, gap, operator, gap', right, rfl, -⟩
  · rcases Node.mem_groupNames h with ⟨h, -⟩ | ⟨name, -, -, rfl⟩
    · split at h
      · exact not_list_of_mem_outerNodes h
      · rcases Node.mem_groupCalls h with h | ⟨name, p, -, -, -, -, rfl⟩
        · exact not_list_of_mem_outerNodes h
        · rfl
    · rfl
  · rfl

/-- Behind the first keyword of a kind, a statement whose runs are listed has the
    lists of what stood behind that keyword before. -/
theorem exists_behind_of_ungroupedNodes {items : List Nested} {k : Keyword} {opening : Node}
    {front behind : List Node} (h : ungroupedNodes items = front ++ opening :: behind)
    (hfront : ∀ n ∈ front, n.keyword? ≠ some k) (hopening : opening.keyword? = some k) :
    ∃ rest, Node.groupListsBehind opening.opensProjection rest = behind ∧
      opening :: rest <:+ levelNodes items := by
  -- Listing makes no keywords, so the keyword was there before.
  have hmem : opening ∈ levelNodes items := by
    have hmem : opening ∈ ungroupedNodes items := by
      rw [h]
      exact List.mem_append_right _ List.mem_cons_self
    rcases Node.mem_groupLists hmem with hmem | ⟨items, rfl, -⟩
    · exact hmem
    · exact absurd hopening.symm (Option.some_ne_none k)
  rcases exists_first ⟨opening, hmem, hopening⟩ with ⟨before, n, rest, hlevel, hbefore, hn⟩
  have hlists : ∃ front, ungroupedNodes items =
      front ++ n :: Node.groupListsBehind n.opensProjection rest ∧
        ∀ m ∈ front, m.keyword? ≠ some k := by
    rw [ungroupedNodes, Node.groupLists_eq, hlevel]
    exact Node.exists_groupListsBehind hn hbefore
      (fun m (hm : m ∈ []) => absurd hm List.not_mem_nil) false
  rcases hlists with ⟨front', hlists, hfront'⟩
  -- Both ways of cutting the level cut it at the same place.
  have hcut := congrArg (List.dropWhile fun m => m.keyword? != some k) (h.symm.trans hlists)
  rw [dropWhile_first hfront hopening, dropWhile_first hfront' hn, List.cons.injEq] at hcut
  rcases hcut with ⟨rfl, rfl⟩
  refine ⟨rest, rfl, ?_⟩
  rw [hlevel]
  exact List.suffix_append _ _

/-- The clause behind the last keyword of a statement: the list of a run that
    was there before, with at most the group of a condition and blanks behind
    it. -/
structure IsLastClause (children : List Node) (k : Keyword) (front : List Node) (opening : Node)
    (run tail : List Node) : Prop where
  eq_append : children = front ++ opening :: (Node.listRun false run ++ tail)
  first : ∀ n ∈ front, n.keyword? ≠ some k
  opens : opening.keyword? = some k
  unlisted : ∀ n ∈ run, n.isGroup .nameList = false
  unclaused : ∀ n ∈ run, n.isGroup .whereClause = false
  tail_eq : tail = [] ∨ ∃ condition blanks, tail = .group .whereClause condition :: blanks ∧
    ∀ n ∈ blanks, n.isWhitespace = true

/-- What grouping the condition leaves of a level whose keywords do not end one:
    all of it in front of the condition, and blanks behind. -/
theorem exists_front_of_groupWhere {ns : List Node}
    (hends : ∀ n ∈ Node.groupWhere ns, n.endsCondition = false) :
    ∃ front behind tail, ns = front ++ behind ∧ Node.groupWhere ns = front ++ tail ∧
      (∀ n, behind.head? = some n → n.keyword? ≠ none) ∧
      (tail = [] ∨ ∃ condition blanks, tail = .group .whereClause condition :: blanks ∧
        ∀ n ∈ blanks, n.isWhitespace = true) := by
  rcases Node.groupWhere_cases ns with ⟨-, heq⟩ | ⟨before, clause, condition, after, hsplit, heq⟩
  · refine ⟨ns, [], [], (List.append_nil _).symm, by rw [heq, List.append_nil], ?_, Or.inl rfl⟩
    exact fun n hn => absurd hn.symm (Option.some_ne_none n)
  · refine ⟨before, clause :: (condition ++ after), _, hsplit.eq_append, heq, ?_,
      Or.inr ⟨_, after, rfl, ?_⟩⟩
    · intro n hn
      rw [List.head?_cons, Option.some.injEq] at hn
      rw [← hn, hsplit.opens]
      exact Option.some_ne_none _
    · -- What stands behind the blanks would be a keyword that ends the condition.
      rcases hsplit.ends with ⟨blanks, rest, rfl, hblanks, hrest⟩
      cases rest with
      | nil => rwa [List.append_nil]
      | cons n rest =>
          have hn : n ∈ Node.groupWhere ns := by
            rw [heq]
            exact List.mem_append_right _ (List.mem_cons_of_mem _
              (List.mem_append_right _ List.mem_cons_self))
          exact absurd ((hends n hn).symm.trans (hrest n rfl)) Bool.false_ne_true

/-- A level whose keywords end with one that is new is cut there: neither that
    keyword in front nor any keyword behind. -/
theorem exists_cut_of_keywords {ns : List Node} {ks : List Keyword} {k : Keyword}
    (hkeywords : ns.filterMap Node.keyword? = ks ++ [k]) (hnew : k ∉ ks) :
    ∃ front opening body, ns = front ++ opening :: body ∧
      (∀ n ∈ front, n.keyword? ≠ some k) ∧ opening.keyword? = some k ∧
      ∀ n ∈ body, n.keyword? = none := by
  rcases List.filterMap_eq_append_iff.1 hkeywords with ⟨first, last, rfl, hfirst, hlast⟩
  rcases List.filterMap_eq_cons_iff.1 hlast with ⟨gap, opening, body, rfl, hgap, hopens, hbody⟩
  refine ⟨first ++ gap, opening, body, (List.append_assoc _ _ _).symm, ?_, hopens,
    List.filterMap_eq_nil_iff.1 hbody⟩
  intro n hn hk
  rcases List.mem_append.1 hn with hn | hn
  · exact hnew (hfirst ▸ List.mem_filterMap.2 ⟨n, hn, hk⟩)
  · exact Option.some_ne_none k (hk.symm.trans (hgap n hn))

theorem not_endsCondition_of_keywords {ns : List Node}
    (h : ∀ k ∈ ns.filterMap Node.keyword?, k ∉ Node.conditionEnds) :
    ∀ n ∈ ns, n.endsCondition = false := by
  intro n hn
  cases hk : n.keyword? with
  | none => rw [Node.endsCondition, hk, Option.any_none]
  | some k =>
      rw [Node.endsCondition, hk, Option.any_some, ← Bool.not_eq_true, List.contains_iff_mem]
      exact h k (List.mem_filterMap.2 ⟨n, hn, hk⟩)

/-- All keywords of a statement none of which ends a condition stand in front of
    its condition. That part has been grouped no further, and the next node of
    the level, if there is one, is a keyword. -/
theorem exists_front_of_rootNodes {items : List Nested}
    (hends : ∀ k ∈ (rootNodes items).filterMap Node.keyword?, k ∉ Node.conditionEnds) :
    ∃ front behind tail, ungroupedNodes items = front ++ behind ∧
      rootNodes items = front ++ tail ∧
      front.filterMap Node.keyword? = (rootNodes items).filterMap Node.keyword? ∧
      (∀ n, behind.head? = some n → n.keyword? ≠ none) ∧
      (tail = [] ∨ ∃ condition blanks, tail = .group .whereClause condition :: blanks ∧
        ∀ n ∈ blanks, n.isWhitespace = true) := by
  rw [rootNodes_eq_groupWhere] at hends ⊢
  rcases exists_front_of_groupWhere (not_endsCondition_of_keywords hends) with
    ⟨front, behind, tail, hns, heq, hbehind, htail⟩
  have hnone : tail.filterMap Node.keyword? = [] := by
    rcases htail with rfl | ⟨condition, blanks, rfl, hblanks⟩
    · rfl
    · refine List.filterMap_eq_nil_iff.2 fun n hn => ?_
      rcases List.mem_cons.1 hn with rfl | hn
      · rfl
      · exact Node.keyword?_of_isWhitespace (hblanks n hn)
  refine ⟨front, behind, tail, hns, heq, ?_, hbehind, htail⟩
  rw [heq, List.filterMap_append, hnone, List.append_nil]

/-- What stands behind a keyword of a level, up to the next one, is the list of a
    run that stood behind it before. -/
theorem exists_run_of_ungroupedNodes {items : List Nested} {k : Keyword} {opening : Node}
    {front body rest : List Node}
    (h : ungroupedNodes items = front ++ opening :: (body ++ rest))
    (hfront : ∀ n ∈ front, n.keyword? ≠ some k) (hopens : opening.keyword? = some k)
    (hbody : ∀ n ∈ body, n.keyword? = none) (hrest : ∀ n, rest.head? = some n → n.keyword? ≠ none) :
    ∃ run, body = Node.listRun opening.opensProjection run ∧
      opening :: run <:+: levelNodes items ∧ ∀ n ∈ run, n.keyword? = none := by
  rcases exists_behind_of_ungroupedNodes h hfront hopens with ⟨behind, hbehind, hsuffix⟩
  rcases Node.exists_run_of_groupListsBehind hbehind hbody hrest with
    ⟨run, heq, hrun, hfree⟩
  exact ⟨run, heq, (List.cons_prefix_cons.2 ⟨rfl, hrun⟩).isInfix.trans hsuffix.isInfix, hfree⟩

theorem opensProjection_eq_false {n : Node} {k : Keyword} (h : n.keyword? = some k)
    (hselect : k ≠ .select ∧ k ≠ .distinct) : n.opensProjection = false := by
  rw [Node.opensProjection, h]
  simp only [Option.some.injEq, hselect.1, hselect.2, decide_false, Bool.or_self]

/-- A statement has a clause behind its last keyword, if that keyword stands
    there once and lists nothing by itself, and none of the keywords ends a
    condition. The clause was a stretch of the level before it was listed. -/
theorem exists_lastClause {items : List Nested} (h : ∀ item ∈ items, item.Matched)
    {ks : List Keyword} {k : Keyword}
    (hkeywords : (rootNodes items).filterMap Node.keyword? = ks ++ [k]) (hnew : k ∉ ks)
    (hends : ∀ k' ∈ ks ++ [k], k' ∉ Node.conditionEnds) (hselect : k ≠ .select ∧ k ≠ .distinct) :
    ∃ front opening run tail, IsLastClause (rootNodes items) k front opening run tail ∧
      opening :: run <:+: levelNodes items := by
  rw [← hkeywords] at hends
  rcases exists_front_of_rootNodes hends with
    ⟨level, behind, tail, hns, heq, hlevel, hbehind, htail⟩
  rcases exists_cut_of_keywords (hlevel.trans hkeywords) hnew with
    ⟨front, opening, body, rfl, hfront, hopens, hbody⟩
  rw [List.append_assoc, List.cons_append] at hns heq
  rcases exists_run_of_ungroupedNodes hns hfront hopens hbody hbehind with
    ⟨run, rfl, hclause, -⟩
  have hmem : ∀ m ∈ run, m ∈ levelNodes items :=
    fun m hm => hclause.subset (List.mem_cons_of_mem _ hm)
  refine ⟨front, opening, run, tail, ⟨?_, hfront, hopens,
    fun m hm => not_list_of_mem_levelNodes (hmem m hm),
    fun m hm => decide_eq_false (tidy_levelNodes h m (hmem m hm)).shape?_ne, htail⟩, hclause⟩
  rw [heq, opensProjection_eq_false hopens hselect]

end SqlGist
