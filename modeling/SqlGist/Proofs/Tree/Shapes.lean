import SqlGist.Proofs.Filter.Reading
import SqlGist.Proofs.Tree.Keywords
import SqlGist.Proofs.Tree.Lossless

/-!
# The Shapes of Built Trees

The roles of leaves and the reading of filters take for granted what a group
holds: one name, a name and its arguments, two operands and an operator. None of
them looks twice. The grammar of built trees is said here as they rely on it, by
two rules on every group at any depth: what its children are in order, and which
of them may stand in it at all.

A node at any depth is tidy, or stands in a tidy group, or is the group of the
condition, so both rules are read off `Tidy` one case at a time. Counting needs
no more of the tree than the second rule: if each mark is a child of a
parenthesis, and each parenthesis has one of them, there are as many of one as
of the other.

## Main definitions

* `Shape.Allows`: What the children of a group are.
* `Node.StandsIn`: Which group a node may stand in.
* `Node.WellShaped`: Both rules hold at and below a node.
* `Group.Grammatical`: The grammar of a whole tree.

## Theorems

* `Tidy.wellShaped`: Both rules are part of the grammar of nodes.
* `collect_ne_malformed`: Well-shaped nodes hold no malformed comparison.
* `countP_tokens`: Marks are counted by the groups that own them.
* `ofText_grammatical`: Every built tree obeys the grammar.
-/

namespace SqlGist

/-- What the children of a group are, one after the other. -/
def Shape.Allows : Shape → List Node → Prop
  | .statement, _ => True
  | .nameRef, ns => ∃ name : Token, ns = [.leaf name] ∧ name.isName = true
  | .nameList, ns => ns ≠ [] ∧ Node.Trimmed ns
  | .parenthesis, ns => ∃ opening inner closing,
      ns = .leaf opening :: (inner ++ [.leaf closing]) ∧ opening.isMark "(" = true ∧
        closing.isMark ")" = true ∧ ∀ m ∈ inner, m.isMark "(" = false ∧ m.isMark ")" = false
  | .functionCall, ns => ∃ name arguments,
      ns = [.group .nameRef name, .group .parenthesis arguments]
  | .comparison, ns => ∃ left gap operator gap' right,
      ns = left :: (gap ++ operator :: (gap' ++ [right])) ∧ left.isOperand = true ∧
        (∀ m ∈ gap, m.isWhitespace = true) ∧ operator.isComparisonOperator = true ∧
        (∀ m ∈ gap', m.isWhitespace = true) ∧ right.isOperand = true
  | .whereClause, ns => ∃ clause condition,
      ns = clause :: condition ∧ clause.keyword? = some .whereKw ∧
        (∀ m ∈ condition, m.endsCondition = false) ∧
        ∀ m, ns.getLast? = some m → m.isWhitespace = false

namespace Node

/-- The node may stand in a group of this shape. A statement stands in none, a
    condition in a statement, a bare name in the group of a name, and the marks
    of a parenthesis in its group. -/
structure StandsIn (n : Node) (shape : Shape) : Prop where
  statement : n.isGroup .statement = false
  clause : n.isGroup .whereClause = true → shape = .statement
  name : n.isName = true → shape = .nameRef
  opening : n.isMark "(" = true → shape = .parenthesis
  closing : n.isMark ")" = true → shape = .parenthesis

/-- Every group at or below the node holds what its shape allows, and nothing
    that may not stand in it. -/
def WellShaped (n : Node) : Prop :=
  ∀ shape children, .group shape children ∈ n.subnodes →
    shape.Allows children ∧ ∀ m ∈ children, m.StandsIn shape

theorem mem_subnodesOf {n : Node} {ns : List Node} :
    n ∈ subnodesOf ns ↔ ∃ m ∈ ns, n ∈ m.subnodes := by
  induction ns with
  | nil => simp only [subnodesOf, List.not_mem_nil, false_and, exists_false]
  | cons m ns ih =>
      simp only [subnodesOf, List.mem_append, ih, List.mem_cons, exists_eq_or_imp]

theorem wellShaped_leaf (t : Token) : (Node.leaf t).WellShaped := by
  intro shape children h
  rw [subnodes, List.mem_singleton] at h
  exact absurd h (by simp only [reduceCtorEq, not_false_eq_true])

theorem wellShaped_group {shape : Shape} {children : List Node} (hallows : shape.Allows children)
    (hstands : ∀ m ∈ children, m.StandsIn shape) (hbelow : ∀ m ∈ children, m.WellShaped) :
    (Node.group shape children).WellShaped := by
  intro shape' children' h
  rw [subnodes] at h
  rcases List.mem_cons.1 h with h | h
  · rw [Node.group.injEq] at h
    rw [h.1, h.2]
    exact ⟨hallows, hstands⟩
  · rcases mem_subnodesOf.1 h with ⟨m, hm, h⟩
    exact hbelow m hm shape' children' h

theorem WellShaped.of_mem {shape : Shape} {children : List Node}
    (h : (Node.group shape children).WellShaped) {m : Node} (hm : m ∈ children) :
    m.WellShaped := by
  intro shape' children' hmem
  refine h shape' children' ?_
  rw [subnodes]
  exact List.mem_cons_of_mem _ (mem_subnodesOf.2 ⟨m, hm, hmem⟩)

theorem WellShaped.here {shape : Shape} {children : List Node}
    (h : (Node.group shape children).WellShaped) :
    shape.Allows children ∧ ∀ m ∈ children, m.StandsIn shape := by
  refine h shape children ?_
  rw [subnodes]
  exact List.mem_cons_self

theorem isName_of_isMark {n : Node} {mark : String} (h : n.isMark mark = true) :
    n.isName = false := by
  cases n with
  | leaf t =>
      simp only [isMark, leaf?, Option.any_some, Token.isMark, Bool.and_eq_true,
        decide_eq_true_eq] at h
      simp only [isName, leaf?, Option.any_some, Token.isName, h.1, reduceCtorEq, decide_false]
  | group => rfl

theorem isWhitespace_of_isMark {n : Node} {mark : String} (h : n.isMark mark = true) :
    n.isWhitespace = false := by
  cases n with
  | leaf t =>
      have hmark : t.isMark mark = true := h
      rw [Token.isMark, Bool.and_eq_true, decide_eq_true_eq] at hmark
      simp only [isWhitespace, leaf?, Option.any_some, Token.isWhitespace, hmark.1, reduceCtorEq,
        decide_false]
  | group => rfl

/-- A leaf that no rule keeps out of anything stands anywhere. -/
theorem standsIn_leaf {t : Token} {shape : Shape} (hname : t.isName = true → shape = .nameRef)
    (hopen : t.isMark "(" = true → shape = .parenthesis)
    (hclose : t.isMark ")" = true → shape = .parenthesis) : (Node.leaf t).StandsIn shape :=
  ⟨rfl, fun h => absurd h Bool.false_ne_true, hname, hopen, hclose⟩

theorem standsIn_name {t : Token} (h : t.isName = true) : (Node.leaf t).StandsIn .nameRef := by
  have hmark : ∀ mark, (Node.leaf t).isMark mark = true → Shape.nameRef = .parenthesis := by
    intro mark hmark
    exact absurd ((isName_of_isMark hmark).symm.trans h) Bool.false_ne_true
  exact standsIn_leaf (fun _ => rfl) (hmark "(") (hmark ")")

theorem standsIn_mark {t : Token} {mark : String} (h : t.isMark mark = true) :
    (Node.leaf t).StandsIn .parenthesis := by
  refine standsIn_leaf (fun hname => ?_) (fun _ => rfl) fun _ => rfl
  exact absurd ((isName_of_isMark (n := .leaf t) h).symm.trans hname) Bool.false_ne_true

/-- A group of a part of a statement stands anywhere. -/
theorem standsIn_group {shape : Shape} (hstatement : shape ≠ .statement)
    (hclause : shape ≠ .whereClause) (children : List Node) (around : Shape) :
    (Node.group shape children).StandsIn around where
  statement := decide_eq_false fun h => hstatement (Option.some.inj h)
  clause h := absurd (Option.some.inj (of_decide_eq_true h)) hclause
  name h := absurd h Bool.false_ne_true
  opening h := absurd h Bool.false_ne_true
  closing h := absurd h Bool.false_ne_true

theorem Tidy.standsIn {n : Node} (h : n.Tidy) (shape : Shape) : n.StandsIn shape := by
  cases h with
  | leaf hname hopen hclose =>
      exact standsIn_leaf (fun h => absurd (hname.symm.trans h) Bool.false_ne_true)
        (fun h => absurd (hopen.symm.trans h) Bool.false_ne_true)
        fun h => absurd (hclose.symm.trans h) Bool.false_ne_true
  | name => exact standsIn_group Shape.noConfusion Shape.noConfusion _ _
  | call => exact standsIn_group Shape.noConfusion Shape.noConfusion _ _
  | comparison => exact standsIn_group Shape.noConfusion Shape.noConfusion _ _
  | list => exact standsIn_group Shape.noConfusion Shape.noConfusion _ _
  | parens => exact standsIn_group Shape.noConfusion Shape.noConfusion _ _

theorem Tidy.isMark {n : Node} (h : n.Tidy) : n.isMark "(" = false ∧ n.isMark ")" = false := by
  cases h with
  | leaf _ hopen hclose => exact ⟨hopen, hclose⟩
  | name => exact ⟨rfl, rfl⟩
  | call => exact ⟨rfl, rfl⟩
  | comparison => exact ⟨rfl, rfl⟩
  | list => exact ⟨rfl, rfl⟩
  | parens => exact ⟨rfl, rfl⟩

theorem wellShaped_nameRef {t : Token} (h : t.isName = true) :
    (nameRef (.leaf t)).WellShaped := by
  refine wellShaped_group ⟨t, rfl, h⟩ ?_ ?_
  · intro m hm
    rw [List.mem_singleton.1 hm]
    exact standsIn_name h
  · intro m hm
    rw [List.mem_singleton.1 hm]
    exact wellShaped_leaf t

theorem Tidy.wellShaped {n : Node} (h : n.Tidy) : n.WellShaped := by
  induction h with
  | leaf => exact wellShaped_leaf _
  | name hname => exact wellShaped_nameRef hname
  | @call t p hname hshape hp ih =>
      have hargs : ∃ arguments, p = .group .parenthesis arguments := by
        cases p with
        | leaf => exact absurd hshape Bool.false_ne_true
        | group shape children =>
            exact ⟨children, by rw [Option.some.inj (of_decide_eq_true hshape)]⟩
      rcases hargs with ⟨arguments, rfl⟩
      refine wellShaped_group ⟨[.leaf t], arguments, rfl⟩ ?_ ?_
      · intro m hm
        rcases List.mem_pair.1 hm with rfl | rfl
        · exact standsIn_group Shape.noConfusion Shape.noConfusion _ _
        · exact hp.standsIn _
      · intro m hm
        rcases List.mem_pair.1 hm with rfl | rfl
        · exact wellShaped_nameRef hname
        · exact ih
  | comparison hleft hgap hoperator hgap' hright hall ih =>
      exact wellShaped_group ⟨_, _, _, _, _, rfl, hleft, hgap, hoperator, hgap', hright⟩
        (fun m hm => (hall m hm).standsIn _) ih
  | list hne htrim hall ih =>
      exact wellShaped_group ⟨hne, htrim⟩ (fun m hm => (hall m hm).standsIn _) ih
  | @parens opening closing inner hopen hclose hall ih =>
      refine wellShaped_group
        ⟨opening, inner, closing, rfl, hopen, hclose, fun m hm => (hall m hm).isMark⟩ ?_ ?_
      · intro m hm
        rcases List.mem_cons.1 hm with rfl | hm
        · exact standsIn_mark hopen
        · rcases List.mem_append.1 hm with hm | hm
          · exact (hall m hm).standsIn _
          · rw [List.mem_singleton.1 hm]
            exact standsIn_mark hclose
      · intro m hm
        rcases List.mem_cons.1 hm with rfl | hm
        · exact wellShaped_leaf _
        · rcases List.mem_append.1 hm with hm | hm
          · exact ih m hm
          · rw [List.mem_singleton.1 hm]
            exact wellShaped_leaf _

theorem IsClause.wellShaped {ns : List Node} {n : Node} (hn : IsClause ns n)
    (h : ∀ m ∈ ns, m.Tidy) : n.WellShaped := by
  rcases hn with ⟨clause, condition, rfl, hclause, hmem, hends, hlast⟩
  refine wellShaped_group ⟨clause, condition, rfl, hclause, hends, ?_⟩
    (fun m hm => (h m (hmem m hm)).standsIn _) fun m hm => (h m (hmem m hm)).wellShaped
  intro m hm
  -- A clause of the keyword alone ends with it, and a keyword is no blank.
  cases condition with
  | nil =>
      rw [List.getLast?_singleton, Option.some.injEq] at hm
      rw [← hm]
      refine Bool.eq_false_iff.2 fun hblank => ?_
      rw [keyword?_of_isWhitespace hblank] at hclause
      exact Option.some_ne_none _ hclause.symm
  | cons _ _ => exact hlast m (by rwa [List.getLast?_cons_cons] at hm)

/-- A node that is one mark is no other. -/
theorem isMark_of_ne {n : Node} {mark other : String} (h : n.isMark mark = true)
    (hne : mark ≠ other) : n.isMark other = false := by
  cases n with
  | leaf t =>
      simp only [isMark, leaf?, Option.any_some, Token.isMark, Bool.and_eq_true,
        decide_eq_true_eq] at h
      simp only [isMark, leaf?, Option.any_some, Token.isMark, h.2, hne, decide_false,
        Bool.and_false]
  | group => rfl

/-- A group holds each mark of a parenthesis once if it is one, and not at all
    otherwise. -/
theorem WellShaped.countP_mark {shape : Shape} {children : List Node}
    (h : (Node.group shape children).WellShaped) {mark : String} (hmark : mark ∈ ["(", ")"]) :
    children.countP (fun m => m.isMark mark) = if shape = .parenthesis then 1 else 0 := by
  rcases h.here with ⟨hallows, hstands⟩
  split
  · rename_i hshape
    rw [hshape] at hallows
    rcases hallows with ⟨opening, inner, closing, rfl, hopen, hclose, hinner⟩
    have hopen : (Node.leaf opening).isMark "(" = true := hopen
    have hclose : (Node.leaf closing).isMark ")" = true := hclose
    have hnone : inner.countP (fun m => m.isMark mark) = 0 := by
      refine List.countP_eq_zero.2 fun m hm => Bool.eq_false_iff.1 ?_
      rcases List.mem_pair.1 hmark with rfl | rfl
      · exact (hinner m hm).1
      · exact (hinner m hm).2
    rw [List.countP_cons, List.countP_append, hnone, List.countP_singleton]
    rcases List.mem_pair.1 hmark with rfl | rfl
    · rw [hopen, isMark_of_ne hclose (by decide)]
      rfl
    · rw [hclose, isMark_of_ne hopen (by decide)]
      rfl
  · rename_i hshape
    refine List.countP_eq_zero.2 fun m hm hm' => hshape ?_
    rcases List.mem_pair.1 hmark with rfl | rfl
    · exact (hstands m hm).opening hm'
    · exact (hstands m hm).closing hm'

mutual

/-- Each mark of a parenthesis at or below a node belongs to one parenthesis, and
    each parenthesis has one such mark. -/
theorem countP_tokens {mark : String} (hmark : mark ∈ ["(", ")"]) : (n : Node) → n.WellShaped →
    n.tokens.countP (fun t => t.isMark mark) =
      n.subnodes.countP (fun m => m.isGroup .parenthesis) + if n.isMark mark then 1 else 0
  | .leaf t, _ => by
      rw [tokens, subnodes, List.countP_singleton, List.countP_singleton]
      exact (Nat.zero_add _).symm
  | .group shape children, h => by
      have hbelow := countP_tokensOf hmark children fun m hm => h.of_mem hm
      have hself : (Node.group shape children).isMark mark = false := rfl
      rw [tokens, subnodes, hbelow, h.countP_mark hmark, List.countP_cons, hself, Nat.add_assoc]
      simp only [isGroup, shape?, Option.some.injEq, decide_eq_true_eq, Bool.false_eq_true,
        if_false, Nat.add_zero]

theorem countP_tokensOf {mark : String} (hmark : mark ∈ ["(", ")"]) : (ns : List Node) →
    (∀ n ∈ ns, n.WellShaped) →
    (tokensOf ns).countP (fun t => t.isMark mark) =
      (subnodesOf ns).countP (fun m => m.isGroup .parenthesis) +
        ns.countP fun m => m.isMark mark
  | [], _ => rfl
  | n :: ns, h => by
      rw [tokensOf, subnodesOf, List.countP_append, List.countP_append, List.countP_cons,
        countP_tokens hmark n (h n List.mem_cons_self),
        countP_tokensOf hmark ns fun m hm => h m (List.mem_cons_of_mem _ hm)]
      omega

end

mutual

theorem filterItems_ne_malformed (x : Node) (text : String) : (n : Node) → n.WellShaped →
    filterItems x n ≠ .error (.malformedComparison text)
  | .leaf t, _, h => by simp only [filterItems, Except.error.injEq, reduceCtorEq] at h
  | .group shape children, hn, h => by
      cases shape with
      | comparison =>
          -- The rule of a comparison is what a condition asks for.
          rcases hn.here.1 with
            ⟨left, gap, operator, gap', right, rfl, hleft, hgap, hoperator, hgap', hright⟩
          rw [filterItems, ofParts_comparison hleft hgap hoperator hgap' hright] at h
          simp only [reduceCtorEq] at h
      | parenthesis =>
          rw [filterItems] at h
          split at h
          · simp only [reduceCtorEq] at h
          · rename_i m hm
            rw [Except.error.injEq] at h
            rw [h] at hm
            exact collect_ne_malformed text children (fun m hm => hn.of_mem hm) hm
      | _ => simp only [filterItems, Except.error.injEq, reduceCtorEq] at h

theorem introduced_ne_malformed (x : Node) (text : String) : (ns : List Node) →
    (∀ n ∈ ns, n.WellShaped) → introduced x ns ≠ .error (.malformedComparison text)
  | [], _, h => by simp only [introduced, Except.error.injEq, reduceCtorEq] at h
  | n :: ns, hns, h => by
      rw [introduced] at h
      split at h
      · exact introduced_ne_malformed x text ns (fun m hm => hns m (List.mem_cons_of_mem _ hm)) h
      · exact filterItems_ne_malformed x text n (hns n List.mem_cons_self) h

theorem collect_ne_malformed (text : String) : (ns : List Node) → (∀ n ∈ ns, n.WellShaped) →
    collect ns ≠ .error (.malformedComparison text)
  | [], _, h => by simp only [collect, reduceCtorEq] at h
  | n :: ns, hns, h => by
      have htail : ∀ m ∈ ns, m.WellShaped := fun m hm => hns m (List.mem_cons_of_mem _ hm)
      rw [collect] at h
      split at h
      · exact collect_ne_malformed text ns htail h
      · split at h
        · rename_i m hm
          rw [Except.error.injEq] at h
          rw [h] at hm
          exact introduced_ne_malformed n text ns htail hm
        · split at h
          · rename_i m hm
            rw [Except.error.injEq] at h
            rw [h] at hm
            exact collect_ne_malformed text ns htail hm
          · simp only [reduceCtorEq] at h

end

end Node

/-- The grammar of a whole tree: a statement at the root alone, each group made
    by the rules, at most one condition, and no leaf that stands for the end or
    for an error. -/
structure Group.Grammatical (root : Group) : Prop where
  statement : root.shape = .statement
  shaped : root.toNode.WellShaped
  single : root.children.countP (fun n => n.isGroup .whereClause) ≤ 1
  tokens : ∀ t ∈ root.toNode.tokens, t.kind ≠ .eof ∧ t.error? = none

theorem countP_clause_rootNodes {items : List Nested} (h : ∀ item ∈ items, item.Matched) :
    (rootNodes items).countP (fun n => n.isGroup .whereClause) ≤ 1 := by
  have hnone : ∀ ns : List Node, (∀ n ∈ ns, n ∈ ungroupedNodes items) →
      ns.countP (fun n => n.isGroup .whereClause) = 0 := by
    intro ns hns
    refine List.countP_eq_zero.2 fun n hn hclause => ?_
    exact absurd ((tidy_ungroupedNodes h n (hns n hn)).standsIn .nameRef |>.clause hclause)
      Shape.noConfusion
  rw [rootNodes_eq_groupWhere]
  rcases Node.groupWhere_cases (ungroupedNodes items) with
    ⟨-, heq⟩ | ⟨before, clause, condition, after, hsplit, heq⟩
  · rw [heq, hnone _ fun n hn => hn]
    exact Nat.zero_le 1
  · have hmem := hsplit.eq_append
    rw [heq, List.countP_append, List.countP_cons, hnone before, hnone after]
    · exact Nat.le_refl 1
    · intro n hn
      rw [hmem]
      exact List.mem_append_right _ (List.mem_cons_of_mem _ (List.mem_append_right _ hn))
    · intro n hn
      rw [hmem]
      exact List.mem_append_left _ hn

/-- The tokens of a statement are some of the text, and no end. -/
theorem kind_of_readStatement {sql : String} {statement : List Token}
    (h : readStatement sql = .ok statement) :
    ∀ t ∈ statement, t.kind ≠ .eof ∧ t.error? = none := by
  rcases isFirstStatement_of_readStatement h with ⟨herror, before, after, htokens, hfirst⟩
  rcases tokenize_eq_concat sql with ⟨body, hbody, hall⟩
  rcases hfirst.closes with ⟨mark, rest, rfl, -⟩
  intro t ht
  refine ⟨(hall t ?_).1, herror t ?_⟩
  · -- What follows the statement holds the last token, so the statement is in the body.
    have hdrop := congrArg List.dropLast (htokens.symm.trans hbody)
    rw [List.dropLast_concat, ← List.append_assoc, List.dropLast_append_cons] at hdrop
    rw [← hdrop]
    exact List.mem_append_left _ (List.mem_append_right _ ht)
  · rw [htokens]
    exact List.mem_append_right _ (List.mem_append_left _ ht)

theorem grammatical_of_ofText {sql : String} {root : Group} (h : Group.ofText sql = .ok root) :
    root.Grammatical := by
  rcases ofText_tokens h with ⟨statement, hread, hleaves⟩
  rcases ofText_eq_ok_iff.1 h with ⟨_, items, -, hnest, rfl⟩
  have hmatched := Nested.matched_nest hnest
  have htidy := tidy_ungroupedNodes hmatched
  refine ⟨rfl, ?_, countP_clause_rootNodes hmatched, ?_⟩
  · -- Whatever stands at the root may stand there, the group of the condition included.
    refine Node.wellShaped_group trivial (fun n hn => ?_) fun n hn => ?_
    · rcases mem_rootNodes hmatched hn with hn | ⟨clause, condition, rfl, -⟩
      · exact hn.standsIn _
      · exact ⟨rfl, fun _ => rfl, fun h => absurd h Bool.false_ne_true,
          fun h => absurd h Bool.false_ne_true, fun h => absurd h Bool.false_ne_true⟩
    · rcases mem_rootNodes hmatched hn with hn | hn
      · exact hn.wellShaped
      · exact hn.wellShaped htidy
  · rw [← Group.leaves_tokens, hleaves]
    exact kind_of_readStatement hread

theorem Group.Grammatical.filterOf_ne_malformed {root : Group} (h : root.Grammatical)
    (text : String) : filterOf root ≠ .error (.mismatch (.malformedComparison text)) := by
  intro hfilter
  rw [filterOf] at hfilter
  split at hfilter
  · simp only [reduceCtorEq] at hfilter
  · rename_i clause hfind
    split at hfilter
    · simp only [reduceCtorEq] at hfilter
    · rename_i m hm
      rw [Except.error.injEq, ClassifyError.mismatch.injEq] at hfilter
      rw [hfilter] at hm
      have hclause : (Node.group .whereClause clause.children).WellShaped :=
        h.shaped.of_mem (Group.mem_of_find? hfind)
      exact Node.collect_ne_malformed text clause.children (fun n hn => hclause.of_mem hn) hm

/-- Every built tree obeys the grammar. So no comparison in it is malformed,
    wherever it stands and whoever reads it, and it has as many parentheses as
    the statement has marks that open one, and as many as close one. -/
theorem ofText_grammatical {sql : String} {root : Group} (h : Group.ofText sql = .ok root) :
    root.Grammatical ∧
      (∀ children, .group .comparison children ∈ root.toNode.subnodes →
        ∃ c, Condition.ofParts children = .ok c) ∧
      (∀ text, filterOf root ≠ .error (.mismatch (.malformedComparison text))) ∧
      ∃ statement, readStatement sql = .ok statement ∧
        ∀ mark ∈ ["(", ")"], root.toNode.subnodes.countP (fun n => n.isGroup .parenthesis) =
          statement.countP fun t => t.isMark mark := by
  have hgrammar := grammatical_of_ofText h
  rcases ofText_tokens h with ⟨statement, hread, hleaves⟩
  refine ⟨hgrammar, ?_, hgrammar.filterOf_ne_malformed, statement, hread, ?_⟩
  · intro children hchildren
    rcases (hgrammar.shaped _ _ hchildren).1 with
      ⟨left, gap, operator, gap', right, rfl, hleft, hgap, hoperator, hgap', hright⟩
    exact ⟨_, ofParts_comparison hleft hgap hoperator hgap' hright⟩
  · intro mark hmark
    rw [← hleaves, Group.leaves_tokens, Node.countP_tokens hmark _ hgrammar.shaped]
    exact (Nat.add_zero _).symm

/-- A call, a list of one name, and a condition in parentheses, at three
    depths. -/
theorem ofText_grammatical_nested :
    ∃ root, Group.ofText "SELECT f(x) FROM t WHERE (a = 1 AND (b LIKE 'c'))" = .ok root ∧
      root.Grammatical ∧
      (∀ children, .group .comparison children ∈ root.toNode.subnodes →
        ∃ c, Condition.ofParts children = .ok c) ∧
      (∀ text, filterOf root ≠ .error (.mismatch (.malformedComparison text))) ∧
      ∃ statement,
        readStatement "SELECT f(x) FROM t WHERE (a = 1 AND (b LIKE 'c'))" = .ok statement ∧
        ∀ mark ∈ ["(", ")"], root.toNode.subnodes.countP (fun n => n.isGroup .parenthesis) =
          statement.countP fun t => t.isMark mark := by
  have hok : (Group.ofText "SELECT f(x) FROM t WHERE (a = 1 AND (b LIKE 'c'))").isOk = true := by
    decide +kernel
  cases hroot : Group.ofText "SELECT f(x) FROM t WHERE (a = 1 AND (b LIKE 'c'))" with
  | error e =>
      rw [hroot] at hok
      exact absurd hok Bool.false_ne_true
  | ok root => exact ⟨root, rfl, ofText_grammatical hroot⟩

end SqlGist
