import SqlGist.Proofs.Extraction.Scanning
import SqlGist.Proofs.Tree.Outside
import SqlGist.Proofs.Tree.Shapes

/-!
# The Condition in the Tokens

Where the condition of a statement begins and ends can be told from its tokens
alone. It begins at the first `WHERE` at depth zero and reaches up to the next
keyword there that ends one, without the blanks behind it. The tree has its
group around exactly these tokens.

The group is made last, from a level that has been through every other pass. So
that it agrees with the tokens says that none of these passes has hidden a
keyword, which is what makes a node transparent. The tag of the statement is
read off the same level and is told from the tokens in the same way, up to the
four keywords that a comparison can take.

## Main definitions

* `cutAtKeyword`: Tokens in front of a keyword at depth zero, and from it on.
* `conditionRange`: The tokens in front of a condition, its own, and the others.
* `commandKeywords`: The keywords at depth zero in no condition or comparison.
* `Group.AgreesWith`: A tree agrees with the tokens of a statement.

## Theorems

* `cutAtKeyword_append`, `cutAtKeyword_stop`: Where the tokens are cut.
* `Tidy.endsVisible`: A node that is no blank does not end in one.
* `conditionRange_of_split`: The tokens are cut where the level is.
* `commandKeywords_leavesFrom`: Around the condition the keywords of the level
  are found among its leaves.
* `ofText_agreesWith`: The group of the condition holds its range of tokens, and
  the tag is made of the keywords outside of it.
-/

namespace SqlGist

/-- The tokens in front of the first one at depth zero that is a keyword from
    `ks`, and those from it on, when `depth` parentheses are open before them. -/
def cutAtKeyword (ks : List Keyword) (depth : Nat) : List Token → List Token × List Token
  | [] => ([], [])
  | t :: ts =>
    if depth = 0 && t.keyword?.any ks.contains then ([], t :: ts)
    else
      let parts := cutAtKeyword ks (depthAfter depth t) ts
      (t :: parts.1, parts.2)

/-- The tokens of a statement in three parts: those in front of its first `WHERE`
    at depth zero, those of the condition from there on, and those behind it. A
    keyword at depth zero that sorts, groups or limits ends a condition, and the
    blanks in front of the end are no part of it. -/
def conditionRange (statement : List Token) : List Token × List Token × List Token :=
  let front := cutAtKeyword [.whereKw] 0 statement
  let reach := cutAtKeyword [.order, .group, .having, .limit] 0 front.2
  let condition := cutTrailing Token.isWhitespace reach.1
  (front.1, condition.1, condition.2 ++ reach.2)

/-- The keywords at depth zero that belong neither to the condition nor to a
    comparison, in order. -/
def commandKeywords (ls : List Leaf) : List Keyword :=
  ((outerLeaves 0 ls).filter fun l => !l.inWhere && !l.isCompared).filterMap Leaf.keyword?

section Cutting

variable {ks : List Keyword}

theorem cutAtKeyword_append {depth : Nat} {ts : List Token}
    (h : ∀ k ∈ outerKeywords depth ts, k ∉ ks) (us : List Token) :
    cutAtKeyword ks depth (ts ++ us) =
      (ts ++ (cutAtKeyword ks (depthBehind depth ts) us).1,
        (cutAtKeyword ks (depthBehind depth ts) us).2) := by
  induction ts generalizing depth with
  | nil => rfl
  | cons t ts ih =>
      rw [outerKeywords] at h
      have hpass : (decide (depth = 0) && t.keyword?.any ks.contains) = false := by
        refine Bool.eq_false_iff.2 fun hstop => ?_
        rw [Bool.and_eq_true, decide_eq_true_eq] at hstop
        rcases (Option.any_eq_true _ _).1 hstop.2 with ⟨k, hk, hmem⟩
        refine h k (List.mem_append_left _ ?_) (List.contains_iff_mem.1 hmem)
        rw [if_pos hstop.1, hk]
        exact List.mem_singleton_self k
      rw [List.cons_append, cutAtKeyword, hpass, if_neg Bool.false_ne_true,
        ih fun k hk => h k (List.mem_append_right _ hk), depthBehind_cons]
      rfl

theorem cutAtKeyword_stop {n : Node} {k : Keyword} (hn : n.keyword? = some k) (hk : k ∈ ks)
    (ns : List Node) :
    cutAtKeyword ks 0 (Node.tokensOf (n :: ns)) = ([], Node.tokensOf (n :: ns)) := by
  cases n with
  | leaf t =>
      have ht : t.keyword? = some k := hn
      rw [Node.tokensOf, Node.tokens, List.singleton_append, cutAtKeyword, ht, Option.any_some,
        List.contains_iff_mem.2 hk]
      rfl
  | group => exact absurd hn.symm (Option.some_ne_none k)

/-- Tokens are cut behind the nodes of a level that are not the keywords sought.
    A comparison does not hide one, since none is of its own. -/
theorem cutAtKeyword_tokensOf {ns : List Node} (h : ∀ n ∈ ns, n.Transparent)
    (hks : ∀ k ∈ ks, k ∉ comparisonKeywords)
    (hpass : ∀ n ∈ ns, ∀ k, n.keyword? = some k → k ∉ ks) (us : List Token) :
    cutAtKeyword ks 0 (Node.tokensOf ns ++ us) =
      (Node.tokensOf ns ++ (cutAtKeyword ks 0 us).1, (cutAtKeyword ks 0 us).2) := by
  have hfree : ∀ k ∈ outerKeywords 0 (Node.tokensOf ns), k ∉ ks := by
    intro k hk hmem
    rw [← Node.leavesFrom_tokens ⟨.statement, ns⟩ [] 0] at hk
    rcases mem_of_outerKeywords hk with hk | hk
    · exact hks k hmem hk
    · rw [Node.uncomparedKeywords_leavesFrom Shape.noConfusion h] at hk
      rcases List.mem_filterMap.1 hk with ⟨n, hn, hk⟩
      exact hpass n hn k hk hmem
  rw [cutAtKeyword_append hfree, Node.depthBehind_tokensOf fun n hn => (h n hn).tidy.depthBehind]

/-- Tokens are cut at the first node of a level that is a keyword sought. -/
theorem cutAtKeyword_first {ns : List Node} (h : ∀ n ∈ ns, n.Transparent)
    (hks : ∀ k ∈ ks, k ∉ comparisonKeywords)
    (hpass : ∀ n ∈ ns, ∀ k, n.keyword? = some k → k ∉ ks) {n : Node} {k : Keyword}
    (hn : n.keyword? = some k) (hk : k ∈ ks) (rest : List Node) :
    cutAtKeyword ks 0 (Node.tokensOf (ns ++ n :: rest)) =
      (Node.tokensOf ns, Node.tokensOf (n :: rest)) := by
  rw [Node.tokensOf_append, cutAtKeyword_tokensOf h hks hpass, cutAtKeyword_stop hn hk,
    List.append_nil]

end Cutting

/-- The list of tokens holds one, and its last one is no blank. -/
def EndsVisible (ts : List Token) : Prop :=
  ∃ front t, ts = front ++ [t] ∧ t.isWhitespace = false

namespace Node

theorem endsVisible_tokensOf {n : Node} (h : EndsVisible n.tokens) (ns : List Node) :
    EndsVisible (tokensOf (ns ++ [n])) := by
  rcases h with ⟨front, t, heq, ht⟩
  refine ⟨tokensOf ns ++ front, t, ?_, ht⟩
  rw [tokensOf_append, tokensOf, tokensOf, heq, List.append_nil, List.append_assoc]

theorem endsVisible_of_getLast {ns : List Node} (hne : ns ≠ [])
    (h : ∀ n ∈ ns, n.isWhitespace = false → EndsVisible n.tokens)
    (hlast : ∀ n, ns.getLast? = some n → n.isWhitespace = false) : EndsVisible (tokensOf ns) := by
  rcases (List.eq_nil_or_concat ns).resolve_left hne with ⟨front, last, heq⟩
  rw [List.concat_eq_append] at heq
  subst heq
  refine endsVisible_tokensOf (h last ?_ (hlast last List.getLast?_concat)) front
  exact List.mem_append_right _ List.mem_cons_self

/-- A tidy node that is no blank does not end in one. -/
theorem Tidy.endsVisible {n : Node} (h : n.Tidy) (hvisible : n.isWhitespace = false) :
    EndsVisible n.tokens := by
  induction h with
  | @leaf t => exact ⟨[], t, rfl, hvisible⟩
  | @name t hname =>
      refine ⟨[], t, rfl, Bool.eq_false_iff.2 fun hblank => ?_⟩
      exact Bool.false_ne_true ((isName_of_isWhitespace (n := .leaf t) hblank).symm.trans hname)
  | @call t p _ hshape _ ih =>
      refine endsVisible_tokensOf (n := p) (ih ?_) [nameRef (.leaf t)]
      cases p with
      | leaf => exact absurd hshape Bool.false_ne_true
      | group => rfl
  | @comparison left operator right gap gap' _ _ _ _ hright _ ih =>
      have hmem : right ∈ left :: (gap ++ operator :: (gap' ++ [right])) := by
        simp only [List.mem_cons, List.mem_append, true_or, or_true]
      have hlast := endsVisible_tokensOf (ih right hmem (isWhitespace_of_isOperand hright))
        (left :: (gap ++ operator :: gap'))
      rwa [List.cons_append, List.append_assoc, List.cons_append] at hlast
  | list hne htrim _ ih => exact endsVisible_of_getLast hne ih htrim.2
  | @parens opening closing inner _ hclose _ _ =>
      have hvisible := isWhitespace_of_isMark (n := .leaf closing) hclose
      exact endsVisible_tokensOf ⟨[], closing, rfl, hvisible⟩ (.leaf opening :: inner)

/-- Blanks behind nodes that do not end in one are cut off. -/
theorem cutTrailing_tokensOf {ns blanks : List Node} (h : EndsVisible (tokensOf ns))
    (hblanks : ∀ n ∈ blanks, n.isWhitespace = true) :
    cutTrailing Token.isWhitespace (tokensOf (ns ++ blanks)) = (tokensOf ns, tokensOf blanks) := by
  rw [tokensOf_append]
  refine cutTrailing_append_of_forall (fun x hx => ?_) (isWhitespace_of_mem_tokensOf hblanks)
  rcases h with ⟨front, t, heq, ht⟩
  rw [heq, List.getLast?_concat, Option.some.injEq] at hx
  rw [← hx]
  exact ht

end Node

theorem cutAtKeyword_where {ns : List Node} (h : ∀ n ∈ ns, n.Transparent)
    (hwhere : ∀ n ∈ ns, n.keyword? ≠ some .whereKw) (us : List Token) :
    cutAtKeyword [.whereKw] 0 (Node.tokensOf ns ++ us) =
      (Node.tokensOf ns ++ (cutAtKeyword [.whereKw] 0 us).1,
        (cutAtKeyword [.whereKw] 0 us).2) := by
  refine cutAtKeyword_tokensOf h (by decide) (fun n hn k hk hmem => ?_) us
  rw [List.mem_singleton.1 hmem] at hk
  exact hwhere n hn hk

theorem conditionRange_of_no_where {ns : List Node} (h : ∀ n ∈ ns, n.Transparent)
    (hwhere : ∀ n ∈ ns, n.keyword? ≠ some .whereKw) :
    conditionRange (Node.tokensOf ns) = (Node.tokensOf ns, [], []) := by
  have hfront := cutAtKeyword_where h hwhere []
  rw [List.append_nil] at hfront
  simp only [conditionRange, hfront, cutAtKeyword, cutTrailing, List.append_nil]

/-- A condition reaches up to a keyword that ends one. -/
theorem cutAtKeyword_conditionEnds {ns rest : List Node}
    (h : ∀ n ∈ ns, n.Transparent) (hinside : ∀ n ∈ ns, n.endsCondition = false)
    (hrest : ∀ n, rest.head? = some n → n.endsCondition = true) :
    cutAtKeyword Node.conditionEnds 0 (Node.tokensOf ns ++ Node.tokensOf rest) =
      (Node.tokensOf ns, Node.tokensOf rest) := by
  have hpass : ∀ n ∈ ns, ∀ k, n.keyword? = some k → k ∉ Node.conditionEnds := by
    intro n hn k hk hend
    have hfree := hinside n hn
    rw [Node.endsCondition, hk, Option.any_some, List.contains_iff_mem.2 hend] at hfree
    exact Bool.false_ne_true hfree.symm
  have hstop : cutAtKeyword Node.conditionEnds 0 (Node.tokensOf rest) =
      ([], Node.tokensOf rest) := by
    cases rest with
    | nil => rfl
    | cons n rest =>
        rcases (Option.any_eq_true _ _).1 (hrest n rfl) with ⟨k, hk, hend⟩
        exact cutAtKeyword_stop hk (List.contains_iff_mem.1 hend) rest
  rw [cutAtKeyword_tokensOf h (by decide) hpass, hstop, List.append_nil]

namespace Node.SplitAtWhere

variable {ns before condition after : List Node} {clause : Node}

/-- The last node of a condition is no blank, and so its last token is none. -/
theorem endsVisible (hsplit : SplitAtWhere ns before clause condition after)
    (h : ∀ n ∈ ns, n.Tidy) : EndsVisible (tokensOf (clause :: condition)) := by
  have hmem : ∀ n ∈ clause :: condition, n ∈ ns := by
    intro n hn
    rw [hsplit.eq_append, ← List.cons_append]
    exact List.mem_append_right _ (List.mem_append_left _ hn)
  rcases (hsplit.isClause.wellShaped h).here.1 with ⟨_, _, -, -, -, hlast⟩
  exact endsVisible_of_getLast (List.cons_ne_nil _ _) (fun n hn => (h n (hmem n hn)).endsVisible)
    hlast

/-- Neither its keyword nor the blanks behind it end a condition. -/
theorem not_endsCondition (hsplit : SplitAtWhere ns before clause condition after)
    {blanks : List Node} (hblanks : ∀ n ∈ blanks, n.isWhitespace = true) :
    ∀ n ∈ clause :: (condition ++ blanks), n.endsCondition = false := by
  intro n hn
  rcases List.mem_cons.1 hn with rfl | hn
  · rw [endsCondition, hsplit.opens]
    decide
  · rcases List.mem_append.1 hn with hn | hn
    · exact hsplit.inside n hn
    · rw [endsCondition, keyword?_of_isWhitespace (hblanks n hn), Option.any_none]

end Node.SplitAtWhere

/-- The tokens of a level are cut where grouping its condition cuts the level. -/
theorem conditionRange_of_split {ns before condition after : List Node} {clause : Node}
    (h : ∀ n ∈ ns, n.Transparent) (hsplit : Node.SplitAtWhere ns before clause condition after) :
    conditionRange (Node.tokensOf ns) =
      (Node.tokensOf before, Node.tokensOf (clause :: condition), Node.tokensOf after) := by
  rcases hsplit.ends with ⟨blanks, rest, rfl, hblanks, hrest⟩
  have hns : ns = before ++ ((clause :: (condition ++ blanks)) ++ rest) := by
    rw [hsplit.eq_append, List.cons_append, List.append_assoc]
  have hbefore : ∀ n ∈ before, n.Transparent :=
    fun n hn => h n (hns ▸ List.mem_append_left _ hn)
  have hclause : ∀ n ∈ clause :: (condition ++ blanks), n.Transparent :=
    fun n hn => h n (hns ▸ List.mem_append_right _ (List.mem_append_left _ hn))
  have hfront : cutAtKeyword [.whereKw] 0 (Node.tokensOf ns) = (Node.tokensOf before,
      Node.tokensOf (clause :: (condition ++ blanks)) ++ Node.tokensOf rest) := by
    rw [hns, Node.tokensOf_append, cutAtKeyword_where hbefore hsplit.first, List.cons_append,
      cutAtKeyword_stop hsplit.opens List.mem_cons_self, List.append_nil,
      ← List.cons_append, Node.tokensOf_append]
  have hreach := cutAtKeyword_conditionEnds hclause (hsplit.not_endsCondition hblanks) hrest
  have htrailing := Node.cutTrailing_tokensOf (hsplit.endsVisible fun n hn => (h n hn).tidy) hblanks
  rw [List.cons_append] at htrailing
  rw [Node.conditionEnds] at hreach
  simp only [conditionRange, hfront, hreach, htrailing, Node.tokensOf_append]

theorem commandKeywords_append {as : List Leaf} (h : depthBehind 0 (as.map Leaf.token) = 0)
    (bs : List Leaf) : commandKeywords (as ++ bs) = commandKeywords as ++ commandKeywords bs := by
  rw [commandKeywords, outerLeaves_append, h, List.filter_append, List.filterMap_append]
  rfl

theorem commandKeywords_of_inWhere {ls : List Leaf} (h : ∀ l ∈ ls, l.inWhere = true) :
    commandKeywords ls = [] := by
  have hnone : ((outerLeaves 0 ls).filter fun l => !l.inWhere && !l.isCompared) = [] := by
    refine List.filter_eq_nil_iff.2 fun l hl => ?_
    rw [h l ((outerLeaves_sublist 0 ls).subset hl), Bool.not_true, Bool.false_and]
    exact Bool.false_ne_true
  rw [commandKeywords, hnone, List.filterMap_nil]

theorem commandKeywords_of_not_inWhere {ls : List Leaf} (h : ∀ l ∈ ls, l.inWhere = false) :
    commandKeywords ls = uncomparedKeywords 0 ls := by
  have hsame : ((outerLeaves 0 ls).filter fun l => !l.inWhere && !l.isCompared) =
      (outerLeaves 0 ls).filter fun l => !l.isCompared := by
    refine List.filter_congr fun l hl => ?_
    rw [h l ((outerLeaves_sublist 0 ls).subset hl), Bool.not_false, Bool.true_and]
  rw [commandKeywords, hsame, uncomparedKeywords]

theorem inWhere_leavesFrom {g : Group} (houtside : g.Outside []) {ns : List Node}
    (h : ∀ n ∈ ns, n.Transparent) (index : Nat) :
    ∀ l ∈ Node.leavesFrom g [] index ns, l.inWhere = false := by
  intro l hl
  rcases Node.mem_leavesFrom hl with ⟨n, hn, place, hl⟩
  exact inWhere_of_tidy (h n hn).tidy houtside place l hl

theorem commandKeywords_leavesFrom {g : Group} (hshape : g.shape = .statement) {ns : List Node}
    (h : ∀ n ∈ ns, n.Transparent) (index : Nat) :
    commandKeywords (Node.leavesFrom g [] index ns) = ns.filterMap Node.keyword? := by
  have hcompares : g.shape ≠ .comparison :=
    fun hcomparison => Shape.noConfusion (hshape.symm.trans hcomparison)
  rw [commandKeywords_of_not_inWhere (inWhere_leavesFrom (outside_of_statement hshape) h index),
    Node.uncomparedKeywords_leavesFrom hcompares h]

/-- A tree agrees with the tokens of a statement on its condition and its tag:
    the leaves are parted where the tokens are, those of the middle part are the
    ones in a condition, and the tag is spelled by the keywords of the others. -/
structure Group.AgreesWith (root : Group) (statement : List Token)
    (front inside back : List Leaf) : Prop where
  leaves_eq : root.leaves = front ++ (inside ++ back)
  range_eq : conditionRange statement =
    (front.map Leaf.token, inside.map Leaf.token, back.map Leaf.token)
  outside : ∀ l ∈ front ++ back, l.inWhere = false
  inside : ∀ l ∈ inside, l.inWhere = true
  tag_eq : commandTag root =
    String.ofList ((commandKeywords root.leaves).flatMap Keyword.tagPart)

section Grouped

variable {root : Group} (hshape : root.shape = .statement) {ns : List Node}
  (h : ∀ n ∈ ns, n.Transparent)

include hshape h

theorem agreesWith_of_no_where (hchildren : root.children = ns)
    (hwhere : ∀ n ∈ ns, n.keyword? ≠ some .whereKw) :
    root.AgreesWith (Node.tokensOf ns) root.leaves [] [] := by
  have hleaves : root.leaves = Node.leavesFrom root [] 0 ns := hchildren ▸ rfl
  refine ⟨(List.append_nil _).symm, ?_, ?_, fun l hl => absurd hl List.not_mem_nil, ?_⟩
  · rw [conditionRange_of_no_where h hwhere, hleaves, Node.leavesFrom_tokens]
    rfl
  · rw [List.append_nil, hleaves]
    exact inWhere_leavesFrom (outside_of_statement hshape) h 0
  · rw [hleaves, commandKeywords_leavesFrom hshape h, commandTag, Group.keywords, hchildren]

theorem agreesWith_of_split {before condition after : List Node} {clause : Node}
    (hsplit : Node.SplitAtWhere ns before clause condition after)
    (hchildren : root.children =
      before ++ .group .whereClause (clause :: condition) :: after) :
    root.AgreesWith (Node.tokensOf ns) (Node.leavesFrom root [] 0 before)
      ((Node.group .whereClause (clause :: condition)).leaves [⟨root, before.length⟩])
      (Node.leavesFrom root [] (before.length + 1) after) := by
  have hbefore : ∀ n ∈ before, n.Transparent :=
    fun n hn => h n (hsplit.eq_append ▸ List.mem_append_left _ hn)
  have hafter : ∀ n ∈ after, n.Transparent := fun n hn => h n (hsplit.eq_append ▸
    List.mem_append_right _ (List.mem_cons_of_mem _ (List.mem_append_right _ hn)))
  have hleaves : root.leaves = Node.leavesFrom root [] 0 before ++
      ((Node.group .whereClause (clause :: condition)).leaves [⟨root, before.length⟩] ++
        Node.leavesFrom root [] (before.length + 1) after) := by
    have hall : root.leaves = Node.leavesFrom root [] 0 root.children := rfl
    rw [hall, hchildren, Node.leavesFrom_append, Node.leavesFrom, Nat.zero_add]
  have hinside : ∀ l ∈ (Node.group .whereClause (clause :: condition)).leaves
      [⟨root, before.length⟩], l.inWhere = true :=
    fun l hl => Node.hasAncestor_of_mem_group hl
  refine ⟨hleaves, ?_, ?_, hinside, ?_⟩
  · rw [conditionRange_of_split h hsplit, Node.leavesFrom_tokens, Node.leavesFrom_tokens,
      Node.leaves_tokens, Node.tokens]
  · intro l hl
    rcases List.mem_append.1 hl with hl | hl
    · exact inWhere_leavesFrom (outside_of_statement hshape) hbefore _ l hl
    · exact inWhere_leavesFrom (outside_of_statement hshape) hafter _ l hl
  · -- The parts are read one by one, since each ends at the depth it began at.
    have hfront : depthBehind 0 ((Node.leavesFrom root [] 0 before).map Leaf.token) = 0 := by
      rw [Node.leavesFrom_tokens]
      exact Node.depthBehind_tokensOf (fun n hn => (hbefore n hn).tidy.depthBehind) 0
    have hcondition : depthBehind 0 (((Node.group .whereClause (clause :: condition)).leaves
        [⟨root, before.length⟩]).map Leaf.token) = 0 := by
      rw [Node.leaves_tokens]
      exact hsplit.isClause.depthBehind (fun n hn => (h n hn).tidy) 0
    rw [hleaves, commandKeywords_append hfront, commandKeywords_append hcondition,
      commandKeywords_of_inWhere hinside, commandKeywords_leavesFrom hshape hbefore,
      commandKeywords_leavesFrom hshape hafter, List.nil_append, ← List.filterMap_append,
      commandTag, Group.keywords, hchildren, List.filterMap_append, List.filterMap_append,
      List.filterMap_cons_none rfl]

end Grouped

/-- The tree of a statement agrees with its tokens: the group of the condition
    holds exactly the tokens of the range that is found without the tree, and
    the tag leaves out no other keyword at depth zero than those of the range
    and those that comparisons have taken. -/
theorem ofText_agreesWith {sql : String} {root : Group} (h : Group.ofText sql = .ok root) :
    ∃ statement front inside back, readStatement sql = .ok statement ∧
      root.AgreesWith statement front inside back := by
  rcases ofText_eq_ok_iff.1 h with ⟨statement, items, hread, hnest, rfl⟩
  have hlevel := transparent_of_mem_ungroupedNodes (Nested.matched_nest hnest)
  have htokens : Node.tokensOf (ungroupedNodes items) = statement := by
    rw [← Node.tokensOf_groupWhere, ← rootNodes_eq_groupWhere, tokensOf_rootNodes,
      Nested.tokens_of_nest hnest]
  rw [← htokens] at hread
  rcases Node.groupWhere_cases (ungroupedNodes items) with
    ⟨hwhere, heq⟩ | ⟨before, clause, condition, after, hsplit, heq⟩
  · exact ⟨_, _, _, _, hread, agreesWith_of_no_where rfl hlevel heq hwhere⟩
  · exact ⟨_, _, _, _, hread, agreesWith_of_split rfl hlevel hsplit heq⟩

/-- An update whose `NULL` a comparison has taken, with a parenthesis in its
    condition and a clause behind it. -/
theorem ofText_agreesWith_update :
    ∃ root, Group.ofText "UPDATE t SET a = NULL WHERE (b = 1 OR c) LIMIT 1" = .ok root ∧
      ∃ statement front inside back,
        readStatement "UPDATE t SET a = NULL WHERE (b = 1 OR c) LIMIT 1" = .ok statement ∧
          root.AgreesWith statement front inside back := by
  have hok : (Group.ofText "UPDATE t SET a = NULL WHERE (b = 1 OR c) LIMIT 1").isOk = true := by
    decide +kernel
  cases hroot : Group.ofText "UPDATE t SET a = NULL WHERE (b = 1 OR c) LIMIT 1" with
  | error e =>
      rw [hroot] at hok
      exact absurd hok Bool.false_ne_true
  | ok root => exact ⟨root, rfl, ofText_agreesWith hroot⟩

example :
    (conditionRange (tokenize "UPDATE t SET a = NULL WHERE (b) = 1 LIMIT 1")).2.1.map Token.text =
      ["WHERE", " ", "(", "b", ")", " ", "=", " ", "1"] := by
  decide +kernel

end SqlGist
