import SqlGist.Text.Trailing
import SqlGist.Tree.Leaf

/-!
# Grouping Neighbours

The passes that put the nodes of one level into groups. Each is a function on
lists of nodes that looks at neighbours only, and none of them drops, adds or
moves a token: that is the first law stated of each.

The order of the passes matters. A call takes a name and the parenthesis right
behind it, so calls come before single names; operands are names and calls, so
comparisons come behind both; and a list goes around whole comparisons.

Comparisons are found from left to right, and each takes its right operand
with it, so that `a = b = c` is the comparison `a = b` and two nodes behind it.

## Main definitions

* `groupCalls`: A name and a parenthesis right behind it become a call.
* `groupNames`: Every other name becomes a group of its own.
* `groupComparisons`: An operand, an operator and an operand become one group.
* `wrapList`: A run becomes a list, without the blanks around it.
* `sections`: A run in front of the first keyword, and the run behind each.
* `groupLists`: The runs between keywords become lists where they hold a comma.
* `groupWhere`: The condition behind `WHERE` becomes one group.

## Theorems

* `tokensOf_groupCalls`, `tokensOf_groupNames`, `tokensOf_groupComparisons`,
  `tokensOf_wrapList`, `tokensOf_groupLists`, `tokensOf_groupWhere`: Each pass
  keeps every token in its place.
-/

namespace SqlGist

namespace Node

/-- The group of one name. -/
def nameRef (n : Node) : Node :=
  .group .nameRef [n]

/-- A name with a parenthesis right behind it becomes a call. A blank between
    the two keeps them apart. -/
def groupCalls : List Node → List Node
  | [] => []
  | [n] => [n]
  | n :: p :: ns =>
    if n.isName && p.isGroup .parenthesis then
      .group .functionCall [nameRef n, p] :: groupCalls ns
    else n :: groupCalls (p :: ns)

/-- Every name that is left becomes a group of its own. -/
def groupNames (ns : List Node) : List Node :=
  ns.map fun n => if n.isName then nameRef n else n

/-- The operators that compare. -/
def comparisonOperators : List String :=
  ["=", "<>", "!=", "<", "<=", ">", ">="]

/-- Whether a node can stand on either side of a comparison: a name, a call, or
    a value. -/
def isOperand : Node → Bool
  | .leaf t => t.isValue
  | .group shape _ => shape = .nameRef || shape = .functionCall

/-- Whether a node compares: one of the operators, or `LIKE`. -/
def isComparisonOperator (n : Node) : Bool :=
  n.leaf?.any fun t =>
    t.kind = .operator && comparisonOperators.contains t.text || t.kind = .keyword .like

/-- The first node that is no blank, with the blanks before it and the nodes
    behind it. -/
def nextVisible? (ns : List Node) : Option (List Node × Node × List Node) :=
  match ns.dropWhile isWhitespace with
  | [] => none
  | n :: rest => some (ns.takeWhile isWhitespace, n, rest)

/-- Behind a left operand: the nodes up to and with the right one, and what
    follows, if an operator and an operand come next. -/
def comparisonRest? (ns : List Node) : Option (List Node × List Node) :=
  (nextVisible? ns).bind fun (gap, operator, rest) =>
    if operator.isComparisonOperator then
      (nextVisible? rest).bind fun (gap', right, rest') =>
        if right.isOperand then some (gap ++ operator :: (gap' ++ [right]), rest') else none
    else none

theorem nextVisible?_append {ns gap rest : List Node} {n : Node}
    (h : nextVisible? ns = some (gap, n, rest)) : gap ++ n :: rest = ns := by
  rw [nextVisible?] at h
  split at h
  · simp only [reduceCtorEq] at h
  · rename_i heq
    simp only [Option.some.injEq, Prod.mk.injEq] at h
    rw [← h.1, ← h.2.1, ← h.2.2, ← heq, List.takeWhile_append_dropWhile]

theorem comparisonRest?_append {ns taken rest : List Node}
    (h : comparisonRest? ns = some (taken, rest)) : taken ++ rest = ns ∧ taken ≠ [] := by
  rcases Option.bind_eq_some_iff.1 h with ⟨⟨gap, operator, behind⟩, hfirst, h⟩
  simp only at h
  split at h
  · rcases Option.bind_eq_some_iff.1 h with ⟨⟨gap', right, behind'⟩, hsecond, h⟩
    simp only at h
    split at h
    · simp only [Option.some.injEq, Prod.mk.injEq] at h
      rw [← h.1, ← h.2, ← nextVisible?_append hfirst, ← nextVisible?_append hsecond]
      refine ⟨by simp only [List.append_assoc, List.cons_append, List.nil_append], ?_⟩
      exact fun hnil => List.cons_ne_nil _ _ (List.append_eq_nil_iff.1 hnil).2
    · simp only [reduceCtorEq] at h
  · simp only [reduceCtorEq] at h

theorem comparisonRest?_length {ns taken rest : List Node}
    (h : comparisonRest? ns = some (taken, rest)) : rest.length < ns.length := by
  have happ := comparisonRest?_append h
  have hpos := List.length_pos_iff.2 happ.2
  rw [← happ.1, List.length_append]
  omega

/-- An operand, an operator and an operand become one group, from left to
    right. Reading goes on behind the right operand. -/
def groupComparisons : List Node → List Node
  | [] => []
  | n :: ns =>
    -- The right operand is used up here and opens no comparison of its own.
    match _h : (if n.isOperand then comparisonRest? ns else none) with
    | some (taken, rest) => .group .comparison (n :: taken) :: groupComparisons rest
    | none => n :: groupComparisons ns
termination_by ns => ns.length
decreasing_by
  -- Behind a comparison less is left than behind its left operand.
  · split at _h
    · exact Nat.lt_succ_of_lt (comparisonRest?_length _h)
    · simp only [reduceCtorEq] at _h
  · exact Nat.lt_succ_self _

/-- A run as a list. The blanks at either end stay outside, and a run of
    blanks alone becomes no list. -/
def wrapList (ns : List Node) : List Node :=
  match cutTrailing isWhitespace (ns.dropWhile isWhitespace) with
  | ([], _) => ns
  | (items, blanks) => ns.takeWhile isWhitespace ++ .group .nameList items :: blanks

/-- The run in front of the first keyword, and each keyword with the run behind
    it. -/
def sections : List Node → List Node × List (Node × List Node)
  | [] => ([], [])
  | n :: ns =>
    let behind := sections ns
    if n.keyword?.isSome then ([], (n, behind.1) :: behind.2)
    else (n :: behind.1, behind.2)

/-- A run becomes a list if it has to be one or holds a comma. -/
def listRun (forced : Bool) (run : List Node) : List Node :=
  if forced || run.any (fun n => n.isMark ",") then wrapList run else run

/-- Whether what stands behind a keyword is a list even without a comma, as
    the columns behind `SELECT` are. -/
def opensProjection (n : Node) : Bool :=
  n.keyword? = some .select || n.keyword? = some .distinct

/-- The runs between the keywords of a statement become lists. -/
def groupLists (ns : List Node) : List Node :=
  let parts := sections ns
  listRun false parts.1 ++
    parts.2.flatMap fun part => part.1 :: listRun part.1.opensProjection part.2

/-- The keywords that end a condition. -/
def conditionEnds : List Keyword :=
  [.order, .group, .having, .limit]

/-- Whether the node is a keyword that ends a condition. -/
def endsCondition (n : Node) : Bool :=
  n.keyword?.any conditionEnds.contains

/-- The first `WHERE` and what follows, up to a keyword that ends the
    condition, become one group. Blanks before the end stay outside. -/
def groupWhere (ns : List Node) : List Node :=
  let isWhere (n : Node) : Bool := n.keyword? = some .whereKw
  -- Only the first one counts, and without any the nodes stay as they are.
  match ns.dropWhile fun n => !isWhere n with
  | [] => ns
  | clause :: rest =>
    let condition := cutTrailing isWhitespace (rest.takeWhile fun n => !n.endsCondition)
    (ns.takeWhile fun n => !isWhere n) ++
      .group .whereClause (clause :: condition.1) ::
        (condition.2 ++ rest.dropWhile fun n => !n.endsCondition)

theorem tokensOf_groupCalls (ns : List Node) : tokensOf (groupCalls ns) = tokensOf ns := by
  fun_induction groupCalls ns with
  | case1 => rfl
  | case2 => rfl
  | case3 n p ns _ ih =>
      simp only [tokensOf, tokens, nameRef, ih, List.append_nil, List.append_assoc]
  | case4 n p ns _ ih =>
      simp only [tokensOf] at ih ⊢
      rw [ih]

theorem tokensOf_groupNames (ns : List Node) : tokensOf (groupNames ns) = tokensOf ns := by
  rw [groupNames]
  induction ns with
  | nil => rfl
  | cons n ns ih =>
      rw [List.map_cons, tokensOf, ih]
      split <;> simp only [nameRef, tokens, tokensOf, List.append_nil]

theorem tokensOf_groupComparisons (ns : List Node) :
    tokensOf (groupComparisons ns) = tokensOf ns := by
  fun_induction groupComparisons ns with
  | case1 => rfl
  | case2 n ns taken rest h ih =>
      split at h
      · rw [tokensOf, ih, tokens, tokensOf, tokensOf, List.append_assoc, ← tokensOf_append,
          (comparisonRest?_append h).1]
      · simp only [reduceCtorEq] at h
  | case3 n ns h ih => rw [tokensOf, ih, tokensOf]

theorem tokensOf_wrapList (ns : List Node) : tokensOf (wrapList ns) = tokensOf ns := by
  rw [wrapList]
  split
  · rfl
  · rename_i items blanks _ heq
    have happ := cutTrailing_append isWhitespace (ns.dropWhile isWhitespace)
    rw [heq] at happ
    -- The leading blanks, the items and the trailing blanks are the whole run.
    have hns : ns = ns.takeWhile isWhitespace ++ (items ++ blanks) := by
      rw [happ, List.takeWhile_append_dropWhile]
    rw [tokensOf_append, tokensOf, tokens]
    conv => rhs; rw [hns, tokensOf_append, tokensOf_append]

theorem tokensOf_listRun (forced : Bool) (run : List Node) :
    tokensOf (listRun forced run) = tokensOf run := by
  rw [listRun]
  split
  · exact tokensOf_wrapList run
  · rfl

theorem tokensOf_groupLists (ns : List Node) : tokensOf (groupLists ns) = tokensOf ns := by
  rw [groupLists, tokensOf_append, tokensOf_listRun]
  induction ns with
  | nil => rfl
  | cons n ns ih =>
      simp only [sections]
      split
      · simp only [List.flatMap_cons, List.cons_append, tokensOf, tokensOf_append,
          tokensOf_listRun, List.nil_append, ih]
      · simp only [tokensOf, List.append_assoc, ih]

theorem tokensOf_groupWhere (ns : List Node) : tokensOf (groupWhere ns) = tokensOf ns := by
  simp only [groupWhere]
  split
  · rfl
  · rename_i clause rest heq
    have hcut := cutTrailing_append isWhitespace (rest.takeWhile fun n => !n.endsCondition)
    -- What follows the keyword is the condition, its blanks, and the other clauses.
    have hrest : rest = (cutTrailing isWhitespace (rest.takeWhile fun n => !n.endsCondition)).1 ++
        ((cutTrailing isWhitespace (rest.takeWhile fun n => !n.endsCondition)).2 ++
          rest.dropWhile fun n => !n.endsCondition) := by
      rw [← List.append_assoc, hcut, List.takeWhile_append_dropWhile]
    have hns := List.takeWhile_append_dropWhile
      (l := ns) (p := fun n => !decide (n.keyword? = some .whereKw))
    rw [heq, hrest] at hns
    conv => rhs; rw [← hns]
    simp only [tokensOf_append, tokensOf, tokens, List.append_assoc]

end Node

end SqlGist
