import SqlGist.Proofs.Dispatch
import SqlGist.Proofs.Extraction.Stages
import SqlGist.Proofs.Tree.Clauses
import SqlGist.Proofs.Tree.Keywords
import SqlGist.Proofs.Tree.Lossless
import SqlGist.Proofs.Writes.Assignments

/-!
# The Clause That a Change Is Read From

A change takes its values from the clause behind its last keyword, `SET` or
`VALUES`, which the tag of the statement tells. Behind it the tree has the list
of a run, and at most a condition. What stands in front is told from what stands
behind by the place directly under the root, which is all that a scan knows of
it.

## Main definitions

* `Node.opened`: The items of a list, and any other node as the one that it is.
* `Group.behind`: What stands behind a keyword, up to the condition.

## Theorems

* `exists_clause`: The tree of a statement has one clause behind its last
  keyword.
* `flatMap_opened_listRun`: A list and the run that it is made of.
* `IsLastClause.leaves_eq`, `IsLastClause.isBehind_of_front`: The leaves of a
  statement, clause by clause.
* `IsLastClause.opened_behind`: The run of the clause.
* `pairColumns_of_write`: The columns of a change are paired from its leaves.
-/

namespace SqlGist

/-- The tree of a statement has one clause behind its last keyword, at its end,
    and that is made of a stretch of the level before it was listed. -/
theorem exists_clause {sql : String} {root : Group} (hroot : Group.ofText sql = .ok root)
    {ks : List Keyword} {k : Keyword} (hkeywords : root.keywords = ks ++ [k]) (hnew : k ∉ ks)
    (hends : ∀ k' ∈ ks ++ [k], k' ∉ Node.conditionEnds) (hselect : k ≠ .select ∧ k ≠ .distinct) :
    ∃ items front opening run tail, (∀ item ∈ items, Nested.Matched item) ∧
      root = ⟨.statement, rootNodes items⟩ ∧
      IsLastClause root.children k front opening run tail ∧
      opening :: run <:+: levelNodes items := by
  rcases ofText_eq_ok_iff.1 hroot with ⟨_, items, -, hnest, rfl⟩
  have hmatched := Nested.matched_nest hnest
  rcases exists_lastClause hmatched hkeywords hnew hends hselect with
    ⟨front, opening, run, tail, hclause, hrun⟩
  exact ⟨items, front, opening, run, tail, hmatched, rfl, hclause, hrun⟩

/-- The items of a list, and any other node as the one item that it is. -/
def Node.opened : Node → List Node
  | .group .nameList items => items
  | n => [n]

namespace Node

theorem opened_of_not_list {n : Node} (h : n.isGroup .nameList = false) : n.opened = [n] := by
  cases n with
  | leaf t => rfl
  | group shape children =>
      have hshape : shape ≠ .nameList := by
        rintro rfl
        exact Bool.false_ne_true h.symm
      rw [opened]
      intro items hitems
      rw [Node.group.injEq] at hitems
      exact hshape hitems.1

theorem flatMap_opened {ns : List Node} (h : ∀ n ∈ ns, n.isGroup .nameList = false) :
    ns.flatMap opened = ns := by
  induction ns with
  | nil => rfl
  | cons n ns ih =>
      rw [List.flatMap_cons, opened_of_not_list (h n List.mem_cons_self),
        ih fun m hm => h m (List.mem_cons_of_mem n hm)]
      rfl

theorem not_list_of_isWhitespace {n : Node} (h : n.isWhitespace = true) :
    n.isGroup .nameList = false := by
  cases n with
  | leaf t => rfl
  | group => exact absurd h Bool.false_ne_true

/-- Opening the list of a run gives the run back. -/
theorem flatMap_opened_listRun {forced : Bool} {run : List Node}
    (h : ∀ n ∈ run, n.isGroup .nameList = false) :
    (listRun forced run).flatMap opened = run := by
  rcases listRun_cases forced run with heq | ⟨gap, items, gap', hrun, heq, hgap, hgap'⟩
  · rw [heq, flatMap_opened h]
  · rw [heq, hrun, List.flatMap_append, List.flatMap_cons,
      flatMap_opened fun n hn => not_list_of_isWhitespace (hgap n hn),
      flatMap_opened fun n hn => not_list_of_isWhitespace (hgap' n hn)]
    rfl

end Node

theorem StandsBehind.inner {k : Keyword} {path : List Frame} (h : StandsBehind k path) (f : Frame) :
    StandsBehind k (f :: path) := by
  rcases (Option.any_eq_true _ _).1 h with ⟨last, hlast, -⟩
  cases path with
  | nil => exact absurd hlast.symm (Option.some_ne_none last)
  | cons g path => rwa [StandsBehind, List.getLast?_cons_cons]

/-- What stands behind a keyword of a statement, up to its condition. -/
def Group.behind (root : Group) (k : Keyword) : List Node :=
  ((root.children.dropWhile fun n => n.keyword? != some k).drop 1).takeWhile
    fun n => !n.isGroup .whereClause

namespace IsLastClause

variable {root : Group} {k : Keyword} {front run tail : List Node} {opening : Node}
  (h : IsLastClause root.children k front opening run tail)

include h

/-- The keyword stands in front of exactly the places behind it. -/
theorem any_take_iff (place : Nat) :
    ((root.children.take place).any fun n => n.keyword? = some k) = true ↔
      front.length < place := by
  rw [List.any_eq_true, h.eq_append]
  constructor
  · rintro ⟨n, hn, hk⟩
    by_contra hplace
    rw [List.take_append_of_le_length (Nat.le_of_not_lt hplace)] at hn
    exact h.first n (List.mem_of_mem_take hn) (of_decide_eq_true hk)
  · intro hplace
    refine ⟨opening, ?_, decide_eq_true h.opens⟩
    rw [List.take_append, List.take_cons (by omega)]
    exact List.mem_append_right _ List.mem_cons_self

theorem standsBehind {place : Nat} (hplace : front.length < place) :
    StandsBehind k [⟨root, place⟩] :=
  (h.any_take_iff place).2 hplace

/-- The leaves of a statement, clause by clause. -/
theorem leaves_eq :
    root.leaves = Node.leavesFrom root [] 0 front ++
      (opening.leaves [⟨root, 0 + front.length⟩] ++
        (Node.leavesFrom root [] (0 + front.length + 1) (Node.listRun false run) ++
          Node.leavesFrom root [] (0 + front.length + 1 + (Node.listRun false run).length)
            tail)) := by
  rw [show root.leaves = Node.leavesFrom root [] 0 root.children from rfl, h.eq_append,
    Node.leavesFrom_append, Node.leavesFrom, Node.leavesFrom_append]

/-- A leaf in front of the keyword is not behind it. -/
theorem isBehind_of_front {l : Leaf} (hl : l ∈ Node.leavesFrom root [] 0 front) :
    l.isBehind k = false := by
  rcases Node.suffix_of_mem_leavesFrom root [] 0 front hl with ⟨place, hplace, path, hpath⟩
  have hroot : l.root? = some ⟨root, place⟩ := by
    rw [Leaf.root?, ← hpath, List.getLast?_concat]
  rw [Leaf.isBehind, hroot, Option.any_some, ← Bool.not_eq_true, h.any_take_iff place]
  omega

theorem takeWhile_front :
    (root.children.takeWhile fun n => n.keyword? != some k) = front := by
  have hpass : ∀ n ∈ front, (n.keyword? != some k) = true :=
    fun n hn => bne_iff_ne.2 (h.first n hn)
  have hstop : ¬(opening.keyword? != some k) = true := by
    rw [h.opens, bne_self_eq_false]
    exact Bool.false_ne_true
  rw [h.eq_append, List.takeWhile_append_of_pos hpass,
    List.takeWhile_cons_of_neg (p := fun n : Node => n.keyword? != some k) hstop, List.append_nil]

theorem behind_eq : root.behind k = Node.listRun false run := by
  have hbody : ∀ n ∈ Node.listRun false run, (!n.isGroup .whereClause) = true := by
    intro n hn
    rcases Node.mem_listRun hn with hn | ⟨items, rfl, -⟩
    · rw [h.unclaused n hn]
      rfl
    · rfl
  rw [Group.behind, h.eq_append, dropWhile_first h.first h.opens, List.drop_succ_cons,
    List.drop_zero, List.takeWhile_append_of_pos hbody]
  rcases h.tail_eq with rfl | ⟨condition, blanks, rfl, -⟩
  · exact List.append_nil _
  · exact List.append_nil _

/-- The clause opens to the run that it was made of. -/
theorem opened_behind : (root.behind k).flatMap Node.opened = run := by
  rw [h.behind_eq, Node.flatMap_opened_listRun h.unlisted]

end IsLastClause

/-- The group of the condition and the blanks behind it are idle. -/
theorem idle_tail {k : Keyword} {g : Group} {path : List Frame} {index : Nat} {tail : List Node}
    (h : tail = [] ∨ ∃ condition blanks, tail = .group .whereClause condition :: blanks ∧
      ∀ n ∈ blanks, n.isWhitespace = true) :
    ∀ l ∈ Node.leavesFrom g path index tail, l.Idle k := by
  intro l hl
  rcases h with rfl | ⟨condition, blanks, rfl, hblanks⟩
  · exact absurd hl List.not_mem_nil
  · rw [Node.leavesFrom] at hl
    rcases List.mem_append.1 hl with hl | hl
    · exact Leaf.idle_of_inWhere (Node.hasAncestor_of_mem_group hl)
    · exact idle_blanks hblanks _ l hl

/-- The columns of a change are paired from what its leaves read as. -/
theorem pairColumns_of_write {sql : String} {t : Table} {root : Group} {c : Command}
    {plan : WritePlan} (hplan : c.extraction = .write plan) (h : classify sql = .ok (.table t))
    (htag : statementTag sql = .ok c.tag) (hroot : Group.ofText sql = .ok root) :
    pairColumns (root.leaves.filter Leaf.isColumn)
      (root.leaves.filter fun l => l.isWritten plan.keyword) = .ok t.columns := by
  have hextract := extract_of_tag h htag hroot
  rw [Command.extract, hplan] at hextract
  exact pairColumns_of_run hextract

end SqlGist
