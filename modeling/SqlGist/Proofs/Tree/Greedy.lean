import Mathlib.Computability.StateTransition
import SqlGist.Proofs.Tree.Tuples

/-!
# Comparisons in Place

Comparisons can be grouped in the list itself. A sweep goes over it from left to
right, takes out each comparison it comes to and puts one node back in its
place. The list gets shorter on the way, so that a place ahead does not mean the
same before a turn and after it.

What makes up for that is that a turn finishes exactly one node. What is in
front of the place is the result so far, and what is behind has not been
touched, so a sweep that has come to some place goes on as it would begin on the
rest alone. It stops, and what it leaves is the reading from left to right: the
first comparison there is, then the first behind that.

Nothing is left to group then. The parts of a comparison are never comparisons
themselves, so three nodes that make one up in the result had made one up
before.

## Main definitions

* `Triple`: An operand, an operator and an operand.
* `Greedy`: The reading from left to right.
* `Sweep`: A list that is being grouped, and the place come to.
* `Sweep.step`: One turn.

## Theorems

* `groupComparisons_triple`, `groupComparisons_copy`: What is taken off the
  front.
* `Greedy.not_infix`: The reading leaves no comparison behind.
* `step_triple`, `step_copy`: What a turn does.
* `reaches_greedy`: A sweep does what the reading does.
* `groupComparisons_greedy`: The sweep, the reading and the pass agree, and
  nothing is left to group.
-/

namespace SqlGist

/-- An operand, an operator and an operand, with blanks between them. -/
structure Triple where
  left : Node
  gap : List Node
  operator : Node
  gap' : List Node
  right : Node
  isOperand_left : left.isOperand = true
  isWhitespace_gap : ∀ n ∈ gap, n.isWhitespace = true
  isOperator : operator.isComparisonOperator = true
  isWhitespace_gap' : ∀ n ∈ gap', n.isWhitespace = true
  isOperand_right : right.isOperand = true

/-- The nodes behind the left operand. -/
def Triple.behind (t : Triple) : List Node :=
  t.gap ++ t.operator :: (t.gap' ++ [t.right])

/-- The nodes from the left operand to the right one. -/
def Triple.nodes (t : Triple) : List Node :=
  t.left :: t.behind

/-- Reading nodes from left to right: what begins with a comparison becomes one
    group, and reading goes on behind it. Any other node is copied. -/
inductive Greedy : List Node → List Node → Prop
  | nil : Greedy [] []
  | compare (t : Triple) {ns ms : List Node} (h : Greedy ns ms) :
      Greedy (t.nodes ++ ns) (.group .comparison t.nodes :: ms)
  | copy (n : Node) {ns ms : List Node} (hn : ∀ t : Triple, ¬t.nodes <+: n :: ns)
      (h : Greedy ns ms) : Greedy (n :: ns) (n :: ms)

namespace Node

theorem nextVisible?_run {gap rest : List Node} {n : Node}
    (hgap : ∀ m ∈ gap, m.isWhitespace = true) (hn : n.isWhitespace = false) :
    nextVisible? (gap ++ n :: rest) = some (gap, n, rest) := by
  have hvisible := Bool.eq_false_iff.1 hn
  rw [nextVisible?, List.dropWhile_append_of_pos hgap, List.dropWhile_cons_of_neg hvisible,
    List.takeWhile_append_of_pos hgap, List.takeWhile_cons_of_neg hvisible, List.append_nil]

theorem comparisonRest?_behind (t : Triple) (ns : List Node) :
    comparisonRest? (t.behind ++ ns) = some (t.behind, ns) := by
  have hsplit : t.behind ++ ns = t.gap ++ t.operator :: (t.gap' ++ t.right :: ns) := by
    simp only [Triple.behind, List.append_assoc, List.cons_append, List.nil_append]
  rw [hsplit, comparisonRest?,
    nextVisible?_run t.isWhitespace_gap (isWhitespace_of_isComparisonOperator t.isOperator)]
  simp only [Option.bind_some, t.isOperator, if_true]
  rw [nextVisible?_run t.isWhitespace_gap' (isWhitespace_of_isOperand t.isOperand_right)]
  simp only [Option.bind_some, t.isOperand_right, if_true]
  rfl

/-- What is taken behind a left operand makes up a comparison with it. -/
theorem exists_triple {n : Node} {ns taken rest : List Node} (hn : n.isOperand = true)
    (h : comparisonRest? ns = some (taken, rest)) :
    ∃ t : Triple, t.nodes = n :: taken ∧ ns = taken ++ rest := by
  rcases comparisonRest?_parts h with
    ⟨gap, operator, gap', right, rfl, hgap, hoperator, hgap', hright⟩
  exact ⟨⟨n, gap, operator, gap', right, hn, hgap, hoperator, hgap', hright⟩, rfl,
    (comparisonRest?_append h).1.symm⟩

/-- A comparison at the front becomes one group. -/
theorem groupComparisons_triple (t : Triple) (ns : List Node) :
    groupComparisons (t.nodes ++ ns) = .group .comparison t.nodes :: groupComparisons ns := by
  have hfound : (if t.left.isOperand then comparisonRest? (t.behind ++ ns) else none) =
      some (t.behind, ns) := by
    rw [if_pos t.isOperand_left, comparisonRest?_behind]
  rw [Triple.nodes, List.cons_append, groupComparisons, hfound]

/-- Where no comparison begins, none is found. -/
theorem comparisonRest?_of_no_triple {n : Node} {ns : List Node}
    (h : ∀ t : Triple, ¬t.nodes <+: n :: ns) (hn : n.isOperand = true) :
    comparisonRest? ns = none := by
  refine Option.eq_none_iff_forall_ne_some.2 fun ⟨taken, rest⟩ hfound => ?_
  rcases exists_triple hn hfound with ⟨t, ht, rfl⟩
  refine h t ?_
  rw [ht, ← List.cons_append]
  exact List.prefix_append _ rest

/-- A node at the front that begins no comparison is copied. -/
theorem groupComparisons_copy {n : Node} {ns : List Node}
    (h : ∀ t : Triple, ¬t.nodes <+: n :: ns) :
    groupComparisons (n :: ns) = n :: groupComparisons ns := by
  have hnone : (if n.isOperand then comparisonRest? ns else none) = none := by
    split
    · rename_i hn
      exact comparisonRest?_of_no_triple h hn
    · rfl
  rw [groupComparisons, hnone]

/-- The pass groups as reading from left to right does. -/
theorem greedy_groupComparisons (ns : List Node) : Greedy ns (groupComparisons ns) := by
  fun_induction groupComparisons ns with
  | case1 => exact .nil
  | case2 n ns taken rest hfound ih =>
      split at hfound
      · rename_i hn
        rcases exists_triple hn hfound with ⟨t, ht, rfl⟩
        rw [← List.cons_append, ← ht]
        exact .compare t ih
      · exact absurd hfound.symm (Option.some_ne_none _)
  | case3 n ns hnone ih =>
      refine .copy n (fun t ht => ?_) ih
      -- A comparison here would have been found.
      rcases ht with ⟨rest, hrest⟩
      rw [Triple.nodes, List.cons_append] at hrest
      obtain ⟨rfl, rfl⟩ := List.cons.inj hrest
      rw [dif_pos t.isOperand_left, comparisonRest?_behind] at hnone
      exact absurd hnone (Option.some_ne_none _)

end Node

/-- There is one reading only. -/
theorem Greedy.eq {ns ms : List Node} (h : Greedy ns ms) : ms = Node.groupComparisons ns := by
  induction h with
  | nil => rw [Node.groupComparisons]
  | compare t _ ih => rw [Node.groupComparisons_triple, ih]
  | copy n hn _ ih => rw [Node.groupComparisons_copy hn, ih]

/-- The parts of a comparison are no comparisons. -/
theorem Triple.not_comparison (t : Triple) : ∀ n ∈ t.nodes, n.isGroup .comparison = false := by
  have hblank {n : Node} (hn : n.isWhitespace = true) : n.isGroup .comparison = false :=
    Node.not_group_of_isTuplePart (Node.isTuplePart_iff.2 (Or.inl hn)) Shape.noConfusion
  have hoperand {n : Node} (hn : n.isOperand = true) : n.isGroup .comparison = false := by
    cases n with
    | leaf => rfl
    | group shape children =>
        rw [Node.isOperand, Bool.or_eq_true, decide_eq_true_eq, decide_eq_true_eq] at hn
        rcases hn with rfl | rfl <;> rfl
  intro n hn
  simp only [Triple.nodes, Triple.behind, List.mem_cons, List.mem_append, List.not_mem_nil,
    or_false] at hn
  rcases hn with rfl | hn | rfl | hn | rfl
  · exact hoperand t.isOperand_left
  · exact hblank (t.isWhitespace_gap n hn)
  · rcases Node.isComparisonOperator_iff.1 t.isOperator with ⟨u, hu, -⟩
    rw [hu]
    rfl
  · exact hblank (t.isWhitespace_gap' n hn)
  · exact hoperand t.isOperand_right

/-- Reading leaves no comparison behind: what makes one up in the result made
    one up before, and would have been taken. -/
theorem Greedy.not_infix {ns ms : List Node} (h : Greedy ns ms) (t : Triple) :
    ¬t.nodes <:+: ms := by
  induction h with
  | nil => exact fun hinfix => List.cons_ne_nil _ _ (List.infix_nil.1 hinfix)
  | compare u h ih =>
      intro hinfix
      rcases List.infix_cons_iff.1 hinfix with hprefix | hinfix
      · have hhead := (List.cons_prefix_cons.1 hprefix).1
        have hleft := t.not_comparison t.left List.mem_cons_self
        rw [hhead] at hleft
        exact Bool.false_ne_true (hleft.symm.trans (decide_eq_true rfl))
      · exact ih hinfix
  | @copy n ns ms hn h ih =>
      intro hinfix
      rcases List.infix_cons_iff.1 hinfix with hprefix | hinfix
      · have hregrouped : Node.Regrouped .comparison (n :: ns) (n :: ms) := by
          rw [h.eq]
          exact .keep n (Node.regrouped_groupComparisons ns)
        exact hn t (hregrouped.begins hprefix t.not_comparison)
      · exact ih hinfix

/-- Where no comparison is left, nothing is grouped. -/
theorem Node.groupComparisons_of_not_infix {ns : List Node}
    (h : ∀ t : Triple, ¬t.nodes <:+: ns) : groupComparisons ns = ns := by
  induction ns with
  | nil => rw [groupComparisons]
  | cons n ns ih =>
      rw [groupComparisons_copy fun t ht => h t ht.isInfix,
        ih fun t ht => h t (ht.trans (List.suffix_cons n ns).isInfix)]

namespace Node

/-- The place of the next node that is no blank. -/
def visibleAfter? (ns : List Node) (place : Nat) : Option Nat :=
  ((ns.drop (place + 1)).findIdx? fun n => !n.isWhitespace).map (· + (place + 1))

/-- The place of the right operand, if a comparison begins at the place of an
    operand. -/
def comparisonEnd? (ns : List Node) (place : Nat) : Option Nat :=
  (visibleAfter? ns place).bind fun operator =>
    if ns[operator]?.any isComparisonOperator then
      (visibleAfter? ns operator).bind fun right =>
        if ns[right]?.any isOperand then some right else none
    else none

end Node

/-- A list of nodes that is being grouped, and the place that has been come
    to. -/
structure Sweep where
  nodes : List Node
  place : Nat

namespace Sweep

/-- Where the comparison ends that begins at the place, if one does. -/
def stop? (s : Sweep) : Option Nat :=
  if s.nodes[s.place]?.any Node.isOperand then Node.comparisonEnd? s.nodes s.place else none

/-- One turn, as long as there is a node at the place. A comparison that begins
    there is taken out, and one node for all of it is put in. -/
def step (s : Sweep) : Option Sweep :=
  if s.place < s.nodes.length then
    match s.stop? with
    | some stop =>
      let taken := s.nodes.extract s.place (stop + 1)
      let left := s.nodes.take s.place ++ s.nodes.drop (stop + 1)
      some ⟨left.insertIdx s.place (.group .comparison taken), s.place + 1⟩
    | none => some ⟨s.nodes, s.place + 1⟩
  else none

end Sweep

namespace Node

theorem findIdx?_visible (ns : List Node) :
    (ns.findIdx? fun n => !n.isWhitespace) = (nextVisible? ns).map fun found => found.1.length := by
  induction ns with
  | nil => rfl
  | cons n ns ih =>
      rw [nextVisible?] at ih ⊢
      by_cases hblank : n.isWhitespace = true
      · rw [List.findIdx?_cons, hblank, List.dropWhile_cons_of_pos hblank,
          List.takeWhile_cons_of_pos hblank, ih]
        cases ns.dropWhile isWhitespace <;> rfl
      · rw [List.findIdx?_cons, Bool.eq_false_iff.2 hblank, List.dropWhile_cons_of_neg hblank,
          List.takeWhile_cons_of_neg hblank]
        rfl

/-- From a place on, the next visible node is found as in the rest alone. -/
theorem visibleAfter?_append (front : List Node) (n : Node) (ns : List Node) :
    visibleAfter? (front ++ n :: ns) front.length =
      (nextVisible? ns).map fun found => (front ++ n :: found.1).length := by
  rw [visibleAfter?, ← List.drop_drop, List.drop_left, List.drop_one, List.tail_cons,
    findIdx?_visible, Option.map_map]
  congr 1
  funext found
  simp only [Function.comp_apply, List.length_append, List.length_cons]
  omega

theorem getElem?_length (front : List Node) (n : Node) (ns : List Node) :
    (front ++ n :: ns)[front.length]? = some n := by
  rw [List.getElem?_append_right (Nat.le_refl _), Nat.sub_self, List.getElem?_cons_zero]

/-- So is the end of a comparison. -/
theorem comparisonEnd?_append (front : List Node) (n : Node) (ns : List Node) :
    comparisonEnd? (front ++ n :: ns) front.length =
      (comparisonRest? ns).map fun found => (front ++ found.1).length := by
  rw [comparisonEnd?, comparisonRest?, visibleAfter?_append]
  cases hfirst : nextVisible? ns with
  | none => rfl
  | some found =>
      rcases found with ⟨gap, operator, rest⟩
      have hns : front ++ n :: ns = (front ++ n :: gap) ++ operator :: rest := by
        rw [← nextVisible?_append hfirst, List.append_assoc, List.cons_append]
      simp only [Option.map_some, Option.bind_some]
      rw [hns, getElem?_length, Option.any_some, visibleAfter?_append]
      split
      · cases hsecond : nextVisible? rest with
        | none => rfl
        | some found =>
            rcases found with ⟨gap', right, rest'⟩
            have hrest : (front ++ n :: gap) ++ operator :: rest =
                (front ++ n :: gap ++ operator :: gap') ++ right :: rest' := by
              rw [← nextVisible?_append hsecond, List.append_assoc _ (operator :: gap'),
                List.cons_append]
            simp only [Option.map_some, Option.bind_some]
            rw [hrest, getElem?_length, Option.any_some]
            split
            · simp only [Option.map_some, Option.some.injEq, List.length_append, List.length_cons,
                List.length_nil]
              omega
            · rfl
      · rfl

end Node

namespace Sweep

theorem stop?_append (front : List Node) (n : Node) (ns : List Node) :
    stop? ⟨front ++ n :: ns, front.length⟩ =
      (if n.isOperand then Node.comparisonRest? ns else none).map
        fun found => (front ++ found.1).length := by
  rw [stop?, Node.getElem?_length, Option.any_some, Node.comparisonEnd?_append]
  split
  · rfl
  · rfl

/-- A turn at a comparison finishes one node, and leaves what is behind it. -/
theorem step_triple (front : List Node) (t : Triple) (ns : List Node) :
    step ⟨front ++ (t.nodes ++ ns), front.length⟩ =
      some ⟨front ++ .group .comparison t.nodes :: ns, front.length + 1⟩ := by
  have hstop : stop? ⟨front ++ (t.nodes ++ ns), front.length⟩ =
      some (front ++ t.behind).length := by
    rw [Triple.nodes, List.cons_append, stop?_append, if_pos t.isOperand_left,
      Node.comparisonRest?_behind]
    rfl
  have hlt : front.length < (front ++ (t.nodes ++ ns)).length := by
    rw [List.length_append, List.length_append, Triple.nodes, List.length_cons]
    omega
  have hend : (front ++ t.behind).length + 1 = (front ++ t.nodes).length := by
    rw [List.length_append, List.length_append, Triple.nodes, List.length_cons, Nat.add_assoc]
  -- What is drained is the comparison, and the rest is put together around its place.
  have htaken : (front ++ (t.nodes ++ ns)).extract front.length (front ++ t.nodes).length =
      t.nodes := by
    rw [List.extract_eq_take_drop, List.drop_left, List.length_append, Nat.add_sub_cancel_left,
      List.take_left]
  have hleft : (front ++ (t.nodes ++ ns)).drop (front ++ t.nodes).length = ns := by
    rw [← List.append_assoc, List.drop_left]
  have hinsert : (front ++ ns).insertIdx front.length (.group .comparison t.nodes) =
      front ++ .group .comparison t.nodes :: ns :=
    List.modifyTailIdx_add _ 0 front ns
  rw [step, if_pos hlt, hstop]
  simp only [hend, htaken, hleft, List.take_left, hinsert]

/-- A turn anywhere else finishes the node at the place. -/
theorem step_copy (front : List Node) {n : Node} {ns : List Node}
    (h : ∀ t : Triple, ¬t.nodes <+: n :: ns) :
    step ⟨front ++ n :: ns, front.length⟩ = some ⟨front ++ n :: ns, front.length + 1⟩ := by
  have hstop : stop? ⟨front ++ n :: ns, front.length⟩ = none := by
    rw [stop?_append]
    split
    · rename_i hn
      rw [Node.comparisonRest?_of_no_triple h hn]
      rfl
    · rfl
  have hlt : front.length < (front ++ n :: ns).length := by
    rw [List.length_append, List.length_cons]
    omega
  rw [step, if_pos hlt, hstop]

theorem step_end (ns : List Node) : step ⟨ns, ns.length⟩ = none :=
  if_neg (Nat.lt_irrefl _)

/-- From any place on, a sweep does what the reading does with the rest. -/
theorem reaches_greedy {ns ms : List Node} (h : Greedy ns ms) (front : List Node) :
    StateTransition.Reaches step ⟨front ++ ns, front.length⟩
      ⟨front ++ ms, (front ++ ms).length⟩ := by
  induction h generalizing front with
  | nil =>
      rw [List.append_nil]
      exact Relation.ReflTransGen.refl
  | @compare t ns ms _ ih =>
      have hrest := ih (front ++ [.group .comparison t.nodes])
      rw [List.length_append, List.append_assoc, List.append_assoc] at hrest
      exact Relation.ReflTransGen.head (step_triple front t ns) hrest
  | @copy n ns ms hn _ ih =>
      have hrest := ih (front ++ [n])
      rw [List.length_append, List.append_assoc, List.append_assoc] at hrest
      exact Relation.ReflTransGen.head (step_copy front hn) hrest

end Sweep

/-- Grouping in place comes to an end and leaves the one reading from left to
    right, which is what the pass gives. No comparison is left among the nodes
    of the result, and grouping them again changes nothing. -/
theorem groupComparisons_greedy (ns : List Node) :
    StateTransition.eval Sweep.step ⟨ns, 0⟩ =
        Part.some ⟨Node.groupComparisons ns, (Node.groupComparisons ns).length⟩ ∧
      (∀ ms, Greedy ns ms ↔ ms = Node.groupComparisons ns) ∧
      (∀ t : Triple, ¬t.nodes <:+: Node.groupComparisons ns) ∧
      Node.groupComparisons (Node.groupComparisons ns) = Node.groupComparisons ns := by
  have hgreedy := Node.greedy_groupComparisons ns
  refine ⟨?_, fun ms => ⟨Greedy.eq, ?_⟩, hgreedy.not_infix,
    Node.groupComparisons_of_not_infix hgreedy.not_infix⟩
  · rw [Part.eq_some_iff, StateTransition.mem_eval]
    exact ⟨Sweep.reaches_greedy hgreedy [], Sweep.step_end _⟩
  · rintro rfl
    exact hgreedy

end SqlGist
