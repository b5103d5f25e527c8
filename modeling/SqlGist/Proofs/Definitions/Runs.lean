import SqlGist.Proofs.Definitions.Leaves
import SqlGist.Proofs.Definitions.Places
import SqlGist.Proofs.Tree.Clauses

/-!
# Runs of Definitions

In a statement the nodes of a level are cut into runs by the keywords among them,
and a run with a comma in it becomes a list. So one of two neighbouring nodes can
stand in a list and the other in the statement itself, and a definition can begin
in one list and end in another.

Every node keeps its place all the same, one level further down at most, and
names stay where columns can stand. In a list every name does; directly in the
statement a name does if a type comes next. A type that comes next to a name
before runs are listed is in the same run, for there is no keyword in between.

## Main definitions

* `Group.Unfolds`: The children of a group hold some nodes, at places apart.
* `Node.Typed`: Behind every name of a level stands a type.

## Theorems

* `Unfolds.append`, `Unfolds.list`, `Unfolds.kept`: How stretches unfold.
* `holdsColumn_of_type`: In the statement a name before a type can be a column.
* `unfolds_listRun`, `unfolds_groupListsBehind`: Listing the runs of a level
  keeps its nodes at places apart.
-/

namespace SqlGist

/-- From place `index` on, the children `ms` of a group hold the nodes `ns`, at
    places apart. -/
def Group.Unfolds (g : Group) (path : List Frame) (index : Nat) (ms ns : List Node) : Prop :=
  ∃ ps : List Place, ps.map Place.node = ns ∧
    Node.leavesFrom g path index ms = ps.flatMap Place.leaves ∧
    (∀ p ∈ ps, ∃ place rest, p.address = (path.map Frame.index).reverse ++ place :: rest ∧
      index ≤ place ∧ place < index + ms.length) ∧
    ps.Pairwise Place.Apart

namespace Group.Unfolds

variable {g : Group} {path : List Frame} {index : Nat}

theorem standing {ms ns : List Node} (h : g.Unfolds path index ms ns) :
    Standing ns (Node.leavesFrom g path index ms) := by
  rcases h with ⟨ps, hps, hleaves, -, hapart⟩
  exact ⟨ps, hps, hleaves, hapart⟩

theorem nil : g.Unfolds path index [] [] :=
  ⟨[], rfl, rfl, List.forall_mem_nil _, List.Pairwise.nil⟩

theorem append {ms ms' ns ns' : List Node} (h : g.Unfolds path index ms ns)
    (h' : g.Unfolds path (index + ms.length) ms' ns') :
    g.Unfolds path index (ms ++ ms') (ns ++ ns') := by
  rcases h with ⟨ps, rfl, hleaves, hplaces, hapart⟩
  rcases h' with ⟨qs, rfl, hleaves', hplaces', hapart'⟩
  refine ⟨ps ++ qs, List.map_append, ?_, ?_, ?_⟩
  · rw [Node.leavesFrom_append, hleaves, hleaves', List.flatMap_append]
  · intro p hp
    rw [List.length_append]
    rcases List.mem_append.1 hp with hp | hp
    · rcases hplaces p hp with ⟨place, rest, haddress, hle, hlt⟩
      exact ⟨place, rest, haddress, hle, by omega⟩
    · rcases hplaces' p hp with ⟨place, rest, haddress, hle, hlt⟩
      exact ⟨place, rest, haddress, by omega, by omega⟩
  · refine List.pairwise_append.2 ⟨hapart, hapart', fun p hp q hq => ?_⟩
    -- The two are below different children of the group.
    rcases hplaces p hp with ⟨place, rest, haddress, -, hlt⟩
    rcases hplaces' q hq with ⟨place', rest', haddress', hle, -⟩
    have hne : place ≠ place' := by omega
    rw [Place.Apart, haddress, haddress', List.prefix_append_right_inj,
      List.prefix_append_right_inj, List.cons_prefix_cons, List.cons_prefix_cons]
    exact ⟨fun h => hne h.1, fun h => hne h.1.symm⟩

/-- A list holds its items, one level further down. -/
theorem list {items : List Node}
    (h : Group.Unfolds ⟨.nameList, items⟩ (⟨g, index⟩ :: path) 0 items items) :
    g.Unfolds path index [.group .nameList items] items := by
  rcases h with ⟨ps, hps, hleaves, hplaces, hapart⟩
  refine ⟨ps, hps, ?_, fun p hp => ?_, hapart⟩
  · rw [Node.leavesFrom, Node.leavesFrom, List.append_nil, Node.leaves, hleaves]
  · rcases hplaces p hp with ⟨place, rest, haddress, -⟩
    refine ⟨index, place :: rest, ?_, Nat.le_refl _, Nat.lt_succ_self _⟩
    rw [haddress, List.map_cons, List.reverse_cons, List.append_assoc, List.singleton_append]

/-- Children that are left as they are hold themselves. -/
theorem kept (hlevel : g.shape = .statement ∨ g.shape = .nameList)
    (hpath : ∀ f ∈ path, f.shape ≠ .whereClause) {ns : List Node}
    (hcolumn : ∀ front n back, ns = front ++ n :: back → n.isGroup .nameRef = true →
      Frame.holdsColumn ⟨g, index + front.length⟩ = true) :
    g.Unfolds path index ns ns := by
  induction ns generalizing index with
  | nil => exact nil
  | cons n ns ih =>
      have houtside : ∀ f ∈ ⟨g, index⟩ :: path, f.shape ≠ .whereClause := by
        refine List.forall_mem_cons.2 ⟨?_, hpath⟩
        rcases hlevel with h | h <;> rw [Frame.shape, h] <;> exact Shape.noConfusion
      have hfirst : g.Unfolds path index [n] [n] := by
        refine ⟨[⟨n, ⟨g, index⟩, path, hlevel, houtside, hcolumn [] n ns rfl⟩], rfl, rfl, ?_,
          List.pairwise_singleton _ _⟩
        intro p hp
        rw [List.mem_singleton.1 hp]
        refine ⟨index, [], ?_, Nat.le_refl _, Nat.lt_succ_self _⟩
        rw [Place.address, Place.frames, List.map_cons, List.reverse_cons]
      refine hfirst.append (ih fun front m back hns hm => ?_)
      have hm' := hcolumn (n :: front) m back (by rw [hns, List.cons_append]) hm
      rwa [List.length_cons, Nat.add_comm front.length, ← Nat.add_assoc] at hm'

end Group.Unfolds

namespace Node

/-- Behind every name of a level stands a type, with a blank in between. -/
def Typed : List Node → Prop
  | [] => True
  | n :: ns =>
    (n.isGroup .nameRef = true →
      ∃ type rest, ns = .leaf .space :: type :: rest ∧ type.isType = true) ∧ Typed ns

theorem keyword?_of_isType {n : Node} (h : n.isType = true) : n.keyword? = none := by
  cases n with
  | leaf t =>
      have hkind : t.kind = .builtin := of_decide_eq_true h
      simp only [keyword?, leaf?, Option.bind_some, Token.keyword?, hkind]
  | group => rfl

theorem Typed.append {as bs : List Node} (has : Typed as) (hbs : Typed bs) : Typed (as ++ bs) := by
  induction as with
  | nil => exact hbs
  | cons n as ih =>
      refine ⟨fun hn => ?_, ih has.2⟩
      rcases has.1 hn with ⟨type, rest, rfl, htype⟩
      exact ⟨type, rest ++ bs, rfl, htype⟩

theorem Typed.of_append {run rest : List Node} (h : Typed (run ++ rest))
    (hrest : ∀ m, rest.head? = some m → m.keyword? ≠ none) : Typed run := by
  induction run with
  | nil => trivial
  | cons n run ih =>
      refine ⟨fun hn => ?_, ih h.2⟩
      rcases h.1 hn with ⟨type, behind, heq, htype⟩
      -- Neither a blank nor a type is a keyword, so both are in the run.
      rcases run with _ | ⟨m, _ | ⟨m', run⟩⟩
      · have hhead : rest.head? = some (.leaf .space) := congrArg List.head? heq
        exact absurd rfl (hrest _ hhead)
      · have hhead : rest.head? = some type := congrArg List.head? (List.cons.inj heq).2
        exact absurd (keyword?_of_isType htype) (hrest _ hhead)
      · have hbehind := (List.cons.inj (List.cons.inj heq).2).1
        exact ⟨m', run, by rw [(List.cons.inj heq).1], hbehind ▸ htype⟩

theorem Typed.behind (as : List Node) {bs : List Node} (h : Typed (as ++ bs)) : Typed bs := by
  induction as with
  | nil => exact h
  | cons n as ih => exact ih h.2

theorem Typed.type_of_split {front back : List Node} {n : Node} (h : Typed (front ++ n :: back))
    (hn : n.isGroup .nameRef = true) :
    ∃ type rest, back = .leaf .space :: type :: rest ∧ type.isType = true :=
  (h.behind front).1 hn

end Node

/-- In the statement a name before a type can be a column. -/
theorem holdsColumn_of_type {g : Group} (hshape : g.shape = .statement)
    (hconstraint : ∀ n ∈ g.children, n.keyword? ≠ some .constraint) {front rest : List Node}
    {n type : Node} (hchildren : g.children = front ++ n :: .leaf .space :: type :: rest)
    (htype : type.isType = true) : Frame.holdsColumn ⟨g, front.length⟩ = true := by
  have hvisible : (!type.isWhitespace) = true ∧ type.isMark "." = false := by
    cases type with
    | leaf t =>
        have hkind : t.kind = .builtin := of_decide_eq_true htype
        simp only [Node.isWhitespace, Node.isMark, Node.leaf?, Option.any_some, Token.isWhitespace,
          Token.isMark, hkind, reduceCtorEq, decide_false, Bool.false_and, Bool.not_false, and_self]
    | group => exact ⟨rfl, rfl⟩
  have hnext : Frame.next? ⟨g, front.length⟩ = some type := by
    rw [Frame.next?_of_eq hchildren, List.find?_cons_of_neg (by decide)]
    exact List.find?_cons_of_pos hvisible.1
  have hprev : ((Frame.prev? ⟨g, front.length⟩).any fun m => m.keyword? = some .constraint) =
      false := by
    rw [Frame.prev?_of_eq hchildren]
    cases hfind : front.reverse.find? fun m => !m.isWhitespace with
    | none => rfl
    | some m =>
        have hm : m ∈ g.children := by
          rw [hchildren]
          exact List.mem_append_left _ (List.mem_reverse.1 (List.mem_of_find?_eq_some hfind))
        rw [Option.any_some, decide_eq_false (hconstraint m hm)]
  rw [Frame.holdsColumn, hprev, hnext, Option.any_some, hvisible.2, Option.any_some, htype,
    Frame.shape, hshape]
  rfl

section Statement

variable {root : Group} (hshape : root.shape = .statement)
  (hconstraint : ∀ n ∈ root.children, n.keyword? ≠ some .constraint)

include hshape hconstraint

/-- A run keeps its nodes at places apart, whether it becomes a list or not. -/
theorem unfolds_listRun {before after run : List Node}
    (hchildren : root.children = before ++ (Node.listRun false run ++ after))
    (htyped : Node.Typed run) (hharmless : ∀ n ∈ run, n.Harmless) :
    root.Unfolds [] before.length (Node.listRun false run) run := by
  have hnone : ∀ f ∈ ([] : List Frame), f.shape ≠ .whereClause := List.forall_mem_nil _
  have hblanks (gap : List Node) (hgap : ∀ n ∈ gap, n.isWhitespace = true) (index : Nat) :
      root.Unfolds [] index gap gap := by
    refine .kept (Or.inl hshape) hnone fun front n back hsplit hn => ?_
    have hblank := hgap n (hsplit ▸ List.mem_append_right _ List.mem_cons_self)
    cases n with
    | leaf => exact absurd hn Bool.false_ne_true
    | group => exact absurd hblank Bool.false_ne_true
  rcases Node.listRun_cases false run with heq | ⟨gap, items, gap', rfl, heq, hgap, hgap'⟩
  · -- A run that is kept has the type of each name next to it in the statement.
    rw [heq] at hchildren ⊢
    refine .kept (Or.inl hshape) hnone fun front n back hsplit hn => ?_
    rw [hsplit] at htyped hchildren
    rcases htyped.type_of_split hn with ⟨type, rest, rfl, htype⟩
    rw [← List.length_append]
    have hsplit' : root.children =
        (before ++ front) ++ n :: .leaf .space :: type :: (rest ++ after) := by
      rw [hchildren]
      simp only [List.append_assoc, List.cons_append]
    exact holdsColumn_of_type hshape hconstraint hsplit' htype
  · rw [heq]
    have hlist : Group.Unfolds ⟨.nameList, items⟩ [⟨root, before.length + gap.length⟩] 0 items
        items := by
      refine .kept (Or.inr rfl) ?_ fun front n back _ _ => ?_
      · intro f hf
        rw [List.mem_singleton.1 hf, Frame.shape, hshape]
        exact Shape.noConfusion
      · exact holdsColumn_of_harmless (Or.inr rfl)
          (fun m hm => hharmless m (List.mem_append_right _ (List.mem_append_left _ hm))) _
    exact (hblanks gap hgap _).append (hlist.list.append (hblanks gap' hgap' _))

/-- Listing the runs of a level keeps its nodes at places apart. -/
theorem unfolds_groupListsBehind {ns : List Node} {before run : List Node}
    (hrun : ∀ n ∈ run, n.keyword? = none)
    (hchildren : root.children = before ++ Node.groupListsBehind false (run ++ ns))
    (htyped : Node.Typed (run ++ ns)) (hharmless : ∀ n ∈ run ++ ns, n.Harmless)
    (hprojection : ∀ n ∈ ns, n.opensProjection = false) :
    root.Unfolds [] before.length (Node.groupListsBehind false (run ++ ns)) (run ++ ns) := by
  induction ns generalizing before run with
  | nil =>
      rw [List.append_nil] at hchildren htyped hharmless ⊢
      rw [Node.groupListsBehind_of_no_keyword hrun] at hchildren ⊢
      have hchildren' : root.children = before ++ (Node.listRun false run ++ []) := by
        rw [hchildren, List.append_nil]
      exact unfolds_listRun hshape hconstraint hchildren' htyped hharmless
  | cons n ns ih =>
      have hprojection' := fun m hm => hprojection m (List.mem_cons_of_mem _ hm)
      by_cases hn : n.keyword? = none
      · -- The node belongs to the run that is being read.
        have hsplit : run ++ n :: ns = (run ++ [n]) ++ ns := by
          rw [List.append_assoc, List.singleton_append]
        rw [hsplit] at hchildren htyped hharmless ⊢
        refine ih (fun m hm => ?_) hchildren htyped hharmless hprojection'
        rcases List.mem_append.1 hm with hm | hm
        · exact hrun m hm
        · rw [List.mem_singleton.1 hm]
          exact hn
      · -- The node ends that run, and another begins behind it.
        rw [Node.groupListsBehind_append hrun (Option.isSome_iff_ne_none.2 hn),
          hprojection n List.mem_cons_self] at hchildren ⊢
        have hfirst := unfolds_listRun hshape hconstraint hchildren
          (htyped.of_append fun m hm => Option.some.inj hm ▸ hn)
          fun m hm => hharmless m (List.mem_append_left _ hm)
        have hkeyword : root.Unfolds [] (before.length + (Node.listRun false run).length) [n]
            [n] := by
          refine .kept (Or.inl hshape) (List.forall_mem_nil _) ?_
          intro front m back hsplit hm
          have hmem : m ∈ [n] := hsplit ▸ List.mem_append_right _ List.mem_cons_self
          rw [List.mem_singleton.1 hmem] at hm
          cases n with
          | leaf => exact absurd hm Bool.false_ne_true
          | group => exact absurd rfl hn
        have hbehind := @ih (before ++ (Node.listRun false run ++ [n])) []
          (List.forall_mem_nil _)
          (by rw [hchildren]; simp only [List.append_assoc, List.cons_append, List.nil_append])
          (htyped.behind run).2
          (fun m hm => hharmless m (List.mem_append_right _ (List.mem_cons_of_mem _ hm)))
          hprojection'
        rw [List.length_append, List.length_append, ← Nat.add_assoc] at hbehind
        exact hfirst.append (hkeyword.append hbehind)

end Statement

end SqlGist
