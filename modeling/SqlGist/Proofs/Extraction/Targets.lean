import Mathlib.Data.List.Basic
import SqlGist.Proofs.Extraction.Scanning
import SqlGist.Proofs.Tree.Lossless

/-!
# The Targets of a Statement

Which leaves name a table or a database is told from the shapes around them, and
what is asked of these ends at the statement. So it is told child by child: a
child that is a name or a call has one target, the leaf it begins with, and no
other child has any. The targets of a statement are then the names among its
children, and what stands deeper has no part in them.

Every command takes its first target for its table or database, and those that
are about a named constraint take the second for that. Nothing else is read
before, so a statement that lacks one fails for that.

## Main definitions

* `Node.target?`: The name that makes a child of a statement a target.
* `Node.targets`: The targets among some children.
* `Group.IsStatement`: What a statement has for children.
* `Group.IsInner`: A group that has no statement between it and its leaves.
* `Command.targets`: How many targets a command asks for.

## Theorems

* `isStatement_of_ofText`: Trees of statements are such.
* `isTarget_iff`: The shapes around a target.
* `filter_isTarget_tidy`: A child holds its target and no other.
* `targets_leavesFrom`, `targets_leaves`: The targets are those of the children.
* `run_of_missing`: A statement that lacks a target is a mismatch.
* `constraint_of_run`, `name_of_run`: What the targets are to an entity.
-/

namespace SqlGist

namespace Node

/-- The name that makes a child of a statement a target: it stands alone, or is
    that of a call. -/
def target? : Node → Option Token
  | .group .nameRef [.leaf t] => if t.isName then some t else none
  | .group .functionCall (.group .nameRef [.leaf t] :: _) => if t.isName then some t else none
  | _ => none

/-- The targets among some children of a statement. -/
def targets (ns : List Node) : List Token :=
  ns.filterMap target?

theorem target?_eq_some_iff {n : Node} {t : Token} :
    n.target? = some t ↔ t.isName = true ∧ (n = nameRef (.leaf t) ∨
      ∃ rest, n = .group .functionCall (nameRef (.leaf t) :: rest)) := by
  constructor
  · intro h
    rw [target?.eq_def] at h
    split at h
    · split at h
      · rename_i u hu
        obtain rfl := Option.some.inj h
        exact ⟨hu, Or.inl rfl⟩
      · exact absurd h.symm (Option.some_ne_none t)
    · split at h
      · rename_i u rest hu
        obtain rfl := Option.some.inj h
        exact ⟨hu, Or.inr ⟨rest, rfl⟩⟩
      · exact absurd h.symm (Option.some_ne_none t)
    · exact absurd h.symm (Option.some_ne_none t)
  · rintro ⟨hname, rfl | ⟨rest, rfl⟩⟩ <;> exact if_pos hname

theorem targets_append (as bs : List Node) : targets (as ++ bs) = targets as ++ targets bs :=
  List.filterMap_append

theorem targets_cons (n : Node) (ns : List Node) :
    targets (n :: ns) = n.target?.toList ++ targets ns := by
  rw [targets, List.filterMap_cons]
  cases n.target? <;> rfl

end Node

/-- The group is a statement. Its children are tidy, or the group of the condition,
    which is made of tidy nodes. -/
structure Group.IsStatement (root : Group) : Prop where
  shape : root.shape = .statement
  children : ∀ n ∈ root.children, n.Tidy ∨
    ∃ condition, n = .group .whereClause condition ∧ ∀ m ∈ condition, m.Tidy

theorem isStatement_of_ofText {sql : String} {root : Group} (h : Group.ofText sql = .ok root) :
    root.IsStatement := by
  rcases ofText_eq_ok_iff.1 h with ⟨statement, items, -, hnest, rfl⟩
  have hmatched := Nested.matched_nest hnest
  refine ⟨rfl, fun n hn => ?_⟩
  rcases mem_rootNodes hmatched hn with hn | ⟨clause, condition, rfl, -, hmem, -⟩
  · exact Or.inl hn
  · exact Or.inr ⟨_, rfl, fun m hm => tidy_ungroupedNodes hmatched m (hmem m hm)⟩

namespace Leaf

section Below

variable {t : Token} {front : List Frame} {f : Frame} (hf : f.shape = .statement)
  (hfront : ∀ g ∈ front, g.shape ≠ .statement)

include hf hfront

/-- Shapes up to a statement are all the shapes around a leaf, if there is no other
    statement on the way. -/
theorem ancestorsAre_concat_iff {shapes : List Shape} :
    ancestorsAre ⟨t, front ++ [f]⟩ (shapes ++ [.statement]) = true ↔
      front.map Frame.shape = shapes := by
  have hnew : Shape.statement ∉ front.map Frame.shape := by
    intro hmem
    rcases List.mem_map.1 hmem with ⟨g, hg, hshape⟩
    exact hfront g hg hshape
  rw [ancestorsAre, List.isPrefixOf_iff_prefix, List.map_append, List.map_singleton, hf]
  constructor
  · rintro ⟨rest, heq⟩
    rw [List.append_assoc, List.singleton_append] at heq
    exact ((List.append_cons_inj_of_notMem hnew List.not_mem_nil).1 heq.symm).1
  · rintro rfl
    exact List.prefix_rfl

/-- A leaf below a statement is a target exactly if it is a name in nothing else, or
    in a call. -/
theorem isTarget_iff :
    isTarget ⟨t, front ++ [f]⟩ = true ↔ t.isName = true ∧
      (front.map Frame.shape = [.nameRef] ∨ front.map Frame.shape = [.nameRef, .functionCall]) := by
  have hname := @ancestorsAre_concat_iff t front f hf hfront [.nameRef]
  have hcall := @ancestorsAre_concat_iff t front f hf hfront [.nameRef, .functionCall]
  rw [List.singleton_append] at hname
  rw [List.cons_append, List.singleton_append] at hcall
  rw [isTarget, Bool.and_eq_true, Bool.or_eq_true, hname, hcall]

end Below

end Leaf

/-- Neither the group nor any other between it and its leaves is a statement. -/
def Group.IsInner (g : Group) : Prop :=
  g.shape ≠ .statement ∧ ∀ path, ∀ l ∈ g.toNode.leaves path,
    ∃ front place, l.path = front ++ ⟨g, place⟩ :: path ∧ ∀ f ∈ front, f.shape ≠ .statement

theorem Node.Tidy.isInner {shape : Shape} {children : List Node}
    (h : (Node.group shape children).Tidy) : Group.IsInner ⟨shape, children⟩ := by
  refine ⟨by cases h <;> exact Shape.noConfusion, fun path l hl => ?_⟩
  rcases h.isPart path l hl with ⟨around, haround, hparts⟩
  rcases suffix_of_mem_leavesFrom ⟨shape, children⟩ path 0 children hl with
    ⟨place, -, front, hfront⟩
  obtain rfl : around = front ++ [⟨⟨shape, children⟩, place⟩] := by
    refine (List.append_left_inj path).1 ?_
    rw [← haround, ← hfront, List.append_assoc, List.singleton_append]
  exact ⟨front, place, hfront.symm, fun g hg => (hparts g (List.mem_append_left _ hg)).1⟩

theorem Node.isInner_clause {condition : List Node} (h : ∀ m ∈ condition, m.Tidy) :
    Group.IsInner ⟨.whereClause, condition⟩ := by
  refine ⟨Shape.noConfusion, fun path l hl => ?_⟩
  rcases mem_leavesFrom hl with ⟨m, hm, place, hl⟩
  rcases (h m hm).isPart _ l hl with ⟨front, hpath, hfront⟩
  exact ⟨front, place, hpath, fun f hf => (hfront f hf).1⟩

/-- No leaf of a group is a target if the shapes from the group up to the statement
    are others than those around one. -/
theorem Group.IsInner.not_isTarget {g : Group} (h : g.IsInner) {f : Frame}
    (hf : f.shape = .statement) (behind : List Frame)
    (hbehind : ∀ b ∈ behind, b.shape ≠ .statement)
    (shapes : List Shape) (hshapes : g.shape :: behind.map Frame.shape = shapes)
    (hname : ¬shapes <:+ [.nameRef]) (hcall : ¬shapes <:+ [.nameRef, .functionCall]) :
    ∀ l ∈ g.toNode.leaves (behind ++ [f]), l.isTarget = false := by
  intro l hl
  rcases h.2 _ l hl with ⟨front, place, hpath, hfront⟩
  have hl : l = ⟨l.token, (front ++ ⟨g, place⟩ :: behind) ++ [f]⟩ := by
    rw [List.append_assoc, List.cons_append, ← hpath]
  have haround : ∀ b ∈ front ++ ⟨g, place⟩ :: behind, b.shape ≠ .statement := by
    intro b hb
    rcases List.mem_append.1 hb with hb | hb
    · exact hfront b hb
    · rcases List.mem_cons.1 hb with rfl | hb
      · exact h.1
      · exact hbehind b hb
  have hmap :
      (front ++ ⟨g, place⟩ :: behind).map Frame.shape = front.map Frame.shape ++ shapes := by
    rw [List.map_append, List.map_cons, ← hshapes]
    rfl
  rw [← Bool.not_eq_true, hl, Leaf.isTarget_iff hf haround, hmap]
  rintro ⟨-, heq | heq⟩
  · exact hname ⟨_, heq⟩
  · exact hcall ⟨_, heq⟩

namespace Node

section Child

variable {f : Frame} (hf : f.shape = .statement)

include hf

/-- A name directly in a statement is its target, and so is the name of a call. -/
theorem isTarget_name {t : Token} (ht : t.isName = true) :
    Leaf.isTarget ⟨t, [⟨⟨.nameRef, [.leaf t]⟩, 0⟩, f]⟩ = true := by
  have hiff := @Leaf.isTarget_iff t [⟨⟨.nameRef, [.leaf t]⟩, 0⟩] f hf
    (List.forall_mem_singleton.2 Shape.noConfusion)
  exact hiff.2 ⟨ht, Or.inl rfl⟩

theorem isTarget_call {t : Token} (ht : t.isName = true) (rest : List Node) :
    Leaf.isTarget ⟨t, [⟨⟨.nameRef, [.leaf t]⟩, 0⟩,
      ⟨⟨.functionCall, nameRef (.leaf t) :: rest⟩, 0⟩, f]⟩ = true := by
  have hiff := @Leaf.isTarget_iff t [⟨⟨.nameRef, [.leaf t]⟩, 0⟩,
    ⟨⟨.functionCall, nameRef (.leaf t) :: rest⟩, 0⟩] f hf
    (List.forall_mem_cons.2 ⟨Shape.noConfusion, List.forall_mem_singleton.2 Shape.noConfusion⟩)
  exact hiff.2 ⟨ht, Or.inr rfl⟩

/-- In a child that is neither a name nor a call there is no target. -/
theorem filter_isTarget_inner {shape : Shape} {children : List Node}
    (h : Group.IsInner ⟨shape, children⟩) (hname : shape ≠ .nameRef)
    (hcall : shape ≠ .functionCall) :
    ((group shape children).leaves [f]).filter Leaf.isTarget = [] := by
  have hnone : ∀ l ∈ (group shape children).leaves [f], l.isTarget = false := by
    refine h.not_isTarget hf [] (List.forall_mem_nil _) [shape] rfl ?_ ?_
    · simp only [List.suffix_cons_iff, List.cons.injEq, hname, false_and,
        List.suffix_nil, reduceCtorEq, or_self, not_false_eq_true]
    · simp only [List.suffix_cons_iff, List.cons.injEq, hname, hcall, false_and,
        List.suffix_nil, reduceCtorEq, or_self, not_false_eq_true]
  exact List.filter_eq_nil_iff.2 fun l hl => Bool.eq_false_iff.1 (hnone l hl)

/-- Of the leaves of a child the targets are the one that the child has. -/
theorem filter_isTarget_tidy {n : Node} (h : n.Tidy) :
    ((n.leaves [f]).filter Leaf.isTarget).map Leaf.token = n.target?.toList := by
  have htidy := h
  cases h with
  | @leaf t hname =>
      have htarget : ¬Leaf.isTarget ⟨t, [f]⟩ = true := by
        rw [Leaf.isTarget, hname, Bool.false_and]
        exact Bool.false_ne_true
      rw [leaves, List.filter_cons_of_neg htarget]
      rfl
  | @name t ht =>
      have htarget := isTarget_name hf ht
      simp only [nameRef, leaves, leavesFrom, List.append_nil, List.filter_cons_of_pos htarget,
        List.filter_nil, target?, ht, if_true, List.map_singleton, Option.toList]
  | @call t p ht hshape hp =>
      have htarget := isTarget_call hf ht [p]
      have hargument : (p.leaves [⟨⟨.functionCall, [nameRef (.leaf t), p]⟩, 1⟩, f]).filter
          Leaf.isTarget = [] := by
        cases p with
        | leaf u => exact absurd hshape Bool.false_ne_true
        | group shape children =>
            obtain rfl : shape = .parenthesis := Option.some.inj (of_decide_eq_true hshape)
            have hnone : ∀ l ∈ (group .parenthesis children).leaves [⟨⟨.functionCall,
                [nameRef (.leaf t), .group .parenthesis children]⟩, 1⟩, f], l.isTarget = false :=
              hp.isInner.not_isTarget hf [⟨⟨.functionCall, _⟩, 1⟩]
                (List.forall_mem_singleton.2 Shape.noConfusion) [.parenthesis, .functionCall] rfl
                (by decide) (by decide)
            exact List.filter_eq_nil_iff.2 fun l hl => Bool.eq_false_iff.1 (hnone l hl)
      have hleaves : (group .functionCall [nameRef (.leaf t), p]).leaves [f] =
          ⟨t, [⟨⟨.nameRef, [.leaf t]⟩, 0⟩, ⟨⟨.functionCall, [nameRef (.leaf t), p]⟩, 0⟩, f]⟩ ::
            (p.leaves [⟨⟨.functionCall, [nameRef (.leaf t), p]⟩, 1⟩, f] ++ []) := rfl
      rw [hleaves, List.filter_cons_of_pos htarget, List.append_nil, hargument, nameRef, target?,
        if_pos ht]
      rfl
  | comparison | list | parens =>
      rw [filter_isTarget_inner hf htidy.isInner Shape.noConfusion Shape.noConfusion]
      rfl

end Child

end Node

namespace Group.IsStatement

variable {root : Group} (h : root.IsStatement)

include h

theorem filter_isTarget {n : Node} (hn : n ∈ root.children) (place : Nat) :
    ((n.leaves [⟨root, place⟩]).filter Leaf.isTarget).map Leaf.token = n.target?.toList := by
  have hf : (⟨root, place⟩ : Frame).shape = .statement := h.shape
  rcases h.children n hn with htidy | ⟨condition, rfl, hcondition⟩
  · exact Node.filter_isTarget_tidy hf htidy
  · rw [Node.filter_isTarget_inner hf (Node.isInner_clause hcondition) Shape.noConfusion
      Shape.noConfusion]
    rfl

/-- The targets among the leaves of some children are those of the children. -/
theorem targets_leavesFrom {ns : List Node} (hns : ∀ n ∈ ns, n ∈ root.children) (index : Nat) :
    ((Node.leavesFrom root [] index ns).filter Leaf.isTarget).map Leaf.token =
      Node.targets ns := by
  induction ns generalizing index with
  | nil => rfl
  | cons n ns ih =>
      rw [Node.leavesFrom, List.filter_append, List.map_append,
        h.filter_isTarget (hns n List.mem_cons_self),
        ih fun m hm => hns m (List.mem_cons_of_mem _ hm), Node.targets_cons]

theorem targets_leaves :
    (root.leaves.filter Leaf.isTarget).map Leaf.token = Node.targets root.children :=
  h.targets_leavesFrom (fun _ hn => hn) 0

theorem target_of_missing (hmissing : (Node.targets root.children).length < 1) :
    target root.leaves = .error
      (.mismatch (.missingTargets 1 (Node.targets root.children).length)) := by
  rw [← h.targets_leaves, List.length_map] at hmissing ⊢
  rw [target]
  cases hfound : root.leaves.filter Leaf.isTarget with
  | nil => rfl
  | cons l ls =>
      rw [hfound, List.length_cons] at hmissing
      omega

theorem exists_of_target {name : String} (hname : target root.leaves = .ok name) :
    ∃ u rest, Node.targets root.children = u :: rest ∧ name = u.value := by
  rw [← h.targets_leaves]
  rw [target] at hname
  split at hname
  · rename_i l ls hfound
    rw [hfound, ← Except.ok.inj hname]
    exact ⟨l.token, ls.map Leaf.token, rfl, rfl⟩
  · simp only [reduceCtorEq] at hname

theorem targetPair_of_missing (hmissing : (Node.targets root.children).length < 2) :
    targetPair root.leaves = .error
      (.mismatch (.missingTargets 2 (Node.targets root.children).length)) := by
  rw [← h.targets_leaves, List.length_map] at hmissing ⊢
  rw [targetPair]
  split
  · rename_i l m ls hfound
    rw [hfound, List.length_cons, List.length_cons] at hmissing
    omega
  · rfl

theorem exists_of_targetPair {name constraint : String}
    (hpair : targetPair root.leaves = .ok (name, constraint)) :
    ∃ u v rest, Node.targets root.children = u :: v :: rest ∧ name = u.value ∧
      constraint = v.value := by
  rw [← h.targets_leaves]
  rw [targetPair] at hpair
  split at hpair
  · rename_i l m ls hfound
    rw [Except.ok.injEq, Prod.mk.injEq] at hpair
    rw [hfound, ← hpair.1, ← hpair.2]
    exact ⟨l.token, m.token, ls.map Leaf.token, rfl, rfl, rfl⟩
  · simp only [reduceCtorEq] at hpair

end Group.IsStatement

/-- How many targets a command asks for: its table or database, and the constraint
    if it is about a named one. -/
def Command.targets : Command → Nat
  | .addUnique | .addPrimaryKey | .dropConstraint => 2
  | _ => 1

/-- The same of an extraction. -/
def Extraction.targets : Extraction → Nat
  | .addConstraint _ | .dropConstraint => 2
  | _ => 1

theorem Command.targets_extraction (c : Command) : c.extraction.targets = c.targets := by
  cases c <;> rfl

theorem error_bind {ε α β : Type} {x : Except ε α} {e : ε} (h : x = .error e)
    (f : α → Except ε β) : (x >>= f) = .error e := by
  rw [h]
  rfl

namespace Extraction

variable {x : Extraction} {root : Group} (hroot : root.IsStatement)

include hroot

/-- A statement with too few targets is a mismatch that counts them, whatever else
    it lacks. -/
theorem run_of_missing (h : (Node.targets root.children).length < x.targets) :
    x.run root = .error (.mismatch
      (.missingTargets x.targets (Node.targets root.children).length)) := by
  cases x with
  | addConstraint kind =>
      rw [run, constrainedTable, error_bind (hroot.targetPair_of_missing h)]
      rfl
  | dropConstraint =>
      rw [run, releasedTable, error_bind (hroot.targetPair_of_missing h)]
      rfl
  | database action =>
      rw [run, hroot.target_of_missing h]
      rfl
  | table plan =>
      rw [run, tableOf, error_bind (hroot.target_of_missing h)]
      rfl
  | write plan =>
      rw [run, writtenTable, error_bind (hroot.target_of_missing h)]
      rfl
  | setDefault =>
      rw [run, defaultedTable, error_bind (hroot.target_of_missing h)]
      rfl
  | dropDefault =>
      rw [run, undefaultedTable, error_bind (hroot.target_of_missing h)]
      rfl

/-- Where two are asked for, the second names the constraint of every column. -/
theorem constraint_of_run (hx : x.targets = 2) {e : Entity} (h : x.run root = .ok e) :
    ∃ u v rest, Node.targets root.children = u :: v :: rest ∧ e.name = u.value ∧
      e.columns ≠ [] ∧
      ∀ column ∈ e.columns, column.constraints.map Constraint.name = [v.value] := by
  cases x with
  | addConstraint kind =>
      rcases map_eq_ok.1 h with ⟨t, ht, rfl⟩
      rcases constrainedTable_eq_ok_iff.1 ht with ⟨name, constraint, hpair, hne, rfl⟩
      rcases hroot.exists_of_targetPair hpair with ⟨u, v, rest, htargets, hname, rfl⟩
      refine ⟨u, v, rest, htargets, hname, fun hnil => hne (List.map_eq_nil_iff.1 hnil), ?_⟩
      intro column hcolumn
      rcases List.mem_map.1 hcolumn with ⟨l, -, rfl⟩
      rfl
  | dropConstraint =>
      rcases map_eq_ok.1 h with ⟨t, ht, rfl⟩
      rcases releasedTable_eq_ok_iff.1 ht with ⟨name, constraint, hpair, rfl⟩
      rcases hroot.exists_of_targetPair hpair with ⟨u, v, rest, htargets, hname, rfl⟩
      refine ⟨u, v, rest, htargets, hname, List.cons_ne_nil _ _, fun column hcolumn => ?_⟩
      rw [List.mem_singleton.1 hcolumn]
      rfl
  | _ => exact absurd (show 1 = 2 from hx) (by decide)

/-- The first target names the table or database. -/
theorem name_of_run {e : Entity} (h : x.run root = .ok e) :
    ∃ u rest, Node.targets root.children = u :: rest ∧ e.name = u.value := by
  cases x with
  | database action =>
      rcases map_eq_ok.1 h with ⟨name, hname, rfl⟩
      exact hroot.exists_of_target hname
  | table plan =>
      rcases map_eq_ok.1 h with ⟨t, ht, rfl⟩
      rcases tableOf_eq_ok_iff.1 ht with ⟨name, columns, filter, hname, -, -, rfl⟩
      exact hroot.exists_of_target hname
  | write plan =>
      rcases map_eq_ok.1 h with ⟨t, ht, rfl⟩
      rcases writtenTable_eq_ok_iff.1 ht with ⟨name, columns, filter, hname, -, -, rfl⟩
      exact hroot.exists_of_target hname
  | setDefault =>
      rcases map_eq_ok.1 h with ⟨t, ht, rfl⟩
      rcases defaultedTable_eq_ok_iff.1 ht with ⟨name, value, column, hname, -, -, rfl⟩
      exact hroot.exists_of_target hname
  | dropDefault =>
      rcases map_eq_ok.1 h with ⟨t, ht, rfl⟩
      rcases undefaultedTable_eq_ok_iff.1 ht with ⟨name, column, hname, -, rfl⟩
      exact hroot.exists_of_target hname
  | addConstraint | dropConstraint =>
      rcases constraint_of_run hroot rfl h with ⟨u, v, rest, htargets, hname, -⟩
      exact ⟨u, v :: rest, htargets, hname⟩

end Extraction

end SqlGist
