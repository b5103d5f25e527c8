import SqlGist.Role
import SqlGist.Tree.Leaf

/-!
# Readings That Conditions Have No Part In

The target of a statement, its columns and the values it writes are each a
choice of leaves, of which something is read. A leaf is chosen by the shapes
around it, by its neighbours, and by the keywords in front of it.

None of the three choices takes a leaf that is directly in the statement, and
none takes one that is inside the condition, however deep. Of the other leaves
each looks at the outermost group only through the place of the child they are
below: its shape, whether that place holds a column, and the keywords in front
of it. Where two places agree on these, they are `Alike`, and whatever is below
is read the same.

## Main definitions

* `Frame.Alike`: Places in two groups that a leaf below cannot tell apart.
* `Leaf.Blind`: A choice that no condition has a part in.
* `Leaf.readings`: What is read of the chosen leaves.

## Theorems

* `blind_isTarget`, `blind_isColumn`, `blind_isWritten`: The three choices.
* `readings_leaves_alike`: A node is read the same at like places.
-/

namespace SqlGist

/-- Places in two groups that a leaf below cannot tell apart. -/
structure Frame.Alike (f f' : Frame) : Prop where
  shape : f.shape = f'.shape
  holdsColumn : f.holdsColumn = f'.holdsColumn
  behind : ∀ k : Keyword, ((f.group.children.take f.index).any fun n => n.keyword? = some k) =
    (f'.group.children.take f'.index).any fun n => n.keyword? = some k

/-- A choice of leaves, and what is read of them, that no condition and no leaf
    directly in the outermost group has a part in. -/
structure Leaf.Blind {β : Type} (chosen : Leaf → Bool) (read : Leaf → β) : Prop where
  outer : ∀ t (f : Frame), f.shape = .statement → chosen ⟨t, [f]⟩ = false
  inside : ∀ t (front : List Frame) clause (f : Frame), clause.shape = .whereClause →
    (∀ g ∈ front, g.shape ≠ .statement) → chosen ⟨t, front ++ [clause, f]⟩ = false
  chosen_alike : ∀ t front (f f' : Frame), f.Alike f' →
    chosen ⟨t, front ++ [f]⟩ = chosen ⟨t, front ++ [f']⟩
  read_alike : ∀ t front (f f' : Frame), f.Alike f' →
    read ⟨t, front ++ [f]⟩ = read ⟨t, front ++ [f']⟩

namespace Leaf

section Alike

variable (t : Token) (front : List Frame) {f f' : Frame} (h : f.Alike f')

include h

theorem ancestorsAre_alike (shapes : List Shape) :
    ancestorsAre ⟨t, front ++ [f]⟩ shapes = ancestorsAre ⟨t, front ++ [f']⟩ shapes := by
  simp only [ancestorsAre, List.map_append, List.map_cons, List.map_nil, h.shape]

theorem hasAncestor_alike (shape : Shape) :
    hasAncestor ⟨t, front ++ [f]⟩ shape = hasAncestor ⟨t, front ++ [f']⟩ shape := by
  simp only [hasAncestor, List.any_append, List.any_cons, List.any_nil, h.shape]

theorem isBehind_alike (k : Keyword) :
    isBehind ⟨t, front ++ [f]⟩ k = isBehind ⟨t, front ++ [f']⟩ k := by
  simp only [isBehind, root?, List.getLast?_concat, Option.any_some, h.behind]

theorem isTarget_alike : isTarget ⟨t, front ++ [f]⟩ = isTarget ⟨t, front ++ [f']⟩ := by
  simp only [isTarget, ancestorsAre_alike t front h]

theorem isColumn_alike : isColumn ⟨t, front ++ [f]⟩ = isColumn ⟨t, front ++ [f']⟩ := by
  have hparent : (ancestor? ⟨t, front ++ [f]⟩ 1).any Frame.holdsColumn =
      (ancestor? ⟨t, front ++ [f']⟩ 1).any Frame.holdsColumn := by
    -- The frame asked is the outermost one only right below it.
    match front with
    | [] => rfl
    | [_] => exact h.holdsColumn
    | _ :: _ :: _ => rfl
  simp only [isColumn, inWhere, hasAncestor_alike t front h, ancestorsAre_alike t front h, hparent]

theorem isWritten_alike (k : Keyword) :
    isWritten ⟨t, front ++ [f]⟩ k = isWritten ⟨t, front ++ [f']⟩ k := by
  simp only [isWritten, inWhere, hasAncestor_alike t front h, isBehind_alike t front h]

end Alike

theorem inWhere_of_mem {l : Leaf} {f : Frame} (hf : f ∈ l.path) (hshape : f.shape = .whereClause) :
    l.inWhere = true :=
  List.any_eq_true.2 ⟨f, hf, decide_eq_true hshape⟩

/-- Directly in the outermost group no leaf is inside a name. -/
theorem not_ancestorsAre_outer (t : Token) {f : Frame} (hf : f.shape = .statement)
    (shapes : List Shape) : ancestorsAre ⟨t, [f]⟩ (.nameRef :: shapes) = false := by
  simp only [ancestorsAre, List.map_cons, List.isPrefixOf, hf]
  rfl

theorem blind_isColumn : Blind isColumn value where
  outer t f hf := by
    rw [isColumn, not_ancestorsAre_outer t hf, Bool.and_false, Bool.false_and]
  inside t front clause f hclause _ := by
    rw [isColumn, inWhere_of_mem (List.mem_append_right front List.mem_cons_self) hclause,
      Bool.not_true, Bool.and_false, Bool.false_and, Bool.false_and]
  chosen_alike t front _ _ h := isColumn_alike t front h
  read_alike _ _ _ _ _ := rfl

theorem blind_isWritten (k : Keyword) :
    Blind (fun l => l.isWritten k) fun l => (l.value, l.writeAction) where
  outer t f hf := by
    have hnone (shape : Shape) (h : Shape.statement ≠ shape) :
        hasAncestor ⟨t, [f]⟩ shape = false := by
      simp only [hasAncestor, List.any_cons, List.any_nil, hf, decide_eq_false h, Bool.or_false]
    rw [isWritten, hnone .nameList Shape.noConfusion, hnone .comparison Shape.noConfusion,
      Bool.false_and, Bool.or_false, Bool.and_false]
  inside t front clause f hclause _ := by
    rw [isWritten, inWhere_of_mem (List.mem_append_right front List.mem_cons_self) hclause,
      Bool.not_true, Bool.and_false, Bool.false_and]
  chosen_alike t front _ _ h := isWritten_alike t front h k
  read_alike t front _ _ h := by simp only [value, writeAction, hasAncestor_alike t front h]

/-- Inside the condition no leaf is below a statement but for the outermost group,
    and there the condition is in between. -/
theorem not_ancestorsAre_inside (t : Token) {front : List Frame} {clause : Frame} (f : Frame)
    (hclause : clause.shape = .whereClause) (hfront : ∀ g ∈ front, g.shape ≠ .statement)
    {shapes : List Shape} (hshapes : .whereClause ∉ shapes) :
    ancestorsAre ⟨t, front ++ [clause, f]⟩ (shapes ++ [.statement]) = false := by
  rw [← Bool.not_eq_true, ancestorsAre, List.isPrefixOf_iff_prefix, List.map_append]
  rintro ⟨rest, heq⟩
  rw [List.append_assoc] at heq
  rcases List.append_eq_append_iff.1 heq with ⟨more, hmore, hrest⟩ | ⟨more, rfl, hrest⟩
  · cases more with
    | nil =>
        rw [List.nil_append, List.map_cons, hclause] at hrest
        exact Shape.noConfusion (List.cons.inj hrest).1
    | cons shape more =>
        have hmem : Shape.statement ∈ front.map Frame.shape := by
          rw [hmore, (List.cons.inj hrest).1]
          exact List.mem_append_right _ List.mem_cons_self
        rcases List.mem_map.1 hmem with ⟨g, hg, hshape⟩
        exact hfront g hg hshape
  · cases more with
    | nil =>
        rw [List.nil_append, List.map_cons, hclause] at hrest
        exact Shape.noConfusion (List.cons.inj hrest).1
    | cons shape more =>
        rw [List.map_cons, hclause] at hrest
        refine hshapes (List.mem_append_right _ ?_)
        rw [(List.cons.inj hrest).1]
        exact List.mem_cons_self

theorem blind_isTarget : Blind isTarget value where
  outer t f hf := by
    rw [isTarget, not_ancestorsAre_outer t hf, not_ancestorsAre_outer t hf, Bool.or_false,
      Bool.and_false]
  inside t front clause f hclause hfront := by
    have hname := @not_ancestorsAre_inside t front clause f hclause hfront [.nameRef] (by decide)
    have hcall := @not_ancestorsAre_inside t front clause f hclause hfront
      [.nameRef, .functionCall] (by decide)
    rw [List.singleton_append] at hname
    rw [isTarget, hname, show [Shape.nameRef, .functionCall, .statement] =
      [.nameRef, .functionCall] ++ [.statement] from rfl, hcall, Bool.or_false, Bool.and_false]
  chosen_alike t front _ _ h := isTarget_alike t front h
  read_alike _ _ _ _ _ := rfl

/-- What is read of the chosen leaves. -/
def readings {β : Type} (chosen : Leaf → Bool) (read : Leaf → β) (leaves : List Leaf) : List β :=
  (leaves.filter chosen).map read

section Readings

variable {β : Type} {chosen : Leaf → Bool} {read : Leaf → β}

theorem readings_append (as bs : List Leaf) :
    readings chosen read (as ++ bs) = readings chosen read as ++ readings chosen read bs := by
  rw [readings, List.filter_append, List.map_append]
  rfl

theorem readings_eq_nil {ls : List Leaf} (h : ∀ l ∈ ls, chosen l = false) :
    readings chosen read ls = [] := by
  rw [readings, List.filter_eq_nil_iff.2 fun l hl => Bool.eq_false_iff.1 (h l hl), List.map_nil]

mutual

/-- What is read of the leaves of a node is the same at like places. -/
theorem readings_leaves_alike (hb : Blind chosen read) {f f' : Frame} (h : f.Alike f')
    (front : List Frame) : (n : Node) →
    readings chosen read (n.leaves (front ++ [f])) =
      readings chosen read (n.leaves (front ++ [f']))
  | .leaf t => by
      simp only [Node.leaves, readings, List.filter_cons, List.filter_nil,
        hb.chosen_alike t front f f' h]
      split
      · rw [List.map_singleton, List.map_singleton, hb.read_alike t front f f' h]
      · rfl
  | .group shape children => readings_leavesFrom_alike hb h ⟨shape, children⟩ front 0 children

theorem readings_leavesFrom_alike (hb : Blind chosen read) {f f' : Frame} (h : f.Alike f')
    (g : Group) (front : List Frame) (index : Nat) : (ns : List Node) →
    readings chosen read (Node.leavesFrom g (front ++ [f]) index ns) =
      readings chosen read (Node.leavesFrom g (front ++ [f']) index ns)
  | [] => rfl
  | n :: ns => by
      rw [Node.leavesFrom, Node.leavesFrom, readings_append, readings_append,
        ← List.cons_append, ← List.cons_append, readings_leaves_alike hb h (⟨g, index⟩ :: front) n,
        readings_leavesFrom_alike hb h g front (index + 1) ns]

end

end Readings

end Leaf

end SqlGist
