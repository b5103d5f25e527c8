import Mathlib.Data.List.Pairwise
import SqlGist.Proofs.Definitions.Twins

/-!
# The Places of a Level

The nodes of a level stand next to each other, but they need not stand in one
group: some can be in the statement itself and others in lists there. What is
read of definitions does not depend on that, as long as every name stands where
a column can, and no two nodes stand in one place or one inside the other.

So a level is taken as a list of nodes with their places. The leaves of a node
are the same at every place but for what is around the place, and two levels
with the same nodes have twins for leaves.

## Main definitions

* `Place`: A node and where it stands, in the statement or in a list.
* `Place.Apart`: Neither of two places is at or inside the other.
* `Standing`: The leaves of nodes that stand at places apart.

## Theorems

* `leaves_under`: The leaves of a node, wherever it stands.
* `isTwin_under`, `isWithin_under`: The same leaves below two places.
* `Standing.gatherFrom_eq`, `Standing.ownedFrom_eq`: The same nodes at other
  places add the same columns and have the same constraints.
-/

namespace SqlGist

/-- A node that is the child of a statement or of a list, outside of the
    condition, and if it is a name, then where a column can stand. -/
structure Place where
  node : Node
  frame : Frame
  path : List Frame
  level : frame.shape = .statement ∨ frame.shape = .nameList
  outside : ∀ f ∈ frame :: path, f.shape ≠ .whereClause
  column : node.isGroup .nameRef = true → frame.holdsColumn = true

namespace Place

/-- The groups around the node. -/
def frames (p : Place) : List Frame :=
  p.frame :: p.path

/-- The leaves of the node. -/
def leaves (p : Place) : List Leaf :=
  p.node.leaves p.frames

/-- The places from the root down to the node. -/
def address (p : Place) : List Nat :=
  (p.frames.map Frame.index).reverse

/-- Neither of the nodes is the other, or inside it. -/
def Apart (p q : Place) : Prop :=
  ¬p.address <+: q.address ∧ ¬q.address <+: p.address

theorem Apart.symm {p q : Place} (h : p.Apart q) : q.Apart p :=
  And.symm h

end Place

/-- The leaf with more groups around it. -/
def Leaf.under (path : List Frame) (l : Leaf) : Leaf :=
  ⟨l.token, l.path ++ path⟩

namespace Node

mutual

/-- The leaves of a node are those that it has by itself, with the groups around
    the node around each. -/
theorem leaves_under (front path : List Frame) : (n : Node) →
    n.leaves (front ++ path) = (n.leaves front).map (Leaf.under path)
  | .leaf _ => rfl
  | .group shape children => leavesFrom_under ⟨shape, children⟩ front path 0 children

theorem leavesFrom_under (g : Group) (front path : List Frame) (index : Nat) : (ns : List Node) →
    leavesFrom g (front ++ path) index ns =
      (leavesFrom g front index ns).map (Leaf.under path)
  | [] => rfl
  | n :: ns => by
      rw [leavesFrom, leavesFrom, List.map_append, ← leaves_under (⟨g, index⟩ :: front) path n,
        ← leavesFrom_under g front path (index + 1) ns, List.cons_append]

end

end Node

namespace Leaf

theorem address_under (path : List Frame) (l : Leaf) :
    (l.under path).address = (path.map Frame.index).reverse ++ l.address := by
  rw [address, under, List.map_append, List.reverse_append, address]

/-- Which shapes are around a leaf of a node is up to the node, but for a leaf
    right below a place: there is no name, call or parenthesis around that. -/
theorem ancestorsAre_under {p : Place} {l : Leaf} {shape : Shape}
    (hshape : shape ≠ .statement ∧ shape ≠ .nameList) :
    (l.under p.frames).ancestorsAre [shape] = l.ancestorsAre [shape] := by
  rcases l with ⟨t, _ | ⟨f, path⟩⟩
  · have hne : shape ≠ p.frame.shape := by
      rcases p.level with h | h <;> rw [h]
      · exact hshape.1
      · exact hshape.2
    simp only [ancestorsAre, under, Place.frames, List.nil_append, List.map_cons, List.map_nil,
      List.isPrefixOf, beq_eq_false_iff_ne.2 hne, Bool.false_and]
  · rfl

theorem isCallName_under (p : Place) (l : Leaf) :
    (l.under p.frames).isCallName = l.isCallName := by
  have hcall : p.frame.shape ≠ .functionCall := by
    rcases p.level with h | h <;> rw [h] <;> exact Shape.noConfusion
  have hname : p.frame.shape ≠ .nameRef := by
    rcases p.level with h | h <;> rw [h] <;> exact Shape.noConfusion
  rcases l with ⟨t, _ | ⟨f, _ | ⟨f', path⟩⟩⟩
  · simp only [isCallName, ancestorsAre, under, Place.frames, List.nil_append, List.map_cons,
      List.map_nil, List.isPrefixOf, beq_eq_false_iff_ne.2 hname.symm, Bool.false_and]
  · simp only [isCallName, ancestorsAre, under, Place.frames, List.cons_append, List.nil_append,
      List.map_cons, List.map_nil, List.isPrefixOf, beq_eq_false_iff_ne.2 hcall.symm,
      Bool.false_and, Bool.and_false]
  · rfl

theorem inWhere_under (p : Place) (l : Leaf) : (l.under p.frames).inWhere = l.inWhere := by
  have hnone : (p.frames.any fun f => f.shape = .whereClause) = false :=
    List.any_eq_false.2 fun f hf => by
      rw [decide_eq_true_eq]
      exact p.outside f hf
  rw [inWhere, hasAncestor, under, List.any_append, hnone, Bool.or_false, inWhere, hasAncestor]

end Leaf

section Under

variable {p q : Place} (hnode : p.node = q.node) {l : Leaf} (hl : l ∈ p.node.leaves [])

include hnode hl

theorem isColumn_under : (l.under p.frames).isColumn = (l.under q.frames).isColumn := by
  have hname (r : Place) : (l.under r.frames).ancestorsAre [.nameRef] = l.ancestorsAre [.nameRef] :=
    Leaf.ancestorsAre_under ⟨Shape.noConfusion, Shape.noConfusion⟩
  rw [Leaf.isColumn, Leaf.isColumn, Leaf.inWhere_under, Leaf.inWhere_under, hname, hname]
  by_cases hparent : l.ancestorsAre [.nameRef] = true
  · -- The frame asked is the place itself only if the node is a name.
    rcases l with ⟨t, _ | ⟨f, _ | ⟨f', path⟩⟩⟩
    · exact absurd hparent Bool.false_ne_true
    · have hnameRef : p.node.isGroup .nameRef = true := by
        cases hn : p.node with
        | leaf u =>
            rw [hn] at hl
            exact absurd (congrArg Leaf.path (List.mem_singleton.1 hl)) (List.cons_ne_nil _ _)
        | group shape children =>
            rw [hn] at hl
            rcases Node.suffix_of_mem_leavesFrom _ _ _ _ hl with ⟨place, -, hsuffix⟩
            have hframe := hsuffix.eq_of_length rfl
            rw [← (List.cons.inj hframe).1] at hparent
            exact decide_eq_true (congrArg some (eq_of_beq (Bool.and_eq_true_iff.1 hparent).1).symm)
      have hp := p.column hnameRef
      have hq := q.column (hnode ▸ hnameRef)
      have hancestor (r : Place) : Leaf.ancestor? (Leaf.under r.frames ⟨t, [f]⟩) 1 =
          some r.frame := rfl
      rw [hancestor, hancestor, Option.any_some, Option.any_some, hp, hq]
      rfl
    · rfl
  · simp only [Bool.eq_false_iff.2 hparent, Bool.and_false, Bool.false_and]

/-- The same leaf below two places reads alike. -/
theorem isTwin_under : (l.under p.frames).IsTwin (l.under q.frames) where
  token := rfl
  inWhere := by rw [Leaf.inWhere_under, Leaf.inWhere_under]
  isColumn := isColumn_under hnode hl
  isType := by
    rw [Leaf.isType, Leaf.isType, Leaf.isCallName_under, Leaf.isCallName_under]
    rfl
  columnType? := by
    rw [Leaf.columnType?, Leaf.columnType?, Leaf.isCallName_under, Leaf.isCallName_under]
    by_cases hcall : l.isCallName = true
    · -- The call is part of the node.
      rcases l with ⟨t, _ | ⟨f, _ | ⟨f', path⟩⟩⟩
      · exact absurd (Bool.and_eq_true_iff.1 hcall).2 Bool.false_ne_true
      · exact absurd (Bool.and_eq_true_iff.1 (Bool.and_eq_true_iff.1 hcall).2).2 Bool.false_ne_true
      · rfl
    · rw [if_neg hcall, if_neg hcall]
      rfl
  inParenthesis := by
    rw [Leaf.ancestorsAre_under ⟨Shape.noConfusion, Shape.noConfusion⟩,
      Leaf.ancestorsAre_under ⟨Shape.noConfusion, Shape.noConfusion⟩]

end Under

section Within

variable {l : Leaf} (hl : l.path ≠ [])

include hl

/-- The group around a leaf of a node is in the node, if there is one. -/
theorem dropLast_address_under (p : Place) :
    (l.under p.frames).address.dropLast = p.address ++ l.address.dropLast := by
  have hne : l.address ≠ [] := fun h => hl (List.map_eq_nil_iff.1 (List.reverse_eq_nil_iff.1 h))
  rw [Leaf.address_under, List.dropLast_append_of_ne_nil hne, Place.address]

theorem isWithin_under_self (p : Place) (m : Leaf) :
    (m.under p.frames).isWithin (l.under p.frames).address.dropLast =
      m.isWithin l.address.dropLast := by
  rw [Bool.eq_iff_iff, Leaf.isWithin_iff, Leaf.isWithin_iff, dropLast_address_under hl,
    Leaf.address_under, ← Place.address, List.prefix_append_right_inj, List.length_append,
    List.length_append, Nat.add_lt_add_iff_left]

/-- A leaf of one node is in no group of another. -/
theorem isWithin_under_apart {p q : Place} (h : p.Apart q) (m : Leaf) :
    (m.under q.frames).isWithin (l.under p.frames).address.dropLast = false := by
  rw [← Bool.not_eq_true, Leaf.isWithin_iff, dropLast_address_under hl, Leaf.address_under]
  rintro ⟨hwithin, -⟩
  rcases List.prefix_or_prefix_of_prefix ((List.prefix_append _ _).trans hwithin)
    (List.prefix_append q.address m.address) with hpq | hqp
  · exact h.1 hpq
  · exact h.2 hqp

end Within

/-- The leaves of nodes at places apart. -/
def Standing (ns : List Node) (leaves : List Leaf) : Prop :=
  ∃ ps : List Place, ps.map Place.node = ns ∧ leaves = ps.flatMap Place.leaves ∧
    ps.Pairwise Place.Apart

theorem Standing.exists_of_mem {ns : List Node} {leaves : List Leaf} (h : Standing ns leaves)
    {l : Leaf} (hl : l ∈ leaves) : ∃ n ∈ ns, ∃ path, l ∈ n.leaves path := by
  rcases h with ⟨ps, rfl, rfl, -⟩
  rcases List.mem_flatMap.1 hl with ⟨p, hp, hl⟩
  exact ⟨p.node, List.mem_map_of_mem hp, p.frames, hl⟩

/-- The leaves of a node, each below two places. -/
def Place.pairs (z : Place × Place) : List (Leaf × Leaf) :=
  (z.1.node.leaves []).map fun l => (l.under z.1.frames, l.under z.2.frames)

/-- The same nodes at two places each have twins for leaves. -/
theorem twins_pairs {zs : List (Place × Place)} (hnode : ∀ z ∈ zs, z.1.node = z.2.node)
    (hapart : zs.Pairwise fun z w => z.1.Apart w.1 ∧ z.2.Apart w.2) :
    Twins (zs.flatMap Place.pairs) where
  isTwin := by
    intro pair hpair
    rcases List.mem_flatMap.1 hpair with ⟨z, hz, hpair⟩
    rcases List.mem_map.1 hpair with ⟨l, hl, rfl⟩
    exact isTwin_under (hnode z hz) hl
  isWithin := by
    have hsymm : Std.Symm fun z w : Place × Place => z.1.Apart w.1 ∧ z.2.Apart w.2 :=
      ⟨fun _ _ => And.imp Place.Apart.symm Place.Apart.symm⟩
    intro pair hpair hmark other hother
    rcases List.mem_flatMap.1 hpair with ⟨z, hz, hpair⟩
    rcases List.mem_map.1 hpair with ⟨l, -, rfl⟩
    rcases List.mem_flatMap.1 hother with ⟨w, hw, hother⟩
    rcases List.mem_map.1 hother with ⟨m, -, rfl⟩
    -- Right below a place nothing is in a parenthesis.
    have hl : l.path ≠ [] := by
      intro hpath
      rw [Leaf.ancestorsAre_under ⟨Shape.noConfusion, Shape.noConfusion⟩, Leaf.ancestorsAre,
        hpath] at hmark
      exact Bool.false_ne_true hmark
    by_cases hzw : z = w
    · rw [← hzw, isWithin_under_self hl, isWithin_under_self hl]
    · rcases hapart.forall hz hw hzw with ⟨hfst, hsnd⟩
      rw [isWithin_under_apart hl hfst, isWithin_under_apart hl hsnd]

namespace Standing

variable {ns : List Node} {leaves leaves' : List Leaf} (h : Standing ns leaves)
  (h' : Standing ns leaves')

include h h'

theorem exists_twins :
    ∃ pairs, Twins pairs ∧ pairs.map Prod.fst = leaves ∧ pairs.map Prod.snd = leaves' := by
  rcases h with ⟨ps, hps, rfl, hapart⟩
  rcases h' with ⟨qs, hqs, rfl, hapart'⟩
  have hlength : ps.length = qs.length := by
    rw [← List.length_map Place.node, hps, ← hqs, List.length_map]
  have hfst : (ps.zip qs).map Prod.fst = ps := List.map_fst_zip (Nat.le_of_eq hlength)
  have hsnd : (ps.zip qs).map Prod.snd = qs := List.map_snd_zip (Nat.le_of_eq hlength.symm)
  have hleaves (p : Place) : p.leaves = (p.node.leaves []).map (Leaf.under p.frames) := by
    rw [Place.leaves, ← Node.leaves_under, List.nil_append]
  have hnode : ∀ z ∈ ps.zip qs, z.1.node = z.2.node := by
    refine List.map_inj_left.1 ?_
    rw [← Function.comp_def Place.node, ← List.map_map, hfst, hps, ← Function.comp_def Place.node,
      ← List.map_map, hsnd, hqs]
  refine ⟨(ps.zip qs).flatMap Place.pairs, twins_pairs hnode ?_, ?_, ?_⟩
  · rw [← hfst, List.pairwise_map] at hapart
    rw [← hsnd, List.pairwise_map] at hapart'
    exact hapart.and hapart'
  · rw [← hfst, List.flatMap_map, List.map_flatMap, hfst]
    refine List.flatMap_congr fun z hz => ?_
    rw [Place.pairs, List.map_map, hleaves]
    rfl
  · rw [← hsnd, List.flatMap_map, List.map_flatMap, hsnd]
    refine List.flatMap_congr fun z hz => ?_
    rw [Place.pairs, List.map_map, hleaves, hnode z hz]
    rfl

/-- The same nodes at other places add the same columns. -/
theorem gatherFrom_eq (definitions : Bool) (action : Action) (g : Gathered) :
    gatherFrom definitions action g leaves = gatherFrom definitions action g leaves' := by
  rcases h.exists_twins h' with ⟨pairs, htwins, rfl, rfl⟩
  exact gatherFrom_twins htwins definitions action g

/-- The same nodes at other places have the same constraints. -/
theorem ownedFrom_eq (before : List Leaf) : ownedFrom before leaves = ownedFrom before leaves' := by
  rcases h.exists_twins h' with ⟨pairs, htwins, rfl, rfl⟩
  exact ownedFrom_twins htwins fun _ => rfl

end Standing

end SqlGist
