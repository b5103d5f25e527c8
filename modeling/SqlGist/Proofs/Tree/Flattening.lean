import Mathlib.Data.List.Sort
import SqlGist.Proofs.Tree.Paths

/-!
# Flattening a Tree

Every question about what is around a leaf, what stands next to it and whether
it lies in some group is answered from its path alone, and a scan for the
columns of a list stops at the first leaf outside of the list. So the leaves of
a group must have true paths, and those of a group within must stand together.

Here an address is followed down from the group, without any leaf: the nodes it
can lead to are the nodes of the tree, and two nodes have two addresses however
equal they are. `Group.Flattening` says what a list of leaves must be to be the
tree laid flat, in terms of the addresses alone, and only one list is that.

The leaves are collected while the tree is walked. A walk holds one path for
all of the tree, goes down by putting a frame on it and up by taking the frame
off, so it rests on every group giving back the path that it got, the empty ones
too.

## Main definitions

* `Node.at?`: The node at an address.
* `Group.Leads`: The outermost frame of a path is at the group, each one leads to
  the next, and the nearest one leads to the node.
* `Group.Flattening`: The leaves of a group, each once and in order.
* `Walk`: A path that is shared by a whole walk, and the leaves met so far.

## Theorems

* `at?_of_leads`, `path_unique`: A path leads where its address does, and is the
  only one to do so.
* `leads_of_mem_leaves`: The paths of the leaves lead to them.
* `ordered_leaves`: The addresses of the leaves ascend.
* `exists_leaves_eq`: The leaves of the node at an address stand together, and
  no other address begins with that one.
* `flattening_leaves`, `Flattening.unique`: The leaves of a group are its only
  flattening.
* `walk_eq`: A walk adds the leaves and gives back the path.
* `leaves_flatten`: All of these, and the text of the group.
-/

namespace SqlGist

namespace Node

/-- The child at a place, if there is one. -/
def child? : Node → Nat → Option Node
  | .leaf _, _ => none
  | .group _ children, index => children[index]?

/-- The node at an address, if there is one. -/
def at? : List Nat → Node → Option Node
  | [], n => some n
  | index :: address, n => (n.child? index).bind (at? address)

theorem at?_append (as bs : List Nat) (n : Node) :
    n.at? (as ++ bs) = (n.at? as).bind (at? bs) := by
  induction as generalizing n with
  | nil => rfl
  | cons index as ih =>
      rw [List.cons_append, at?, at?]
      cases n.child? index with
      | none => rfl
      | some child => exact ih child

end Node

namespace Group

/-- The path leads from the group down to the node. The nearest frame comes
    first, so it is the one that leads to the node itself. -/
def Leads (g : Group) : List Frame → Node → Prop
  | [], n => n = g.toNode
  | f :: path, n => f.group.toNode.child? f.index = some n ∧ g.Leads path f.group.toNode

/-- The leaves of a group, as a list that says where each of them stands. -/
structure Flattening (g : Group) (leaves : List Leaf) : Prop where
  /-- The path of every leaf leads from the group down to the leaf. -/
  leads : ∀ l ∈ leaves, g.Leads l.path (.leaf l.token)
  /-- So does its address. -/
  reached : ∀ l ∈ leaves, g.toNode.at? l.address = some (.leaf l.token)
  /-- Every address that leads to a leaf is that of some leaf. -/
  complete : ∀ address t, g.toNode.at? address = some (.leaf t) →
    ∃ l ∈ leaves, l.address = address ∧ l.token = t
  /-- Their addresses ascend, so no two leaves have the same. -/
  ordered : leaves.Pairwise fun l m => l.address < m.address
  /-- The leaves in any group stand together, and they are the leaves of that
      group. -/
  contiguous : ∀ address inner, g.toNode.at? address = some (toNode inner) →
    ∃ front block back, leaves = front ++ (block ++ back) ∧
      block.map Leaf.token = inner.leaves.map Leaf.token ∧
      (∀ l ∈ block, l.isWithin address = true) ∧
      ∀ l ∈ front ++ back, l.isWithin address = false

variable {g : Group}

theorem at?_of_leads {path : List Frame} {n : Node} (h : g.Leads path n) :
    g.toNode.at? (path.map Frame.index).reverse = some n := by
  induction path generalizing n with
  | nil =>
      rw [Leads] at h
      rw [h]
      rfl
  | cons f path ih =>
      rw [List.map_cons, List.reverse_cons, Node.at?_append, ih h.2, Option.bind_some, Node.at?,
        h.1]
      rfl

/-- Only one path from the group has a given address. -/
theorem path_unique {path path' : List Frame} {n n' : Node} (h : g.Leads path n)
    (h' : g.Leads path' n') (hindex : path.map Frame.index = path'.map Frame.index) :
    path = path' := by
  induction path generalizing path' n n' with
  | nil => exact (List.map_eq_nil_iff.1 hindex.symm).symm
  | cons f path ih =>
      cases path' with
      | nil => exact absurd hindex (List.cons_ne_nil _ _)
      | cons f' path' =>
          rw [List.map_cons, List.map_cons, List.cons.injEq] at hindex
          have hpath : path = path' := ih h.2 h'.2 hindex.2
          subst hpath
          -- The path above leads to one node, which is the group of both frames.
          have hgroup : f.group.toNode = f'.group.toNode :=
            Option.some.inj ((at?_of_leads h.2).symm.trans (at?_of_leads h'.2))
          have hf : f = f' := by
            rcases f with ⟨⟨shape, children⟩, index⟩
            rcases f' with ⟨⟨shape', children'⟩, index'⟩
            rw [toNode, toNode, Node.group.injEq] at hgroup
            rw [Frame.mk.injEq, Group.mk.injEq]
            exact ⟨hgroup, hindex.1⟩
          rw [hf]

end Group

namespace Node

mutual

/-- If a path leads to a node, then those of its leaves lead to them. -/
theorem leads_of_mem_leaves {g : Group} (path : List Frame) : (n : Node) → g.Leads path n →
    {l : Leaf} → l ∈ n.leaves path → g.Leads l.path (.leaf l.token)
  | .leaf t, hn, l, h => by
      rw [leaves, List.mem_singleton] at h
      subst h
      exact hn
  | .group shape children, hn, l, h =>
      leads_of_mem_leavesFrom ⟨shape, children⟩ path hn [] children rfl h

theorem leads_of_mem_leavesFrom {g : Group} (inner : Group) (path : List Frame)
    (hinner : g.Leads path inner.toNode) (front : List Node) : (ns : List Node) →
    inner.children = front ++ ns → {l : Leaf} → l ∈ leavesFrom inner path front.length ns →
    g.Leads l.path (.leaf l.token)
  | n :: ns, hchildren, l, h => by
      rw [leavesFrom] at h
      rcases List.mem_append.1 h with h | h
      · have hchild : inner.toNode.child? front.length = some n := by
          rw [Group.toNode, child?, hchildren, List.getElem?_append_right (Nat.le_refl _),
            Nat.sub_self, List.getElem?_cons_zero]
        exact leads_of_mem_leaves (⟨inner, front.length⟩ :: path) n ⟨hchild, hinner⟩ h
      · refine leads_of_mem_leavesFrom inner path hinner (front ++ [n]) ns ?_ ?_
        · rw [hchildren, List.append_assoc, List.singleton_append]
        · rwa [List.length_append, List.length_singleton]

end

mutual

/-- The addresses of the leaves of a node ascend. -/
theorem ordered_leaves (path : List Frame) : (n : Node) →
    (n.leaves path).Pairwise fun l m => l.address < m.address
  | .leaf _ => List.pairwise_singleton _ _
  | .group shape children => ordered_leavesFrom ⟨shape, children⟩ path 0 children

theorem ordered_leavesFrom (g : Group) (path : List Frame) (index : Nat) : (ns : List Node) →
    (leavesFrom g path index ns).Pairwise fun l m => l.address < m.address
  | [] => List.Pairwise.nil
  | n :: ns => by
      rw [leavesFrom, List.pairwise_append]
      refine ⟨ordered_leaves _ n, ordered_leavesFrom g path (index + 1) ns, fun l hl m hm => ?_⟩
      -- The two leaves part at the group, and the child of the second is behind.
      rcases Leaf.address_of_suffix (suffix_of_mem_leaves _ n hl) with ⟨rest, haddress⟩
      rcases suffix_of_mem_leavesFrom g path (index + 1) ns hm with ⟨place, hplace, hsuffix⟩
      rcases Leaf.address_of_suffix hsuffix with ⟨rest', haddress'⟩
      rw [haddress, haddress']
      have hlt : index < place := hplace.1
      exact List.append_left_lt (List.cons_lt_cons_iff.2 (Or.inl hlt))

end

/-- The leaves of the node at an address are a stretch of the leaves, and they
    are all that have this address at the front of their own. -/
theorem exists_leaves_eq {n inner : Node} {address : List Nat} (h : n.at? address = some inner)
    (path : List Frame) :
    ∃ frames front back, (frames.map Frame.index).reverse = address ∧
      n.leaves path = front ++ (inner.leaves (frames ++ path) ++ back) ∧
      ∀ l ∈ front ++ back, ¬(path.map Frame.index).reverse ++ address <+: l.address := by
  induction address generalizing n path with
  | nil =>
      rw [at?, Option.some.injEq] at h
      subst h
      refine ⟨[], [], [], rfl, ?_, fun l hl => absurd hl List.not_mem_nil⟩
      rw [List.nil_append, List.nil_append, List.append_nil]
  | cons index address ih =>
      rcases Option.bind_eq_some_iff.1 h with ⟨child, hchild, hat⟩
      cases n with
      | leaf t => exact absurd hchild (Option.some_ne_none child).symm
      | group shape children =>
          have hindex : index < children.length := (List.getElem?_eq_some_iff.1 hchild).1
          rcases ih hat (⟨⟨shape, children⟩, index⟩ :: path) with
            ⟨frames, front, back, haddress, hleaves, hother⟩
          rw [List.map_cons, List.reverse_cons, List.append_assoc, List.singleton_append] at hother
          -- The other children stand around what is around the node in this one.
          refine ⟨frames ++ [⟨⟨shape, children⟩, index⟩],
            leavesFrom ⟨shape, children⟩ path 0 (children.take index) ++ front,
            back ++ leavesFrom ⟨shape, children⟩ path (index + 1) (children.drop (index + 1)),
            ?_, ?_, fun l hl => ?_⟩
          · rw [List.map_append, List.reverse_append, haddress]
            rfl
          · rw [leaves_of_child hchild, hleaves]
            simp only [List.append_assoc, List.singleton_append]
          · have hcases : l ∈ leavesFrom ⟨shape, children⟩ path 0 (children.take index) ∨
                l ∈ front ++ back ∨
                l ∈ leavesFrom ⟨shape, children⟩ path (index + 1) (children.drop (index + 1)) := by
              simpa only [List.mem_append, or_assoc] using hl
            rcases hcases with hfront | hinside | hback
            · refine not_prefix_of_mem_leavesFrom (Or.inr ?_) hfront address
              rw [List.length_take]
              omega
            · exact hother l hinside
            · exact not_prefix_of_mem_leavesFrom (Or.inl (Nat.lt_succ_self index)) hback address

end Node

namespace Group

variable {g : Group}

theorem flattening_leaves (g : Group) : g.Flattening g.leaves where
  leads l hl := Node.leads_of_mem_leaves [] g.toNode rfl hl
  reached l hl := at?_of_leads (Node.leads_of_mem_leaves [] g.toNode rfl hl)
  complete address t h := by
    rcases Node.exists_leaves_eq h [] with ⟨frames, front, back, haddress, hleaves, -⟩
    rw [List.append_nil] at hleaves
    refine ⟨⟨t, frames⟩, ?_, haddress, rfl⟩
    rw [leaves, hleaves]
    exact List.mem_append_right _ List.mem_cons_self
  ordered := Node.ordered_leaves [] g.toNode
  contiguous address inner h := by
    rcases Node.exists_leaves_eq h [] with ⟨frames, front, back, haddress, hleaves, hother⟩
    rw [List.append_nil] at hleaves
    refine ⟨front, inner.toNode.leaves frames, back, hleaves, ?_, fun l hl => ?_, fun l hl => ?_⟩
    · rw [Node.leaves_tokens, leaves_tokens]
    · rcases Node.suffix_of_mem_leavesFrom inner frames 0 inner.children hl with
        ⟨place, -, hsuffix⟩
      rw [← haddress]
      exact Leaf.isWithin_of_suffix hsuffix
    · exact Bool.eq_false_iff.2 fun hwithin => hother l hl (Leaf.isWithin_iff.1 hwithin).1

/-- A leaf of one flattening is a leaf of every other. -/
theorem Flattening.subset {ls ms : List Leaf} (hls : g.Flattening ls) (hms : g.Flattening ms) :
    ls ⊆ ms := by
  intro l hl
  rcases hms.complete _ _ (hls.reached l hl) with ⟨m, hm, haddress, htoken⟩
  have hpath : m.path = l.path :=
    path_unique (hms.leads m hm) (hls.leads l hl) (List.reverse_injective haddress)
  have heq : m = l := by
    rw [Leaf.mk.injEq]
    exact ⟨htoken, hpath⟩
  rwa [← heq]

theorem Flattening.unique {ls ms : List Leaf} (hls : g.Flattening ls) (hms : g.Flattening ms) :
    ls = ms := by
  let before : Leaf → Leaf → Prop := fun l m => l.address < m.address
  have hirrefl : Std.Irrefl before := ⟨fun l => List.lt_irrefl l.address⟩
  have hantisymm : Std.Antisymm before := ⟨fun l m h h' => absurd h' (List.lt_asymm h)⟩
  exact List.Subset.antisymm_of_pairwise hls.ordered hms.ordered (hls.subset hms) (hms.subset hls)

end Group

/-- A walk over a tree: the path that all of it shares, and the leaves met so
    far. -/
structure Walk where
  path : List Frame
  leaves : List Leaf

namespace Walk

/-- Go down into a child. -/
def push (w : Walk) (f : Frame) : Walk :=
  { w with path := f :: w.path }

/-- Come up again. -/
def pop (w : Walk) : Walk :=
  { w with path := w.path.tail }

/-- Take a leaf, with a copy of the path as it is now. -/
def take (w : Walk) (t : Token) : Walk :=
  { w with leaves := w.leaves ++ [⟨t, w.path⟩] }

end Walk

namespace Node

mutual

/-- Walk over a node. -/
def walk (w : Walk) : Node → Walk
  | .leaf t => w.take t
  | .group shape children => walkFrom ⟨shape, children⟩ w 0 children

/-- Walk over the children of `g` from place `index` on. -/
def walkFrom (g : Group) (w : Walk) (index : Nat) : List Node → Walk
  | [] => w
  | n :: ns => walkFrom g (n.walk (w.push ⟨g, index⟩)).pop (index + 1) ns

end

mutual

/-- A walk over a node adds its leaves and gives the path back. -/
theorem walk_eq (w : Walk) : (n : Node) → n.walk w = ⟨w.path, w.leaves ++ n.leaves w.path⟩
  | .leaf _ => rfl
  | .group shape children => walkFrom_eq ⟨shape, children⟩ w 0 children

theorem walkFrom_eq (g : Group) (w : Walk) (index : Nat) : (ns : List Node) →
    walkFrom g w index ns = ⟨w.path, w.leaves ++ leavesFrom g w.path index ns⟩
  | [] => by rw [walkFrom, leavesFrom, List.append_nil]
  | n :: ns => by
      rw [walkFrom, walk_eq _ n, walkFrom_eq _ _ _ ns, leavesFrom]
      simp only [Walk.push, Walk.pop, List.tail_cons, List.append_assoc]

end

/-- The text of some nodes is their texts put together. -/
theorem textOf_eq_join (ns : List Node) : textOf ns = String.join (ns.map text) := by
  induction ns with
  | nil => rfl
  | cons n ns ih => rw [textOf, ih, List.map_cons, String.join_cons]

end Node

namespace Group

/-- The leaves of a group are its only flattening, a walk over the group
    collects them, and the text of the group is what is written in them, and in
    its children. -/
theorem leaves_flatten (g : Group) :
    (∀ ls, g.Flattening ls ↔ ls = g.leaves) ∧
      g.toNode.walk ⟨[], []⟩ = ⟨[], g.leaves⟩ ∧
      g.text = String.join (g.leaves.map fun l => l.token.text) ∧
      g.text = String.join (g.children.map Node.text) := by
  refine ⟨fun ls => ⟨fun h => h.unique (flattening_leaves g), ?_⟩, ?_, ?_, ?_⟩
  · rintro rfl
    exact flattening_leaves g
  · rw [Node.walk_eq, List.nil_append, leaves]
  · rw [← String.toList_inj, text_eq_leaves, String.toList_join, List.flatMap_map, List.flatMap_def]
  · rw [text_eq, Node.textOf_eq_join]

end Group

end SqlGist
