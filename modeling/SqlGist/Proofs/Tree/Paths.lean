import SqlGist.Tree.Leaf

/-!
# Where Leaves Stand

The leaves of a node carry the path to it at the end of their own, since a path
lists the nearest group first and only grows in front on the way down. What
holds of some group around a node therefore holds around each of its leaves.

## Theorems

* `leavesFrom_append`, `mem_leavesFrom`: The leaves of stretches of children.
* `exists_keyword_leaf`: The keywords of a level are leaves right in it.
* `suffix_of_mem_leaves`: The path to a node ends the paths of its leaves.
* `mem_leaves_of_child`, `leaves_of_child`: The leaves of a child are leaves of
  the group, and the others stand around them.
* `hasAncestor_of_mem_group`: A group is one around its leaves.
* `address_of_suffix`, `isWithin_of_suffix`: The address of a leaf begins with
  those of the groups around it, and it lies in each.
* `not_prefix_of_mem_leavesFrom`: It begins with no other.
* `Frame.prev?_of_eq`, `Frame.next?_of_eq`: The neighbours of a child.
-/

namespace SqlGist

namespace Node

theorem leavesFrom_append (g : Group) (path : List Frame) (index : Nat) (as bs : List Node) :
    leavesFrom g path index (as ++ bs) =
      leavesFrom g path index as ++ leavesFrom g path (index + as.length) bs := by
  induction as generalizing index with
  | nil => rfl
  | cons a as ih =>
      rw [List.cons_append, leavesFrom, ih, leavesFrom, List.append_assoc, List.length_cons,
        Nat.add_right_comm, Nat.add_assoc index]

mutual

theorem suffix_of_mem_leaves (path : List Frame) : (n : Node) → {l : Leaf} → l ∈ n.leaves path →
    path <:+ l.path
  | .leaf t, l, h => by
      rw [leaves, List.mem_singleton] at h
      subst h
      exact List.suffix_refl path
  | .group shape children, l, h => by
      rcases suffix_of_mem_leavesFrom ⟨shape, children⟩ path 0 children h with ⟨index, -, hsuffix⟩
      exact (List.suffix_cons _ path).trans hsuffix

theorem suffix_of_mem_leavesFrom (g : Group) (path : List Frame) (index : Nat) :
    (ns : List Node) → {l : Leaf} → l ∈ leavesFrom g path index ns →
    ∃ place, (index ≤ place ∧ place < index + ns.length) ∧ ⟨g, place⟩ :: path <:+ l.path
  | n :: ns, l, h => by
      rw [leavesFrom] at h
      rw [List.length_cons]
      rcases List.mem_append.1 h with h | h
      · exact ⟨index, by omega, suffix_of_mem_leaves (⟨g, index⟩ :: path) n h⟩
      · rcases suffix_of_mem_leavesFrom g path (index + 1) ns h with ⟨place, hplace, hsuffix⟩
        exact ⟨place, by omega, hsuffix⟩

end

/-- A leaf of some children is a leaf of one of them. -/
theorem mem_leavesFrom {g : Group} {path : List Frame} {index : Nat} {ns : List Node} {l : Leaf}
    (h : l ∈ leavesFrom g path index ns) :
    ∃ n ∈ ns, ∃ place, l ∈ n.leaves (⟨g, place⟩ :: path) := by
  induction ns generalizing index with
  | nil => exact absurd h List.not_mem_nil
  | cons n ns ih =>
      rw [leavesFrom, List.mem_append] at h
      rcases h with h | h
      · exact ⟨n, List.mem_cons_self, index, h⟩
      · rcases ih h with ⟨m, hm, place, hl⟩
        exact ⟨m, List.mem_cons_of_mem _ hm, place, hl⟩

/-- A keyword of a level is a leaf right in it. -/
theorem exists_keyword_leaf {ns : List Node} {k : Keyword} (hk : k ∈ ns.filterMap keyword?)
    (g : Group) (path : List Frame) (index : Nat) :
    ∃ t place, t.keyword? = some k ∧ ⟨t, ⟨g, place⟩ :: path⟩ ∈ leavesFrom g path index ns := by
  rcases List.mem_filterMap.1 hk with ⟨n, hn, hkeyword⟩
  cases n with
  | group shape children => exact absurd hkeyword.symm (Option.some_ne_none k)
  | leaf t =>
      rcases List.append_of_mem hn with ⟨front, back, rfl⟩
      refine ⟨t, index + front.length, hkeyword, ?_⟩
      rw [leavesFrom_append]
      exact List.mem_append_right _ List.mem_cons_self

/-- The leaves of a child are leaves of the group. -/
theorem mem_leaves_of_child {shape : Shape} {children before after : List Node} {n : Node}
    (h : children = before ++ n :: after) {path : List Frame} {l : Leaf}
    (hl : l ∈ n.leaves (⟨⟨shape, children⟩, before.length⟩ :: path)) :
    l ∈ (group shape children).leaves path := by
  subst h
  rw [leaves, leavesFrom_append, leavesFrom, Nat.zero_add]
  exact List.mem_append_right _ (List.mem_append_left _ hl)

/-- The leaves of a group are those of one of its children, and those in front
    of it and behind. -/
theorem leaves_of_child {shape : Shape} {children : List Node} {index : Nat} {n : Node}
    (h : children[index]? = some n) (path : List Frame) :
    (group shape children).leaves path =
      leavesFrom ⟨shape, children⟩ path 0 (children.take index) ++
        (n.leaves (⟨⟨shape, children⟩, index⟩ :: path) ++
          leavesFrom ⟨shape, children⟩ path (index + 1) (children.drop (index + 1))) := by
  rcases List.getElem?_eq_some_iff.1 h with ⟨hindex, hchild⟩
  have hsplit := List.take_append_drop index children
  rw [List.drop_eq_getElem_cons hindex, hchild] at hsplit
  have hlength : (children.take index).length = index := by
    rw [List.length_take]
    omega
  calc (group shape children).leaves path
      = leavesFrom ⟨shape, children⟩ path 0 (children.take index) ++
          leavesFrom ⟨shape, children⟩ path (0 + (children.take index).length)
            (n :: children.drop (index + 1)) := by
        rw [← leavesFrom_append, hsplit, leaves]
    _ = _ := by rw [hlength, Nat.zero_add, leavesFrom]

theorem hasAncestor_of_mem_group {path : List Frame} {shape : Shape} {children : List Node}
    {l : Leaf} (h : l ∈ (Node.group shape children).leaves path) : l.hasAncestor shape = true := by
  rcases suffix_of_mem_leavesFrom ⟨shape, children⟩ path 0 children h with
    ⟨place, -, front, hfront⟩
  rw [Leaf.hasAncestor, ← hfront, List.any_append, List.any_cons,
    show (decide (Frame.shape ⟨⟨shape, children⟩, place⟩ = shape)) = true from decide_eq_true rfl,
    Bool.true_or, Bool.or_true]

end Node

namespace Leaf

/-- The address of a group around a leaf is how the address of the leaf begins,
    and the place in the group comes next. -/
theorem address_of_suffix {l : Leaf} {path : List Frame} {f : Frame} (h : f :: path <:+ l.path) :
    ∃ rest, l.address = (path.map Frame.index).reverse ++ f.index :: rest := by
  rcases h with ⟨front, hfront⟩
  refine ⟨(front.map Frame.index).reverse, ?_⟩
  rw [address, ← hfront, List.map_append, List.reverse_append, List.map_cons, List.reverse_cons,
    List.append_assoc, List.singleton_append]

theorem isWithin_iff {l : Leaf} {address : List Nat} :
    l.isWithin address = true ↔ address <+: l.address ∧ address.length < l.address.length := by
  rw [isWithin, Bool.and_eq_true, List.isPrefixOf_iff_prefix, decide_eq_true_eq]

/-- A leaf lies in every group around it. -/
theorem isWithin_of_suffix {l : Leaf} {path : List Frame} {f : Frame}
    (h : f :: path <:+ l.path) : l.isWithin (path.map Frame.index).reverse = true := by
  rcases address_of_suffix h with ⟨rest, haddress⟩
  rw [isWithin_iff, haddress, List.length_append, List.length_cons]
  exact ⟨List.prefix_append _ _, by omega⟩

end Leaf

/-- No address of a leaf in front of a child or behind it begins with the
    address of the child. -/
theorem Node.not_prefix_of_mem_leavesFrom {g : Group} {path : List Frame} {index place : Nat}
    {ns : List Node} (hplace : place < index ∨ index + ns.length ≤ place) {l : Leaf}
    (h : l ∈ leavesFrom g path index ns) (address : List Nat) :
    ¬(path.map Frame.index).reverse ++ place :: address <+: l.address := by
  rcases suffix_of_mem_leavesFrom g path index ns h with ⟨other, hother, hsuffix⟩
  rcases Leaf.address_of_suffix hsuffix with ⟨rest, haddress⟩
  rw [haddress, List.prefix_append_right_inj, List.cons_prefix_cons]
  intro hprefix
  have heq : place = other := hprefix.1
  omega

namespace Frame

variable {g : Group} {front back : List Node} {n : Node} (h : g.children = front ++ n :: back)

include h

theorem prev?_of_eq :
    prev? ⟨g, front.length⟩ = front.reverse.find? fun m => !m.isWhitespace := by
  rw [prev?, Group.prevSibling?, h, List.take_left]

theorem next?_of_eq : next? ⟨g, front.length⟩ = back.find? fun m => !m.isWhitespace := by
  rw [next?, Group.nextSibling?, h, ← List.drop_drop, List.drop_left, List.drop_one, List.tail_cons]

end Frame

end SqlGist
