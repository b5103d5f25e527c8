import SqlGist.Proofs.Extraction.Stages
import SqlGist.Proofs.Filter.Reading
import SqlGist.Proofs.Tree.Keywords
import SqlGist.Proofs.Tree.Lossless

/-!
# What Becomes of a Condition

A filter is read from what stands next to an introducer, and from nothing else.
So a condition falls into stretches, each from one introducer to the next: the
introducer, the one comparison or parenthesis that is read for it, and what
stands behind that and is passed over. The stretches say of every token of the
condition what it was used as.

A stretch can only be one that was read, since it holds the proofs: that its
introducer introduces, that its comparison is a condition, that nothing it
passes over introduces anything. What is left to show is that every condition
with a filter is made of stretches. A parenthesis is made of stretches too, up
to its closing mark.

What is passed over may be anything that introduces nothing, a comparison as
well. `a = 1 b = 2` is one condition, and `b = 2` no part of it.

## Main definitions

* `Slot`: An introducer, and what stands around what is read for it.
* `Stretch`: A slot with the comparison or the parenthesis that it holds.
* `TokenUse`: What a token of a condition was used as.
* `Stretch.usesOf`: The tokens of stretches with their uses, in order.
* `Node.FillsSlots`: What is read of a node makes a stretch.
* `Group.ReadsAll`: No token of a clause is passed over.

## Theorems

* `map_ofParts_comparisonsOf`: The comparisons of stretches and the conditions
  of their items are the same, in order.
* `Tidy.fillsSlots`: What is read of a tidy node makes a stretch.
* `exists_stretches_of_collect`: What a filter is read from falls into
  stretches.
* `filter_accounts`: Every token of a condition is used as its stretch says.
* `not_readsAll_of_missing_connective`: Not every token of a condition is read.
-/

namespace SqlGist

/-- What a token of a condition was used as. -/
inductive TokenUse
  /-- It introduced a node. -/
  | introducer
  /-- It stood between an introducer and what was read for it. -/
  | gap
  /-- It belonged to a comparison that became a condition. -/
  | condition
  /-- It closed a parenthesis that was read. -/
  | closing
  /-- It stood behind what was read, and was passed over. -/
  | passed
deriving DecidableEq

/-- Whether a token was used for a condition. -/
def TokenUse.isCondition (entry : TokenUse × Token) : Bool :=
  entry.1 = .condition

/-- What the use of a token says about the token. -/
def TokenUse.Fits : TokenUse → Token → Prop
  | .introducer, t =>
    t.keyword? = some .whereKw ∨ t.keyword? = some .and ∨ t.keyword? = some .or ∨
      t.isMark "(" = true
  | .gap, t => t.isWhitespace = true
  | .closing, t => t.isMark ")" = true
  | .condition, _ => True
  | .passed, _ => True

/-- An introducer, the blanks behind it, and what stands behind whatever is read
    for it. The latter reaches to the next introducer, so it holds none. -/
structure Slot where
  introducer : Token
  connective : Connective
  introduces : introduces? (.leaf introducer) = some connective
  gap : List Node
  blank : ∀ n ∈ gap, n.isWhitespace = true
  passed : List Node
  introduces_nothing : ∀ n ∈ passed, introduces? n = none

namespace Slot

/-- The nodes of a slot around the one that is read. -/
def nodes (s : Slot) (held : Node) : List Node :=
  .leaf s.introducer :: (s.gap ++ held :: s.passed)

/-- The tokens of a slot around those of what is read. -/
def uses (s : Slot) (held : List (TokenUse × Token)) : List (TokenUse × Token) :=
  (.introducer, s.introducer) ::
    ((Node.tokensOf s.gap).map (fun t => (.gap, t)) ++
      (held ++ (Node.tokensOf s.passed).map fun t => (.passed, t)))

end Slot

/-- From one introducer of a condition to the next: a comparison that is a
    condition, or a parenthesis of such stretches. -/
inductive Stretch
  | comparison (slot : Slot) (parts : List Node) (c : Condition)
      (read : Condition.ofParts parts = .ok c)
  | parens (slot : Slot) (inner : List Stretch) (closing : Token)
      (closes : closing.isMark ")" = true)

namespace Stretch

mutual

/-- The nodes of a stretch in order. -/
def nodes : Stretch → List Node
  | .comparison slot parts _ _ => slot.nodes (.group .comparison parts)
  | .parens slot inner closing _ =>
    slot.nodes (.group .parenthesis (nodesOf inner ++ [.leaf closing]))

/-- The nodes of a list of stretches in order. -/
def nodesOf : List Stretch → List Node
  | [] => []
  | s :: ss => s.nodes ++ nodesOf ss

end

mutual

/-- The node of the filter that a stretch is read as. -/
def item : Stretch → FilterItem
  | .comparison slot _ c _ => .node slot.connective [.condition c]
  | .parens slot inner _ _ => .node slot.connective (itemsOf inner)

/-- The nodes of the filter that a list of stretches is read as. -/
def itemsOf : List Stretch → List FilterItem
  | [] => []
  | s :: ss => s.item :: itemsOf ss

end

mutual

/-- The parts of each comparison that is read, in order. -/
def comparisons : Stretch → List (List Node)
  | .comparison _ parts _ _ => [parts]
  | .parens _ inner _ _ => comparisonsOf inner

/-- The parts of each comparison that is read in a list of stretches. -/
def comparisonsOf : List Stretch → List (List Node)
  | [] => []
  | s :: ss => s.comparisons ++ comparisonsOf ss

end

mutual

/-- The tokens of a stretch with their uses, in order. -/
def uses : Stretch → List (TokenUse × Token)
  | .comparison slot parts _ _ =>
    slot.uses ((Node.tokensOf parts).map fun t => (.condition, t))
  | .parens slot inner closing _ => slot.uses (usesOf inner ++ [(.closing, closing)])

/-- The tokens of a list of stretches with their uses, in order. -/
def usesOf : List Stretch → List (TokenUse × Token)
  | [] => []
  | s :: ss => s.uses ++ usesOf ss

end

mutual

/-- The comparisons that are read are the conditions of the filter, one for one
    and in order. -/
theorem map_ofParts_comparisons : (s : Stretch) →
    s.comparisons.map Condition.ofParts = s.item.conditions.map .ok
  | .comparison _ _ _ read => by
      rw [comparisons, List.map_singleton, read, item, FilterItem.conditions,
        FilterItem.conditionsOf, FilterItem.conditions, FilterItem.conditionsOf]
      rfl
  | .parens _ inner _ _ => by
      rw [comparisons, item, FilterItem.conditions, map_ofParts_comparisonsOf inner]

theorem map_ofParts_comparisonsOf : (ss : List Stretch) →
    (comparisonsOf ss).map Condition.ofParts =
      (FilterItem.conditionsOf (itemsOf ss)).map .ok
  | [] => rfl
  | s :: ss => by
      rw [comparisonsOf, itemsOf, FilterItem.conditionsOf, List.map_append, List.map_append,
        map_ofParts_comparisons s, map_ofParts_comparisonsOf ss]

end

end Stretch

/-- Four things introduce a node. -/
theorem fits_of_introduces? {t : Token} {k : Connective} (h : introduces? (.leaf t) = some k) :
    TokenUse.introducer.Fits t := by
  have hkeyword : Node.keyword? (.leaf t) = t.keyword? := rfl
  rw [introduces?, hkeyword] at h
  split at h
  · exact Or.inl ‹_›
  · exact Or.inr (Or.inl ‹_›)
  · exact Or.inr (Or.inr (Or.inl ‹_›))
  · split at h
    · exact Or.inr (Or.inr (Or.inr ‹_›))
    · exact absurd h.symm (Option.some_ne_none k)

namespace Slot

variable (s : Slot) {held : List (TokenUse × Token)}

theorem map_snd_uses {n : Node} (h : held.map Prod.snd = n.tokens) :
    (s.uses held).map Prod.snd = Node.tokensOf (s.nodes n) := by
  have hsnd : ∀ (use : TokenUse) (ts : List Token),
      (ts.map fun t => (use, t)).map Prod.snd = ts := by
    intro use ts
    rw [List.map_map]
    exact List.map_id ts
  rw [uses, nodes, List.map_cons, List.map_append, List.map_append, hsnd, hsnd, h, Node.tokensOf,
    Node.tokensOf_append, Node.tokensOf]
  rfl

theorem fits_uses (h : ∀ use ∈ held, use.1.Fits use.2) :
    ∀ use ∈ s.uses held, use.1.Fits use.2 := by
  intro use hmem
  rcases List.mem_cons.1 hmem with rfl | hmem
  · exact fits_of_introduces? s.introduces
  · rcases List.mem_append.1 hmem with hmem | hmem
    · rcases List.mem_map.1 hmem with ⟨t, ht, rfl⟩
      exact Node.isWhitespace_of_mem_tokensOf s.blank t ht
    · rcases List.mem_append.1 hmem with hmem | hmem
      · exact h use hmem
      · rcases List.mem_map.1 hmem with ⟨t, -, rfl⟩
        trivial

/-- Nothing of a slot itself belongs to a comparison that is read. -/
theorem filter_uses :
    (s.uses held).filter TokenUse.isCondition = held.filter TokenUse.isCondition := by
  have hnone : ∀ (use : TokenUse) (ts : List Token), use ≠ .condition →
      (ts.map fun t => (use, t)).filter TokenUse.isCondition = [] := by
    intro use ts hne
    refine List.filter_eq_nil_iff.2 fun entry hentry => ?_
    rcases List.mem_map.1 hentry with ⟨t, -, rfl⟩
    rwa [TokenUse.isCondition, decide_eq_true_eq]
  rw [uses, List.filter_cons_of_neg Bool.false_ne_true, List.filter_append, List.filter_append,
    hnone .gap _ TokenUse.noConfusion, hnone .passed _ TokenUse.noConfusion, List.nil_append,
    List.append_nil]

end Slot

namespace Stretch

mutual

theorem map_snd_uses : (s : Stretch) → s.uses.map Prod.snd = Node.tokensOf s.nodes
  | .comparison slot parts _ _ => by
      rw [uses, nodes]
      refine slot.map_snd_uses ?_
      rw [List.map_map]
      exact List.map_id _
  | .parens slot inner closing _ => by
      rw [uses, nodes]
      refine slot.map_snd_uses ?_
      rw [List.map_append, map_snd_usesOf inner, Node.tokens, Node.tokensOf_append]
      rfl

theorem map_snd_usesOf : (ss : List Stretch) →
    (usesOf ss).map Prod.snd = Node.tokensOf (nodesOf ss)
  | [] => rfl
  | s :: ss => by
      rw [usesOf, nodesOf, List.map_append, map_snd_uses s, map_snd_usesOf ss,
        Node.tokensOf_append]

end

mutual

theorem fits_uses : (s : Stretch) → ∀ use ∈ s.uses, use.1.Fits use.2
  | .comparison slot parts _ _ => by
      rw [uses]
      refine slot.fits_uses fun use hmem => ?_
      rcases List.mem_map.1 hmem with ⟨t, -, rfl⟩
      trivial
  | .parens slot inner closing closes => by
      rw [uses]
      refine slot.fits_uses fun use hmem => ?_
      rcases List.mem_append.1 hmem with hmem | hmem
      · exact fits_usesOf inner use hmem
      · rw [List.mem_singleton.1 hmem]
        exact closes

theorem fits_usesOf : (ss : List Stretch) → ∀ use ∈ usesOf ss, use.1.Fits use.2
  | [] => fun use hmem => absurd hmem List.not_mem_nil
  | s :: ss => by
      intro use hmem
      rw [usesOf] at hmem
      rcases List.mem_append.1 hmem with hmem | hmem
      · exact fits_uses s use hmem
      · exact fits_usesOf ss use hmem

end

mutual

/-- The tokens that are used for a condition are those of the comparisons that
    are read. -/
theorem map_snd_filter_uses : (s : Stretch) →
    (s.uses.filter TokenUse.isCondition).map Prod.snd =
      s.comparisons.flatMap Node.tokensOf
  | .comparison slot parts _ _ => by
      have hall : ((Node.tokensOf parts).map fun t => (TokenUse.condition, t)).filter
          TokenUse.isCondition =
            (Node.tokensOf parts).map fun t => (TokenUse.condition, t) := by
        refine List.filter_eq_self.2 fun entry hentry => ?_
        rcases List.mem_map.1 hentry with ⟨t, -, rfl⟩
        rfl
      rw [uses, slot.filter_uses, hall, List.map_map, comparisons, List.flatMap_singleton]
      exact List.map_id _
  | .parens slot inner closing _ => by
      rw [uses, slot.filter_uses, List.filter_append, List.map_append,
        map_snd_filter_usesOf inner, comparisons]
      exact List.append_nil _

theorem map_snd_filter_usesOf : (ss : List Stretch) →
    ((usesOf ss).filter TokenUse.isCondition).map Prod.snd =
      (comparisonsOf ss).flatMap Node.tokensOf
  | [] => rfl
  | s :: ss => by
      rw [usesOf, comparisonsOf, List.filter_append, List.map_append, List.flatMap_append,
        map_snd_filter_uses s, map_snd_filter_usesOf ss]

end

end Stretch

/-- The node introduces nothing, so that reading passes over it. -/
def Node.isPassed (n : Node) : Bool :=
  (introduces? n).isNone

theorem Node.isPassed_iff {n : Node} : n.isPassed = true ↔ introduces? n = none :=
  Option.isNone_iff_eq_none

theorem Node.isPassed_of_isWhitespace {n : Node} (h : n.isWhitespace = true) :
    n.isPassed = true := by
  cases n with
  | leaf t =>
      have hkind : t.kind = .whitespace := of_decide_eq_true h
      simp only [isPassed, introduces?, keyword?, isMark, leaf?, Option.bind_some,
        Option.any_some, Token.keyword?, Token.isMark, hkind, reduceCtorEq, decide_false,
        Bool.false_and, Bool.false_eq_true, if_false, Option.isNone_none]
  | group => rfl

/-- Only groups are read. -/
theorem isPassed_of_filterItems {x n : Node} {items : List FilterItem}
    (h : filterItems x n = .ok items) : n.isPassed = true := by
  cases n with
  | leaf t => simp only [filterItems, reduceCtorEq] at h
  | group => rfl

/-- What is read for an introducer is the first node behind it that is no
    blank. -/
theorem exists_of_introduced {x : Node} {ns : List Node} {items : List FilterItem}
    (h : introduced x ns = .ok items) :
    ∃ gap held rest, ns = gap ++ held :: rest ∧ (∀ n ∈ gap, n.isWhitespace = true) ∧
      filterItems x held = .ok items := by
  induction ns with
  | nil => simp only [introduced, reduceCtorEq] at h
  | cons n ns ih =>
      rw [introduced] at h
      split at h
      · rename_i hblank
        rcases ih h with ⟨gap, held, rest, rfl, hgap, hheld⟩
        exact ⟨n :: gap, held, rest, rfl, List.forall_mem_cons.2 ⟨hblank, hgap⟩, hheld⟩
      · exact ⟨[], n, ns, rfl, fun m hm => absurd hm List.not_mem_nil, h⟩

/-- A leaf behind everything else is not read, and hides nothing. -/
theorem introduced_of_concat {x : Node} {t : Token} {ns : List Node} {items : List FilterItem}
    (h : introduced x (ns ++ [.leaf t]) = .ok items) : introduced x ns = .ok items := by
  induction ns with
  | nil =>
      rw [List.nil_append, introduced] at h
      split at h
      · simp only [introduced, reduceCtorEq] at h
      · simp only [filterItems, reduceCtorEq] at h
  | cons n ns ih =>
      rw [List.cons_append, introduced] at h
      rw [introduced]
      split at h
      · rename_i hblank
        rw [if_pos hblank]
        exact ih h
      · rename_i hvisible
        rw [if_neg hvisible]
        exact h

theorem collect_of_concat {t : Token} {ns : List Node} {nodes : List FilterNode}
    (ht : (Node.leaf t).isPassed = true) (h : collect (ns ++ [.leaf t]) = .ok nodes) :
    collect ns = .ok nodes := by
  induction ns generalizing nodes with
  | nil =>
      rwa [List.nil_append, FilterItem.collect_pass (Node.isPassed_iff.1 ht)] at h
  | cons n ns ih =>
      rw [List.cons_append, collect] at h
      rw [collect]
      split at h
      · exact ih h
      · split at h
        · simp only [reduceCtorEq] at h
        · rename_i items hitems
          rw [introduced_of_concat hitems]
          simp only
          split at h
          · simp only [reduceCtorEq] at h
          · rename_i rest hrest
            rw [ih hrest]
            exact h

/-- In any slot that holds the node, what is read of it makes a stretch. -/
def Node.FillsSlots (n : Node) : Prop :=
  ∀ x items, filterItems x n = .ok items → ∀ slot : Slot,
    ∃ s : Stretch, s.nodes = slot.nodes n ∧ s.item = .node slot.connective items

/-- What a filter is read from falls into stretches, from its first introducer
    on. -/
theorem exists_stretches_of_collect {ns : List Node} {nodes : List FilterNode}
    (hns : ∀ n ∈ ns, n.FillsSlots) (h : collect ns = .ok nodes) :
    ∃ ss, ns.dropWhile Node.isPassed = Stretch.nodesOf ss ∧
      nodes.map FilterNode.toItem = Stretch.itemsOf ss := by
  induction ns generalizing nodes with
  | nil =>
      rw [collect, Except.ok.injEq] at h
      rw [← h]
      exact ⟨[], rfl, rfl⟩
  | cons n ns ih =>
      have htail := fun m hm => hns m (List.mem_cons_of_mem n hm)
      rw [collect] at h
      split at h
      · rename_i hnone
        rw [List.dropWhile_cons_of_pos (Node.isPassed_iff.2 hnone)]
        exact ih htail h
      · rename_i k hk
        split at h
        · simp only [reduceCtorEq] at h
        · rename_i items hitems
          split at h
          · simp only [reduceCtorEq] at h
          · rename_i rest hrest
            rw [Except.ok.injEq] at h
            rcases exists_of_introduced hitems with ⟨gap, held, tail, rfl, hgap, hheld⟩
            rcases ih htail hrest with ⟨ss, hss, hmap⟩
            -- Neither the blanks nor the node that is read introduce anything, so the
            -- next stretch begins in what follows them.
            rw [List.dropWhile_append_of_pos fun m hm => Node.isPassed_of_isWhitespace (hgap m hm),
              List.dropWhile_cons_of_pos (isPassed_of_filterItems hheld)] at hss
            have hpassed : ∀ m ∈ tail.takeWhile Node.isPassed, introduces? m = none := by
              intro m hm
              have hm := List.mem_takeWhile_imp hm
              exact Node.isPassed_iff.1 hm
            cases n with
            | group => exact absurd hk.symm (Option.some_ne_none k)
            | leaf t =>
                rcases htail held (List.mem_append_right _ List.mem_cons_self) _ _ hheld
                  ⟨t, k, hk, gap, hgap, tail.takeWhile Node.isPassed, hpassed⟩ with
                  ⟨s, hnodes, hitem⟩
                refine ⟨s :: ss, ?_, ?_⟩
                · have hstop : ¬(Node.leaf t).isPassed = true := by
                    rw [Node.isPassed, hk]
                    exact Bool.false_ne_true
                  rw [List.dropWhile_cons_of_neg hstop, Stretch.nodesOf, hnodes, ← hss, Slot.nodes,
                    List.cons_append, List.append_assoc, List.cons_append,
                    List.takeWhile_append_dropWhile]
                · rw [← h, List.map_cons, hmap, Stretch.itemsOf, hitem]
                  rfl

/-- The closing mark of a parenthesis introduces nothing. -/
theorem isPassed_of_close {t : Token} (h : t.isMark ")" = true) :
    (Node.leaf t).isPassed = true := by
  have hopen : (Node.leaf t).isMark "(" = false := Token.not_open_of_close h
  have hkeyword : (Node.leaf t).keyword? = none := keyword?_of_isMark h
  rw [Node.isPassed, introduces?, hkeyword]
  simp only [hopen, Bool.false_eq_true, if_false, Option.isNone_none]

theorem fillsSlots_leaf (t : Token) : (Node.leaf t).FillsSlots := by
  intro x items h
  simp only [filterItems, reduceCtorEq] at h

theorem Node.Tidy.fillsSlots {n : Node} (h : n.Tidy) : n.FillsSlots := by
  induction h with
  | leaf => exact fillsSlots_leaf _
  | name =>
      intro x items h
      simp only [nameRef, filterItems, reduceCtorEq] at h
  | call =>
      intro x items h
      simp only [filterItems, reduceCtorEq] at h
  | list =>
      intro x items h
      simp only [filterItems, reduceCtorEq] at h
  | comparison =>
      intro x items h slot
      rw [filterItems] at h
      split at h
      · rename_i c hc
        rw [Except.ok.injEq] at h
        rw [← h]
        exact ⟨.comparison slot _ c hc, rfl, rfl⟩
      · simp only [reduceCtorEq] at h
  | @parens opening closing inner hopen hclose hall ih =>
      intro x items h slot
      rw [filterItems] at h
      split at h
      · rename_i nodes hnodes
        rw [Except.ok.injEq] at h
        rw [← List.cons_append] at hnodes
        -- The opening mark introduces, so the stretches are all there is but the closing mark.
        have hread : ∀ m ∈ Node.leaf opening :: inner, m.FillsSlots :=
          List.forall_mem_cons.2 ⟨fillsSlots_leaf opening, ih⟩
        rcases exists_stretches_of_collect hread
          (collect_of_concat (isPassed_of_close hclose) hnodes) with ⟨ss, hss, hmap⟩
        have hstop : ¬(Node.leaf opening).isPassed = true := by
          rw [Node.isPassed, introduces?_of_open hopen]
          exact Bool.false_ne_true
        rw [List.dropWhile_cons_of_neg hstop] at hss
        refine ⟨.parens slot ss closing hclose, ?_, ?_⟩
        · rw [Stretch.nodes, ← hss]
          rfl
        · rw [Stretch.item, ← hmap, h]
      · simp only [reduceCtorEq] at h

theorem filterOf_eq_some_iff {root : Group} {nodes : List FilterNode} :
    filterOf root = .ok (some nodes) ↔
      ∃ clause, root.find? .whereClause = some clause ∧ collect clause.children = .ok nodes := by
  rw [filterOf]
  cases hfind : root.find? .whereClause with
  | none =>
      simp only [Except.ok.injEq, reduceCtorEq, false_and, exists_false]
  | some clause =>
      simp only [Option.some.injEq, exists_eq_left']
      cases hcollect : collect clause.children with
      | error m => simp only [reduceCtorEq]
      | ok found => simp only [Except.ok.injEq, Option.some.injEq]

/-- The group of a condition falls into stretches from its keyword on. -/
theorem exists_stretches_of_clause {sql : String} {root clause : Group} {nodes : List FilterNode}
    (hroot : Group.ofText sql = .ok root) (hfind : root.find? .whereClause = some clause)
    (hcollect : collect clause.children = .ok nodes) :
    ∃ ss, clause.children = Stretch.nodesOf ss ∧
      nodes.map FilterNode.toItem = Stretch.itemsOf ss := by
  rcases ofText_eq_ok_iff.1 hroot with ⟨_, items, -, hnest, rfl⟩
  rcases find?_clause (Nested.matched_nest hnest) hfind with
    ⟨keyword, condition, hchildren, hkeyword, -, htidy⟩
  rw [hchildren] at hcollect ⊢
  have hread : ∀ n ∈ keyword :: condition, n.FillsSlots := by
    refine List.forall_mem_cons.2 ⟨?_, fun n hn => (htidy n hn).fillsSlots⟩
    cases keyword with
    | leaf t => exact fillsSlots_leaf t
    | group => exact absurd hkeyword.symm (Option.some_ne_none _)
  rcases exists_stretches_of_collect hread hcollect with ⟨ss, hss, hmap⟩
  have hstop : ¬keyword.isPassed = true := by
    rw [Node.isPassed, introduces?, hkeyword]
    exact Bool.false_ne_true
  rw [List.dropWhile_cons_of_neg hstop] at hss
  exact ⟨ss, hss, hmap⟩

/-- Whether the node is a comparison that is one of the conditions. -/
def Node.isReadAs (conditions : List Condition) : Node → Bool
  | .group .comparison parts =>
    match Condition.ofParts parts with
    | .ok c => conditions.contains c
    | .error _ => false
  | _ => false

/-- No token of the clause is passed over: a blank aside, each introduces a
    node, closes a parenthesis, or belongs to a comparison that is one of the
    conditions. -/
def Group.ReadsAll (clause : Group) (conditions : List Condition) : Prop :=
  ∀ t ∈ clause.toNode.tokens,
    t.isWhitespace = true ∨ (introduces? (.leaf t)).isSome = true ∨ t.isMark ")" = true ∨
      ∃ n ∈ clause.toNode.subnodes, n.isReadAs conditions = true ∧ t ∈ n.tokens

instance (clause : Group) (conditions : List Condition) :
    Decidable (clause.ReadsAll conditions) :=
  inferInstanceAs (Decidable (∀ t ∈ clause.toNode.tokens, _))

/-- Where a statement has a filter, its condition falls into stretches that are
    read as the nodes of the filter, one for one. Each token is used as its
    stretch says: it introduces a node, is a blank behind that, belongs to the
    one comparison that is read there, closes a parenthesis that is, or stands
    behind what was read and before the next introducer, where it is passed
    over. The conditions are the comparisons that are read, in order, and the
    tokens used for a condition are theirs. -/
theorem filter_accounts {sql : String} {t : Table} {nodes : List FilterNode}
    (h : classify sql = .ok (.table t)) (hfilter : t.filter = some nodes) :
    ∃ root clause stretches, Group.ofText sql = .ok root ∧
      root.find? .whereClause = some clause ∧ clause.children = Stretch.nodesOf stretches ∧
      nodes.map FilterNode.toItem = Stretch.itemsOf stretches ∧
      (Stretch.comparisonsOf stretches).map Condition.ofParts =
        (FilterItem.conditionsOf (nodes.map FilterNode.toItem)).map .ok ∧
      (Stretch.usesOf stretches).map Prod.snd = clause.toNode.tokens ∧
      ((Stretch.usesOf stretches).filter TokenUse.isCondition).map Prod.snd =
        (Stretch.comparisonsOf stretches).flatMap Node.tokensOf ∧
      ∀ use ∈ Stretch.usesOf stretches, use.1.Fits use.2 := by
  rcases classify_eq_ok_iff.1 h with ⟨root, c, hroot, -, hextract⟩
  have hasked := (run_eq_table hextract).2
  rw [hfilter, filterIf] at hasked
  split at hasked
  · rcases filterOf_eq_some_iff.1 hasked with ⟨clause, hfind, hcollect⟩
    rcases exists_stretches_of_clause hroot hfind hcollect with ⟨ss, hss, hmap⟩
    refine ⟨root, clause, ss, hroot, hfind, hss, hmap, ?_, ?_, Stretch.map_snd_filter_usesOf ss,
      Stretch.fits_usesOf ss⟩
    · rw [hmap]
      exact Stretch.map_ofParts_comparisonsOf ss
    · rw [Stretch.map_snd_usesOf, ← hss]
      rfl
  · -- A statement whose condition is not asked for has no filter.
    rw [Except.ok.injEq] at hasked
    exact absurd hasked.symm (Option.some_ne_none nodes)

/-- A disjunction, a parenthesis, and two stretches that are passed over. -/
theorem filter_accounts_nested :
    ∃ t nodes,
      classify "SELECT x FROM t WHERE a = 1 b OR (c LIKE 'd' (e = 2))" = .ok (.table t) ∧
      t.filter = some nodes ∧
      ∃ root clause stretches,
        Group.ofText "SELECT x FROM t WHERE a = 1 b OR (c LIKE 'd' (e = 2))" = .ok root ∧
        root.find? .whereClause = some clause ∧ clause.children = Stretch.nodesOf stretches ∧
        nodes.map FilterNode.toItem = Stretch.itemsOf stretches ∧
        (Stretch.comparisonsOf stretches).map Condition.ofParts =
          (FilterItem.conditionsOf (nodes.map FilterNode.toItem)).map .ok ∧
        (Stretch.usesOf stretches).map Prod.snd = clause.toNode.tokens ∧
        ((Stretch.usesOf stretches).filter TokenUse.isCondition).map Prod.snd =
          (Stretch.comparisonsOf stretches).flatMap Node.tokensOf ∧
        ∀ use ∈ Stretch.usesOf stretches, use.1.Fits use.2 := by
  have hrun : ((classify "SELECT x FROM t WHERE a = 1 b OR (c LIKE 'd' (e = 2))").toOption.bind
      Entity.table?).any (fun t => t.filter.isSome) = true := by
    decide +kernel
  rcases exists_table_of_any hrun with ⟨t, ht, hsome⟩
  rcases Option.isSome_iff_exists.1 hsome with ⟨nodes, hnodes⟩
  exact ⟨t, nodes, ht, hnodes, filter_accounts ht hnodes⟩

/-- Without a connective between them, the second of two comparisons is no part
    of the filter. -/
theorem not_readsAll_of_missing_connective :
    ∃ t nodes root clause, classify "DELETE FROM t WHERE a = 1 b = 2" = .ok (.table t) ∧
      t.action = .delete ∧ t.filter = some nodes ∧
      Group.ofText "DELETE FROM t WHERE a = 1 b = 2" = .ok root ∧
      root.find? .whereClause = some clause ∧
      ¬clause.ReadsAll (FilterItem.conditionsOf (nodes.map FilterNode.toItem)) := by
  have htable : ((classify "DELETE FROM t WHERE a = 1 b = 2").toOption.bind Entity.table?).any
      (fun t => t.action = .delete && t.filter.any fun nodes =>
        FilterItem.conditionsOf (nodes.map FilterNode.toItem) = [⟨"a", "=", "1"⟩]) = true := by
    decide +kernel
  have hroot : ((Group.ofText "DELETE FROM t WHERE a = 1 b = 2").toOption.any fun root =>
      (root.find? .whereClause).any fun clause =>
        !decide (clause.ReadsAll [⟨"a", "=", "1"⟩])) = true := by
    decide +kernel
  rcases exists_table_of_any htable with ⟨t, ht, hcheck⟩
  rw [Bool.and_eq_true, decide_eq_true_eq] at hcheck
  rcases (Option.any_eq_true _ _).1 hcheck.2 with ⟨nodes, hnodes, hconditions⟩
  rcases exists_of_toOption_any hroot with ⟨root, hroot, hclause⟩
  rcases (Option.any_eq_true _ _).1 hclause with ⟨clause, hfind, hread⟩
  rw [Bool.not_eq_true', decide_eq_false_iff_not, ← of_decide_eq_true hconditions] at hread
  exact ⟨t, nodes, root, clause, ht, hcheck.1, hnodes, hroot, hfind, hread⟩

end SqlGist
