import SqlGist.Extract
import SqlGist.Proofs.Filter.Spelling

/-!
# Reading Filters Back

What `collect` finds in the tree of a filter is the filter. A node is read from
what introduces it and from the group next to that, and the groups themselves
introduce nothing, so reading passes over them. The parenthesis of a nested
filter opens with a mark that introduces its first node, which is why a filter
has to open with a conjunction.

The other direction is in `formed_collect`: whatever `collect` finds in tidy
nodes can be written down.

## Main definitions

* `FilterItem.held`: The items of a node.

## Theorems

* `introduced_tree`: What a node holds is read next to what introduces it.
* `collect_treeOf`: A filter is read from its tree.
* `ofParts_comparison`, `ofParts_written`: The condition of two operands and an
  operator.
* `ofParts_tidy`: A condition that is read has a known operator.
* `formed_collect`: What is read from tidy nodes can be written.
-/

namespace SqlGist

namespace Node

theorem operatorText_mem {n : Node} (h : n.isComparisonOperator = true) :
    operatorText n ∈ conditionOperators := by
  rcases isComparisonOperator_iff.1 h with ⟨t, rfl, ⟨hkind, hmem⟩ | hkind⟩
  · simp only [operatorText, Token.normalized, hkind]
    exact List.mem_append_left _ hmem
  · simp only [operatorText, Token.normalized, hkind]
    exact List.mem_append_right _ (List.mem_singleton.2 rfl)

end Node

/-- Two operands and an operator make a condition, whatever blanks stand between
    them. -/
theorem ofParts_comparison {left operator right : Node} {gap gap' : List Node}
    (hleft : left.isOperand = true) (hgap : ∀ m ∈ gap, m.isWhitespace = true)
    (hoperator : operator.isComparisonOperator = true)
    (hgap' : ∀ m ∈ gap', m.isWhitespace = true) (hright : right.isOperand = true) :
    Condition.ofParts (left :: (gap ++ operator :: (gap' ++ [right]))) =
      .ok ⟨left.value, operatorText operator, right.value⟩ := by
  have hnone : ∀ ns : List Node, (∀ m ∈ ns, m.isWhitespace = true) →
      ns.filter (fun n => !n.isWhitespace) = [] := by
    intro ns hns
    refine List.filter_eq_nil_iff.2 fun m hm => ?_
    rw [hns m hm]
    exact Bool.false_ne_true
  have hparts : (left :: (gap ++ operator :: (gap' ++ [right]))).filter
      (fun n => !n.isWhitespace) = [left, operator, right] := by
    simp only [List.filter_cons, List.filter_append, hnone gap hgap, hnone gap' hgap',
      Node.isWhitespace_of_isOperand hleft, Node.isWhitespace_of_isOperand hright,
      Node.isWhitespace_of_isComparisonOperator hoperator, Bool.not_false, if_true,
      List.nil_append, List.filter_nil]
  rw [Condition.ofParts, hparts]

/-- What is written as a comparison is read as its three parts. -/
theorem ofParts_written (name : String) {operator : String} (h : operator ∈ conditionOperators)
    {value : Token} (hvalue : Node.isOperand (.leaf value) = true) :
    Condition.ofParts [Node.nameRef (.leaf (.quotedName name)), .leaf .space,
      .leaf (operatorToken operator), .leaf .space, .leaf value] =
        .ok ⟨name, operator, value.value⟩ := by
  have hgap : ∀ m ∈ [Node.leaf .space], m.isWhitespace = true := by decide
  have hname : (Node.nameRef (.leaf (.quotedName name))).value = name := Token.value_quotedName name
  have hoperator : operatorText (.leaf (operatorToken operator)) = operator :=
    normalized_operatorToken h
  have hleft : (Node.nameRef (.leaf (.quotedName name))).isOperand = true := rfl
  have hparts := ofParts_comparison hleft hgap (compares_operatorToken h) hgap hvalue
  rw [hname, hoperator] at hparts
  exact hparts

namespace FilterItem

/-- The items of a node. -/
def held : FilterItem → List FilterItem
  | .condition _ => []
  | .node _ items => items

theorem eq_node {item : FilterItem} (h : item.Formed) :
    item = .node item.connective item.held := by
  cases h <;> rfl

theorem introduces?_group (shape : Shape) (children : List Node) :
    introduces? (.group shape children) = none := rfl

theorem introduces?_connective (k : Connective) : introduces? (.leaf k.token) = some k := by
  cases k <;> rfl

theorem introduces?_space : introduces? (.leaf .space) = none := rfl

theorem collect_pass {n : Node} (h : introduces? n = none) (ns : List Node) :
    collect (n :: ns) = collect ns := by
  rw [collect, h]

theorem collect_introducer {n : Node} {ns : List Node} {k : Connective} {items : List FilterItem}
    {nodes : List FilterNode} (hn : introduces? n = some k) (hitems : introduced n ns = .ok items)
    (hnodes : collect ns = .ok nodes) : collect (n :: ns) = .ok (⟨k, items⟩ :: nodes) := by
  rw [collect, hn]
  simp only [hitems, hnodes]

theorem introduced_space (x : Node) (ns : List Node) :
    introduced x (.leaf .space :: ns) = introduced x ns := by
  rw [introduced]
  exact if_pos rfl

theorem introduced_visible {n : Node} (h : n.isWhitespace = false) (x : Node) (ns : List Node) :
    introduced x (n :: ns) = filterItems x n := by
  rw [introduced, h]
  exact if_neg Bool.false_ne_true

/-- The tree of what a node holds introduces nothing. -/
theorem collect_tree {item : FilterItem} (h : item.Formed) (ns : List Node) :
    collect (item.tree ++ ns) = collect ns := by
  rcases tree_eq_pair h with ⟨shape, children, heq, -⟩
  rw [heq, List.cons_append, collect_pass introduces?_space, List.cons_append,
    collect_pass (introduces?_group shape children), List.nil_append]

theorem collect_treeBehind {items : List FilterItem} (h : ∀ item ∈ items, item.Formed)
    (hread : ∀ item ∈ items, ∀ x ns, introduced x (item.tree ++ ns) = .ok item.held)
    {ns : List Node} (hend : collect ns = .ok []) :
    ∃ nodes, collect (treeBehind items ++ ns) = .ok nodes ∧
      nodes.map FilterNode.toItem = items := by
  induction items with
  | nil => exact ⟨[], by rw [treeBehind, List.nil_append, hend], rfl⟩
  | cons item items ih =>
      have hitem := h item List.mem_cons_self
      -- The tree of the node introduces nothing, so the next one is read behind it.
      rcases ih (fun i hi => h i (List.mem_cons_of_mem _ hi))
        (fun i hi => hread i (List.mem_cons_of_mem _ hi)) with ⟨nodes, hnodes, hmap⟩
      refine ⟨⟨item.connective, item.held⟩ :: nodes, ?_, ?_⟩
      · rw [treeBehind, List.cons_append, List.cons_append, List.append_assoc,
          collect_pass introduces?_space]
        refine collect_introducer (introduces?_connective item.connective)
          (hread item List.mem_cons_self _ _) ?_
        rw [collect_tree hitem, hnodes]
      · rw [List.map_cons, hmap, FilterNode.toItem, ← eq_node hitem]

/-- A filter is read from its tree behind anything that introduces a
    conjunction. -/
theorem collect_treeOf {items : List FilterItem} (hand : OpensWithAnd items)
    (h : ∀ item ∈ items, item.Formed)
    (hread : ∀ item ∈ items, ∀ x ns, introduced x (item.tree ++ ns) = .ok item.held)
    {n : Node} (hn : introduces? n = some .and) {ns : List Node} (hend : collect ns = .ok []) :
    ∃ nodes, collect (n :: (treeOf items ++ ns)) = .ok nodes ∧
      nodes.map FilterNode.toItem = items := by
  rcases hand with ⟨held, items, rfl⟩
  rcases collect_treeBehind (fun i hi => h i (List.mem_cons_of_mem _ hi))
    (fun i hi => hread i (List.mem_cons_of_mem _ hi)) hend with ⟨nodes, hnodes, hmap⟩
  refine ⟨⟨.and, held⟩ :: nodes, ?_, by rw [List.map_cons, hmap]; rfl⟩
  rw [treeOf, List.append_assoc]
  refine collect_introducer hn (hread _ List.mem_cons_self n _) ?_
  rw [collect_tree (h _ List.mem_cons_self), hnodes]

theorem ofParts_condition {c : Condition} (h : c.operator ∈ conditionOperators) :
    Condition.ofParts [Node.nameRef (.leaf (.quotedName c.column)), .leaf .space,
      .leaf (operatorToken c.operator), .leaf .space, .leaf (.stringLiteral c.value)] = .ok c := by
  rw [ofParts_written c.column h rfl, Token.value_stringLiteral]

/-- What a node holds is read next to what introduces it. -/
theorem introduced_tree {item : FilterItem} (h : item.Formed) (x : Node) (ns : List Node) :
    introduced x (item.tree ++ ns) = .ok item.held := by
  induction h generalizing x ns with
  | @condition k c h =>
      rw [tree, Condition.tree, List.cons_append, List.cons_append, introduced_space,
        introduced_visible rfl, filterItems, ofParts_condition h]
      rfl
  | @nested k items hand hall ih =>
      -- Neither the blank nor the closing mark introduces anything.
      have hend : collect ([.leaf .space] ++ [.leaf (.mark ")")]) = .ok [] := rfl
      rcases collect_treeOf hand hall ih (n := .leaf (.mark "(")) rfl hend with
        ⟨nodes, hnodes, hmap⟩
      rw [← List.append_assoc] at hnodes
      rw [tree_nested hand, List.cons_append, List.cons_append, introduced_space,
        introduced_visible rfl, filterItems, hnodes]
      simp only [hmap, held]

end FilterItem

/-- The condition of a tidy comparison has a known operator. -/
theorem ofParts_tidy {children : List Node} {c : Condition}
    (h : (Node.group .comparison children).Tidy) (hc : Condition.ofParts children = .ok c) :
    c.operator ∈ conditionOperators := by
  cases h with
  | comparison hleft hgap hoperator hgap' hright _ =>
      rw [ofParts_comparison hleft hgap hoperator hgap' hright, Except.ok.injEq] at hc
      rw [← hc]
      exact Node.operatorText_mem hoperator

theorem introduces?_of_open {t : Token} (h : t.isMark "(" = true) :
    introduces? (.leaf t) = some .and := by
  have hkeyword : Node.keyword? (.leaf t) = none := by
    simp only [Token.isMark, Bool.and_eq_true, decide_eq_true_eq] at h
    simp only [Node.keyword?, Node.leaf?, Option.bind_some, Token.keyword?, h.1]
  rw [introduces?, hkeyword]
  exact if_pos h

/-- What opens with something that introduces a conjunction is read as a filter
    that opens with one. -/
theorem opensWithAnd_collect {n : Node} {ns : List Node} {nodes : List FilterNode}
    (hn : introduces? n = some .and) (h : collect (n :: ns) = .ok nodes) :
    FilterItem.OpensWithAnd (nodes.map FilterNode.toItem) := by
  rw [collect, hn] at h
  simp only at h
  split at h
  · simp only [reduceCtorEq] at h
  · rename_i items _
    split at h
    · simp only [reduceCtorEq] at h
    · rename_i rest _
      rw [Except.ok.injEq] at h
      rw [← h]
      exact ⟨items, rest.map FilterNode.toItem, rfl⟩

mutual

theorem formed_filterItems (x : Node) {items : List FilterItem} (k : Connective) : (n : Node) →
    n.Tidy → filterItems x n = .ok items → (FilterItem.node k items).Formed
  | .leaf t, _, h => by simp only [filterItems, reduceCtorEq] at h
  | .group shape children, htidy, h => by
      cases shape with
      | comparison =>
          rw [filterItems] at h
          split at h
          · rename_i c hc
            rw [Except.ok.injEq] at h
            rw [← h]
            exact .condition (ofParts_tidy htidy hc)
          · simp only [reduceCtorEq] at h
      | parenthesis =>
          rw [filterItems] at h
          split at h
          · rename_i nodes hnodes
            rw [Except.ok.injEq] at h
            rw [← h]
            -- The opening mark introduces the first node, and leaves introduce no group.
            refine .nested ?_ fun item hitem => ?_
            · cases htidy with
              | parens hopen _ _ =>
                  refine opensWithAnd_collect ?_ hnodes
                  exact introduces?_of_open hopen
            · rcases List.mem_map.1 hitem with ⟨node, hnode, rfl⟩
              refine formed_collect children ?_ hnodes node hnode
              cases htidy with
              | parens _ _ hall =>
                  intro m hm
                  rcases List.mem_cons.1 hm with rfl | hm
                  · exact Or.inr ⟨_, rfl⟩
                  · rcases List.mem_append.1 hm with hm | hm
                    · exact Or.inl (hall m hm)
                    · exact Or.inr ⟨_, List.mem_singleton.1 hm⟩
          · simp only [reduceCtorEq] at h
      | _ => simp only [filterItems, reduceCtorEq] at h

theorem formed_introduced (x : Node) {items : List FilterItem} (k : Connective) :
    (ns : List Node) → (∀ n ∈ ns, n.Tidy ∨ ∃ t, n = .leaf t) →
    introduced x ns = .ok items → (FilterItem.node k items).Formed
  | [], _, h => by simp only [introduced, reduceCtorEq] at h
  | n :: ns, htidy, h => by
      rw [introduced] at h
      split at h
      -- What is introduced stands behind the blanks.
      · exact formed_introduced x k ns (fun m hm => htidy m (List.mem_cons_of_mem _ hm)) h
      · rcases htidy n List.mem_cons_self with hn | ⟨t, rfl⟩
        · exact formed_filterItems x k n hn h
        · simp only [filterItems, reduceCtorEq] at h

theorem formed_collect {nodes : List FilterNode} : (ns : List Node) →
    (∀ n ∈ ns, n.Tidy ∨ ∃ t, n = .leaf t) → collect ns = .ok nodes →
    ∀ node ∈ nodes, node.toItem.Formed
  | [], _, h => by
      rw [collect, Except.ok.injEq] at h
      rw [← h]
      exact fun node hnode => absurd hnode List.not_mem_nil
  | n :: ns, htidy, h => by
      have htail : ∀ m ∈ ns, m.Tidy ∨ ∃ t, m = .leaf t :=
        fun m hm => htidy m (List.mem_cons_of_mem _ hm)
      rw [collect] at h
      split at h
      · exact formed_collect ns htail h
      · rename_i k _
        split at h
        · simp only [reduceCtorEq] at h
        · rename_i items hitems
          split at h
          · simp only [reduceCtorEq] at h
          · rename_i rest hrest
            rw [Except.ok.injEq] at h
            rw [← h]
            intro node hnode
            rcases List.mem_cons.1 hnode with rfl | hnode
            · exact formed_introduced n k ns htail hitems
            · exact formed_collect ns htail hrest node hnode

end

end SqlGist
