import SqlGist.Proofs.FirstStatement
import SqlGist.Proofs.Tree.Grammar

/-!
# Building Loses Nothing

The leaves of a built tree are the tokens of the first statement, and every
node of it, at any depth, spans exactly the text it covers.

A span is merged from the spans of the children, so it is right only if no
child is a group without leaves: such a group would span `0..0` and pull the
merged span to the front of the text. `Filled` rules that out, and the grammar
of built trees grants it.

The tokens of a node stand next to each other in the text, because the tokens
of its parent do. That is all `spansOf_hull` needs: spans that follow each other
without a gap merge to the one from the first start to the last stop.

## Main definitions

* `Node.subnodes`: A node and all nodes below it.
* `Node.Filled`: No group at or below a node is empty.

## Theorems

* `Tidy.filled`: Nothing in the grammar is empty.
* `span_of_placed`: A filled node spans its tokens.
* `tokens_of_mem_subnodes`: The tokens of a node below are a stretch of those
  above.
* `ofText_lossless`: A tree holds the first statement of its text, and each of
  its nodes spans its own text.
-/

namespace SqlGist

namespace Node

mutual

/-- The node and all nodes below it. -/
def subnodes : Node → List Node
  | .leaf t => [.leaf t]
  | .group shape children => .group shape children :: subnodesOf children

/-- The nodes of a list and all nodes below them. -/
def subnodesOf : List Node → List Node
  | [] => []
  | n :: ns => n.subnodes ++ subnodesOf ns

end

mutual

/-- No group at or below the node is empty. -/
def Filled : Node → Prop
  | .leaf _ => True
  | .group _ children => children ≠ [] ∧ FilledAll children

/-- No group at or below the nodes of a list is empty. -/
def FilledAll : List Node → Prop
  | [] => True
  | n :: ns => n.Filled ∧ FilledAll ns

end

theorem filledAll_iff {ns : List Node} : FilledAll ns ↔ ∀ n ∈ ns, n.Filled := by
  induction ns with
  | nil => exact ⟨fun _ n hn => absurd hn List.not_mem_nil, fun _ => trivial⟩
  | cons n ns ih => rw [FilledAll, ih, List.forall_mem_cons]

theorem Tidy.filled {n : Node} (h : n.Tidy) : n.Filled := by
  induction h with
  | leaf => trivial
  | name => exact ⟨List.cons_ne_nil _ _, trivial, trivial⟩
  | call _ _ _ ih =>
      exact ⟨List.cons_ne_nil _ _, ⟨List.cons_ne_nil _ _, trivial, trivial⟩, ih, trivial⟩
  | comparison _ _ _ _ _ _ ih => exact ⟨List.cons_ne_nil _ _, filledAll_iff.2 ih⟩
  | list hne _ _ ih => exact ⟨hne, filledAll_iff.2 ih⟩
  | parens _ _ _ ih =>
      refine ⟨List.cons_ne_nil _ _, trivial, filledAll_iff.2 ?_⟩
      intro m hm
      rcases List.mem_append.1 hm with hm | hm
      · exact ih m hm
      · rw [List.mem_singleton] at hm
        rw [hm]
        trivial

theorem IsClause.filled {ns : List Node} {n : Node} (hn : IsClause ns n)
    (h : ∀ m ∈ ns, m.Filled) : n.Filled := by
  rcases hn with ⟨clause, condition, rfl, -, hmem, -⟩
  exact ⟨List.cons_ne_nil _ _, filledAll_iff.2 fun m hm => h m (hmem m hm)⟩

theorem isWhitespace_of_mem_tokensOf {ns : List Node} (h : ∀ n ∈ ns, n.isWhitespace = true) :
    ∀ t ∈ tokensOf ns, t.isWhitespace = true := by
  induction ns with
  | nil => exact fun t ht => absurd ht List.not_mem_nil
  | cons n ns ih =>
      intro t ht
      rw [tokensOf] at ht
      rcases List.mem_append.1 ht with ht | ht
      · have hn := h n List.mem_cons_self
        cases n with
        | leaf u =>
            rw [List.mem_singleton.1 ht]
            exact hn
        | group => exact absurd hn Bool.false_ne_true
      · exact ih (fun m hm => h m (List.mem_cons_of_mem _ hm)) t ht

mutual

/-- A filled node whose tokens are placed from `offset` on spans them from the
    first byte to the last. -/
theorem span_of_placed : (n : Node) → n.Filled → (offset : Nat) →
    Token.Placed offset n.tokens →
    n.span = ⟨offset, offset + Text.byteLength (Token.textsOf n.tokens)⟩
  | .leaf t, _, offset, hplaced => by
      rw [tokens, Token.textsOf_cons, Token.textsOf, List.map_nil, List.flatten_nil,
        List.append_nil]
      exact hplaced.1
  | .group _ (n :: ns), hfilled, offset, hplaced => by
      rw [tokens, tokensOf] at hplaced
      have hparts := Token.placed_append.1 hplaced
      have hhead := span_of_placed n hfilled.2.1 offset hparts.1
      rw [span, spansOf, Span.hull, hhead, spansOf_hull ns hfilled.2.2 offset _
        (Nat.le_add_right _ _) hparts.2, tokens, tokensOf, Token.textsOf_append,
        Text.byteLength_append, Nat.add_assoc]

/-- Merged onto a span that ends where they begin, the spans of filled nodes
    stretch it to where they end. -/
theorem spansOf_hull : (ns : List Node) → FilledAll ns → (start offset : Nat) → start ≤ offset →
    Token.Placed offset (tokensOf ns) →
    (spansOf ns).foldl Span.merge ⟨start, offset⟩ =
      ⟨start, offset + Text.byteLength (Token.textsOf (tokensOf ns))⟩
  | [], _, start, offset, _, _ => rfl
  | n :: ns, hfilled, start, offset, hle, hplaced => by
      rw [tokensOf] at hplaced
      have hparts := Token.placed_append.1 hplaced
      have hhead := span_of_placed n hfilled.1 offset hparts.1
      have hmerge : Span.merge ⟨start, offset⟩ n.span =
          ⟨start, offset + Text.byteLength (Token.textsOf n.tokens)⟩ := by
        simp only [hhead, Span.merge, Nat.min_eq_left hle,
          Nat.max_eq_right (Nat.le_add_right offset _)]
      rw [spansOf, List.foldl_cons, hmerge, spansOf_hull ns hfilled.2 start _
        (Nat.le_add_right_of_le hle) hparts.2, tokensOf, Token.textsOf_append,
        Text.byteLength_append, Nat.add_assoc]

end

mutual

theorem tokens_of_mem_subnodes : (n : Node) → {m : Node} → m ∈ n.subnodes →
    ∃ before after, n.tokens = before ++ (m.tokens ++ after)
  | .leaf t, m, h => by
      rw [subnodes, List.mem_singleton] at h
      rw [h]
      exact ⟨[], [], rfl⟩
  | .group shape children, m, h => by
      rw [subnodes] at h
      rcases List.mem_cons.1 h with rfl | h
      · exact ⟨[], [], (List.append_nil _).symm⟩
      · exact tokens_of_mem_subnodesOf children h

theorem tokens_of_mem_subnodesOf : (ns : List Node) → {m : Node} → m ∈ subnodesOf ns →
    ∃ before after, tokensOf ns = before ++ (m.tokens ++ after)
  | n :: ns, m, h => by
      rw [subnodesOf] at h
      rw [tokensOf]
      rcases List.mem_append.1 h with h | h
      · rcases tokens_of_mem_subnodes n h with ⟨before, after, heq⟩
        exact ⟨before, after ++ tokensOf ns, by rw [heq]; simp only [List.append_assoc]⟩
      · rcases tokens_of_mem_subnodesOf ns h with ⟨before, after, heq⟩
        exact ⟨n.tokens ++ before, after, by rw [heq, List.append_assoc]⟩

end

mutual

theorem filled_of_mem_subnodes : (n : Node) → n.Filled → {m : Node} → m ∈ n.subnodes → m.Filled
  | .leaf t, hfilled, m, h => by
      rw [subnodes, List.mem_singleton] at h
      rw [h]
      exact hfilled
  | .group shape children, hfilled, m, h => by
      rw [subnodes] at h
      rcases List.mem_cons.1 h with rfl | h
      · exact hfilled
      · exact filled_of_mem_subnodesOf children hfilled.2 h

theorem filled_of_mem_subnodesOf : (ns : List Node) → FilledAll ns → {m : Node} →
    m ∈ subnodesOf ns → m.Filled
  | n :: ns, hfilled, m, h => by
      rw [subnodesOf] at h
      rcases List.mem_append.1 h with h | h
      · exact filled_of_mem_subnodes n hfilled.1 h
      · exact filled_of_mem_subnodesOf ns hfilled.2 h

end

end Node

/-- What a built tree is made from: the tokens of the first statement, nested
    with all parentheses matched. -/
theorem ofText_eq_ok_iff {sql : String} {root : Group} :
    Group.ofText sql = .ok root ↔
      ∃ statement items, readStatement sql = .ok statement ∧ Nested.nest statement = .ok items ∧
        root = ⟨.statement, rootNodes items⟩ := by
  constructor
  · intro h
    rw [Group.ofText] at h
    split at h
    · simp only [reduceCtorEq] at h
    · rename_i statement hread
      split at h
      · simp only [reduceCtorEq] at h
      · rename_i items hnest
        rw [Except.ok.injEq] at h
        exact ⟨statement, items, hread, hnest, h.symm⟩
  · rintro ⟨statement, items, hread, hnest, rfl⟩
    simp only [Group.ofText, hread, hnest]

theorem ofText_filled {sql : String} {root : Group} (h : Group.ofText sql = .ok root) :
    root.toNode.Filled := by
  rcases ofText_eq_ok_iff.1 h with ⟨statement, items, hread, hnest, rfl⟩
  have hmatched := Nested.matched_nest hnest
  refine ⟨?_, Node.filledAll_iff.2 ?_⟩
  · -- A statement holds a token, and the tree has no fewer tokens than it.
    intro hnil
    rcases (isFirstStatement_of_readStatement hread).2 with ⟨_, _, _, hfirst⟩
    rcases hfirst.visible with ⟨t, ht, -⟩
    rw [← Nested.tokens_of_nest hnest, ← tokensOf_rootNodes, show rootNodes items = [] from hnil]
      at ht
    exact List.not_mem_nil ht
  · intro n hn
    rcases mem_rootNodes hmatched hn with hn | hn
    · exact hn.filled
    · exact hn.filled fun m hm => (tidy_ungroupedNodes hmatched m hm).filled

/-- The leaves of a built tree are the tokens of the first statement of the
    text, none lost, repeated, moved or altered, and every node of the tree
    spans exactly the text it covers. -/
theorem ofText_lossless {sql : String} {root : Group} (h : Group.ofText sql = .ok root) :
    (∃ before after,
        tokenize sql = before ++ (root.leaves.map Leaf.token ++ after) ∧
          IsFirstStatement before (root.leaves.map Leaf.token) after) ∧
      ∀ n ∈ root.toNode.subnodes, n.span.slice? sql = some n.text := by
  rcases ofText_tokens h with ⟨statement, hread, hleaves⟩
  rw [hleaves]
  rcases (isFirstStatement_of_readStatement hread).2 with ⟨before, after, htokens, hfirst⟩
  refine ⟨⟨before, after, htokens, hfirst⟩, ?_⟩
  intro n hn
  -- The tokens of the node are a stretch of all tokens of the text.
  rcases Node.tokens_of_mem_subnodes root.toNode hn with ⟨front, back, hsplit⟩
  rw [← Group.leaves_tokens, hleaves] at hsplit
  have hall : tokenize sql = (before ++ front) ++ (n.tokens ++ (back ++ after)) := by
    rw [htokens, hsplit]
    simp only [List.append_assoc]
  have htext : Token.textsOf (tokenize sql) = sql.toList := tokenize_text sql
  have hplaced : Token.Placed 0 (tokenize sql) := Cursor.tokens_placed (Cursor.start sql)
  rw [hall] at htext hplaced
  -- So it starts behind the bytes of the tokens before it, and is as long as its own.
  have hmiddle := (Token.placed_append.1 (Token.placed_append.1 hplaced).2).1
  have hfilled := Node.filled_of_mem_subnodes _ (ofText_filled h) hn
  rw [Nat.zero_add] at hmiddle
  rw [Node.span_of_placed n hfilled _ hmiddle, Token.slice?_textsOf htext, Token.textsOf,
    ← Node.text_eq_tokens, String.ofList_toList]

/-- The statement behind a semicolon, with a parenthesis in its condition and
    more text after it. -/
theorem ofText_lossless_behind_semicolon :
    ∃ root, Group.ofText "; DELETE FROM t WHERE (a = 1); x" = .ok root ∧
      (∃ before after,
          tokenize "; DELETE FROM t WHERE (a = 1); x" =
              before ++ (root.leaves.map Leaf.token ++ after) ∧
            IsFirstStatement before (root.leaves.map Leaf.token) after) ∧
        ∀ n ∈ root.toNode.subnodes,
          n.span.slice? "; DELETE FROM t WHERE (a = 1); x" = some n.text := by
  have hok : (Group.ofText "; DELETE FROM t WHERE (a = 1); x").isOk = true := by decide +kernel
  cases hroot : Group.ofText "; DELETE FROM t WHERE (a = 1); x" with
  | error e =>
      rw [hroot] at hok
      exact absurd hok Bool.false_ne_true
  | ok root => exact ⟨root, rfl, ofText_lossless hroot⟩

end SqlGist
