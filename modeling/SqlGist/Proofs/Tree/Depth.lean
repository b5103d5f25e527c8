import SqlGist.Proofs.Tree.Lossless

/-!
# Depth in a Tree

The parentheses of a built tree are in pairs, each around the nodes of its
group. So reading over the tokens of a node ends at the depth it began at, and
a statement that has a tree leaves no parenthesis open.

## Theorems

* `Tidy.depthBehind`: Behind a node the depth is that in front of it.
* `depthBehind_of_ofText`: Behind a statement with a tree it is zero.
-/

namespace SqlGist

theorem depthBehind_append (depth : Nat) (as bs : List Token) :
    depthBehind depth (as ++ bs) = depthBehind (depthBehind depth as) bs :=
  List.foldl_append

theorem depthBehind_cons (depth : Nat) (t : Token) (ts : List Token) :
    depthBehind depth (t :: ts) = depthBehind (depthAfter depth t) ts :=
  rfl

namespace Node

theorem depthBehind_tokensOf {ns : List Node}
    (h : ∀ n ∈ ns, ∀ depth, depthBehind depth n.tokens = depth) (depth : Nat) :
    depthBehind depth (tokensOf ns) = depth := by
  induction ns with
  | nil => rfl
  | cons n ns ih =>
      rw [tokensOf, depthBehind_append, h n List.mem_cons_self,
        ih fun m hm => h m (List.mem_cons_of_mem _ hm)]

theorem depthAfter_of_isName {t : Token} (h : t.isName = true) (depth : Nat) :
    depthAfter depth t = depth := by
  have hkind : t.kind ≠ .punctuation := by
    rw [of_decide_eq_true h]
    exact TokenKind.noConfusion
  exact depthAfter_of_not_mark (Token.isMark_eq_false hkind _) (Token.isMark_eq_false hkind _) depth

theorem Tidy.depthBehind {n : Node} (h : n.Tidy) (depth : Nat) :
    depthBehind depth n.tokens = depth := by
  induction h generalizing depth with
  | leaf _ hopen hclose => exact depthAfter_of_not_mark hopen hclose depth
  | name hname => exact depthAfter_of_isName hname depth
  | @call t p hname _ _ ih =>
      have hpass : SqlGist.depthBehind depth [t] = depth := depthAfter_of_isName hname depth
      rw [tokens, tokensOf, tokensOf, tokensOf, List.append_nil, depthBehind_append]
      exact (congrArg (SqlGist.depthBehind · p.tokens) hpass).trans (ih depth)
  | comparison _ _ _ _ _ _ ih => exact depthBehind_tokensOf ih depth
  | list _ _ _ ih => exact depthBehind_tokensOf ih depth
  | parens hopen hclose _ ih =>
      rw [tokens, tokensOf, tokensOf_append, tokens, List.singleton_append, depthBehind_cons,
        depthAfter_open hopen, depthBehind_append, depthBehind_tokensOf ih]
      exact depthAfter_close hclose depth

theorem IsClause.depthBehind {ns : List Node} {n : Node} (hn : IsClause ns n)
    (h : ∀ m ∈ ns, m.Tidy) (depth : Nat) : depthBehind depth n.tokens = depth := by
  rcases hn with ⟨clause, condition, rfl, -, hmem, -⟩
  exact depthBehind_tokensOf (fun m hm => (h m (hmem m hm)).depthBehind) depth

end Node

/-- A statement that has a tree leaves no parenthesis open. -/
theorem depthBehind_of_ofText {sql : String} {root : Group} (h : Group.ofText sql = .ok root) :
    depthBehind 0 (root.leaves.map Leaf.token) = 0 := by
  rcases ofText_eq_ok_iff.1 h with ⟨statement, items, hread, hnest, rfl⟩
  have hmatched := Nested.matched_nest hnest
  rw [Group.leaves_tokens]
  refine Node.depthBehind_tokensOf (fun n hn => ?_) 0
  rcases mem_rootNodes hmatched hn with hn | hn
  · exact hn.depthBehind
  · exact hn.depthBehind (tidy_ungroupedNodes hmatched)

end SqlGist
