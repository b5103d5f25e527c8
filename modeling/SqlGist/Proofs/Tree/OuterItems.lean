import SqlGist.Proofs.Tree.ConditionRange

/-!
# Items Outside Parentheses

A list of a statement can be cut at its commas twice: as tokens, at the commas
outside all parentheses, and as nodes, at those of the level. Before runs are
listed both cuts are the same. A comma is no name, no operand and no operator, so
none of the passes takes one into a group, and what stands between parentheses is
not outside.

An item is then known by its tokens, and its nodes are read off these from the
end. The last token of a call or a parenthesis closes one, and a comparison that
ends in one token has an operator in front of it. Any other last token is a node
of its own, or a name.

## Main definitions

* `splitCommas`: The stretches between commas outside parentheses.
* `visibleTokens`: The tokens that are no blanks.
* `EndsInOperator`: The last token is an operator, blanks aside.

## Theorems

* `splitCommas_append`: A stretch without such commas goes to the first item.
* `Tidy.eq_leaf_of_comma`: A comma outside parentheses is a node.
* `splitCommas_tokensOf`: Tokens and nodes are cut at the same places.
* `Tidy.eq_of_end`, `exists_node_of_end`: The node that the last token of an item
  is or names.
-/

namespace SqlGist

/-- The stretches of tokens between commas outside parentheses, when `depth`
    parentheses are open already. -/
def splitCommas (depth : Nat) : List Token → List (List Token)
  | [] => [[]]
  | t :: ts =>
    if t.isMark "," && depth = 0 then [] :: splitCommas 0 ts
    else (splitCommas (depthAfter depth t) ts).modifyHead (t :: ·)

/-- The tokens that are no blanks. -/
def visibleTokens (ts : List Token) : List Token :=
  ts.filter fun t => !t.isWhitespace

theorem visibleTokens_append (as bs : List Token) :
    visibleTokens (as ++ bs) = visibleTokens as ++ visibleTokens bs :=
  List.filter_append _ _

theorem visibleTokens_blank {ts : List Token} (h : ∀ t ∈ ts, t.isWhitespace = true) :
    visibleTokens ts = [] := by
  refine List.filter_eq_nil_iff.2 fun t ht => ?_
  rw [h t ht]
  exact Bool.false_ne_true

theorem visibleTokens_concat {ts : List Token} {t : Token} (h : t.isWhitespace = false) :
    visibleTokens (ts ++ [t]) = visibleTokens ts ++ [t] := by
  rw [visibleTokens_append]
  refine congrArg _ (List.filter_cons_of_pos ?_)
  rw [h, Bool.not_false]

/-- A piece of a split is a stretch of the list, and what stands behind it begins
    with an element at which the list is split. -/
theorem exists_of_mem_splitOnP {α : Type} {p : α → Bool} {as piece : List α}
    (h : piece ∈ as.splitOnP p) :
    ∃ front back, as = front ++ (piece ++ back) ∧ ∀ a, back.head? = some a → p a = true := by
  -- The first piece has nothing in front, so that an element can be put there.
  have hpieces : ∃ first rest, as.splitOnP p = first :: rest ∧
      (∃ back, as = first ++ back ∧ ∀ a, back.head? = some a → p a = true) ∧
      ∀ piece ∈ rest, ∃ front back, as = front ++ (piece ++ back) ∧
        ∀ a, back.head? = some a → p a = true := by
    clear h
    induction as with
    | nil =>
        exact ⟨[], [], rfl, ⟨[], rfl, fun a ha => absurd ha.symm (Option.some_ne_none a)⟩,
          fun piece hpiece => absurd hpiece List.not_mem_nil⟩
    | cons a as ih =>
        rcases ih with ⟨first, rest, heq, ⟨back, rfl, hback⟩, hrest⟩
        have hbehind : ∀ piece ∈ rest, ∃ front back', a :: (first ++ back) =
            front ++ (piece ++ back') ∧ ∀ b, back'.head? = some b → p b = true := by
          intro piece hpiece
          rcases hrest piece hpiece with ⟨front, back', happ, hback'⟩
          exact ⟨a :: front, back', by rw [happ, List.cons_append], hback'⟩
        rw [List.splitOnP_cons_eq_if_modifyHead, heq]
        split
        · rename_i ha
          refine ⟨[], first :: rest, rfl, ⟨_, rfl, fun b hb => ?_⟩, fun piece hpiece => ?_⟩
          · rw [List.head?_cons, Option.some.injEq] at hb
            rw [← hb]
            exact ha
          · rcases List.mem_cons.1 hpiece with rfl | hpiece
            · exact ⟨[a], back, rfl, hback⟩
            · exact hbehind piece hpiece
        · exact ⟨a :: first, rest, rfl, ⟨back, rfl, hback⟩, hbehind⟩
  rcases hpieces with ⟨first, rest, heq, ⟨back, hfirst, hback⟩, hrest⟩
  rw [heq] at h
  rcases List.mem_cons.1 h with rfl | h
  · exact ⟨[], back, hfirst, hback⟩
  · exact hrest piece h

/-- A stretch without commas outside parentheses goes to the first item. -/
theorem splitCommas_append {depth : Nat} {as : List Token}
    (h : ∀ t ∈ outerTokens depth as, t.isMark "," = false) (bs : List Token) :
    splitCommas depth (as ++ bs) =
      (splitCommas (depthBehind depth as) bs).modifyHead (as ++ ·) := by
  induction as generalizing depth with
  | nil => exact (congrFun List.modifyHead_id _).symm
  | cons a as ih =>
      rw [outerTokens] at h
      have hpass : ¬(a.isMark "," && decide (depth = 0)) = true := by
        intro hcomma
        rw [Bool.and_eq_true, decide_eq_true_eq] at hcomma
        refine Bool.false_ne_true ((h a (List.mem_append_left _ ?_)).symm.trans hcomma.1)
        rw [if_pos hcomma.2]
        exact List.mem_singleton_self a
      rw [List.cons_append, splitCommas, if_neg hpass,
        ih fun t ht => h t (List.mem_append_right _ ht), List.modifyHead_modifyHead,
        depthBehind_cons]
      rfl

namespace Node

/-- A mark is no part of a comparison. -/
theorem not_part_of_isMark {n : Node} {mark : String} (h : n.isMark mark = true) :
    ¬(n.isOperand = true ∨ n.isComparisonOperator = true ∨ n.isWhitespace = true) := by
  cases n with
  | leaf t =>
      have hkind : t.kind = .punctuation := by
        have ht : t.isMark mark = true := h
        rw [Token.isMark, Bool.and_eq_true, decide_eq_true_eq] at ht
        exact ht.1
      simp only [isOperand, Token.isValue, Token.isLiteral, isComparisonOperator, isWhitespace,
        Token.isWhitespace, leaf?, Option.any_some, hkind, reduceCtorEq, decide_false,
        Bool.or_self, Bool.false_and, Bool.false_eq_true, or_self, not_false_eq_true]
  | group => exact absurd h Bool.false_ne_true

/-- Neither is a list. -/
theorem not_list_of_part {n : Node}
    (h : n.isOperand = true ∨ n.isComparisonOperator = true ∨ n.isWhitespace = true) :
    n.isGroup .nameList = false := by
  cases n with
  | leaf t => rfl
  | group shape children =>
      have hoperand : (group shape children).isOperand = true := by
        rcases h with h | h | h
        · exact h
        · exact absurd h Bool.false_ne_true
        · exact absurd h Bool.false_ne_true
      refine decide_eq_false fun hshape => ?_
      obtain rfl : shape = .nameList := Option.some.inj hshape
      exact Bool.false_ne_true hoperand

/-- A comma of a tidy node that stands outside parentheses is the node, unless
    that is a list. -/
theorem Tidy.eq_leaf_of_comma {n : Node} (h : n.Tidy) (hlist : n.isGroup .nameList = false)
    {t : Token} (ht : t ∈ outerTokens 0 n.tokens) (hcomma : t.isMark "," = true) :
    n = .leaf t := by
  have hname : ∀ u : Token, u.isName = true → t ≠ u := by
    rintro u hu rfl
    exact Bool.false_ne_true ((isName_of_isMark (n := .leaf t) hcomma).symm.trans hu)
  have hopening : ∀ u : Token, u.isMark "(" = true → t ≠ u := by
    rintro u hu rfl
    exact Bool.false_ne_true ((isMark_of_ne (n := .leaf t) hu (by decide)).symm.trans hcomma)
  induction h with
  | leaf => rw [List.mem_singleton.1 ht]
  | name hu => exact absurd (List.mem_singleton.1 ht) (hname _ hu)
  | call hu hshape hp =>
      rcases outerTokens_call hu hp hshape with ⟨opening, hopen, houter⟩
      rw [houter] at ht
      rcases List.mem_pair.1 ht with ht | ht
      · exact absurd ht (hname _ hu)
      · exact absurd ht (hopening _ hopen)
  | comparison hleft hgap hoperator hgap' hright hall ih =>
      rw [tokens, outerTokens_tokensOf hall] at ht
      rcases List.mem_flatMap.1 ht with ⟨m, hm, ht⟩
      have hpart := part_of_comparison hleft hgap hoperator hgap' hright m hm
      obtain rfl := ih m hm (not_list_of_part hpart) ht
      exact absurd hpart (not_part_of_isMark (n := .leaf t) hcomma)
  | list => exact absurd hlist Bool.false_ne_true.symm
  | parens hopen _ hall =>
      rw [outerTokens_parens hopen hall fun m hm => (hall m hm).outerTokens_inside 0,
        if_pos rfl] at ht
      exact absurd (List.mem_singleton.1 ht) (hopening _ hopen)

/-- The tokens of a level without lists are cut at the commas outside parentheses
    where the level is cut at its commas. -/
theorem splitCommas_tokensOf {ns : List Node} (h : ∀ n ∈ ns, n.Tidy)
    (hlist : ∀ n ∈ ns, n.isGroup .nameList = false) :
    splitCommas 0 (tokensOf ns) = (ns.splitOnP fun n => n.isMark ",").map tokensOf := by
  induction ns with
  | nil => rfl
  | cons n ns ih =>
      have hrest := ih (fun m hm => h m (List.mem_cons_of_mem n hm))
        fun m hm => hlist m (List.mem_cons_of_mem n hm)
      have hn := h n List.mem_cons_self
      rw [List.splitOnP_cons_eq_if_modifyHead, tokensOf]
      split
      · rename_i hcomma
        cases n with
        | leaf t =>
            have ht : t.isMark "," = true := hcomma
            rw [tokens, List.singleton_append, splitCommas, ht, hrest]
            rfl
        | group => exact absurd hcomma Bool.false_ne_true
      · rename_i hcomma
        have hfree : ∀ t ∈ outerTokens 0 n.tokens, t.isMark "," = false := by
          intro t ht
          refine Bool.eq_false_iff.2 fun hmark => hcomma ?_
          rw [hn.eq_leaf_of_comma (hlist n List.mem_cons_self) ht hmark]
          exact hmark
        rw [splitCommas_append hfree, hn.depthBehind, hrest]
        rcases List.exists_cons_of_ne_nil (List.splitOnP_ne_nil (fun n => n.isMark ",") ns) with
          ⟨first, rest, hpieces⟩
        rw [hpieces]
        rfl

/-- The last token is an operator, blanks aside. -/
def EndsInOperator (ts : List Token) : Prop :=
  ∃ front operator gap, ts = front ++ operator :: gap ∧
    (leaf operator).isComparisonOperator = true ∧ ∀ t ∈ gap, t.isWhitespace = true

theorem EndsInOperator.behind {ts : List Token} (h : EndsInOperator ts) (us : List Token) :
    EndsInOperator (us ++ ts) := by
  rcases h with ⟨front, operator, gap, rfl, hrest⟩
  exact ⟨us ++ front, operator, gap, (List.append_assoc _ _ _).symm, hrest⟩

theorem EndsInOperator.exists_visible {ts : List Token} (h : EndsInOperator ts) :
    ∃ front operator, visibleTokens ts = front ++ [operator] ∧
      (leaf operator).isComparisonOperator = true := by
  rcases h with ⟨front, operator, gap, rfl, hoperator, hgap⟩
  refine ⟨visibleTokens front, operator, ?_, hoperator⟩
  rw [List.append_cons, visibleTokens_append, visibleTokens_blank hgap, List.append_nil,
    visibleTokens_concat (isWhitespace_of_isComparisonOperator hoperator)]

/-- What a list of tokens ends in is the end of its last part. -/
theorem exists_of_append_eq_concat {as bs front : List Token} {t : Token} (h : EndsVisible bs)
    (happ : as ++ bs = front ++ [t]) : ∃ inner, front = as ++ inner ∧ bs = inner ++ [t] := by
  rcases h with ⟨inner, u, rfl, -⟩
  rw [← List.append_assoc] at happ
  rcases List.append_inj' happ rfl with ⟨hfront, hu⟩
  exact ⟨inner, hfront.symm, by rw [hu]⟩

/-- The last token of a tidy node is the node or its name, unless that is a list
    or the token closes a parenthesis or stands behind an operator. -/
theorem Tidy.eq_of_end {n : Node} (h : n.Tidy) (hlist : n.isGroup .nameList = false)
    {front : List Token} {t : Token} (htokens : n.tokens = front ++ [t])
    (ht : t.isMark ")" = false) :
    (n = .leaf t ∨ n = nameRef (.leaf t)) ∨ EndsInOperator front := by
  have hlast : ∀ (as : List Token) {bs : List Token} {u v : Token},
      as ++ [u] = bs ++ [v] → u = v := fun _ _ _ _ happ =>
    List.singleton_inj.1 (List.append_inj' happ rfl).2
  induction h generalizing front with
  | @leaf u =>
      obtain rfl := hlast [] htokens
      exact Or.inl (Or.inl rfl)
  | @name u =>
      obtain rfl := hlast [] htokens
      exact Or.inl (Or.inr rfl)
  | @call u p _ hshape hp ih =>
      cases p with
      | leaf => exact absurd hshape Bool.false_ne_true
      | group shape children =>
          obtain rfl : shape = .parenthesis := Option.some.inj (of_decide_eq_true hshape)
          have happ : [u] ++ (group .parenthesis children).tokens = front ++ [t] := by
            rwa [tokens, tokensOf, tokensOf, tokensOf, List.append_nil] at htokens
          rcases exists_of_append_eq_concat (hp.endsVisible rfl) happ with ⟨inner, rfl, hinner⟩
          rcases ih rfl hinner with (hnode | hnode) | hoperator
          · exact Node.noConfusion hnode
          · exact Shape.noConfusion (Node.group.inj hnode).1
          · exact Or.inr (hoperator.behind [u])
  | @comparison left operator right gap gap' _ _ hoperator hgap' hright hall ih =>
      have hmem : right ∈ left :: (gap ++ operator :: (gap' ++ [right])) := by
        simp only [List.mem_cons, List.mem_append, true_or, or_true]
      have happ : tokensOf (left :: (gap ++ operator :: gap')) ++ right.tokens = front ++ [t] := by
        rw [← htokens, tokens]
        simp only [tokensOf, tokensOf_append, List.append_assoc, List.append_nil]
      have hvisible := (hall right hmem).endsVisible (isWhitespace_of_isOperand hright)
      rcases exists_of_append_eq_concat hvisible happ with ⟨inner, rfl, hinner⟩
      refine Or.inr ?_
      rcases ih right hmem (not_list_of_part (Or.inl hright)) hinner with hone | hbehind
      · -- The right side is that one token, so the operator stands in front of it.
        have hright : right.tokens = [t] := by rcases hone with rfl | rfl <;> rfl
        obtain rfl : inner = [] := List.append_left_eq_self.1 (hinner.symm.trans hright)
        rcases isComparisonOperator_iff.1 hoperator with ⟨u, rfl, -⟩
        refine ⟨tokensOf (left :: gap), u, tokensOf gap', ?_, hoperator,
          isWhitespace_of_mem_tokensOf hgap'⟩
        simp only [tokensOf, tokensOf_append, tokens, List.append_assoc, List.append_nil,
          List.singleton_append]
      · exact hbehind.behind _
  | list => exact absurd hlist Bool.false_ne_true.symm
  | @parens opening closing inner _ hclose =>
      rw [tokens, tokensOf, tokensOf_append, ← List.append_assoc] at htokens
      obtain rfl := hlast _ htokens
      exact absurd (ht.symm.trans hclose) Bool.false_ne_true

/-- The last visible token of an item is a node of the item or its name, unless it
    closes a parenthesis or stands behind an operator. -/
theorem exists_node_of_end {ns : List Node} (h : ∀ n ∈ ns, n.Tidy)
    (hlist : ∀ n ∈ ns, n.isGroup .nameList = false) {front : List Token} {t : Token}
    (hvisible : visibleTokens (tokensOf ns) = front ++ [t]) (ht : t.isMark ")" = false)
    (hfront : ∀ u, front.getLast? = some u → (leaf u).isComparisonOperator = false) :
    ∃ before n blanks, ns = before ++ n :: blanks ∧ (n = .leaf t ∨ n = nameRef (.leaf t)) ∧
      ∀ m ∈ blanks, m.isWhitespace = true := by
  have hcut := cutTrailing_append isWhitespace ns
  have hlast := cutTrailing_getLast isWhitespace ns
  have hblanks := cutTrailing_snd isWhitespace ns
  rcases List.eq_nil_or_concat (cutTrailing isWhitespace ns).1 with hnil | ⟨before, n, hbody⟩
  · rw [hnil, List.nil_append] at hcut
    rw [hcut] at hblanks
    rw [visibleTokens_blank (isWhitespace_of_mem_tokensOf hblanks)] at hvisible
    exact absurd hvisible.symm (List.append_ne_nil_of_right_ne_nil _ (List.cons_ne_nil _ _))
  · -- The last visible node ends in the last visible token.
    rw [List.concat_eq_append] at hbody
    rw [hbody, List.append_assoc, List.singleton_append] at hcut
    have hn : n ∈ ns := hcut ▸ List.mem_append_right _ List.mem_cons_self
    rcases (h n hn).endsVisible (hlast n (by rw [hbody, List.getLast?_concat])) with
      ⟨inner, u, htokens, hu⟩
    rw [← hcut, tokensOf_append, tokensOf, visibleTokens_append, visibleTokens_append,
      visibleTokens_blank (isWhitespace_of_mem_tokensOf hblanks), List.append_nil, htokens,
      visibleTokens_concat hu, ← List.append_assoc] at hvisible
    rcases List.append_inj' hvisible rfl with ⟨hinner, hsame⟩
    obtain rfl := List.singleton_inj.1 hsame
    rcases (h n hn).eq_of_end (hlist n hn) htokens ht with hone | hoperator
    · exact ⟨before, n, _, hcut.symm, hone, hblanks⟩
    · rcases hoperator.exists_visible with ⟨others, operator, hothers, hoperator⟩
      have hlastFront : front.getLast? = some operator := by
        rw [← hinner, hothers, ← List.append_assoc, List.getLast?_concat]
      exact absurd ((hfront operator hlastFront).symm.trans hoperator) Bool.false_ne_true

end Node

end SqlGist
