import SqlGist.Proofs.Extraction.Placeless
import SqlGist.Proofs.Extraction.Stages
import SqlGist.Proofs.Remainder
import SqlGist.Proofs.Token.Restart

/-!
# Printing a Tree and Building It Again

The text of a tree has the same tree again, but for the places of its tokens:
these now count from where the statement begins. The text is a stretch of the
text that was read, from the first token of the statement to the last, so it
reads as the same tokens, and it holds one statement, since no semicolon of it
is outside parentheses.

A sign at the front of the statement is the exception. Behind a semicolon no
operand is expected and the sign is an operator; at the front of the text one
is, and the sign belongs to the number behind it.

## Main definitions

* `Group.IsBehindMark`: A semicolon stands in front of the tree.
* `Group.OpensWithSign`: The tree opens with a sign.

## Theorems

* `readStatement_textsOf`: The text of a statement is read as that statement.
* `ofText_text`: The text of a tree has the same tree, and the same entity.
* `not_ofText_text_of_sign`: A sign behind a semicolon.
-/

namespace SqlGist

theorem Token.verbatim_moved (offset : Nat) : Verbatim (moved offset) :=
  ⟨fun _ => rfl, fun _ => rfl⟩

theorem Token.moved_injective (offset : Nat) : Function.Injective (moved offset) := by
  rintro ⟨kind, text, start, stop⟩ ⟨kind', text', start', stop'⟩ h
  simp only [moved, mk.injEq, Span.mk.injEq, Nat.add_right_cancel_iff] at h ⊢
  exact h

namespace Group

/-- A semicolon of the text stands in front of the tree. -/
def IsBehindMark (sql : String) (root : Group) : Prop :=
  ∃ mark ∈ tokenize sql, mark.isMark ";" = true ∧ mark.span.stop ≤ root.span.start

/-- The first token of the tree that is no blank begins with a sign. -/
def OpensWithSign (root : Group) : Prop :=
  ∃ t, (root.leaves.map Leaf.token).find? (fun t => !t.isWhitespace) = some t ∧ t.OpensWithSign

end Group

instance (t : Token) : Decidable t.OpensWithSign :=
  inferInstanceAs (Decidable (_ ∨ _))

/-- A stretch of tokens that is read as a statement is read as one by itself. -/
theorem readStatement_textsOf {sql : String} {before statement after : List Token}
    (htokens : tokenize sql = before ++ (statement ++ after))
    (hfirst : IsFirstStatement before statement after)
    (herror : ∀ t ∈ tokenize sql, t.error? = none)
    (hsign : before = [] ∨
      ∀ t, statement.find? (fun t => !t.isWhitespace) = some t → ¬t.OpensWithSign) :
    ∃ body, readStatement (String.ofList (Token.textsOf statement)) = .ok body ∧
      body.map (Token.moved (Text.byteLength (Token.textsOf before))) = statement := by
  rcases hfirst.closes with ⟨t, rest, rfl, ht⟩
  rcases tokenize_textsOf htokens (ht.imp_right And.left) hfirst.visible hsign with
    ⟨body, size, hbody, hkinds, hmoved⟩
  have hfaithful := (Token.verbatim_moved (Text.byteLength (Token.textsOf before))).faithful
  refine ⟨body, readStatement_eq_ok_iff.2 ⟨?_, ?_⟩, hmoved⟩
  · rw [hbody]
    intro u hu
    rcases List.mem_append.1 hu with hu | hu
    · -- The token is one of the text that was read, further back.
      have hmem : u.moved (Text.byteLength (Token.textsOf before)) ∈ tokenize sql := by
        rw [htokens, ← hmoved]
        exact List.mem_append_right _ (List.mem_append_left _ (List.mem_map_of_mem hu))
      have hkept := herror _ hmem
      exact hkept
    · rw [List.mem_singleton] at hu
      rw [hu]
      rfl
  · have hfilter : (tokenize (String.ofList (Token.textsOf statement))).filter
        (fun t => t.kind != .eof) = body := by
      rw [hbody, List.filter_append,
        List.filter_eq_self.2 fun u hu => bne_iff_ne.2 (hkinds u hu)]
      exact List.append_nil body
    -- No semicolon parts the statement, and moving it back makes no difference to that.
    have halone : firstStatement? statement = some statement := by
      have hfound := @firstStatement?_of_surroundings [] statement []
        (fun t ht => absurd ht List.not_mem_nil) (fun t ht => absurd ht.symm (Option.some_ne_none t))
        hfirst.visible hfirst.undivided fun t ht => absurd ht.symm (Option.some_ne_none t)
      rwa [List.nil_append, List.append_nil] at hfound
    have hmap := firstStatement?_map hfaithful body
    rw [hmoved, halone] at hmap
    rcases Option.map_eq_some_iff.1 hmap.symm with ⟨found, hfound, hsame⟩
    rw [← hmoved] at hsame
    rw [hfilter, hfound, List.map_injective_iff.2 (Token.moved_injective _) hsame]

theorem Group.span_start_of_ofText {sql : String} {root : Group} {before after : List Token}
    (hroot : Group.ofText sql = .ok root)
    (htokens : tokenize sql = before ++ (root.leaves.map Leaf.token ++ after)) :
    root.span.start = Text.byteLength (Token.textsOf before) := by
  have hplaced : Token.Placed 0 (tokenize sql) := Cursor.tokens_placed (Cursor.start sql)
  rw [htokens, Token.placed_append, Token.placed_append, Group.leaves_tokens] at hplaced
  rw [Group.span, Node.span_of_placed _ (ofText_filled hroot) _ hplaced.2.1, Nat.zero_add]

theorem Group.text_eq_textsOf (root : Group) :
    root.text = String.ofList (Token.textsOf (root.leaves.map Leaf.token)) := by
  rw [text, Token.textsOf, leaves_tokens, ← Node.text_eq_tokens, String.ofList_toList]

/-- Tokens in front of a tree are there for a semicolon. -/
theorem Group.isBehindMark_of_ne_nil {sql : String} {root : Group} {before after : List Token}
    (hroot : Group.ofText sql = .ok root)
    (htokens : tokenize sql = before ++ (root.leaves.map Leaf.token ++ after))
    (hfirst : IsFirstStatement before (root.leaves.map Leaf.token) after) (hne : before ≠ []) :
    root.IsBehindMark sql := by
  have hstart := span_start_of_ofText hroot htokens
  have hplaced : Token.Placed 0 (tokenize sql) := Cursor.tokens_placed (Cursor.start sql)
  rcases List.eq_nil_or_concat' before with hnil | ⟨front, mark, rfl⟩
  · exact absurd hnil hne
  · rw [htokens, List.append_assoc, List.singleton_append, Token.placed_append] at hplaced
    have hmem : mark ∈ tokenize sql := by
      rw [htokens]
      exact List.mem_append_left _ (List.mem_append_right _ List.mem_cons_self)
    have hlast : Token.textsOf [mark] = mark.text.toList :=
      (Token.textsOf_cons mark []).trans (List.append_nil _)
    refine ⟨mark, hmem, hfirst.opens mark List.getLast?_concat, Nat.le_of_eq ?_⟩
    rw [hplaced.2.1, hstart, Token.textsOf_append, Text.byteLength_append, hlast, Nat.zero_add]

/-- Tokens nest and are grouped in the same way wherever they stand. -/
theorem exists_rootNodes_of_moved {offset : Nat} {body : List Token} {items : List Nested}
    (hnest : Nested.nest (body.map (Token.moved offset)) = .ok items) :
    ∃ items', Nested.nest body = .ok items' ∧
      (rootNodes items').map (Node.relabel (Token.moved offset)) = rootNodes items := by
  have hfaithful := (Token.verbatim_moved offset).faithful
  rcases Nested.nestFrom_relabel hfaithful [] [] body with
    ⟨items', hok, hmoved⟩ | ⟨cause, t, -, herror⟩
  · refine ⟨items', hok, ?_⟩
    rw [← rootNodes_relabel hfaithful, Except.ok.inj (hnest.symm.trans hmoved)]
  · exact absurd (hnest.symm.trans herror) (by simp only [reduceCtorEq, not_false_eq_true])

/-- Printing a tree and building it again gives the tree back, with every token
    moved to where it stands in the text of the tree, and the entity of the text
    that was read. -/
theorem ofText_text {sql : String} {root : Group} (hroot : Group.ofText sql = .ok root)
    (hsign : ¬(root.IsBehindMark sql ∧ root.OpensWithSign)) :
    ∃ root', Group.ofText root.text = .ok root' ∧
      root'.relabel (Token.moved root.span.start) = root ∧
      classify root.text = classify sql := by
  rcases ofText_eq_ok_iff.1 hroot with ⟨statement, items, hread, hnest, htree⟩
  have hleaves : root.leaves.map Leaf.token = statement := by
    rcases ofText_tokens hroot with ⟨statement', hread', hleaves⟩
    exact hleaves.trans (Except.ok.inj (hread'.symm.trans hread))
  subst hleaves
  rcases isFirstStatement_of_readStatement hread with ⟨herror, before, after, htokens, hfirst⟩
  have hplain : before = [] ∨ ∀ t,
      (root.leaves.map Leaf.token).find? (fun t => !t.isWhitespace) = some t → ¬t.OpensWithSign := by
    by_cases hnil : before = []
    · exact Or.inl hnil
    · exact Or.inr fun t ht hopens =>
        hsign ⟨Group.isBehindMark_of_ne_nil hroot htokens hfirst hnil, t, ht, hopens⟩
  -- The text of the tree is read as the statement, moved to the front.
  rcases readStatement_textsOf htokens hfirst herror hplain with ⟨body, hbody, hmoved⟩
  rw [← Group.text_eq_textsOf] at hbody
  rw [← Group.span_start_of_ofText hroot htokens] at hmoved
  rw [← hmoved] at hnest
  rcases exists_rootNodes_of_moved hnest with ⟨items', hnest', hnodes⟩
  have hroot' := ofText_eq_ok_iff.2 ⟨body, items', hbody, hnest', rfl⟩
  have hsame : Group.relabel (Token.moved root.span.start) ⟨.statement, rootNodes items'⟩ =
      root := by
    rw [Group.relabel, hnodes, ← htree]
  refine ⟨_, hroot', hsame, ?_⟩
  have hentity := classifyTree_relabel (Token.verbatim_moved root.span.start)
    ⟨.statement, rootNodes items'⟩
  rw [hsame] at hentity
  simp only [classify, hroot', hroot, hentity]

/-- A statement between semicolons, with a sign inside, but not in front. -/
theorem ofText_text_behind_semicolon :
    ∃ root root', Group.ofText "; SELECT a FROM t WHERE b = -1 ; x" = .ok root ∧
      root.IsBehindMark "; SELECT a FROM t WHERE b = -1 ; x" ∧ ¬root.OpensWithSign ∧
      Group.ofText root.text = .ok root' ∧
      root'.relabel (Token.moved root.span.start) = root ∧
      classify root.text = classify "; SELECT a FROM t WHERE b = -1 ; x" := by
  have hrun : ((Group.ofText "; SELECT a FROM t WHERE b = -1 ; x").toOption.any fun root =>
      ((tokenize "; SELECT a FROM t WHERE b = -1 ; x").any fun mark =>
        mark.isMark ";" && decide (mark.span.stop ≤ root.span.start)) &&
      ((root.leaves.map Leaf.token).find? fun t => !t.isWhitespace).all fun t =>
        !decide t.OpensWithSign) = true := by
    decide +kernel
  rcases exists_of_toOption_any hrun with ⟨root, hroot, hcheck⟩
  rw [Bool.and_eq_true] at hcheck
  have hbehind : root.IsBehindMark "; SELECT a FROM t WHERE b = -1 ; x" := by
    rcases List.any_eq_true.1 hcheck.1 with ⟨mark, hmem, hmark⟩
    rw [Bool.and_eq_true, decide_eq_true_eq] at hmark
    exact ⟨mark, hmem, hmark⟩
  have hsign : ¬root.OpensWithSign := by
    rintro ⟨t, ht, hopens⟩
    have hnone := hcheck.2
    rw [ht, Option.all_some, Bool.not_eq_true', decide_eq_false_iff_not] at hnone
    exact hnone hopens
  rcases ofText_text hroot fun h => hsign h.2 with ⟨root', hroot', hsame, hentity⟩
  exact ⟨root, root', hroot, hbehind, hsign, hroot', hsame, hentity⟩

/-- A sign behind a semicolon is an operator, and at the front of the text of the
    tree it is a part of the number. -/
theorem not_ofText_text_of_sign :
    ∃ root root', Group.ofText "; -1" = .ok root ∧ Group.ofText root.text = .ok root' ∧
      root'.relabel (Token.moved root.span.start) ≠ root := by
  have hrun : ((Group.ofText "; -1").toOption.any fun root =>
      (Group.ofText root.text).toOption.any fun root' =>
        decide (root'.leaves.length < root.leaves.length)) = true := by
    decide +kernel
  rcases exists_of_toOption_any hrun with ⟨root, hroot, hcheck⟩
  rcases exists_of_toOption_any hcheck with ⟨root', hroot', hfewer⟩
  refine ⟨root, root', hroot, hroot', fun hsame => ?_⟩
  rw [decide_eq_true_eq, ← hsame, Group.leaves_relabel, List.length_map] at hfewer
  exact Nat.lt_irrefl _ hfewer

end SqlGist
