import SqlGist.Proofs.Definitions.Leaves

/-!
# Who Owns the Constraints of a Definition

What the leaves of an entry add to the constraints. Those behind the type of a
column belong to that column, and those of a key to the columns listed in it.
Nothing in front of an entry matters: a definition opens with the name that its
constraints look back for, and a key does not look back.

What follows an entry matters once. `PRIMARY KEY` and `UNIQUE` at the end of a
definition would belong to a parenthesis right behind them, so it has to be
known that a comma comes next, or the end of the list.

## Main definitions

* `Entry.owned`: The constraints of an entry, with the columns they belong to.
* `GoesOn`: What follows an entry.

## Theorems

* `ownedFrom_constraints`: Constraints belong to the nearest column.
* `ownedFrom_column`, `ownedFrom_key`, `ownedFrom_entry`: The constraints of an
  entry.
* `ownedFrom_entries`, `ownedFrom_body`: Those of all entries.
-/

namespace SqlGist

/-- The constraints of an entry, with the columns they belong to. -/
def Entry.owned : Entry → List Owned
  | .column c => c.constraints.map fun constraint => ⟨c.name, constraint.constraint⟩
  | .key k => k.columns.map fun name => ⟨name, k.kind.constraint⟩

/-- Behind an entry comes a comma or the parenthesis that closes the list, and
    neither is deeper than the entries. -/
def GoesOn (path : List Frame) (rest : List Leaf) : Prop :=
  ∀ l, rest.head? = some l →
    (l.token = .mark "," ∨ l.token = .mark ")") ∧ l.path.length ≤ path.length + 1

theorem GoesOn.unlisted {path : List Frame} {rest : List Leaf} (h : GoesOn path rest) :
    Unlisted rest := by
  cases rest with
  | nil => exact fun l hl => absurd hl.symm (Option.some_ne_none l)
  | cons first rest =>
      have hfirst := (h first rfl).1
      have hblank : first.isWhitespace = false := by
        unfold Leaf.isWhitespace
        rcases hfirst with htoken | htoken <;> rw [htoken] <;> rfl
      intro l hl
      rw [skipBlanks, List.dropWhile_cons_of_neg (Bool.eq_false_iff.1 hblank), List.head?_cons,
        Option.some.injEq] at hl
      rw [← hl]
      unfold Leaf.keyword?
      rcases hfirst with htoken | htoken <;> rw [htoken] <;>
        exact ⟨fun hk => Option.some_ne_none _ hk.symm, rfl⟩

section Keywords

variable {k : Keyword} {before after : List Leaf} {l : Leaf}

theorem ownedAt_of_keyword {c : Constraint} {columns : List String}
    (hk : l.constraintKeyword? = some k) (hc : constraintAt k after = .ok (some c))
    (howners : ownersAt k before after = .ok columns) :
    ownedAt before l after = .ok (columns.map fun column => ⟨column, c⟩) := by
  rw [ownedAt, hk]
  simp only [hc, howners]

theorem ownersAt_nearest {name : String} (hnear : Nearest name before)
    (hlist : k = .primary ∨ k = .unique → listedColumns? after = none) :
    ownersAt k before after = .ok [name] := by
  unfold ownersAt
  by_cases hkey : k = .primary ∨ k = .unique
  · rw [if_pos hkey, hlist hkey]
    exact hnear.nearestColumn k
  · rw [if_neg hkey]
    exact hnear.nearestColumn k

theorem ownersAt_listed {columns : List String} (hkey : k = .primary ∨ k = .unique)
    (hlist : listedColumns? after = some columns) : ownersAt k before after = .ok columns := by
  rw [ownersAt, if_pos hkey, hlist]

end Keywords

/-- The keyword of a key. -/
def KeyKind.keyword : KeyKind → Keyword
  | primary => .primary
  | unique => .unique

theorem KeyKind.keyword_spec (k : KeyKind) (after : List Leaf) :
    k.opening.keyword? = some k.keyword ∧ (k.keyword = .primary ∨ k.keyword = .unique) ∧
      constraintAt k.keyword after = .ok (some k.constraint) := by
  cases k with
  | primary => exact ⟨rfl, Or.inl rfl, rfl⟩
  | unique => exact ⟨rfl, Or.inr rfl, rfl⟩

theorem silent_spaced {ts : List Token} (h : ∀ t ∈ ts, t.Silent) (g : Group) (path : List Frame)
    (index : Nat) :
    ∀ l ∈ Node.leavesFrom g path index (Nested.nodes (Nested.spaced ts)), l.token.Silent := by
  refine forall_leavesFrom (P := Token.Silent) ?_ g path index
  intro t ht
  rw [Nested.nodes_tokens, Nested.tokensOf_spaced, List.mem_flatMap] at ht
  rcases ht with ⟨u, hu, ht⟩
  simp only [List.mem_cons, List.not_mem_nil, or_false] at ht
  rcases ht with rfl | rfl
  · exact Token.silent_of_keyword? rfl
  · exact h t hu

theorem DefaultValue.silent_token (v : DefaultValue) : v.token.Silent := by
  cases v with
  | null => decide
  | truth b => cases b <;> decide
  | _ => exact Token.silent_of_keyword? rfl

theorem KeyKind.silent_behind (k : KeyKind) : ∀ t ∈ k.behind, t.Silent := by
  cases k <;> decide

/-- Behind the opening word of a key and an optional `KEY` stands its list. -/
theorem KeyKind.skipKey_behind (k : KeyKind) (g : Group) (path : List Frame) (index : Nat)
    (gap opening : List Frame) (rest : List Leaf) :
    skipKey (Node.leavesFrom g path index (Nested.nodes (Nested.spaced k.behind)) ++
      ⟨.space, gap⟩ :: ⟨.mark "(", opening⟩ :: rest) = ⟨.mark "(", opening⟩ :: rest := by
  cases k <;> rfl

section Level

variable {g : Group} {path : List Frame} (houtside : g.Outside path)

include houtside

/-- The first word of a constraint contributes it, to the column that was read
    last, and the other words contribute nothing. -/
theorem ownedAt_constraint (c : InlineConstraint) :
    ∃ t ts, c.words = t :: ts ∧ (∀ u ∈ ts, u.Silent) ∧
      (t.keyword? ≠ some .key ∧ t.isMark "(" = false ∧ t.isWhitespace = false) ∧
      ∀ {name before rest} (index : Nat), Nearest name before → Unlisted rest →
        ownedAt before ⟨t, ⟨g, index⟩ :: path⟩ (Node.leavesFrom g path (index + 1)
          (Nested.nodes (Nested.spaced ts)) ++ rest) = .ok [⟨name, c.constraint⟩] := by
  -- Outside of a filter every keyword counts.
  have hkeyword : ∀ {t : Token} {k : Keyword} (index : Nat), t.keyword? = some k →
      Leaf.constraintKeyword? ⟨t, ⟨g, index⟩ :: path⟩ = some k := by
    intro t k index hk
    rw [Leaf.constraintKeyword?, houtside.inWhere index t]
    exact hk
  cases c with
  | notNull =>
      refine ⟨_, _, rfl, fun u hu => absurd hu List.not_mem_nil, by decide, ?_⟩
      intro name before rest index hnear _
      exact ownedAt_of_keyword (hkeyword index rfl) rfl
        (ownersAt_nearest hnear fun hkey => absurd hkey (by decide))
  | key kind =>
      refine ⟨_, _, rfl, kind.silent_behind, by cases kind <;> decide, ?_⟩
      intro name before rest index hnear hrest
      have hspec := kind.keyword_spec
      refine ownedAt_of_keyword (hkeyword index (hspec rest).1) (hspec _).2.2
        (ownersAt_nearest hnear fun _ => ?_)
      -- No list follows, so the owner is the column that was read last.
      cases kind with
      | primary => exact listedColumns?_key rfl rfl hrest
      | unique => exact listedColumns?_of_unlisted hrest
  | default value =>
      refine ⟨_, _, rfl, ?_, by decide, ?_⟩
      · intro u hu
        rw [List.mem_singleton.1 hu]
        exact value.silent_token
      · intro name before rest index hnear _
        have hvisible : Leaf.isWhitespace ⟨value.token, ⟨g, index + 1 + 1⟩ :: path⟩ = false :=
          (Token.of_mem_wordKinds value.kind_token).2.1
        have hnext : skipBlanks (Node.leavesFrom g path (index + 1)
            (Nested.nodes (Nested.spaced [value.token])) ++ rest) =
              ⟨value.token, ⟨g, index + 1 + 1⟩ :: path⟩ :: rest := by
          rw [leavesFrom_spaced_cons]
          exact List.dropWhile_cons_of_neg (Bool.eq_false_iff.1 hvisible)
        -- The value is the first token behind the blank.
        have hconstraint : constraintAt .default (Node.leavesFrom g path (index + 1)
            (Nested.nodes (Nested.spaced [value.token])) ++ rest) =
              .ok (some (InlineConstraint.default value).constraint) := by
          simp only [constraintAt, hnext, Leaf.value, value.value_token]
          rfl
        exact ownedAt_of_keyword (hkeyword index rfl) hconstraint
          (ownersAt_nearest hnear fun hkey => absurd hkey (by decide))

/-- What comes behind the type of a column is no list, and no `KEY` in front of
    one. -/
theorem unlisted_constraints (cs : List InlineConstraint) {rest : List Leaf} (hrest : Unlisted rest)
    (index : Nat) :
    Unlisted (Node.leavesFrom g path index
      (Nested.nodes (Nested.spaced (cs.flatMap InlineConstraint.words))) ++ rest) := by
  cases cs with
  | nil => exact hrest
  | cons c cs =>
      rcases ownedAt_constraint houtside c with ⟨t, ts, hwords, -, ⟨hkey, hopen, hblank⟩, -⟩
      rw [List.flatMap_cons, hwords, List.cons_append, leavesFrom_spaced_cons]
      intro l hl
      have hvisible : Leaf.isWhitespace ⟨t, ⟨g, index + 1⟩ :: path⟩ = false := hblank
      -- The word behind the blank is what a list would have to be.
      have hfirst : (skipBlanks (⟨t, ⟨g, index + 1⟩ :: path⟩ :: (Node.leavesFrom g path
          (index + 1 + 1) (Nested.nodes (Nested.spaced
            (ts ++ cs.flatMap InlineConstraint.words))) ++ rest))).head? =
              some ⟨t, ⟨g, index + 1⟩ :: path⟩ := by
        rw [skipBlanks, List.dropWhile_cons_of_neg (Bool.eq_false_iff.1 hvisible), List.head?_cons]
      have hleaf : some ⟨t, ⟨g, index + 1⟩ :: path⟩ = some l := hfirst.symm.trans hl
      rw [Option.some.injEq] at hleaf
      rw [← hleaf]
      exact ⟨hkey, hopen⟩

/-- Constraints belong to the column that was read last. -/
theorem ownedFrom_constraints (cs : List InlineConstraint) {name : String} {before rest : List Leaf}
    (hnear : Nearest name before) (hrest : Unlisted rest) {os : List Owned}
    (hos : ∀ before, ownedFrom before rest = .ok os) (index : Nat) :
    ownedFrom before (Node.leavesFrom g path index
        (Nested.nodes (Nested.spaced (cs.flatMap InlineConstraint.words))) ++ rest) =
      .ok ((cs.map fun c => ⟨name, c.constraint⟩) ++ os) := by
  induction cs generalizing index before with
  | nil => exact hos before
  | cons c cs ih =>
      rcases ownedAt_constraint houtside c with ⟨t, ts, hwords, hsilent, -, howned⟩
      have hsplit : Nested.nodes (Nested.spaced (ts ++ cs.flatMap InlineConstraint.words)) =
          Nested.nodes (Nested.spaced ts) ++
            Nested.nodes (Nested.spaced (cs.flatMap InlineConstraint.words)) := by
        rw [Nested.spaced, List.flatMap_append, Nested.nodes_append]
        rfl
      have hkinds : ∀ u ∈ t :: ts, u.kind ∈ wordKinds := by
        rw [← hwords]
        exact c.kind_words
      have hquiet := quiet_spaced hkinds g path index
      rw [leavesFrom_spaced_cons] at hquiet
      have hspace := hnear.cons (hquiet _ List.mem_cons_self).1
      have hword := hspace.cons (hquiet _ (List.mem_cons_of_mem _ List.mem_cons_self)).1
      -- The column stays the last one behind the words of the constraint.
      have hstill := hword.append fun l hl =>
        (hquiet l (List.mem_cons_of_mem _ (List.mem_cons_of_mem _ hl))).1
      have hunlisted := unlisted_constraints houtside cs hrest
        (index + 1 + 1 + (Nested.nodes (Nested.spaced ts)).length)
      rw [List.flatMap_cons, hwords, List.cons_append, leavesFrom_spaced_cons, hsplit,
        Node.leavesFrom_append, List.cons_append, List.cons_append, List.append_assoc,
        ownedFrom_pass (Token.silent_of_keyword? rfl),
        ownedFrom_cons (howned (index + 1) hspace hunlisted),
        ownedFrom_silent (silent_spaced hsilent g path (index + 1 + 1)), ih hstill]
      rfl

/-- The constraints of a definition belong to its column. -/
theorem ownedFrom_column (c : ColumnSpec) {index : Nat}
    (hcolumn : Frame.holdsColumn ⟨g, index⟩ = true) {rest : List Leaf} (hrest : Unlisted rest)
    {os : List Owned} (hos : ∀ before, ownedFrom before rest = .ok os) (before : List Leaf) :
    ownedFrom before (Node.leavesFrom g path index c.tree ++ rest) =
      .ok ((Entry.column c).owned ++ os) := by
  have htype : ∀ l ∈ c.type.node.leaves (⟨g, index + 1 + 1⟩ :: path), l.token.Silent :=
    fun l hl => Token.silent_of_keyword? (c.type.keyword?_leaves _ l hl)
  have hleaves : Node.leavesFrom g path index c.tree ++ rest = nameLeaf g path index c.name ::
      ⟨.space, ⟨g, index + 1⟩ :: path⟩ :: (c.type.node.leaves (⟨g, index + 1 + 1⟩ :: path) ++
        (Node.leavesFrom g path (index + 1 + 1 + 1)
          (Nested.nodes (Nested.spaced c.words)) ++ rest)) := by
    rw [← List.append_assoc]
    rfl
  -- From the name on, the column is the last one that was read.
  have hname : Nearest c.name (nameLeaf g path index c.name :: before) := by
    have hself := nearest_cons (isColumn_nameLeaf houtside hcolumn c.name) before
    rwa [value_nameLeaf] at hself
  have hspace : Nearest c.name (⟨.space, ⟨g, index + 1⟩ :: path⟩ ::
      nameLeaf g path index c.name :: before) := hname.cons rfl
  have hnear := hspace.append (c.type.isColumn_leaves (⟨g, index + 1 + 1⟩ :: path))
  rw [hleaves, ownedFrom_pass (Token.silent_of_keyword? rfl),
    ownedFrom_pass (Token.silent_of_keyword? rfl), ownedFrom_silent htype]
  exact ownedFrom_constraints houtside c.constraints hnear hrest hos _

/-- The opening word of a key contributes its constraint, to the columns in the
    list behind. -/
theorem ownedAt_key (k : KeySpec) {rest : List Leaf} (hrest : GoesOn path rest) (before : List Leaf)
    (index : Nat) (gap : List Frame) (place : Nat) :
    ownedAt before ⟨k.kind.opening, ⟨g, index⟩ :: path⟩
        (Node.leavesFrom g path (index + 1) (Nested.nodes (Nested.spaced k.kind.behind)) ++
          ⟨.space, gap⟩ :: (k.listNode.leaves (⟨g, place⟩ :: path) ++ rest)) =
      .ok (Entry.key k).owned := by
  have hspec := k.kind.keyword_spec
  have hkeyword : Leaf.constraintKeyword? ⟨k.kind.opening, ⟨g, index⟩ :: path⟩ =
      some k.kind.keyword := by
    rw [Leaf.constraintKeyword?, houtside.inWhere index]
    exact (hspec rest).1
  rcases leaves_names k.columns (houtside.frames place) with
    ⟨children, inner, hnode, hlist, hcolumns, -⟩
  -- The search skips `KEY`, if there is one, and stops at the list.
  have hskip : skipKey (Node.leavesFrom g path (index + 1)
      (Nested.nodes (Nested.spaced k.kind.behind)) ++
        ⟨.space, gap⟩ :: (k.listNode.leaves (⟨g, place⟩ :: path) ++ rest)) =
          (Node.group .parenthesis children).leaves (⟨g, place⟩ :: path) ++ rest := by
    rw [← hnode, KeySpec.listNode, hlist]
    exact k.kind.skipKey_behind g path (index + 1) _ _ _
  rw [hnode] at hlist
  have hlisted := listedColumns?_parenthesis rfl hlist hskip fun l hl => (hrest l hl).2
  rw [hcolumns] at hlisted
  exact ownedAt_of_keyword hkeyword (hspec _).2.2 (ownersAt_listed (hspec rest).2.1 hlisted)

/-- The constraint of a key belongs to the columns in its list. -/
theorem ownedFrom_key (k : KeySpec) {rest : List Leaf} (hrest : GoesOn path rest)
    {os : List Owned} (hos : ∀ before, ownedFrom before rest = .ok os) (index : Nat)
    (before : List Leaf) :
    ownedFrom before (Node.leavesFrom g path index k.tree ++ rest) =
      .ok ((Entry.key k).owned ++ os) := by
  rcases k.leavesFrom_tree g path index with ⟨gap, place, hleaves⟩
  have howned := ownedAt_key houtside k hrest before index gap place
  -- Behind the opening word nothing introduces another constraint.
  have hwords := silent_spaced k.kind.silent_behind g path (index + 1)
  have hlist : ∀ l ∈ k.listNode.leaves (⟨g, place⟩ :: path), l.token.Silent :=
    fun l hl => Token.silent_of_keyword? (k.keyword?_listNode _ l hl)
  rw [hleaves, List.cons_append, List.append_assoc, List.cons_append, ownedFrom_cons howned,
    ownedFrom_silent hwords, ownedFrom_pass (Token.silent_of_keyword? rfl),
    ownedFrom_silent hlist, hos]
  rfl

omit houtside in
/-- Behind an entry comes the comma of the next one, or what follows the list. -/
theorem goesOn_entries (es : List Entry) {rest : List Leaf} (hrest : GoesOn path rest)
    (index : Nat) :
    GoesOn path (Node.leavesFrom g path index (es.flatMap fun e => Node.comma ++ e.tree) ++
      rest) := by
  cases es with
  | nil => exact hrest
  | cons e es =>
      intro l hl
      have hleaf : some ⟨.mark ",", ⟨g, index⟩ :: path⟩ = some l := hl
      rw [Option.some.injEq] at hleaf
      rw [← hleaf]
      exact ⟨Or.inl rfl, Nat.le_refl _⟩

variable (hcolumn : ∀ place, Frame.holdsColumn ⟨g, place⟩ = true)

include hcolumn

theorem ownedFrom_entry (e : Entry) {rest : List Leaf} (hrest : GoesOn path rest)
    {os : List Owned} (hos : ∀ before, ownedFrom before rest = .ok os) (index : Nat)
    (before : List Leaf) :
    ownedFrom before (Node.leavesFrom g path index e.tree ++ rest) = .ok (e.owned ++ os) := by
  cases e with
  | column c => exact ownedFrom_column houtside c (hcolumn index) hrest.unlisted hos before
  | key k => exact ownedFrom_key houtside k hrest hos index before

/-- The constraints of entries behind others. -/
theorem ownedFrom_entries (es : List Entry) {rest : List Leaf} (hrest : GoesOn path rest)
    {os : List Owned} (hos : ∀ before, ownedFrom before rest = .ok os) (index : Nat)
    (before : List Leaf) :
    ownedFrom before (Node.leavesFrom g path index
        (es.flatMap fun e => Node.comma ++ e.tree) ++ rest) =
      .ok (es.flatMap Entry.owned ++ os) := by
  induction es generalizing index before with
  | nil => exact hos before
  | cons e es ih =>
      have hsplit : Node.leavesFrom g path index
          ((e :: es).flatMap fun e => Node.comma ++ e.tree) ++ rest =
            ⟨.mark ",", ⟨g, index⟩ :: path⟩ :: ⟨.space, ⟨g, index + 1⟩ :: path⟩ ::
              (Node.leavesFrom g path (index + 1 + 1) e.tree ++
                (Node.leavesFrom g path (index + 1 + 1 + e.tree.length)
                  (es.flatMap fun e => Node.comma ++ e.tree) ++ rest)) := by
        rw [List.flatMap_cons, List.append_assoc, ← List.append_assoc (Node.leavesFrom g path _ _),
          ← Node.leavesFrom_append]
        rfl
      -- What follows the first entry is the comma of the next, or the end.
      have hentry := ownedFrom_entry houtside hcolumn e
        (goesOn_entries es hrest (index + 1 + 1 + e.tree.length)) (ih _) (index + 1 + 1)
      rw [hsplit, ownedFrom_pass (Token.silent_of_keyword? rfl),
        ownedFrom_pass (Token.silent_of_keyword? rfl), hentry, List.flatMap_cons,
        List.append_assoc]

/-- The constraints of all entries, in order. -/
theorem ownedFrom_body (es : List Entry) {rest : List Leaf} (hrest : GoesOn path rest)
    {os : List Owned} (hos : ∀ before, ownedFrom before rest = .ok os) (index : Nat)
    (before : List Leaf) :
    ownedFrom before (Node.leavesFrom g path index (Node.commas (es.map Entry.tree)) ++ rest) =
      .ok (es.flatMap Entry.owned ++ os) := by
  cases es with
  | nil => exact hos before
  | cons e es =>
      have hentry := ownedFrom_entry houtside hcolumn e
        (goesOn_entries es hrest (index + e.tree.length))
        (ownedFrom_entries houtside hcolumn es hrest hos _) index before
      rw [List.map_cons, Node.commas_cons, List.flatMap_map, Node.leavesFrom_append,
        List.append_assoc, hentry, List.flatMap_cons, List.append_assoc]

end Level

end SqlGist
