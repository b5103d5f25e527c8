import SqlGist.Proofs.Definitions.RoundTrip
import SqlGist.Proofs.Definitions.Runs
import SqlGist.Proofs.Dispatch

/-!
# Definitions in an Addition

The definitions and keys of a table can be written behind `ALTER TABLE ADD` as
well, with the commas between them and without the parentheses. They make
another tree there. In a definition all of them stand in one list. In an
addition every keyword parts them, `NOT NULL` and `PRIMARY` as much as `ADD`, so
a name can stand in the statement itself or in a list, and a list can begin in
the middle of one definition and end in the middle of the next.

What is read is the same. The nodes of the entries are, and the places that they
get are apart and hold columns, so they can be taken for those of one list.

## Main definitions

* `TableSpec.addition`: How an addition is written.
* `TableSpec.additionLevel`: What stands behind `ADD`.
* `TableSpec.additionTree`: The tree of an addition.
* `TableSpec.creationText`, `TableSpec.additionText`: The two texts.

## Theorems

* `typed_tree`: Behind the name of a column stands its type.
* `rootNodes_addition`: The passes turn an addition into its tree.
* `standing_addition`: The entries of an addition stand at places apart.
* `defines_addition`: The leaves of an addition.
* `addition_agrees_with_creation`: Both statements are read alike.
-/

namespace SqlGist

namespace Node

/-- Where there are no names, there is no type to ask for. -/
theorem typed_of_no_name {ns : List Node} (h : ∀ n ∈ ns, n.isGroup .nameRef = false) :
    Typed ns := by
  induction ns with
  | nil => trivial
  | cons n ns ih =>
      refine ⟨fun hn => ?_, ih fun m hm => h m (List.mem_cons_of_mem _ hm)⟩
      rw [h n List.mem_cons_self] at hn
      exact absurd hn Bool.false_ne_true

theorem typed_commas {parts : List (List Node)} (h : ∀ part ∈ parts, Typed part) :
    Typed (commas parts) := by
  have hcomma : Typed comma := typed_of_no_name (by decide)
  cases parts with
  | nil => trivial
  | cons first rest =>
      rw [commas_cons]
      refine (h first List.mem_cons_self).append ?_
      have hrest := fun part hpart => h part (List.mem_cons_of_mem first hpart)
      clear h
      induction rest with
      | nil => trivial
      | cons part rest ih =>
          rw [List.flatMap_cons]
          exact (hcomma.append (hrest part List.mem_cons_self)).append
            (ih fun p hp => hrest p (List.mem_cons_of_mem _ hp))

end Node

theorem TypeSpec.isType_node (t : TypeSpec) : t.node.isType = true := by
  cases t <;> rfl

theorem not_name_spaced {ts : List Token} :
    ∀ n ∈ Nested.nodes (Nested.spaced ts), n.isGroup .nameRef = false := by
  intro n hn
  rcases mem_nodes_spaced hn with rfl | ⟨t, -, rfl⟩ <;> rfl

namespace Entry

/-- The only name of an entry outside its parentheses is the one of its column,
    in front of the type. -/
theorem typed_tree (e : Entry) : Node.Typed e.tree := by
  cases e with
  | column c =>
      have hbehind : Node.Typed (.leaf .space :: c.type.node ::
          Nested.nodes (Nested.spaced c.words)) := by
        refine Node.typed_of_no_name fun n hn => ?_
        rcases List.mem_cons.1 hn with rfl | hn
        · rfl
        · rcases List.mem_cons.1 hn with rfl | hn
          · cases c.type <;> rfl
          · exact not_name_spaced n hn
      exact ⟨fun _ => ⟨c.type.node, _, rfl, c.type.isType_node⟩, hbehind⟩
  | key k =>
      refine Node.typed_of_no_name fun n hn => ?_
      rcases k.mem_tree hn with ⟨t, -, rfl⟩ | rfl <;> rfl

/-- A keyword of an entry is one of those that stand behind a type. -/
theorem keyword_tree (e : Entry) : ∀ n ∈ e.tree, ∀ k, n.keyword? = some k →
    TokenKind.keyword k ∈ wordKinds := by
  have hword : ∀ {ts : List Token} {t : Token} {k : Keyword}, (∀ t ∈ ts, t.kind ∈ wordKinds) →
      t ∈ Token.space :: ts → t.keyword? = some k → TokenKind.keyword k ∈ wordKinds := by
    intro ts t k hts ht hk
    rcases List.mem_cons.1 ht with rfl | ht
    · exact absurd hk.symm (Option.some_ne_none k)
    · rw [← Token.kind_of_keyword? hk]
      exact hts t ht
  intro n hn k hk
  cases e with
  | column c =>
      rcases c.mem_tree hn with rfl | rfl | ⟨t, ht, rfl⟩
      · exact absurd hk.symm (Option.some_ne_none k)
      · rw [Node.keyword?_of_isType c.type.isType_node] at hk
        exact absurd hk.symm (Option.some_ne_none k)
      · exact hword c.kind_words ht hk
  | key key =>
      rcases key.mem_tree hn with ⟨t, ht, rfl⟩ | rfl
      · exact hword key.kind.kind_words ht hk
      · exact absurd hk.symm (Option.some_ne_none k)

end Entry

namespace TableSpec

/-- The addition of the entries of a table as it is written. -/
def addition (s : TableSpec) (spelling : Spelling s.name) : List Nested :=
  .token (.ofKeyword .alter) ::
    (Nested.spaced [.ofKeyword .table, spelling.token, .ofKeyword .add] ++
      .token .space :: Nested.commas (s.entries.map Entry.items))

/-- What stands in front of the entries. -/
def additionFront (s : TableSpec) (spelling : Spelling s.name) : List Node :=
  [.leaf (.ofKeyword .alter), .leaf .space, .leaf (.ofKeyword .table), .leaf .space,
    Node.nameRef (.leaf spelling.token), .leaf .space, .leaf (.ofKeyword .add)]

/-- What stands behind `ADD`, before runs are listed: a blank and the entries. -/
def additionLevel (s : TableSpec) : List Node :=
  .leaf .space :: Node.commas (s.entries.map Entry.tree)

/-- The tree of an addition. -/
def additionTree (s : TableSpec) (spelling : Spelling s.name) : Group :=
  ⟨.statement, s.additionFront spelling ++ Node.groupListsBehind false s.additionLevel⟩

variable (s : TableSpec) (spelling : Spelling s.name)

theorem mem_additionLevel {n : Node} (h : n ∈ s.additionLevel) :
    n = .leaf .space ∨ n = .leaf (.mark ",") ∨ ∃ e ∈ s.entries, n ∈ e.tree := by
  rcases List.mem_cons.1 h with rfl | h
  · exact Or.inl rfl
  · rcases mem_intercalate h with h | ⟨part, hpart, h⟩
    · simp only [Node.comma, List.mem_cons, List.not_mem_nil, or_false] at h
      exact h.symm.imp_right Or.inl
    · rcases List.mem_map.1 hpart with ⟨e, he, rfl⟩
      exact Or.inr (Or.inr ⟨e, he, h⟩)

theorem typed_additionLevel : Node.Typed s.additionLevel := by
  refine ⟨fun h => absurd h Bool.false_ne_true, Node.typed_commas fun part hpart => ?_⟩
  rcases List.mem_map.1 hpart with ⟨e, -, rfl⟩
  exact e.typed_tree

theorem readable_additionLevel : ∀ n ∈ s.additionLevel, n.Readable := by
  intro n hn
  rcases List.mem_cons.1 hn with rfl | hn
  · exact Node.readable_space
  · exact s.readable_commas n hn

theorem keyword_additionLevel : ∀ n ∈ s.additionLevel, ∀ k, n.keyword? = some k →
    TokenKind.keyword k ∈ wordKinds := by
  intro n hn k hk
  rcases s.mem_additionLevel hn with rfl | rfl | ⟨e, -, hn⟩
  · exact absurd hk.symm (Option.some_ne_none k)
  · exact absurd hk.symm (Option.some_ne_none k)
  · exact e.keyword_tree n hn k hk

/-- The passes that act on neighbours group the name and the entries. -/
theorem groupLevel_addition :
    Node.groupLevel (Nested.nodes (s.addition spelling)) =
      s.additionFront spelling ++ s.additionLevel := by
  have hnodes : Nested.nodes (s.addition spelling) =
      .leaf (.ofKeyword .alter) :: .leaf .space :: .leaf (.ofKeyword .table) :: .leaf .space ::
        .leaf spelling.token :: .leaf .space :: .leaf (.ofKeyword .add) :: .leaf .space ::
          Nested.nodes (Nested.commas (s.entries.map Entry.items)) := rfl
  have hname : Node.isName (.leaf spelling.token) = true := by
    cases spelling <;> rfl
  rw [hnodes, Node.groupLevel_pass rfl rfl, Node.groupLevel_space, Node.groupLevel_pass rfl rfl,
    Node.groupLevel_space, Node.groupLevel_name hname, Node.groupLevel_space,
    Node.groupLevel_pass rfl rfl, Node.groupLevel_space,
    Node.groupLevel_commas fun e _ => e.partTree_items]
  · rfl
  · intro p hp
    rw [← Option.some.inj hp]
    rfl
  · exact Node.noOperatorNext_cons rfl fun _ =>
      Node.noOperatorNext_cons rfl fun hblank => absurd hblank Bool.false_ne_true

/-- In front of the entries nothing is listed. -/
theorem groupLists_addition :
    Node.groupLists (s.additionFront spelling ++ s.additionLevel) =
      (s.additionTree spelling).children := by
  have hnone : ∀ m ∈ ([] : List Node), m.keyword? = none := List.forall_mem_nil _
  have hblank : ∀ m ∈ [Node.leaf .space], m.keyword? = none := by decide
  have hname : ∀ m ∈ [.leaf .space, Node.nameRef (.leaf spelling.token), .leaf .space],
      m.keyword? = none := by
    intro m hm
    simp only [List.mem_cons, List.not_mem_nil, or_false] at hm
    rcases hm with rfl | rfl | rfl <;> rfl
  have hsplit : s.additionFront spelling ++ s.additionLevel =
      [] ++ .leaf (.ofKeyword .alter) :: ([.leaf .space] ++ .leaf (.ofKeyword .table) ::
        ([.leaf .space, Node.nameRef (.leaf spelling.token), .leaf .space] ++
          .leaf (.ofKeyword .add) :: s.additionLevel)) := rfl
  rw [hsplit, Node.groupLists_eq, Node.groupListsBehind_append hnone rfl,
    Node.groupListsBehind_append hblank rfl, Node.groupListsBehind_append hname rfl]
  rfl

theorem keywords_additionTree : (s.additionTree spelling).keywords =
    Command.addColumn.keywords ++ s.additionLevel.filterMap Node.keyword? := by
  rw [Group.keywords, ← groupLists_addition, Node.keywords_groupLists, List.filterMap_append]
  rfl

/-- The keywords in front of the entries, and those that entries have. -/
theorem mem_keywords_additionTree {k : Keyword} (h : k ∈ (s.additionTree spelling).keywords) :
    TokenKind.keyword k ∈ Command.addColumn.keywords.map TokenKind.keyword ++ wordKinds := by
  rw [keywords_additionTree] at h
  rcases List.mem_append.1 h with h | h
  · exact List.mem_append_left _ (List.mem_map_of_mem h)
  · rcases List.mem_filterMap.1 h with ⟨n, hn, hk⟩
    exact List.mem_append_right _ (s.keyword_additionLevel n hn k hk)

theorem keyword_ne_of_mem {k : Keyword}
    (hk : TokenKind.keyword k ∉ Command.addColumn.keywords.map TokenKind.keyword ++ wordKinds) :
    ∀ n ∈ (s.additionTree spelling).children, n.keyword? ≠ some k :=
  fun n hn hkeyword => hk (s.mem_keywords_additionTree spelling
    (List.mem_filterMap.2 ⟨n, hn, hkeyword⟩))

/-- The passes turn an addition into its tree. -/
theorem rootNodes_addition :
    (⟨.statement, rootNodes (s.addition spelling)⟩ : Group) = s.additionTree spelling := by
  have hdefines : definesTable (s.addition spelling) = false := rfl
  have hvalues : ∀ item ∈ s.addition spelling, item.keyword? ≠ some .values := by
    intro item hitem hk
    -- No pass takes the keyword, so it would be one of the tree.
    have hclause : .values ∈ Node.clauseKeywords (Nested.nodes (s.addition spelling)) := by
      rw [Node.clauseKeywords, Nested.keywords_nodes]
      exact List.mem_filter.2 ⟨List.mem_filterMap.2 ⟨item, hitem, hk⟩, rfl⟩
    rw [← Node.clauseKeywords_groupLevel, groupLevel_addition, ← Node.clauseKeywords_groupLists,
      groupLists_addition] at hclause
    exact absurd (s.mem_keywords_additionTree spelling (List.mem_filter.1 hclause).1) (by decide)
  rw [rootNodes, hdefines, Nested.outerNodes_eq_nodes hvalues, groupRoot_false_eq,
    groupLevel_addition, groupLists_addition,
    Node.groupWhere_of_no_where (s.keyword_ne_of_mem spelling (by decide))]
  rfl

/-- The keywords of an addition are those of no named constraint. -/
theorem names_addition : Command.addColumn.Names (s.additionTree spelling).keywords := by
  have hconstraint : Keyword.constraint ∉ (s.additionTree spelling).keywords := fun h =>
    absurd (s.mem_keywords_additionTree spelling h) (by decide)
  refine ⟨⟨_, (s.keywords_additionTree spelling).symm⟩, fun h => ?_, fun h => ?_⟩ <;>
    exact hconstraint (h ▸ by decide)

/-- The entries in one list behind a blank. -/
def entryList : Group :=
  ⟨.nameList, s.additionLevel⟩

theorem outside_entryList : s.entryList.Outside [] :=
  ⟨Shape.noConfusion, List.forall_mem_nil _⟩

theorem holdsColumn_entryList (place : Nat) : Frame.holdsColumn ⟨s.entryList, place⟩ = true :=
  holdsColumn_of_harmless (Or.inr rfl) (fun n hn => (s.readable_additionLevel n hn).harmless) place

theorem standing_entryList :
    Standing s.additionLevel (Node.leavesFrom s.entryList [] 0 s.additionLevel) :=
  (Group.Unfolds.kept (Or.inr rfl) (List.forall_mem_nil _)
    fun _ _ _ _ _ => s.holdsColumn_entryList _).standing

theorem standing_addition : Standing s.additionLevel
    (Node.leavesFrom (s.additionTree spelling) [] (s.additionFront spelling).length
      (Node.groupListsBehind false s.additionLevel)) := by
  have hprojection : ∀ n ∈ s.additionLevel, n.opensProjection = false := by
    intro n hn
    rw [Node.opensProjection, Bool.or_eq_false_iff, decide_eq_false_iff_not,
      decide_eq_false_iff_not]
    exact ⟨fun hk => absurd (s.keyword_additionLevel n hn _ hk) (by decide),
      fun hk => absurd (s.keyword_additionLevel n hn _ hk) (by decide)⟩
  have hunfolds : (s.additionTree spelling).Unfolds [] (s.additionFront spelling).length
      (Node.groupListsBehind false ([] ++ s.additionLevel)) ([] ++ s.additionLevel) :=
    unfolds_groupListsBehind rfl (s.keyword_ne_of_mem spelling (by decide))
      (List.forall_mem_nil _) rfl s.typed_additionLevel
      (fun n hn => (s.readable_additionLevel n hn).harmless) hprojection
  exact hunfolds.standing

section Standing

variable {s} {leaves : List Leaf} (h : Standing s.additionLevel leaves)

include h

/-- Wherever the entries stand, their columns are those of one list. -/
theorem gatherFrom_standing (action : Action) :
    ∃ last, gatherFrom true action ⟨[], none⟩ leaves =
      .ok ⟨s.columns.map fun c => c.typed action, last⟩ := by
  have hbody := gatherFrom_body s.outside_entryList s.holdsColumn_entryList action s.nonempty
    s.distinct s.declared 1
  rw [← map_tree_entries] at hbody
  rw [h.gatherFrom_eq s.standing_entryList]
  exact hbody

/-- So are their constraints. -/
theorem ownedFrom_standing (before : List Leaf) :
    ownedFrom before leaves = .ok (s.entries.flatMap Entry.owned) := by
  have hgoes : GoesOn [] [] := fun l hl => absurd hl.symm (Option.some_ne_none l)
  have hbody := ownedFrom_body s.outside_entryList s.holdsColumn_entryList s.entries hgoes
    (fun _ => rfl) 1 (⟨.space, [⟨s.entryList, 0⟩]⟩ :: before)
  rw [List.append_nil, List.append_nil] at hbody
  rw [h.ownedFrom_eq s.standing_entryList, additionLevel, Node.leavesFrom, Node.leaves,
    List.singleton_append, ownedFrom_pass (Token.silent_of_keyword? rfl)]
  exact hbody

end Standing

/-- An addition is a statement with the entries of the table, too. -/
theorem defines_addition :
    ∃ front body, s.Defines (s.additionTree spelling).leaves front body [] := by
  have hstanding := s.standing_addition spelling
  refine ⟨s.frontLeaves spelling (s.additionTree spelling) .alter
      ⟨.ofKeyword .add, [⟨s.additionTree spelling, 6⟩]⟩,
    Node.leavesFrom (s.additionTree spelling) [] (s.additionFront spelling).length
      (Node.groupListsBehind false s.additionLevel), ?_,
    ⟨s.targetLeaf spelling (s.additionTree spelling), ?_, spelling.value_token⟩, ?_,
    List.forall_mem_nil _, ?_, gatherFrom_standing hstanding, fun before => ?_⟩
  · rw [List.append_nil]
    rfl
  · cases spelling <;> rfl
  · refine s.quiet_frontLeaves spelling (by decide) ?_
      ⟨Leaf.quiet_of_kind rfl TokenKind.noConfusion, of_decide_eq_true rfl⟩
    cases spelling <;> exact ⟨rfl, rfl⟩
  · intro l hl
    rcases hstanding.exists_of_mem hl with ⟨n, hn, path, hl⟩
    exact (s.readable_additionLevel n hn).leaves path l hl
  · rw [List.append_nil]
    exact ownedFrom_standing hstanding before

theorem plain_addition : ∀ item ∈ s.addition spelling, item.Plain := by
  intro item hitem
  rcases List.mem_cons.1 hitem with rfl | hitem
  · exact .token (Token.plain_ofKeyword .alter)
  · rcases List.mem_append.1 hitem with hitem | hitem
    · exact Nested.plain_spaced (fun t ht => (s.written_front spelling t ht).1) item hitem
    · rcases List.mem_cons.1 hitem with rfl | hitem
      · exact .token Token.plain_space
      · exact Nested.plain_commas s.plain_entries item hitem

theorem chunk_addition : ∃ ts, Nested.tokensOf (s.addition spelling) = .ofKeyword .alter :: ts ∧
    Token.Chunk ts := by
  refine ⟨_, rfl, ?_⟩
  have hne : s.entries.map Entry.items ≠ [] := by
    rw [entries, List.map_append, List.map_map]
    exact List.append_ne_nil_of_left_ne_nil
      (fun h => s.nonempty (List.map_eq_nil_iff.1 h)) _
  have hwords : Token.Chunk (Nested.tokensOf
      (Nested.spaced [.ofKeyword .table, spelling.token, .ofKeyword .add])) :=
    Nested.chunk_spacedWords fun t ht => (s.written_front spelling t ht).2
  have hbehind : Token.Chunk
      (Nested.tokensOf (.token .space :: Nested.commas (s.entries.map Entry.items))) :=
    Token.chunk_space (Nested.phrase_commas hne s.phrase_entries)
  have happ := Token.chunk_append hwords hbehind
  rw [← Nested.tokensOf_append] at happ
  exact happ

/-- The definitions and keys of a table, with the commas between them. -/
def definitions : String :=
  Token.spell (Nested.tokensOf (Nested.commas (s.entries.map Entry.items)))

/-- The text of a definition. -/
def creationText : String :=
  "CREATE TABLE " ++ spelling.token.text ++ " (" ++ s.definitions ++ ")"

/-- The text of an addition. -/
def additionText : String :=
  "ALTER TABLE " ++ spelling.token.text ++ " ADD " ++ s.definitions

theorem creationText_eq :
    s.creationText spelling = Token.spell (Nested.tokensOf (s.creation spelling)) := by
  have htokens : Nested.tokensOf (s.creation spelling) =
      [.ofKeyword .create, .space, .ofKeyword .table, .space] ++ ([spelling.token] ++
        ([.space, .mark "("] ++ (Nested.tokensOf (Nested.commas (s.entries.map Entry.items)) ++
          [.mark ")"]))) := by
    rw [← List.append_nil (Nested.tokensOf (Nested.commas _) ++ _)]
    rfl
  rw [htokens, Token.spell_append, Token.spell_append, Token.spell_append, Token.spell_append,
    Token.spell_singleton, Token.spell_singleton, ← String.append_assoc, ← String.append_assoc,
    ← String.append_assoc]
  rfl

theorem additionText_eq :
    s.additionText spelling = Token.spell (Nested.tokensOf (s.addition spelling)) := by
  have htokens : Nested.tokensOf (s.addition spelling) =
      [.ofKeyword .alter, .space, .ofKeyword .table, .space] ++ ([spelling.token] ++
        ([.space, .ofKeyword .add, .space] ++
          Nested.tokensOf (Nested.commas (s.entries.map Entry.items)))) := rfl
  rw [htokens, Token.spell_append, Token.spell_append, Token.spell_append, Token.spell_singleton,
    ← String.append_assoc, ← String.append_assoc]
  rfl

theorem classify_addition : classify (s.additionText spelling) =
    .ok (.table ⟨s.name, .alter, s.columns.map (s.columnFor .addColumn), none⟩) := by
  rcases s.chunk_addition spelling with ⟨ts, htokens, hchunk⟩
  rcases s.defines_addition spelling with ⟨front, body, hdefines⟩
  have hcommand : Command.ofTag? (normalizeTag (commandTag (s.additionTree spelling))) =
      some .addColumn :=
    Command.ofTag?_normalizeTag_iff.2 (s.names_addition spelling)
  rw [additionText_eq, classify_spell htokens (s.plain_addition spelling)
    (Token.word_ofKeyword true (by decide) (by decide)) hchunk, s.rootNodes_addition]
  simp only [classifyTree, hcommand]
  exact hdefines.extract_eq rfl

end TableSpec

/-- The same definitions and keys are read alike in `CREATE TABLE` and behind
    `ALTER TABLE ADD`: both are read, and the columns agree in number, order, names,
    types, sizes and constraints. What is done to them is all that differs. -/
theorem addition_agrees_with_creation (s : TableSpec) (spelling : Spelling s.name) :
    classify (s.creationText spelling) = .ok (.table s.table) ∧
      classify (s.additionText spelling) = .ok (.table { s.table with
        action := .alter
        columns := s.table.columns.map fun c => { c with action := .addColumn } }) := by
  constructor
  · rw [s.creationText_eq]
    exact s.classify_creation spelling
  · rw [s.classify_addition spelling, TableSpec.table, List.map_map]
    rfl

/-- The text of an addition to a table with a bare name, and its keys. -/
example : TableSpec.additionText ⟨"t",
    [⟨"id", .builtin "int" (by decide +kernel), [.key .primary]⟩,
      ⟨"a", .call "decimal" (by decide +kernel) (by decide +kernel)
        [⟨['1', '0'], List.cons_ne_nil _ _, List.all_eq_true.1 rfl⟩], [.notNull]⟩],
    [⟨.unique, ["id", "a"]⟩], by simp only [ne_eq, reduceCtorEq, not_false_eq_true],
    by decide, by decide⟩ (.bare (by decide +kernel) (by decide +kernel) (by decide +kernel)) =
      "ALTER TABLE t ADD \"id\" int PRIMARY KEY, \"a\" decimal(10) NOT NULL, " ++
        "UNIQUE (\"id\", \"a\")" := by
  decide +kernel

end SqlGist
