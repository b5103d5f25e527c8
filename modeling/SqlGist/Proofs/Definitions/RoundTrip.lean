import SqlGist.Proofs.Definitions.Gathering
import SqlGist.Proofs.Definitions.Owning

/-!
# Table Definitions Decode and Encode

A table with definitions and keys is written down as `CREATE TABLE`, and read
back as it was: one column for each definition, in their order, each with its
type, with its own constraints in order, and with one more for each time that a
key lists it.

A `TableSpec` is a table that can be written. It has a column, no two columns
share a name, and keys list columns of the table only. The name of the table can
be written without quotes too.

What is read of the entries of a definition depends on what is around them only
so far as `TableSpec.Defines` says, for other statements have such entries too.

## Main definitions

* `TableSpec`: A table that can be written.
* `TableSpec.creation`, `TableSpec.text`: How it is written, with the name of the
  table in either spelling, and with that name in quotes.
* `TableSpec.creationTree`: The tree.
* `TableSpec.column`: A column as it is read back.
* `TableSpec.Defines`: The leaves of a statement with the entries of a table.

## Theorems

* `rootNodes_creation`: The passes turn the items into the tree.
* `defines_creation`: The leaves of a table definition.
* `constraintsOn_owned`: The constraints on one column.
* `Defines.definedColumns_eq`: The columns of a statement with the entries.
* `classify_creation`: A table definition is read as its table.
* `createTable_roundTrip`: Table definitions decode and encode.
-/

namespace SqlGist

/-- A table with definitions and keys that can be written down. -/
structure TableSpec where
  name : String
  columns : List ColumnSpec
  keys : List KeySpec
  nonempty : columns ≠ []
  distinct : (columns.map ColumnSpec.name).Nodup
  declared : ∀ k ∈ keys, ∀ name ∈ k.columns, name ∈ columns.map ColumnSpec.name

/-- The constraints that a key puts on one column, one for each time it lists
    the column. -/
def KeySpec.constraintsOn (k : KeySpec) (name : String) : List Constraint :=
  (k.columns.filter fun listed => listed = name).map fun _ => k.kind.constraint

namespace TableSpec

/-- The entries of a definition: the columns, and the keys behind them. -/
def entries (s : TableSpec) : List Entry :=
  s.columns.map .column ++ s.keys.map .key

/-- A table definition as it is written, with its name in either spelling. -/
def creation (s : TableSpec) (spelling : Spelling s.name) : List Nested :=
  .token (.ofKeyword .create) ::
    (Nested.spaced [.ofKeyword .table, spelling.token] ++
      [.token .space, Nested.enclosed (s.entries.map Entry.items)])

/-- The text of a table definition, with its name in quotes. -/
def text (s : TableSpec) : String :=
  Token.spell (Nested.tokensOf (s.creation .quoted))

/-- The node of all entries. -/
def body (s : TableSpec) : Node :=
  Node.enclosed (s.entries.map Entry.tree)

/-- The tree of a table definition. -/
def creationTree (s : TableSpec) (spelling : Spelling s.name) : Group :=
  ⟨.statement, [.leaf (.ofKeyword .create), .leaf .space, .leaf (.ofKeyword .table), .leaf .space,
    Node.nameRef (.leaf spelling.token), .leaf .space, s.body]⟩

/-- A column as it is read back. -/
def column (s : TableSpec) (c : ColumnSpec) : Column :=
  { c.typed .create with
    constraints := c.constraints.map InlineConstraint.constraint ++
      s.keys.flatMap fun k => k.constraintsOn c.name }

/-- A table as it is read back. -/
def table (s : TableSpec) : Table :=
  ⟨s.name, .create, s.columns.map s.column, none⟩

variable (s : TableSpec) (spelling : Spelling s.name)

theorem node_body : (Nested.enclosed (s.entries.map Entry.items)).node false = s.body :=
  Node.node_enclosed fun e _ => e.partTree_items

/-- The passes turn a table definition into its tree. The parenthesis behind the
    name is no argument list. -/
theorem rootNodes_creation :
    (⟨.statement, rootNodes (s.creation spelling)⟩ : Group) = s.creationTree spelling := by
  have hkeywords : (s.creation spelling).filterMap Nested.keyword? = [.create, .table] := by
    cases spelling <;> rfl
  have hdefines : definesTable (s.creation spelling) = true := by
    rw [definesTable, hkeywords]
    rfl
  -- Before any pass runs, `CREATE` and `TABLE` are the only keywords at the root.
  have hvalues : ∀ item ∈ s.creation spelling, item.keyword? ≠ some .values := by
    intro item hitem hk
    have hmem := List.mem_filterMap.2 ⟨item, hitem, hk⟩
    rw [hkeywords] at hmem
    exact absurd hmem (by decide)
  have hnodes : Nested.nodes (s.creation spelling) = [.leaf (.ofKeyword .create), .leaf .space,
      .leaf (.ofKeyword .table), .leaf .space, .leaf spelling.token, .leaf .space, s.body] := by
    rw [← node_body]
    rfl
  have hnames : Node.groupNames (Nested.nodes (s.creation spelling)) =
      (s.creationTree spelling).children := by
    rw [hnodes]
    cases spelling <;> rfl
  -- Only the pass over names finds something to group.
  have hsettled : ∀ n ∈ (s.creationTree spelling).children, n.Settled := by
    intro n hn
    simp only [creationTree, List.mem_cons, List.not_mem_nil, or_false] at hn
    rcases hn with rfl | rfl | rfl | rfl | rfl | rfl | rfl
    · decide
    · decide
    · decide
    · decide
    · exact Node.settled_name _
    · decide
    · exact Node.settled_group _ _
  rw [rootNodes, hdefines, Nested.outerNodes_eq_nodes hvalues, groupRoot, if_pos rfl, hnames,
    Node.groupBehind_of_settled hsettled]
  rfl

/-- Nothing in an entry keeps a name beside it from being a column. -/
theorem harmless_entries :
    ∀ part ∈ s.entries.map Entry.tree, ∀ n ∈ part, n.Harmless := by
  intro part hpart n hn
  rcases List.mem_map.1 hpart with ⟨e, -, rfl⟩
  exact (e.readable_tree n hn).harmless

theorem plain_entries : ∀ part ∈ s.entries.map Entry.items, ∀ item ∈ part, item.Plain := by
  intro part hpart
  rcases List.mem_map.1 hpart with ⟨e, -, rfl⟩
  exact e.plain_items

/-- The words in front of the entries can be written anywhere. -/
theorem written_front : ∀ t ∈ [Token.ofKeyword .table, spelling.token, .ofKeyword .add],
    t.Plain ∧ ∀ operandExpected, Token.Word operandExpected t := by
  intro t ht
  simp only [List.mem_cons, List.not_mem_nil, or_false] at ht
  rcases ht with rfl | rfl | rfl
  · exact ⟨Token.plain_ofKeyword .table, fun _ => Token.word_ofKeyword _ (by decide) (by decide)⟩
  · exact ⟨spelling.plain_token, spelling.word_token⟩
  · exact ⟨Token.plain_ofKeyword .add, fun _ => Token.word_ofKeyword _ (by decide) (by decide)⟩

theorem plain_creation : ∀ item ∈ s.creation spelling, item.Plain := by
  have hwords : ∀ t ∈ [Token.ofKeyword .table, spelling.token], t.Plain :=
    fun t ht => (s.written_front spelling t (List.mem_append_left [Token.ofKeyword .add] ht)).1
  intro item hitem
  rcases List.mem_cons.1 hitem with rfl | hitem
  · exact .token (Token.plain_ofKeyword .create)
  · rcases List.mem_append.1 hitem with hitem | hitem
    · exact Nested.plain_spaced hwords item hitem
    · simp only [List.mem_cons, List.not_mem_nil, or_false] at hitem
      rcases hitem with rfl | rfl
      · exact .token Token.plain_space
      · exact Nested.plain_enclosed s.plain_entries

theorem phrase_entries :
    ∀ part ∈ s.entries.map Entry.items, Token.Phrase (Nested.tokensOf part) := by
  intro part hpart
  rcases List.mem_map.1 hpart with ⟨e, -, rfl⟩
  exact e.phrase_items

theorem chunk_creation : ∃ ts, Nested.tokensOf (s.creation spelling) = .ofKeyword .create :: ts ∧
    Token.Chunk ts := by
  refine ⟨_, rfl, ?_⟩
  have hentries : Token.Phrase (Nested.enclosed (s.entries.map Entry.items)).tokens :=
    Nested.phrase_enclosed fun part hpart => (s.phrase_entries part hpart).argument
  have hwords : Token.Chunk (Nested.tokensOf
      (Nested.spaced [.ofKeyword .table, spelling.token])) :=
    Nested.chunk_spacedWords fun t ht =>
      (s.written_front spelling t (List.mem_append_left [Token.ofKeyword .add] ht)).2
  have hend : Token.Chunk (Nested.tokensOf
      [.token .space, Nested.enclosed (s.entries.map Entry.items)]) := by
    rw [Nested.tokensOf, Nested.tokensOf, Nested.tokensOf, List.append_nil]
    exact Token.chunk_space hentries
  have happ := Token.chunk_append hwords hend
  rw [← Nested.tokensOf_append] at happ
  exact happ

/-- The entries are the columns, and the keys behind them. -/
theorem map_tree_entries : s.entries.map Entry.tree =
    s.columns.map ColumnSpec.tree ++ s.keys.map KeySpec.tree := by
  rw [entries, List.map_append, List.map_map, List.map_map]
  rfl

theorem readable_commas : ∀ n ∈ Node.commas (s.entries.map Entry.tree), n.Readable := by
  intro n hn
  rcases mem_intercalate hn with hn | ⟨part, hpart, hn⟩
  · simp only [Node.comma, List.mem_cons, List.not_mem_nil, or_false] at hn
    rcases hn with rfl | rfl
    · refine Node.readable_of_no_keyword (by decide) fun path l hl => ?_
      rw [List.mem_singleton.1 hl]
      rfl
    · exact Node.readable_space
  · rcases List.mem_map.1 hpart with ⟨e, -, rfl⟩
    exact e.readable_tree n hn

/-- The words in front of the entries of a statement. -/
def frontWords : List (Option Keyword) :=
  [none, some .create, some .table, some .alter, some .add]

/-- The leaves of a statement with the entries of a table. In front of the entries
    stand the name of the table and words that define nothing, and behind them at
    most a parenthesis. -/
structure Defines (leaves front body back : List Leaf) : Prop where
  eq_append : leaves = front ++ (body ++ back)
  isTarget : ∃ l, front.filter Leaf.isTarget = [l] ∧ l.value = s.name
  inFront : ∀ l ∈ front, l.Quiet ∧ l.keyword? ∈ frontWords
  isBehind : ∀ l ∈ back, l.token = .mark ")"
  readable : ∀ l ∈ body, ∀ k ∈ unreadConstraints, l.keyword? ≠ some k
  gatherFrom_eq : ∀ action, ∃ last, gatherFrom true action ⟨[], none⟩ body =
    .ok ⟨s.columns.map fun c => c.typed action, last⟩
  ownedFrom_eq : ∀ before, ownedFrom before (body ++ back) = .ok (s.entries.flatMap Entry.owned)

/-- The leaf that names the table. -/
def targetLeaf (root : Group) : Leaf :=
  ⟨spelling.token, [⟨⟨.nameRef, [.leaf spelling.token]⟩, 0⟩, ⟨root, 4⟩]⟩

/-- The leaves in front of the entries: a keyword, `TABLE`, the name of the table,
    and what opens the entries. -/
def frontLeaves (root : Group) (first : Keyword) (opening : Leaf) : List Leaf :=
  [⟨.ofKeyword first, [⟨root, 0⟩]⟩, ⟨.space, [⟨root, 1⟩]⟩, ⟨.ofKeyword .table, [⟨root, 2⟩]⟩,
    ⟨.space, [⟨root, 3⟩]⟩, s.targetLeaf spelling root, ⟨.space, [⟨root, 5⟩]⟩, opening]

/-- These are quiet if the name of the table and what opens the entries are. -/
theorem quiet_frontLeaves {root : Group} {first : Keyword} {opening : Leaf}
    (hfirst : some first ∈ frontWords) (htarget : (s.targetLeaf spelling root).Quiet)
    (hopening : opening.Quiet ∧ opening.keyword? ∈ frontWords) :
    ∀ l ∈ s.frontLeaves spelling root first opening, l.Quiet ∧ l.keyword? ∈ frontWords := by
  have hspace (path : List Frame) :
      Leaf.Quiet ⟨.space, path⟩ ∧ Leaf.keyword? ⟨.space, path⟩ ∈ frontWords :=
    ⟨Leaf.quiet_of_kind rfl TokenKind.noConfusion, List.mem_cons_self⟩
  have hkeyword {k : Keyword} (hk : some k ∈ frontWords) (path : List Frame) :
      Leaf.Quiet ⟨.ofKeyword k, path⟩ ∧ Leaf.keyword? ⟨.ofKeyword k, path⟩ ∈ frontWords :=
    ⟨Leaf.quiet_of_kind rfl TokenKind.noConfusion, hk⟩
  intro l hl
  simp only [frontLeaves, List.mem_cons, List.not_mem_nil, or_false] at hl
  rcases hl with rfl | rfl | rfl | rfl | rfl | rfl | rfl
  · exact hkeyword hfirst _
  · exact hspace _
  · exact hkeyword (by decide) _
  · exact hspace _
  · refine ⟨htarget, ?_⟩
    cases spelling <;> exact List.mem_cons_self
  · exact hspace _
  · exact hopening

/-- A table definition is a statement with the entries of its table. -/
theorem defines_creation :
    ∃ front body back, s.Defines (s.creationTree spelling).leaves front body back := by
  have hpath : ∀ f ∈ [(⟨s.creationTree spelling, 6⟩ : Frame)], f.shape ≠ .whereClause := by
    intro f hf
    rw [List.mem_singleton.1 hf]
    exact Shape.noConfusion
  rcases leaves_enclosed s.harmless_entries hpath with
    ⟨g, inner, index, closing, houtside, hcolumn, ⟨children, -, hleaves⟩, hclosing, hdepth⟩
  have hgoes : GoesOn inner [closing] := by
    intro l hl
    rw [List.head?_cons, Option.some.injEq] at hl
    rw [← hl]
    exact ⟨Or.inr hclosing, hdepth⟩
  have hend : ∀ before, ownedFrom before [closing] = .ok [] := by
    intro before
    rw [ownedFrom_pass]
    · rfl
    · rw [hclosing]
      exact Token.silent_of_keyword? rfl
  refine ⟨s.frontLeaves spelling (s.creationTree spelling) .create
      ⟨.mark "(", [⟨⟨.parenthesis, children⟩, 0⟩, ⟨s.creationTree spelling, 6⟩]⟩,
    Node.leavesFrom g inner index (Node.commas (s.entries.map Entry.tree)), [closing], ?_,
    ⟨s.targetLeaf spelling (s.creationTree spelling), ?_, spelling.value_token⟩, ?_, ?_, ?_,
    fun action => ?_, fun before => ?_⟩
  · have hall : (s.creationTree spelling).leaves =
        (s.frontLeaves spelling (s.creationTree spelling) .create ⟨.space, []⟩).dropLast ++
          (s.body.leaves [⟨s.creationTree spelling, 6⟩] ++ []) := rfl
    rw [hall, body, hleaves, List.append_nil]
    rfl
  · cases spelling <;> rfl
  · refine s.quiet_frontLeaves spelling (by decide) ?_ ⟨⟨rfl, rfl⟩, List.mem_cons_self⟩
    cases spelling <;> exact ⟨rfl, rfl⟩
  · intro l hl
    rw [List.mem_singleton.1 hl, hclosing]
  · intro l hl
    rcases Node.mem_leavesFrom hl with ⟨n, hn, place, hl⟩
    exact (s.readable_commas n hn).leaves _ l hl
  · rw [map_tree_entries]
    exact gatherFrom_body houtside hcolumn action s.nonempty s.distinct s.declared index
  · rw [ownedFrom_body houtside hcolumn s.entries hgoes hend, List.append_nil]

/-- The words in front of the entries introduce no constraint, neither one that
    is read nor one that is not. -/
theorem front_keywords : ∀ o ∈ frontWords,
    (∀ k ∈ [Keyword.primary, .notNull, .unique, .default], o ≠ some k) ∧
      ∀ k ∈ unreadConstraints, o ≠ some k := by
  decide

section Defines

variable {s : TableSpec} {leaves front body back : List Leaf} (h : s.Defines leaves front body back)

include h

theorem Defines.target_eq : SqlGist.target leaves = .ok s.name := by
  rcases h.isTarget with ⟨l, hfront, hvalue⟩
  rw [SqlGist.target, h.eq_append, List.filter_append, hfront]
  exact congrArg Except.ok hvalue

/-- The columns of the statement are the defined ones, in their order. -/
theorem Defines.gather_eq (action : Action) :
    gather true action leaves = .ok (s.columns.map fun c => c.typed action) := by
  -- The leaves around the entries add nothing.
  have hpass : gatherFrom true action ⟨[], none⟩ front = .ok ⟨[], none⟩ :=
    gatherFrom_quiet fun l hl => (h.inFront l hl).1
  have hend : ∀ l ∈ back, l.Quiet := by
    intro l hl
    refine Leaf.quiet_of_kind ?_ ?_ <;> rw [h.isBehind l hl]
    · rfl
    · exact TokenKind.noConfusion
  rcases h.gatherFrom_eq action with ⟨last, hbody⟩
  have hall : gatherFrom true action ⟨[], none⟩ leaves =
      .ok ⟨s.columns.map fun c => c.typed action, last⟩ := by
    rw [h.eq_append, gatherFrom_append hpass, gatherFrom_append hbody]
    exact gatherFrom_quiet hend
  rw [gather, hall]

/-- No keyword of the statement stands for a constraint that is not read. -/
theorem Defines.readable_leaves : ∀ l ∈ leaves, ∀ k ∈ unreadConstraints, l.keyword? ≠ some k := by
  intro l hl
  rw [h.eq_append, List.mem_append, List.mem_append] at hl
  -- In front of the entries, among them, or behind them.
  rcases hl with hl | hl | hl
  · exact (front_keywords _ (h.inFront l hl).2).2
  · exact h.readable l hl
  · refine (front_keywords l.keyword? ?_).2
    rw [Leaf.keyword?, h.isBehind l hl]
    exact List.mem_cons_self

/-- The constraints of the statement are those of its entries, in order. -/
theorem Defines.owned_eq : SqlGist.owned leaves = .ok (s.entries.flatMap Entry.owned) := by
  rw [owned_of_readable h.readable_leaves, h.eq_append,
    ownedFrom_silent fun l hl => (front_keywords _ (h.inFront l hl).2).1, h.ownedFrom_eq]

end Defines

end TableSpec

theorem constraintsOn_append (name : String) (as bs : List Owned) :
    constraintsOn name (as ++ bs) = constraintsOn name as ++ constraintsOn name bs := by
  rw [constraintsOn, List.filter_append, List.map_append]
  rfl

/-- Of columns with different names each owns its own constraints alone. -/
theorem constraintsOn_columns {cs : List ColumnSpec} (hnodup : (cs.map ColumnSpec.name).Nodup)
    {c : ColumnSpec} (hc : c ∈ cs) :
    constraintsOn c.name (cs.flatMap fun d => (Entry.column d).owned) =
      c.constraints.map InlineConstraint.constraint := by
  have hself : ∀ d : ColumnSpec, constraintsOn d.name (Entry.column d).owned =
      d.constraints.map InlineConstraint.constraint := by
    intro d
    rw [constraintsOn, Entry.owned, List.filter_eq_self.2, List.map_map]
    · rfl
    · intro o ho
      rcases List.mem_map.1 ho with ⟨constraint, -, rfl⟩
      exact decide_eq_true rfl
  have hother : ∀ {d : ColumnSpec} {name : String}, d.name ≠ name →
      constraintsOn name (Entry.column d).owned = [] := by
    intro d name hne
    rw [constraintsOn, Entry.owned, List.filter_eq_nil_iff.2]
    · rfl
    · intro o ho
      rcases List.mem_map.1 ho with ⟨constraint, -, rfl⟩
      exact fun heq => hne (of_decide_eq_true heq)
  induction cs with
  | nil => exact absurd hc List.not_mem_nil
  | cons d cs ih =>
      rw [List.map_cons, List.nodup_cons] at hnodup
      rw [List.flatMap_cons, constraintsOn_append]
      rcases List.mem_cons.1 hc with rfl | hc
      · -- The column is the first one, and no later one has its name.
        have hrest : constraintsOn c.name (cs.flatMap fun d => (Entry.column d).owned) = [] := by
          rw [constraintsOn, List.filter_flatMap, List.flatMap_eq_nil_iff.2]
          · rfl
          · intro d hd
            have hne : d.name ≠ c.name := fun heq =>
              hnodup.1 (heq ▸ List.mem_map_of_mem hd)
            exact List.map_eq_nil_iff.1 (hother hne)
        rw [hself, hrest, List.append_nil]
      · have hne : d.name ≠ c.name := fun heq => hnodup.1 (heq ▸ List.mem_map_of_mem hc)
        rw [hother hne, ih hnodup.2 hc, List.nil_append]

theorem constraintsOn_keys (name : String) (ks : List KeySpec) :
    constraintsOn name (ks.flatMap fun k => (Entry.key k).owned) =
      ks.flatMap fun k => k.constraintsOn name := by
  induction ks with
  | nil => rfl
  | cons k ks ih =>
      have hself : constraintsOn name (Entry.key k).owned = k.constraintsOn name := by
        rw [constraintsOn, Entry.owned, List.filter_map, List.map_map]
        rfl
      rw [List.flatMap_cons, constraintsOn_append, ih, hself, List.flatMap_cons]

namespace TableSpec

variable (s : TableSpec)

/-- The constraints on a column are its own, and those of the keys behind. -/
theorem constraintsOn_owned {c : ColumnSpec} (hc : c ∈ s.columns) :
    constraintsOn c.name (s.entries.flatMap Entry.owned) = (s.column c).constraints := by
  rw [entries, List.flatMap_append, List.flatMap_map, List.flatMap_map, constraintsOn_append,
    constraintsOn_columns s.distinct hc, constraintsOn_keys]
  rfl

/-- A column as it is read back where something else is done to it. -/
def columnFor (s : TableSpec) (action : Action) (c : ColumnSpec) : Column :=
  { s.column c with action := action }

theorem Defines.definedColumns_eq {s : TableSpec} {leaves front body back : List Leaf}
    (h : s.Defines leaves front body back) (action : Action) :
    definedColumns action leaves = .ok (s.columns.map (s.columnFor action)) := by
  have hcolumns : (s.columns.map fun c => c.typed action).map
      (fun c => c.constrained (s.entries.flatMap Entry.owned)) =
        s.columns.map (s.columnFor action) := by
    rw [List.map_map]
    refine List.map_congr_left fun c hc => ?_
    have hconstraints := s.constraintsOn_owned hc
    simp only [Function.comp, Column.constrained, ColumnSpec.typed, Option.map_some,
      Option.getD_some, hconstraints]
    rfl
  simp only [definedColumns, h.owned_eq, h.gather_eq, hcolumns]

/-- A statement that is read with its definitions is about the table of its
    entries. -/
theorem Defines.extract_eq {s : TableSpec} {root : Group} {front body back : List Leaf}
    (h : s.Defines root.leaves front body back) {c : Command} {table action : Action}
    (hc : c.extraction = .table ⟨table, some action, true, false⟩) :
    c.extract root = .ok (.table ⟨s.name, table, s.columns.map (s.columnFor action), none⟩) := by
  rw [Command.extract, hc, Extraction.run, map_eq_ok]
  exact ⟨_, tableOf_eq_ok_iff.2
    ⟨s.name, _, none, h.target_eq, h.definedColumns_eq action, rfl, rfl⟩, rfl⟩

theorem classify_creation (spelling : Spelling s.name) :
    classify (Token.spell (Nested.tokensOf (s.creation spelling))) = .ok (.table s.table) := by
  rcases s.chunk_creation spelling with ⟨ts, htokens, hchunk⟩
  rcases s.defines_creation spelling with ⟨front, body, back, hdefines⟩
  have hcommand : Command.ofTag? (normalizeTag (commandTag (s.creationTree spelling))) =
      some .createTable := by
    rw [commandTag, show (s.creationTree spelling).keywords = [.create, .table] from rfl]
    decide +kernel
  rw [classify_spell htokens (s.plain_creation spelling)
    (Token.word_ofKeyword true (by decide) (by decide)) hchunk, s.rootNodes_creation]
  simp only [classifyTree, hcommand]
  exact hdefines.extract_eq rfl

end TableSpec

/-- A table definition is read back: a column for each definition, in their
    order, each with its type, its own constraints, and those of the keys that
    list it. -/
theorem createTable_roundTrip (s : TableSpec) : classify s.text = .ok (.table s.table) :=
  s.classify_creation .quoted

/-- The text of a definition with a quote in a name, a size, a signed default
    and a key. -/
example : TableSpec.text ⟨"t",
    [⟨"id", .builtin "int" (by decide +kernel), [.key .primary]⟩,
      ⟨"a\"b", .call "decimal" (by decide +kernel) (by decide +kernel)
        [⟨['1', '0'], List.cons_ne_nil _ _, List.all_eq_true.1 rfl⟩,
          ⟨['2'], List.cons_ne_nil _ _, List.all_eq_true.1 rfl⟩],
        [.notNull, .default (.signed true
          ⟨['1'], List.cons_ne_nil _ _, List.all_eq_true.1 rfl⟩)]⟩],
    [⟨.unique, ["id", "a\"b"]⟩], by simp only [ne_eq, reduceCtorEq, not_false_eq_true],
    by decide, by decide⟩ =
      "CREATE TABLE \"t\" (\"id\" int PRIMARY KEY, \"a\"\"b\" decimal(10, 2) NOT NULL " ++
        "DEFAULT -1, UNIQUE (\"id\", \"a\"\"b\"))" := by
  decide +kernel

end SqlGist
