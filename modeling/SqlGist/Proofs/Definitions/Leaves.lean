import SqlGist.Proofs.Definitions.Types
import SqlGist.Proofs.Extraction.Scanning

/-!
# The Leaves of a Definition

What the leaves of an entry are, one part at a time. A name in a list is a
column, the words behind a type are nothing of the kind, and a type declares
itself with its first leaf.

A comma list in parentheses has two shapes, and its parts stand at different
depths in them. `leaves_enclosed` is the one place where the two are told apart:
in either case the parts stand side by side in one group that holds columns, and
the closing parenthesis is no deeper than they are.

## Main definitions

* `nameLeaf`: The leaf of a quoted name.
* `Node.Harmless`: A node that keeps no name beside it from being a column.
* `Node.Readable`: The same, and no constraint in it fails for its kind.

## Theorems

* `isColumn_nameLeaf`, `value_nameLeaf`: A name in a list is a column.
* `gatherFrom_type`: A type declares itself.
* `leaves_enclosed`: The leaves of a comma list in parentheses.
* `columns_nameTrees`, `leaves_names`: The columns among listed names.
* `readable_tree`: The nodes of an entry can be read.
-/

namespace SqlGist

/-- The leaf of a quoted name that is the child of `g` at a place. -/
def nameLeaf (g : Group) (path : List Frame) (index : Nat) (name : String) : Leaf :=
  ⟨.quotedName name, ⟨⟨.nameRef, [.leaf (.quotedName name)]⟩, 0⟩ :: ⟨g, index⟩ :: path⟩

theorem leavesFrom_nameTree (g : Group) (path : List Frame) (index : Nat) (name : String)
    (ns : List Node) :
    Node.leavesFrom g path index (nameTree name ++ ns) =
      nameLeaf g path index name :: Node.leavesFrom g path (index + 1) ns := rfl

theorem value_nameLeaf (g : Group) (path : List Frame) (index : Nat) (name : String) :
    (nameLeaf g path index name).value = name :=
  Token.value_quotedName name

theorem isColumn_nameLeaf {g : Group} {path : List Frame} {index : Nat} (houtside : g.Outside path)
    (hcolumn : Frame.holdsColumn ⟨g, index⟩ = true) (name : String) :
    (nameLeaf g path index name).isColumn = true := by
  have hinner : Group.Outside ⟨.nameRef, [.leaf (.quotedName name)]⟩ (⟨g, index⟩ :: path) :=
    houtside.inner Shape.noConfusion index
  have hwhere : (nameLeaf g path index name).inWhere = false := hinner.inWhere 0 _
  have hparent : (nameLeaf g path index name).ancestorsAre [.nameRef] = true := rfl
  have hframe : (nameLeaf g path index name).ancestor? 1 = some ⟨g, index⟩ := rfl
  rw [Leaf.isColumn, hwhere, hparent, hframe, Option.any_some, hcolumn]
  rfl

/-- What holds of the tokens of some nodes holds of the tokens of their
    leaves. -/
theorem forall_leavesFrom {P : Token → Prop} {ns : List Node} (h : ∀ t ∈ Node.tokensOf ns, P t)
    (g : Group) (path : List Frame) (index : Nat) :
    ∀ l ∈ Node.leavesFrom g path index ns, P l.token := by
  intro l hl
  refine h l.token ?_
  rw [← Node.leavesFrom_tokens g path index ns]
  exact List.mem_map_of_mem hl

theorem forall_leaves {P : Token → Prop} {n : Node} (h : ∀ t ∈ n.tokens, P t)
    (path : List Frame) : ∀ l ∈ n.leaves path, P l.token := by
  intro l hl
  refine h l.token ?_
  rw [← Node.leaves_tokens path n]
  exact List.mem_map_of_mem hl

/-- The tokens that a comma list in parentheses adds to its parts. -/
def listMarks : List Token :=
  [.mark "(", .mark ",", .space, .mark ")"]

namespace Nested

theorem mem_tokensOf_commas {parts : List (List Nested)} {t : Token}
    (h : t ∈ tokensOf (commas parts)) :
    t ∈ [Token.mark ",", .space] ∨ ∃ part ∈ parts, t ∈ tokensOf part := by
  rcases mem_tokensOf.1 h with ⟨item, hitem, ht⟩
  rcases mem_intercalate hitem with hitem | ⟨part, hpart, hitem⟩
  · exact Or.inl (mem_tokensOf.2 ⟨item, hitem, ht⟩)
  · exact Or.inr ⟨part, hpart, mem_tokensOf.2 ⟨item, hitem, ht⟩⟩

theorem mem_tokens_enclosed {parts : List (List Nested)} {t : Token}
    (h : t ∈ (enclosed parts).tokens) :
    t ∈ listMarks ∨ ∃ part ∈ parts, t ∈ tokensOf part := by
  rw [enclosed, tokens, List.mem_cons, List.mem_append] at h
  rcases h with rfl | h | h
  · exact Or.inl List.mem_cons_self
  · rcases mem_tokensOf_commas h with h | h
    · refine Or.inl (List.mem_cons_of_mem _ ?_)
      exact List.mem_append_left [Token.mark ")"] h
    · exact Or.inr h
  · rw [List.mem_singleton.1 h]
    exact Or.inl (by simp only [listMarks, List.mem_cons, true_or, or_true])

end Nested

theorem leavesFrom_spaced_cons (g : Group) (path : List Frame) (index : Nat) (t : Token)
    (ts : List Token) :
    Node.leavesFrom g path index (Nested.nodes (Nested.spaced (t :: ts))) =
      ⟨.space, ⟨g, index⟩ :: path⟩ :: ⟨t, ⟨g, index + 1⟩ :: path⟩ ::
        Node.leavesFrom g path (index + 1 + 1) (Nested.nodes (Nested.spaced ts)) := by
  rw [nodes_spaced_cons]
  rfl

/-- Words of a definition neither name a column nor declare a type. -/
theorem quiet_spaced {ts : List Token} (h : ∀ t ∈ ts, t.kind ∈ wordKinds) (g : Group)
    (path : List Frame) (index : Nat) :
    ∀ l ∈ Node.leavesFrom g path index (Nested.nodes (Nested.spaced ts)),
      l.Quiet := by
  have htokens : ∀ t ∈ Node.tokensOf (Nested.nodes (Nested.spaced ts)),
      t.isName = false ∧ t.kind ≠ .builtin := by
    intro t ht
    rw [Nested.nodes_tokens, Nested.tokensOf_spaced, List.mem_flatMap] at ht
    rcases ht with ⟨u, hu, ht⟩
    simp only [List.mem_cons, List.not_mem_nil, or_false] at ht
    rcases ht with rfl | rfl
    · exact ⟨rfl, TokenKind.noConfusion⟩
    · have hkind := Token.of_mem_wordKinds (h t hu)
      exact ⟨hkind.1, hkind.2.2.1⟩
  intro l hl
  have hl := forall_leavesFrom htokens g path index l hl
  exact Leaf.quiet_of_kind hl.1 hl.2

namespace Gathered

theorem mention_fresh {g : Gathered} {name : String} (h : g.column? name = none)
    (action : Action) :
    g.mention action name = ⟨g.columns ++ [Column.named name action], some name⟩ := by
  rw [mention, h]

theorem mention_known {g : Gathered} {name : String} (h : (g.column? name).isSome = true)
    (action : Action) : g.mention action name = ⟨g.columns, some name⟩ := by
  rcases Option.isSome_iff_exists.1 h with ⟨c, hc⟩
  rw [mention, hc]

/-- A type goes to the column that was added last. -/
theorem declare_fresh {columns : List Column} {name : String}
    (h : Gathered.column? ⟨columns, none⟩ name = none) (action : Action) (type : ColumnType) :
    Gathered.declare ⟨columns ++ [Column.named name action], some name⟩ type =
      .ok ⟨columns ++ [⟨some name, action, some type.name, type.size, [], none⟩], some name⟩ := by
  have hother : ∀ c ∈ columns, c.name ≠ some name := by
    intro c hc
    have hc := List.find?_eq_none.1 h c hc
    rwa [decide_eq_true_eq] at hc
  have hfind : Gathered.column? ⟨columns ++ [Column.named name action], some name⟩ name =
      some (Column.named name action) := by
    rw [column?, List.find?_append, show (columns.find? fun c => c.name = some name) = none from h]
    simp only [Option.none_or, Column.named, List.find?_cons, decide_true]
  -- No other column has the name, so the type is set on the last one alone.
  have hmap : (columns.map fun c => if c.name = some name then
      { c with typeName := some type.name, size := type.size } else c) = columns := by
    rw [List.map_congr_left fun c hc => if_neg (hother c hc), List.map_id']
  have htype : (Column.named name action).typeName = none := rfl
  simp only [declare, hfind, Option.bind_some, htype, setType, List.map_append, hmap]
  simp only [Column.named, List.map_cons, List.map_nil, if_true]

end Gathered

namespace TypeSpec

/-- The tokens of a type are no keywords, and those in its parentheses are
    quiet. -/
theorem tokens_arguments (numerals : List Numeral) :
    ∀ t ∈ (arguments numerals).tokens,
      t.isName = false ∧ t.kind ≠ .builtin ∧ t.keyword? = none := by
  have hmarks : ∀ t ∈ listMarks, t.isName = false ∧ t.kind ≠ .builtin ∧ t.keyword? = none := by
    decide
  intro t ht
  rcases Nested.mem_tokens_enclosed ht with ht | ⟨part, hpart, ht⟩
  · exact hmarks t ht
  · rcases List.mem_map.1 hpart with ⟨n, -, rfl⟩
    rw [Nested.tokensOf, Nested.tokens, Nested.tokensOf, List.append_nil,
      List.mem_singleton] at ht
    rw [ht]
    exact ⟨rfl, TokenKind.noConfusion, rfl⟩

theorem keyword?_leaves (t : TypeSpec) (path : List Frame) :
    ∀ l ∈ t.node.leaves path, l.keyword? = none := by
  refine forall_leaves (P := fun u => u.keyword? = none) ?_ path
  cases t with
  | builtin word h =>
      intro u hu
      rw [List.mem_singleton.1 hu]
      rfl
  | call name hbare hk numerals =>
      intro u hu
      rw [node, Node.tokens, Node.tokensOf, List.mem_append] at hu
      rcases hu with hu | hu
      · rw [List.mem_singleton.1 hu]
        rfl
      · rw [Node.tokensOf, Node.tokensOf, List.append_nil, Nested.node_tokens] at hu
        exact (tokens_arguments numerals u hu).2.2

/-- The first leaf of a type is one, and the others add nothing. -/
theorem leaves_node (t : TypeSpec) (path : List Frame) :
    ∃ first rest, t.node.leaves path = first :: rest ∧ first.isColumn = false ∧
      first.isType = true ∧ first.columnType? = some t.columnType ∧
        ∀ l ∈ rest, l.Quiet := by
  cases t with
  | builtin word h =>
      exact ⟨_, [], rfl, rfl, rfl, rfl, fun l hl => absurd hl List.not_mem_nil⟩
  | call name hbare hk numerals =>
      refine ⟨_, _, rfl, ?_, rfl, ?_, ?_⟩
      · -- The name of a call is no column, whatever stands around the call.
        rw [Leaf.isColumn]
        simp only [Leaf.ancestor?, List.getElem?_cons_succ, List.getElem?_cons_zero,
          Option.any_some, Frame.holdsColumn, Frame.shape, Bool.and_false]
      · exact ofCall?_node name hbare hk numerals
      · intro l hl
        have htokens : ∀ u ∈ Node.tokensOf [(arguments numerals).node false],
            u.isName = false ∧ u.kind ≠ .builtin := by
          intro u hu
          rw [Node.tokensOf, Node.tokensOf, List.append_nil, Nested.node_tokens] at hu
          have hu := tokens_arguments numerals u hu
          exact ⟨hu.1, hu.2.1⟩
        have hl := forall_leavesFrom htokens _ _ _ l hl
        exact Leaf.quiet_of_kind hl.1 hl.2

theorem isColumn_leaves (t : TypeSpec) (path : List Frame) :
    ∀ l ∈ t.node.leaves path, l.isColumn = false := by
  rcases leaves_node t path with ⟨first, rest, hleaves, hcolumn, -, -, hrest⟩
  intro l hl
  rw [hleaves] at hl
  rcases List.mem_cons.1 hl with rfl | hl
  · exact hcolumn
  · exact (hrest l hl).1

/-- A type declares itself, and nothing more. -/
theorem gatherFrom_type (t : TypeSpec) (path : List Frame) (action : Action) {g g' : Gathered}
    (h : g.declare t.columnType = .ok g') :
    gatherFrom true action g (t.node.leaves path) = .ok g' := by
  rcases leaves_node t path with ⟨first, rest, hleaves, hcolumn, htype, htypeOf, hrest⟩
  have hread : g.read true action first = .ok g' := by
    rw [Gathered.read, hcolumn, htype, htypeOf]
    exact h
  rw [hleaves, gatherFrom, hread]
  exact gatherFrom_quiet hrest

end TypeSpec

/-- A node that keeps no name beside it from being a column. -/
def Node.Harmless (n : Node) : Prop :=
  n.keyword? ≠ some .constraint ∧ n.isMark "." = false

instance : DecidablePred Node.Harmless := fun n =>
  inferInstanceAs (Decidable (n.keyword? ≠ some .constraint ∧ n.isMark "." = false))

/-- In a list or in parentheses every name is a column, if nothing there says
    otherwise. -/
theorem holdsColumn_of_harmless {g : Group} (hshape : g.shape = .parenthesis ∨ g.shape = .nameList)
    (h : ∀ n ∈ g.children, n.Harmless) (index : Nat) :
    Frame.holdsColumn ⟨g, index⟩ = true := by
  -- Both neighbours are among the children.
  have hprev : ((Frame.prev? ⟨g, index⟩).any fun n => n.keyword? = some .constraint) = false := by
    cases hfind : Frame.prev? ⟨g, index⟩ with
    | none => rfl
    | some n =>
        have hn := List.mem_of_mem_take (List.mem_reverse.1 (List.mem_of_find?_eq_some hfind))
        rw [Option.any_some, decide_eq_false (h n hn).1]
  have hnext : ((Frame.next? ⟨g, index⟩).any fun n => n.isMark ".") = false := by
    cases hfind : Frame.next? ⟨g, index⟩ with
    | none => rfl
    | some n => exact (h n (List.mem_of_mem_drop (List.mem_of_find?_eq_some hfind))).2
  rw [Frame.holdsColumn, hprev, hnext]
  rcases hshape with hshape | hshape <;> simp only [Frame.shape, hshape, Bool.not_false,
    Bool.and_self]

/-- The leaves of a comma list in parentheses. The parts stand in one group that
    holds columns, and the closing parenthesis is no deeper than they are. -/
theorem leaves_enclosed {parts : List (List Node)} {path : List Frame}
    (hparts : ∀ part ∈ parts, ∀ n ∈ part, n.Harmless)
    (hpath : ∀ f ∈ path, f.shape ≠ .whereClause) :
    ∃ g inner index closing, Group.Outside g inner ∧
      (∀ place, Frame.holdsColumn ⟨g, place⟩ = true) ∧
      (∃ children, Node.enclosed parts = .group .parenthesis children ∧
        (Node.enclosed parts).leaves path =
          ⟨.mark "(", ⟨⟨.parenthesis, children⟩, 0⟩ :: path⟩ ::
            (Node.leavesFrom g inner index (Node.commas parts) ++ [closing])) ∧
      closing.token = .mark ")" ∧ closing.path.length ≤ inner.length + 1 := by
  have hmarks : Node.Harmless (.leaf (.mark "(")) ∧ Node.Harmless (.leaf (.mark ")")) := by
    decide
  have hitems : ∀ n ∈ Node.commas parts, n.Harmless := by
    have hcomma : ∀ n ∈ Node.comma, n.Harmless := by decide
    intro n hn
    rcases mem_intercalate hn with hn | ⟨part, hpart, hn⟩
    · exact hcomma n hn
    · exact hparts part hpart n hn
  by_cases hlist : Node.listed parts = Node.commas parts
  · -- The parts stand between the parentheses themselves.
    rw [Node.enclosed, hlist]
    have hleaves := fun g => Node.leavesFrom_append g path 1 (Node.commas parts)
      [.leaf (.mark ")")]
    refine ⟨_, path, 1, ⟨.mark ")", ⟨_, 1 + (Node.commas parts).length⟩ :: path⟩,
      ⟨Shape.noConfusion, hpath⟩, ?_, ⟨_, rfl, congrArg (_ :: ·) (hleaves _)⟩, rfl,
      Nat.le_refl _⟩
    refine holdsColumn_of_harmless (Or.inl rfl) fun n hn => ?_
    rcases List.mem_cons.1 hn with rfl | hn
    · exact hmarks.1
    · rcases List.mem_append.1 hn with hn | hn
      · exact hitems n hn
      · rw [List.mem_singleton.1 hn]
        exact hmarks.2
  · -- A group of its own holds the parts between the parentheses.
    have hgroup : Node.listed parts = [.group .nameList (Node.commas parts)] := by
      cases parts with
      | nil => exact absurd rfl hlist
      | cons first rest =>
          cases rest with
          | nil => exact absurd List.intercalate_singleton.symm hlist
          | cons second rest => rfl
    rw [Node.enclosed, hgroup]
    refine ⟨⟨.nameList, Node.commas parts⟩, ⟨_, 1⟩ :: path, 0, _,
      Group.Outside.inner ⟨Shape.noConfusion, hpath⟩ Shape.noConfusion 1,
      holdsColumn_of_harmless (Or.inr rfl) hitems, ⟨_, rfl, rfl⟩, rfl, ?_⟩
    simp only [List.length_cons]
    omega

section Names

variable {g : Group} {path : List Frame} (houtside : g.Outside path)
  (hcolumn : ∀ place, Frame.holdsColumn ⟨g, place⟩ = true)

include houtside hcolumn

theorem columns_nameTreesBehind (names : List String) (index : Nat) :
    ((Node.leavesFrom g path index ((names.map nameTree).flatMap fun part =>
      Node.comma ++ part)).filter Leaf.isColumn).map Leaf.value = names := by
  induction names generalizing index with
  | nil => rfl
  | cons name names ih =>
      have hname := isColumn_nameLeaf houtside (hcolumn (index + 1 + 1)) name
      have hcomma : ¬Leaf.isColumn ⟨.mark ",", ⟨g, index⟩ :: path⟩ = true := Bool.false_ne_true
      have hspace : ¬Leaf.isColumn ⟨.space, ⟨g, index + 1⟩ :: path⟩ = true := Bool.false_ne_true
      have hleaves : Node.leavesFrom g path index (((name :: names).map nameTree).flatMap
          fun part => Node.comma ++ part) =
            ⟨.mark ",", ⟨g, index⟩ :: path⟩ :: ⟨.space, ⟨g, index + 1⟩ :: path⟩ ::
              nameLeaf g path (index + 1 + 1) name ::
                Node.leavesFrom g path (index + 1 + 1 + 1)
                  ((names.map nameTree).flatMap fun part => Node.comma ++ part) := rfl
      rw [hleaves, List.filter_cons_of_neg hcomma, List.filter_cons_of_neg hspace,
        List.filter_cons_of_pos hname, List.map_cons, ih, value_nameLeaf]

/-- The columns among listed names are these names. -/
theorem columns_nameTrees (names : List String) (index : Nat) :
    ((Node.leavesFrom g path index (Node.commas (names.map nameTree))).filter
      Leaf.isColumn).map Leaf.value = names := by
  cases names with
  | nil => rfl
  | cons name names =>
      have hname := isColumn_nameLeaf houtside (hcolumn index) name
      rw [List.map_cons, Node.commas_cons, leavesFrom_nameTree, List.filter_cons_of_pos hname,
        List.map_cons, columns_nameTreesBehind houtside hcolumn, value_nameLeaf]

/-- A name in a list is a column, and what stands between the names is not. -/
theorem known_nameTrees (names : List String) (index : Nat) :
    ∀ l ∈ Node.leavesFrom g path index (Node.commas (names.map nameTree)),
      l.isColumn = true ∧ l.value ∈ names ∨ l.Quiet := by
  intro l hl
  rcases Node.mem_leavesFrom hl with ⟨n, hn, place, hl⟩
  rcases mem_intercalate hn with hn | ⟨part, hpart, hn⟩
  · simp only [Node.comma, List.mem_cons, List.not_mem_nil, or_false] at hn
    rcases hn with rfl | rfl
    · rw [List.mem_singleton.1 hl]
      exact Or.inr ⟨rfl, rfl⟩
    · rw [List.mem_singleton.1 hl]
      exact Or.inr ⟨rfl, rfl⟩
  · rcases List.mem_map.1 hpart with ⟨name, hname, rfl⟩
    rw [List.mem_singleton.1 hn] at hl
    have hleaf : l = nameLeaf g path place name := List.mem_singleton.1 hl
    rw [hleaf]
    refine Or.inl ⟨isColumn_nameLeaf houtside (hcolumn place) name, ?_⟩
    rw [value_nameLeaf]
    exact hname

end Names

theorem harmless_nameTrees (names : List String) :
    ∀ part ∈ names.map nameTree, ∀ n ∈ part, n.Harmless := by
  intro part hpart n hn
  rcases List.mem_map.1 hpart with ⟨name, -, rfl⟩
  rw [List.mem_singleton.1 hn]
  exact ⟨fun h => Option.some_ne_none _ h.symm, rfl⟩

/-- The leaves of listed names in parentheses. -/
theorem leaves_names (names : List String) {path : List Frame}
    (hpath : ∀ f ∈ path, f.shape ≠ .whereClause) :
    ∃ children inner, Node.enclosed (names.map nameTree) = .group .parenthesis children ∧
      (Node.enclosed (names.map nameTree)).leaves path =
        ⟨.mark "(", ⟨⟨.parenthesis, children⟩, 0⟩ :: path⟩ :: inner ∧
      (inner.filter Leaf.isColumn).map Leaf.value = names ∧
      ∀ l ∈ inner, l.isColumn = true ∧ l.value ∈ names ∨ l.Quiet := by
  rcases leaves_enclosed (harmless_nameTrees names) hpath with
    ⟨g, inner, index, closing, houtside, hcolumn, ⟨children, hnode, hleaves⟩, hclosing, -⟩
  have hquiet : closing.Quiet := by
    refine Leaf.quiet_of_kind ?_ ?_ <;> rw [hclosing]
    · rfl
    · exact TokenKind.noConfusion
  refine ⟨children, _, hnode, hleaves, ?_, ?_⟩
  · rw [List.filter_append, List.map_append, columns_nameTrees houtside hcolumn,
      List.filter_cons_of_neg (Bool.eq_false_iff.1 hquiet.1)]
    exact List.append_nil names
  · intro l hl
    rcases List.mem_append.1 hl with hl | hl
    · exact known_nameTrees houtside hcolumn names index l hl
    · rw [List.mem_singleton.1 hl]
      exact Or.inr hquiet

theorem KeySpec.keyword?_listNode (k : KeySpec) (path : List Frame) :
    ∀ l ∈ k.listNode.leaves path, l.keyword? = none := by
  have hmarks : ∀ t ∈ listMarks, t.keyword? = none := by decide
  refine forall_leaves (P := fun t => t.keyword? = none) ?_ path
  intro t ht
  rw [← k.node_list, Nested.node_tokens] at ht
  rcases Nested.mem_tokens_enclosed ht with ht | ⟨part, hpart, ht⟩
  · exact hmarks t ht
  · rcases List.mem_map.1 hpart with ⟨name, -, rfl⟩
    rw [List.mem_singleton.1 ht]
    rfl

/-- Nothing in a node keeps a name beside it from being a column, and none of its
    leaves introduces a constraint that cannot be read. -/
structure Node.Readable (n : Node) : Prop where
  harmless : n.Harmless
  leaves : ∀ path, ∀ l ∈ n.leaves path, ∀ k ∈ unreadConstraints, l.keyword? ≠ some k

namespace Node

theorem readable_of_no_keyword {n : Node} (hharmless : n.Harmless)
    (h : ∀ path, ∀ l ∈ n.leaves path, l.keyword? = none) : n.Readable where
  harmless := hharmless
  leaves path l hl k _ hk := by
    rw [h path l hl] at hk
    exact Option.some_ne_none k hk.symm

theorem readable_space : (Node.leaf .space).Readable := by
  refine readable_of_no_keyword (by decide) fun path l hl => ?_
  rw [List.mem_singleton.1 hl]
  rfl

theorem readable_of_mem_wordKinds {t : Token} (h : t.kind ∈ wordKinds) :
    (Node.leaf t).Readable := by
  -- A keyword that gets in the way is of a kind that no such word has.
  have hkinds : ∀ k ∈ Keyword.constraint :: unreadConstraints,
      TokenKind.keyword k ∉ wordKinds := by decide
  have hnone : ∀ k ∈ Keyword.constraint :: unreadConstraints, t.keyword? ≠ some k := by
    intro k hk hkeyword
    refine hkinds k hk ?_
    rw [← Token.kind_of_keyword? hkeyword]
    exact h
  refine ⟨⟨hnone _ List.mem_cons_self, (Token.of_mem_wordKinds h).2.2.2.1 "."⟩, ?_⟩
  intro path l hl k hk
  rw [List.mem_singleton.1 hl]
  exact hnone k (List.mem_cons_of_mem _ hk)

end Node

/-- Every node of an entry can be read. -/
theorem Entry.readable_tree (e : Entry) : ∀ n ∈ e.tree, n.Readable := by
  intro n hn
  cases e with
  | column c =>
      rcases c.mem_tree hn with rfl | rfl | ⟨t, ht, rfl⟩
      · refine Node.readable_of_no_keyword ⟨fun hk => Option.some_ne_none _ hk.symm, rfl⟩ ?_
        intro path l hl
        rw [List.mem_singleton.1 hl]
        rfl
      · refine Node.readable_of_no_keyword ?_ c.type.keyword?_leaves
        cases c.type <;> exact ⟨fun hk => Option.some_ne_none _ hk.symm, rfl⟩
      · rcases List.mem_cons.1 ht with rfl | ht
        · exact Node.readable_space
        · exact Node.readable_of_mem_wordKinds (c.kind_words t ht)
  | key k =>
      rcases k.mem_tree hn with ⟨t, ht, rfl⟩ | rfl
      · rcases List.mem_cons.1 ht with rfl | ht
        · exact Node.readable_space
        · exact Node.readable_of_mem_wordKinds (k.kind.kind_words t ht)
      · exact Node.readable_of_no_keyword ⟨fun hk => Option.some_ne_none _ hk.symm, rfl⟩
          k.keyword?_listNode

/-- The leaves of a key: its words, and behind a space its list. -/
theorem KeySpec.leavesFrom_tree (k : KeySpec) (g : Group) (path : List Frame) (index : Nat) :
    ∃ gap place, Node.leavesFrom g path index k.tree =
      ⟨k.kind.opening, ⟨g, index⟩ :: path⟩ ::
        (Node.leavesFrom g path (index + 1) (Nested.nodes (Nested.spaced k.kind.behind)) ++
          ⟨.space, gap⟩ :: k.listNode.leaves (⟨g, place⟩ :: path)) := by
  rw [tree, Node.leavesFrom, Node.leavesFrom_append, Node.leavesFrom, Node.leavesFrom,
    Node.leavesFrom, List.append_nil]
  exact ⟨_, _, rfl⟩

end SqlGist
