import SqlGist.Proofs.Definitions.Leaves

/-!
# Gathering Definitions

What the leaves of an entry add to the columns gathered so far. A definition
adds one column with its type, if there is none of that name; a key adds
nothing, if all its columns are there. Behind a whole list of definitions and
keys the columns are therefore the defined ones, in their order.

## Main definitions

* `ColumnSpec.typed`: A column as it is gathered.

## Theorems

* `gatherFrom_column`: A definition adds its column.
* `gatherFrom_known`: Names of known columns add nothing.
* `gatherFrom_key`: A key adds nothing.
* `gatherFrom_columns`, `gatherFrom_keys`: Definitions and keys behind others.
* `gatherFrom_body`: All columns of a table.
-/

namespace SqlGist

/-- A defined column before its constraints are known. -/
def ColumnSpec.typed (c : ColumnSpec) (action : Action) : Column :=
  ⟨some c.name, action, some c.type.columnType.name, c.type.columnType.size, [], none⟩

/-- Names of columns that are known add nothing, and neither do leaves that are
    neither names nor types. -/
theorem gatherFrom_known {columns : List Column} {leaves : List Leaf} (action : Action)
    (h : ∀ l ∈ leaves, l.isColumn = true ∧ some l.value ∈ columns.map Column.name ∨ l.Quiet)
    (current : Option String) :
    ∃ last, gatherFrom true action ⟨columns, current⟩ leaves = .ok ⟨columns, last⟩ := by
  induction leaves generalizing current with
  | nil => exact ⟨current, rfl⟩
  | cons l leaves ih =>
      have hrest := ih fun m hm => h m (List.mem_cons_of_mem _ hm)
      rcases h l List.mem_cons_self with ⟨hcolumn, hmem⟩ | ⟨hcolumn, htype⟩
      -- A known name only becomes the current one.
      · rcases List.mem_map.1 hmem with ⟨c, hc, hname⟩
        have hknown : (Gathered.column? ⟨columns, current⟩ l.value).isSome = true :=
          List.find?_isSome.2 ⟨c, hc, decide_eq_true hname⟩
        rcases hrest (some l.value) with ⟨last, hlast⟩
        refine ⟨last, ?_⟩
        rw [gatherFrom, Gathered.read, if_pos hcolumn, Gathered.mention_known hknown]
        exact hlast
      · rcases hrest current with ⟨last, hlast⟩
        refine ⟨last, ?_⟩
        rw [gatherFrom, Gathered.read, hcolumn, htype]
        exact hlast

section Level

variable {g : Group} {path : List Frame} (houtside : g.Outside path)

include houtside

/-- A definition adds its column, with its type, if the name is new. -/
theorem gatherFrom_column {columns : List Column} {c : ColumnSpec} {index : Nat}
    (hcolumn : Frame.holdsColumn ⟨g, index⟩ = true) (action : Action)
    (hfresh : some c.name ∉ columns.map Column.name) (current : Option String) :
    gatherFrom true action ⟨columns, current⟩ (Node.leavesFrom g path index c.tree) =
      .ok ⟨columns ++ [c.typed action], some c.name⟩ := by
  have hnone : ∀ current, Gathered.column? ⟨columns, current⟩ c.name = none := by
    intro current
    refine List.find?_eq_none.2 fun d hd hname => hfresh ?_
    rw [decide_eq_true_eq] at hname
    rw [← hname]
    exact List.mem_map_of_mem hd
  have hleaves : Node.leavesFrom g path index c.tree = nameLeaf g path index c.name ::
      ⟨.space, ⟨g, index + 1⟩ :: path⟩ :: (c.type.node.leaves (⟨g, index + 1 + 1⟩ :: path) ++
        Node.leavesFrom g path (index + 1 + 1 + 1) (Nested.nodes (Nested.spaced c.words))) := rfl
  have hname : Gathered.read true action ⟨columns, current⟩ (nameLeaf g path index c.name) =
      .ok ⟨columns ++ [Column.named c.name action], some c.name⟩ := by
    rw [Gathered.read, if_pos (isColumn_nameLeaf houtside hcolumn c.name), value_nameLeaf,
      Gathered.mention_fresh (hnone current)]
  have hspace : ∀ g' : Gathered, Gathered.read true action g'
      ⟨.space, ⟨g, index + 1⟩ :: path⟩ = .ok g' := fun _ => rfl
  have hquiet := quiet_spaced c.kind_words g path (index + 1 + 1 + 1)
  -- The name adds the column, the type goes to it, and the words add nothing.
  rw [hleaves, gatherFrom, hname]
  simp only
  rw [gatherFrom, hspace]
  simp only
  rw [gatherFrom_append (TypeSpec.gatherFrom_type c.type _ action
    (Gathered.declare_fresh (hnone none) action c.type.columnType))]
  exact gatherFrom_quiet hquiet

/-- A key adds nothing, if its columns are known. -/
theorem gatherFrom_key {columns : List Column} {k : KeySpec}
    (hknown : ∀ name ∈ k.columns, some name ∈ columns.map Column.name) (action : Action)
    (index : Nat) (current : Option String) :
    ∃ last, gatherFrom true action ⟨columns, current⟩ (Node.leavesFrom g path index k.tree) =
      .ok ⟨columns, last⟩ := by
  have hwords : ∀ t ∈ Token.space :: k.kind.opening :: k.kind.behind,
      t.isName = false ∧ t.kind ≠ .builtin := by
    intro t ht
    rcases List.mem_cons.1 ht with rfl | ht
    · exact ⟨rfl, TokenKind.noConfusion⟩
    · have hkind := Token.of_mem_wordKinds (k.kind.kind_words t ht)
      exact ⟨hkind.1, hkind.2.2.1⟩
  -- Every leaf of the key is one of its words, or stands in its list.
  refine gatherFrom_known action (fun l hl => ?_) current
  rcases Node.mem_leavesFrom hl with ⟨n, hn, place, hl⟩
  rcases k.mem_tree hn with ⟨t, ht, rfl⟩ | rfl
  · rw [List.mem_singleton.1 hl]
    exact Or.inr (Leaf.quiet_of_kind (hwords t ht).1 (hwords t ht).2)
  · rcases leaves_names k.columns (houtside.frames place) with
      ⟨children, inner, -, hleaves, -, hinner⟩
    rw [KeySpec.listNode, hleaves] at hl
    rcases List.mem_cons.1 hl with rfl | hl
    · exact Or.inr ⟨rfl, rfl⟩
    · rcases hinner l hl with ⟨hcolumn, hvalue⟩ | hquiet
      · exact Or.inl ⟨hcolumn, hknown _ hvalue⟩
      · exact Or.inr hquiet

omit houtside in
/-- A comma between entries adds nothing. -/
theorem gatherFrom_comma (action : Action) (state : Gathered) (index : Nat) (ns : List Node) :
    gatherFrom true action state (Node.leavesFrom g path index (Node.comma ++ ns)) =
      gatherFrom true action state (Node.leavesFrom g path (index + 1 + 1) ns) := rfl

variable (hcolumn : ∀ place, Frame.holdsColumn ⟨g, place⟩ = true)

include hcolumn

/-- Definitions add their columns in order, if no name comes twice. -/
theorem gatherFrom_columns (action : Action) {columns : List Column} {cs : List ColumnSpec}
    (hnodup : (columns.map Column.name ++ cs.map fun c => some c.name).Nodup) (index : Nat)
    (current : Option String) :
    ∃ last, gatherFrom true action ⟨columns, current⟩ (Node.leavesFrom g path index
        ((cs.map ColumnSpec.tree).flatMap fun part => Node.comma ++ part)) =
      .ok ⟨columns ++ cs.map fun c => c.typed action, last⟩ := by
  induction cs generalizing columns index current with
  | nil =>
      have hnil : columns ++ ([] : List ColumnSpec).map (fun c => c.typed action) = columns :=
        List.append_nil columns
      rw [hnil]
      exact ⟨current, rfl⟩
  | cons c cs ih =>
      -- The names stay apart when the first of them moves to the columns.
      have hfresh : some c.name ∉ columns.map Column.name := by
        intro hmem
        exact (List.nodup_append.1 hnodup).2.2 _ hmem _ List.mem_cons_self rfl
      have hrest : ((columns ++ [c.typed action]).map Column.name ++
          cs.map fun c => some c.name).Nodup := by
        rw [List.map_append, List.append_assoc]
        exact hnodup
      have hadd := gatherFrom_column houtside (hcolumn (index + 1 + 1)) action hfresh current
      rcases ih hrest (index + 1 + 1 + c.tree.length) (some c.name) with ⟨last, hlast⟩
      refine ⟨last, ?_⟩
      rw [List.map_cons, List.flatMap_cons, List.append_assoc, gatherFrom_comma,
        Node.leavesFrom_append, gatherFrom_append hadd, hlast, List.append_assoc]
      rfl

omit hcolumn in
/-- Keys over known columns add nothing. -/
theorem gatherFrom_keys (action : Action) {columns : List Column} {ks : List KeySpec}
    (hknown : ∀ k ∈ ks, ∀ name ∈ k.columns, some name ∈ columns.map Column.name) (index : Nat)
    (current : Option String) :
    ∃ last, gatherFrom true action ⟨columns, current⟩ (Node.leavesFrom g path index
        ((ks.map KeySpec.tree).flatMap fun part => Node.comma ++ part)) =
      .ok ⟨columns, last⟩ := by
  induction ks generalizing index current with
  | nil => exact ⟨current, rfl⟩
  | cons k ks ih =>
      rcases gatherFrom_key houtside (hknown k List.mem_cons_self) action (index + 1 + 1) current
        with ⟨middle, hmiddle⟩
      rcases ih (fun j hj => hknown j (List.mem_cons_of_mem _ hj))
        (index + 1 + 1 + k.tree.length) middle with ⟨last, hlast⟩
      refine ⟨last, ?_⟩
      rw [List.map_cons, List.flatMap_cons, List.append_assoc, gatherFrom_comma,
        Node.leavesFrom_append, gatherFrom_append hmiddle, hlast]

/-- Behind definitions and keys the columns are the defined ones. -/
theorem gatherFrom_body (action : Action) {cs : List ColumnSpec} {ks : List KeySpec}
    (hne : cs ≠ []) (hnodup : (cs.map ColumnSpec.name).Nodup)
    (hdeclared : ∀ k ∈ ks, ∀ name ∈ k.columns, name ∈ cs.map ColumnSpec.name) (index : Nat) :
    ∃ last, gatherFrom true action ⟨[], none⟩ (Node.leavesFrom g path index
        (Node.commas (cs.map ColumnSpec.tree ++ ks.map KeySpec.tree))) =
      .ok ⟨cs.map fun c => c.typed action, last⟩ := by
  rcases List.exists_cons_of_ne_nil hne with ⟨c, cs, rfl⟩
  have hfirst := gatherFrom_column houtside (hcolumn index) action
    (show some c.name ∉ List.map Column.name [] from List.not_mem_nil) none
  have hsome : ([c.typed action].map Column.name ++ cs.map fun c => some c.name).Nodup := by
    have hmap : (((c :: cs).map ColumnSpec.name).map some).Nodup :=
      List.Pairwise.map some (fun _ _ hne heq => hne (Option.some.inj heq)) hnodup
    rw [List.map_map] at hmap
    exact hmap
  -- The other definitions come behind the first one, the keys behind them all.
  rcases gatherFrom_columns houtside hcolumn action hsome (index + c.tree.length) (some c.name)
    with ⟨middle, hmiddle⟩
  have hnames : ([c.typed action] ++ cs.map fun c => c.typed action).map Column.name =
      ((c :: cs).map ColumnSpec.name).map some := by
    rw [List.map_append, List.map_map, List.map_map]
    rfl
  have hknown : ∀ k ∈ ks, ∀ name ∈ k.columns,
      some name ∈ ([c.typed action] ++ cs.map fun c => c.typed action).map Column.name := by
    intro k hk name hname
    rw [hnames]
    exact List.mem_map_of_mem (hdeclared k hk name hname)
  rcases gatherFrom_keys houtside action hknown _ middle with ⟨last, hlast⟩
  refine ⟨last, ?_⟩
  rw [List.map_cons, List.cons_append, Node.commas_cons, List.flatMap_append,
    Node.leavesFrom_append, gatherFrom_append hfirst, Node.leavesFrom_append, List.nil_append,
    gatherFrom_append hmiddle, hlast]
  rfl

end Level

end SqlGist
