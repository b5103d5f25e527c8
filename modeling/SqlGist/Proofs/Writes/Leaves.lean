import SqlGist.Proofs.Definitions.Leaves
import SqlGist.Proofs.Writes.Lists
import SqlGist.Proofs.Writes.Pairing
import SqlGist.Proofs.Writes.Statements

/-!
# The Leaves of a Change

What the trees of insertions and updates read as. The names of an insertion
stand in one parenthesis and its values in another, so each list adds to one
scan alone. The assignments of an update add to both, one by one.

## Theorems

* `splitItems_commas`: The items of a comma list.
* `reads_nameList`, `reads_tuple`: What stands between parentheses.
* `target_insert`, `target_update`: The table of a change.
* `reads_insert`, `reads_update`: A change reads as its names and values.
-/

namespace SqlGist

/-- The items of a comma list are its parts. -/
theorem splitItems_commas {parts : List (List Node)} (hne : parts ≠ [])
    (h : ∀ part ∈ parts, ∀ n ∈ part, n.isWhitespace = false ∧ n.isMark "," = false) :
    Node.splitItems (Node.commas parts) = parts := by
  induction parts with
  | nil => exact absurd rfl hne
  | cons first rest ih =>
      have hfirst := h first List.mem_cons_self
      have hvisible : Node.visibleOf first = first := by
        refine List.filter_eq_self.2 fun n hn => ?_
        rw [(hfirst n hn).1]
        rfl
      have hmarks : ∀ n ∈ first, n.isMark "," = false := fun n hn => (hfirst n hn).2
      cases rest with
      | nil =>
          rw [Node.commas, List.intercalate_singleton, Node.splitItems, hvisible,
            List.splitOnP_eq_singleton hmarks]
      | cons second rest =>
          have hrest := ih (List.cons_ne_nil _ _) fun part hpart =>
            h part (List.mem_cons_of_mem _ hpart)
          have hcomma : Node.visibleOf Node.comma = [.leaf (.mark ",")] := rfl
          rw [Node.splitItems, Node.commas] at hrest
          rw [Node.splitItems, Node.commas, List.intercalate_cons_cons, Node.visibleOf_append,
            Node.visibleOf_append, hvisible, hcomma, List.append_assoc, List.singleton_append,
            List.splitOnP_append_cons_of_forall_mem hmarks _ rfl, hrest]

section Lists

variable {k : Keyword} {path : List Frame}

/-- Listed names read as these names. -/
theorem reads_nameList (names : List String) (hpath : ∀ f ∈ path, f.shape ≠ .whereClause) :
    Reads k ((Node.enclosed (names.map nameTree)).leaves path) names [] := by
  have hvalue : ∀ l ∈ (Node.enclosed (names.map nameTree)).leaves path,
      l.token.isValue = false := by
    have hmarks : ∀ t ∈ listMarks, t.isValue = false := by decide
    refine forall_leaves (P := fun t => t.isValue = false) (fun t ht => ?_) path
    rw [← node_nameList, Nested.node_tokens] at ht
    rcases Nested.mem_tokens_enclosed ht with ht | ⟨part, hpart, ht⟩
    · exact hmarks t ht
    · rcases List.mem_map.1 hpart with ⟨name, -, rfl⟩
      rw [List.mem_singleton.1 ht]
      rfl
  constructor
  · rcases leaves_names names hpath with ⟨children, inner, -, hleaves, hcolumns, -⟩
    rw [hleaves, List.filter_cons_of_neg (by exact Bool.false_ne_true)]
    exact hcolumns
  · rw [List.filter_eq_nil_iff.2, List.map_nil]
    intro l hl
    rw [Leaf.isWritten, hvalue l hl]
    exact Bool.false_ne_true

/-- The items of a tuple are its values. -/
theorem singleValue?_values (values : List DefaultValue) :
    (Node.runItems (Node.commas (values.map DefaultValue.tree))).map singleValue? =
      (values.map DefaultValue.token).map some := by
  have hparts : ∀ part ∈ values.map DefaultValue.tree, ∀ n ∈ part,
      n.isWhitespace = false ∧ n.isMark "," = false := by
    intro part hpart n hn
    rcases List.mem_map.1 hpart with ⟨v, -, rfl⟩
    rw [List.mem_singleton.1 hn]
    exact ⟨(Token.of_mem_wordKinds v.kind_token).2.1,
      (Token.of_mem_wordKinds v.kind_token).2.2.2.1 ","⟩
  have hvalue : ∀ v : DefaultValue, singleValue? v.tree = some v.token :=
    fun v => singleValue?_eq_some_iff.2 ⟨rfl, v.isValue_token⟩
  cases values with
  | nil => rfl
  | cons v values =>
      have hitems := splitItems_commas (List.cons_ne_nil v.tree (values.map _)) hparts
      have hne : Node.splitItems (Node.commas ((v :: values).map DefaultValue.tree)) ≠ [[]] := by
        rw [List.map_cons, hitems]
        exact fun h => List.cons_ne_nil _ _ (List.cons.inj h).1
      rw [Node.runItems_eq hne, List.map_cons, hitems, ← List.map_cons, List.map_map, List.map_map]
      exact List.map_congr_left fun v _ => hvalue v

/-- A tuple reads as its values. -/
theorem reads_tuple (values : List DefaultValue)
    (hpath : ∀ f ∈ path, f.shape ≠ .whereClause ∧ f.shape ≠ .comparison) :
    Reads k ((Node.group .parenthesis (DefaultValue.tupleParts values)).leaves path) []
      (values.map fun v => (v.text, .insert)) := by
  have hinner : ∀ f ∈ ⟨⟨.parenthesis, DefaultValue.tupleParts values⟩, 1⟩ :: path,
      f.shape ≠ .whereClause ∧ f.shape ≠ .comparison := by
    intro f hf
    rcases List.mem_cons.1 hf with rfl | hf
    · exact ⟨Shape.noConfusion, Shape.noConfusion⟩
    · exact hpath f hf
  have htexts : (values.map DefaultValue.token).map (fun t => (t.value, Action.insert)) =
      values.map fun v => (v.text, .insert) := by
    rw [List.map_map]
    exact List.map_congr_left fun v _ => Prod.ext v.value_token rfl
  have hlist := reads_valueList (k := k) hinner (singleValue?_values values)
  rw [htexts, ← List.append_nil (Node.leaves _ _)] at hlist
  exact reads_between [_] rfl rfl hlist

end Lists

section Insert

variable (i : IntoSpec) (values : List DefaultValue)

/-- The leaves of an insertion, part by part. -/
theorem leaves_insert :
    (insertTree i values).leaves =
      Node.leavesFrom (insertTree i values) [] 0 [.leaf (.ofKeyword .insert), .leaf .space,
          .leaf (.ofKeyword .into), .leaf .space] ++
        (Node.leavesFrom (insertTree i values) [] 4 i.tree ++
          (Node.leavesFrom (insertTree i values) [] (4 + i.tree.length) [.leaf .space,
              .leaf (.ofKeyword .values), .leaf .space] ++
            (Node.group .parenthesis (DefaultValue.tupleParts values)).leaves
              [⟨insertTree i values, 4 + i.tree.length + 3⟩])) := by
  have hback : ∀ g index, Node.leavesFrom g [] index [.leaf .space, .leaf (.ofKeyword .values),
      .leaf .space, .group .parenthesis (DefaultValue.tupleParts values)] =
        Node.leavesFrom g [] index [.leaf .space, .leaf (.ofKeyword .values), .leaf .space] ++
          (Node.group .parenthesis (DefaultValue.tupleParts values)).leaves
            [⟨g, index + 3⟩] := by
    intro g index
    exact (Node.leavesFrom_append g [] index [.leaf .space, .leaf (.ofKeyword .values),
      .leaf .space] _).trans (congrArg (_ ++ ·) (List.append_nil _))
  rw [← hback, ← Node.leavesFrom_append]
  rfl

theorem target_insert : target (insertTree i values).leaves = .ok i.table := by
  have hname : ∃ l rest, Node.leavesFrom (insertTree i values) [] 4 i.tree = l :: rest ∧
      l.isTarget = true ∧ l.value = i.table := by
    cases i <;> exact ⟨_, _, rfl, rfl, Token.value_quotedName _⟩
  rcases hname with ⟨l, rest, hleaves, hl, hvalue⟩
  have htarget : (Node.leavesFrom (insertTree i values) [] 0 [.leaf (.ofKeyword .insert),
      .leaf .space, .leaf (.ofKeyword .into), .leaf .space] ++ [l]).filter Leaf.isTarget = [l] := by
    rw [List.filter_append, List.filter_cons_of_pos hl]
    rfl
  rw [leaves_insert, hleaves, ← hvalue, List.cons_append, ← List.singleton_append,
    ← List.append_assoc]
  exact target_append htarget _

/-- The table of an insertion reads as its columns. Its name is none of them,
    neither in the statement nor in a call. -/
theorem reads_into :
    Reads .values (Node.leavesFrom (insertTree i values) [] 4 i.tree) i.columns [] := by
  have houtside : Group.Outside (insertTree i values) [] :=
    ⟨Shape.noConfusion, fun f hf => absurd hf List.not_mem_nil⟩
  cases i with
  | alone table =>
      have hcolumn : Frame.holdsColumn ⟨insertTree (.alone table) values, 4⟩ = false := rfl
      exact Reads.of_idle (idle_name (t := .quotedName table) rfl houtside hcolumn)
  | apart table columns =>
      have hleaves : Node.leavesFrom (insertTree (.apart table columns) values) [] 4
          (IntoSpec.tree (.apart table columns)) =
            (Node.nameRef (.leaf (.quotedName table))).leaves [⟨_, 4⟩] ++
              ((Node.leaf .space).leaves [⟨_, 5⟩] ++
                ((Node.enclosed (columns.map nameTree)).leaves [⟨_, 6⟩] ++ [])) := rfl
      rw [hleaves, List.append_nil]
      exact Reads.idle_append (idle_name (t := .quotedName table) rfl houtside rfl)
        (Reads.idle_append (idle_word rfl _) (reads_nameList columns (houtside.frames 6)))
  | joined table columns =>
      have hleaves : Node.leavesFrom (insertTree (.joined table columns) values) [] 4
          (IntoSpec.tree (.joined table columns)) =
            ((Node.nameRef (.leaf (.quotedName table))).leaves
                [⟨⟨.functionCall, nameTree table ++ [Node.enclosed (columns.map nameTree)]⟩, 0⟩,
                  ⟨_, 4⟩] ++
              ((Node.enclosed (columns.map nameTree)).leaves
                [⟨⟨.functionCall, nameTree table ++ [Node.enclosed (columns.map nameTree)]⟩, 1⟩,
                  ⟨_, 4⟩] ++ [])) ++ [] := rfl
      have hcall : Group.Outside ⟨.functionCall, nameTree table ++
          [Node.enclosed (columns.map nameTree)]⟩
            [⟨insertTree (.joined table columns) values, 4⟩] :=
        houtside.inner Shape.noConfusion 4
      rw [hleaves, List.append_nil, List.append_nil]
      refine Reads.idle_append (idle_name (t := .quotedName table) rfl hcall ?_)
        (reads_nameList columns (hcall.frames 1))
      simp only [Frame.holdsColumn, Frame.shape, Bool.and_false]

theorem reads_insert :
    Reads .values (insertTree i values).leaves i.columns
      (values.map fun v => (v.text, .insert)) := by
  have hpath : ∀ index, ∀ f ∈ [(⟨insertTree i values, index⟩ : Frame)],
      f.shape ≠ .whereClause ∧ f.shape ≠ .comparison := by
    intro index f hf
    rw [List.mem_singleton.1 hf]
    exact ⟨Shape.noConfusion, Shape.noConfusion⟩
  have hfront : ∀ n ∈ [Node.leaf (.ofKeyword .insert), .leaf .space, .leaf (.ofKeyword .into),
      .leaf .space], n.isIdle = true := by decide
  have hvalues : ∀ n ∈ [Node.leaf .space, .leaf (.ofKeyword .values), .leaf .space],
      n.isIdle = true := by decide
  have hkeyword : ∀ l ∈ Node.leavesFrom (insertTree i values) [] (4 + i.tree.length)
      [.leaf .space, .leaf (.ofKeyword .values), .leaf .space], l.Idle .values :=
    idle_words hvalues _
  have hlists := (reads_into i values).append (Reads.idle_append hkeyword
    (reads_tuple values (hpath (4 + i.tree.length + 3))))
  rw [List.append_nil, List.nil_append] at hlists
  rw [leaves_insert]
  exact Reads.idle_append (idle_words hfront 0) hlists

end Insert

section Update

variable (table : String) {sets : List AssignmentSpec} (condition : Option ComparisonSpec)

theorem splitItems_updateRun (hne : sets ≠ []) :
    Node.splitItems (updateRun sets condition) = sets.map AssignmentSpec.tree := by
  have hgap : Node.visibleOf (if condition.isSome then [.leaf .space] else []) = [] := by
    cases condition <;> rfl
  have hvisible : Node.visibleOf (updateRun sets condition) =
      Node.visibleOf (Node.commas (sets.map AssignmentSpec.tree)) := by
    rw [updateRun, ← List.singleton_append, Node.visibleOf_append, Node.visibleOf_append, hgap,
      List.append_nil]
    rfl
  have hparts : ∀ part ∈ sets.map AssignmentSpec.tree, ∀ n ∈ part,
      n.isWhitespace = false ∧ n.isMark "," = false := by
    intro part hpart n hn
    rcases List.mem_map.1 hpart with ⟨a, -, rfl⟩
    rw [List.mem_singleton.1 hn]
    exact ⟨rfl, rfl⟩
  have hitems := splitItems_commas (fun hnil => hne (List.map_eq_nil_iff.1 hnil)) hparts
  rw [Node.splitItems] at hitems
  rw [Node.splitItems, hvisible, hitems]

/-- The assignments of an update are its last clause. -/
theorem isLastClause_update (sets : List AssignmentSpec) :
    IsLastClause (updateTree table sets condition).children .set (updateFront table)
      (.leaf (.ofKeyword .set)) (updateRun sets condition) (updateTail condition) where
  eq_append := rfl
  first n hn := by
    simp only [updateFront, List.mem_cons, List.not_mem_nil, or_false] at hn
    rcases hn with rfl | rfl | rfl | rfl
    · decide
    · decide
    · exact fun hk => Option.some_ne_none _ hk.symm
    · decide
  opens := rfl
  unlisted n hn := by
    rcases mem_updateRun sets condition hn with rfl | rfl | ⟨parts, rfl⟩ <;> rfl
  unclaused n hn := by
    rcases mem_updateRun sets condition hn with rfl | rfl | ⟨parts, rfl⟩ <;> rfl
  tail_eq := by
    cases condition with
    | none => exact Or.inl rfl
    | some c => exact Or.inr ⟨_, [], rfl, fun n hn => absurd hn List.not_mem_nil⟩

theorem target_update (sets : List AssignmentSpec) :
    target (updateTree table sets condition).leaves = .ok table := by
  have htarget : (Node.leavesFrom (updateTree table sets condition) [] 0
      (updateFront table)).filter Leaf.isTarget =
        [nameLeaf (updateTree table sets condition) [] 2 table] := rfl
  rw [(isLastClause_update table condition sets).leaves_eq, target_append htarget, value_nameLeaf]

/-- A comparison as it is written compares a name and a value. -/
theorem sides?_parts (c : ComparisonSpec) :
    sides? c.parts = some (.quotedName c.name, c.value.token) := by
  have hoperator : (!Node.isWhitespace (.leaf (operatorToken c.operator))) = true := by
    rw [show Node.isWhitespace (.leaf (operatorToken c.operator)) = false from
      (not_name_operatorToken c.known).2]
    rfl
  have hvalue : (!Node.isWhitespace (.leaf c.value.token)) = true := by
    rw [show Node.isWhitespace (.leaf c.value.token) = false from
      (Token.of_mem_wordKinds c.value.kind_token).2.1]
    rfl
  refine sides?_eq_some_iff.2 ⟨.leaf (operatorToken c.operator), ?_, rfl,
    compares_operatorToken c.known, c.value.isValue_token⟩
  simp only [Node.visibleOf, ComparisonSpec.parts, List.filter_cons, hoperator, hvalue, if_true]
  rfl

/-- The name and the value of an assignment as it is written. -/
def AssignmentSpec.sides (a : AssignmentSpec) : Token × Token :=
  (.quotedName a.name, a.value.token)

theorem AssignmentSpec.value_name (a : AssignmentSpec) : a.sides.1.value = a.name :=
  Token.value_quotedName a.name

theorem AssignmentSpec.value_value (a : AssignmentSpec) : a.sides.2.value = a.value.text :=
  a.value.value_token

theorem assignment?_tree (a : AssignmentSpec) : assignment? a.tree = some a.sides :=
  sides?_parts a.comparison

/-- In front of its assignments an update reads as nothing. -/
theorem reads_updateFront (sets : List AssignmentSpec) :
    Reads .set (Node.leavesFrom (updateTree table sets condition) [] 0 (updateFront table)) [] [] :=
  by
  have houtside : Group.Outside (updateTree table sets condition) [] :=
    ⟨Shape.noConfusion, fun f hf => absurd hf List.not_mem_nil⟩
  have hleaves : Node.leavesFrom (updateTree table sets condition) [] 0 (updateFront table) =
      (Node.leaf (.ofKeyword .update)).leaves [⟨_, 0⟩] ++ ((Node.leaf .space).leaves [⟨_, 1⟩] ++
        ((Node.nameRef (.leaf (.quotedName table))).leaves [⟨_, 2⟩] ++
          ((Node.leaf .space).leaves [⟨_, 3⟩] ++ []))) := rfl
  rw [hleaves, List.append_nil]
  exact Reads.idle_append (idle_word rfl _) (Reads.idle_append (idle_word rfl _)
    (Reads.idle_append (idle_name (t := .quotedName table) rfl houtside rfl)
      (Reads.of_idle (idle_word rfl _))))

/-- An update reads as its assignments. -/
theorem reads_update (hne : sets ≠ []) :
    Reads .set (updateTree table sets condition).leaves (sets.map AssignmentSpec.name)
      (sets.map fun a => (a.value.text, .update)) := by
  rcases exists_reads_behind (isLastClause_update table condition sets) rfl
    (reads_updateFront table condition sets) with ⟨rs, hrs, hreads⟩
  rw [splitItems_updateRun condition hne] at hrs
  have hassigned : rs.map (fun r => assignment? r.item) =
      (sets.map AssignmentSpec.sides).map some := by
    calc rs.map (fun r => assignment? r.item)
        = (rs.map ItemReading.item).map assignment? := by rw [List.map_map]; rfl
      _ = sets.map fun a => assignment? a.tree := by rw [hrs, List.map_map]; rfl
      _ = (sets.map AssignmentSpec.sides).map some := by
        rw [List.map_congr_left fun a _ => assignment?_tree a, List.map_map]; rfl
  rcases flatMap_assigned hassigned with ⟨hnames, hvalues⟩
  simp only [hnames, hvalues, List.map_map, Function.comp_def, List.nil_append,
    AssignmentSpec.value_name, AssignmentSpec.value_value] at hreads
  exact hreads

end Update

end SqlGist
