import SqlGist.Proofs.Constraints.Columns
import SqlGist.Proofs.Definitions.Owning
import SqlGist.Proofs.Tree.Lossless
import SqlGist.Proofs.Tree.OuterItems
import SqlGist.Proofs.Writes.Reading

/-!
# The Items of a Table Definition

Between the parentheses of a definition stand its items, parted by commas. The
name of a column is told from other names by its place alone, so an item has as
many columns as it has names that nothing takes for something else: the name of
a call, the name behind `CONSTRAINT`, and the qualifier in front of a point.

An item that defines a column as usual has one such name, in front of its type.
Then the column is the nearest one for every keyword behind it, up to the comma,
and whatever constraint such a keyword introduces belongs to that column. An item
with two such names has two columns. The value in `a int DEFAULT b` is a name,
and nothing tells it from the first.

## Main definitions

* `Leaf.isBareName`: A name that nothing takes for something else.
* `Group.itemsAt`: The items of the parenthesis at a place.
* `Group.OneColumnEach`: No item has two columns, keys aside.
* `AttachesBehind`: The constraints behind a name belong to its column.

## Theorems

* `isColumn_eq_isBareName`: In a parenthesis the bare names are the columns.
* `leaves_split`, `filter_isWithin`: The leaves of a child of the outermost
  group.
* `exists_append_of_mem_itemsAt`: An item is a stretch of the statement.
* `bodyItem_columns`: The columns of an item, and whose its constraints are.
* `not_oneColumnEach_of_default`: A name for a default is a column as well.
-/

namespace SqlGist

namespace Leaf

/-- Whether the leaf is a name that nothing takes for something else: not the
    name of a call, not the one right behind `CONSTRAINT`, and not a qualifier
    in front of a point. -/
def isBareName (l : Leaf) : Bool :=
  l.token.isName && !l.isCallName && !(l.ancestor? 1).any fun f =>
    (f.prev?.any fun n => n.keyword? = some .constraint) || f.next?.any fun n => n.isMark "."

/-- Whether the leaf is a comma between the items of a definition. -/
def partsItems (l : Leaf) : Bool :=
  l.token.isMark "," && l.ancestorsAre [.nameList, .parenthesis, .statement]

theorem isColumn_eq_isBareName_of_not_name {l : Leaf} (h : l.token.isName = false) :
    l.isColumn = l.isBareName := by
  rw [isColumn, isBareName, h, Bool.false_and, Bool.false_and, Bool.false_and, Bool.false_and,
    Bool.false_and]

end Leaf

/-- The items of the parenthesis at a place of the outermost group: what stands
    between its marks, parted at its commas. -/
def Group.itemsAt (root : Group) (place : Nat) : List (List Leaf) :=
  ((root.leaves.filter fun l => l.isWithin [place]).drop 1).dropLast.splitOnP Leaf.partsItems

/-- No item has two columns, unless it opens with `PRIMARY`, `UNIQUE` or
    `CONSTRAINT`. -/
def Group.OneColumnEach (root : Group) (place : Nat) : Prop :=
  ∀ item ∈ root.itemsAt place,
    (skipBlanks item).head?.bind Leaf.keyword? ∉ [some .primary, some .unique, some .constraint] →
      (item.filter Leaf.isColumn).length ≤ 1

instance (root : Group) (place : Nat) : Decidable (root.OneColumnEach place) :=
  inferInstanceAs (Decidable (∀ item ∈ root.itemsAt place, _))

/-- Where names are columns, a name is one exactly if it is bare. -/
theorem isColumn_eq_isBareName_nameRef {t : Token} {g : Group} {path : List Frame}
    (ht : t.isName = true) (houtside : g.Outside path) (hshape : g.shape ∈ namingShapes)
    (index : Nat) :
    Leaf.isColumn ⟨t, ⟨⟨.nameRef, [.leaf t]⟩, 0⟩ :: ⟨g, index⟩ :: path⟩ =
      Leaf.isBareName ⟨t, ⟨⟨.nameRef, [.leaf t]⟩, 0⟩ :: ⟨g, index⟩ :: path⟩ := by
  have hcall : Leaf.isCallName ⟨t, ⟨⟨.nameRef, [.leaf t]⟩, 0⟩ :: ⟨g, index⟩ :: path⟩ = false := by
    rw [Leaf.isCallName, Bool.and_eq_false_iff]
    refine Or.inr ?_
    simp only [namingShapes, List.mem_cons, List.not_mem_nil, or_false] at hshape
    simp only [Leaf.ancestorsAre, List.map_cons, Frame.shape]
    rcases hshape with hshape | hshape | hshape <;> rw [hshape] <;> rfl
  have hancestor : Leaf.ancestor? ⟨t, ⟨⟨.nameRef, [.leaf t]⟩, 0⟩ :: ⟨g, index⟩ :: path⟩ 1 =
      some ⟨g, index⟩ := rfl
  rw [isColumn_nameRef ht houtside, Frame.holdsColumn_eq (f := ⟨g, index⟩) hshape,
    Leaf.isBareName, ht, hcall, hancestor, Option.any_some, Bool.not_or]
  rfl

/-- In a tidy node the bare names are the columns, wherever the node stands, as
    long as a name of its own stands where names are columns. -/
theorem isColumn_eq_isBareName {n : Node} (h : n.Tidy) {g : Group} {path : List Frame}
    (houtside : g.Outside path) (hname : n.isGroup .nameRef = true → g.shape ∈ namingShapes)
    (index : Nat) : ∀ l ∈ n.leaves (⟨g, index⟩ :: path), l.isColumn = l.isBareName := by
  induction h generalizing g path index with
  | @leaf t hbare _ _ =>
      intro l hl
      rw [Node.leaves, List.mem_singleton] at hl
      rw [hl]
      exact Leaf.isColumn_eq_isBareName_of_not_name hbare
  | @name t ht =>
      intro l hl
      obtain rfl := List.mem_singleton.1 hl
      exact isColumn_eq_isBareName_nameRef ht houtside (hname rfl) index
  | @call t p ht hshape hp ih =>
      have hinner : Group.Outside ⟨.functionCall, [Node.nameRef (.leaf t), p]⟩
          (⟨g, index⟩ :: path) := houtside.inner Shape.noConfusion index
      intro l hl
      rcases Node.mem_leavesFrom hl with ⟨m, hm, place, hl⟩
      rcases List.mem_pair.1 hm with rfl | rfl
      · -- The name of a call is neither.
        obtain rfl := List.mem_singleton.1 hl
        rw [isColumn_nameRef ht hinner, Leaf.isBareName, Leaf.isCallName, ht]
        exact Bool.and_false _
      · refine ih hinner (fun hgroup => ?_) place l hl
        rw [Node.isGroup, of_decide_eq_true hshape] at hgroup
        exact absurd hgroup (by decide)
  | comparison _ _ _ _ _ _ ih =>
      intro l hl
      rcases Node.mem_leavesFrom hl with ⟨m, hm, place, hl⟩
      exact ih m hm (houtside.inner Shape.noConfusion index)
        (fun _ => by simp only [namingShapes, List.mem_cons, true_or, or_true]) place l hl
  | list _ _ _ ih =>
      intro l hl
      rcases Node.mem_leavesFrom hl with ⟨m, hm, place, hl⟩
      exact ih m hm (houtside.inner Shape.noConfusion index)
        (fun _ => by simp only [namingShapes, List.mem_cons, true_or, or_true]) place l hl
  | @parens opening closing inner hopen hclose _ ih =>
      intro l hl
      rcases Node.mem_leavesFrom hl with ⟨m, hm, place, hl⟩
      have hmark : ∀ {t : Token} {mark : String}, t.isMark mark = true → m = .leaf t →
          l.isColumn = l.isBareName := by
        rintro t mark ht rfl
        obtain rfl := List.mem_singleton.1 hl
        exact Leaf.isColumn_eq_isBareName_of_not_name (Token.idle_of_isMark ht).1
      rcases List.mem_cons.1 hm with hm | hm
      · exact hmark hopen hm
      · rcases List.mem_append.1 hm with hm | hm
        · exact ih m hm (houtside.inner Shape.noConfusion index)
            (fun _ => by simp only [namingShapes, List.mem_cons, true_or]) place l hl
        · exact hmark hclose (List.mem_singleton.1 hm)

section Places

variable {root : Group} {place : Nat} {shape : Shape} {children : List Node}
  (h : root.children[place]? = some (.group shape children))

include h

/-- The leaves of a group, and those in front of one of its children and
    behind. -/
theorem leaves_split :
    root.leaves = Node.leavesFrom root [] 0 (root.children.take place) ++
      ((Node.group shape children).leaves [⟨root, place⟩] ++
        Node.leavesFrom root [] (place + 1) (root.children.drop (place + 1))) :=
  Node.leaves_of_child h []

/-- The leaves at a place are those of the child there. -/
theorem filter_isWithin :
    (root.leaves.filter fun l => l.isWithin [place]) =
      (Node.group shape children).leaves [⟨root, place⟩] := by
  have hother : ∀ index ns, place < index ∨ index + ns.length ≤ place →
      ((Node.leavesFrom root [] index ns).filter fun l => l.isWithin [place]) = [] :=
    fun index ns hplace => List.filter_eq_nil_iff.2 fun l hl hwithin =>
      Node.not_prefix_of_mem_leavesFrom hplace hl [] (Leaf.isWithin_iff.1 hwithin).1
  have hself : ∀ l ∈ (Node.group shape children).leaves [⟨root, place⟩],
      l.isWithin [place] = true := by
    intro l hl
    rcases Node.suffix_of_mem_leavesFrom ⟨shape, children⟩ [⟨root, place⟩] 0 children hl with
      ⟨inner, -, hsuffix⟩
    exact Leaf.isWithin_of_suffix hsuffix
  rw [leaves_split h, List.filter_append, List.filter_append, List.filter_eq_self.2 hself,
    hother 0 _ ?_, hother (place + 1) _ (Or.inl (Nat.lt_succ_self place)), List.nil_append,
    List.append_nil]
  rw [List.length_take]
  omega

/-- An item is a stretch of the leaves of its parenthesis, and so of the
    statement. -/
theorem exists_append_of_mem_itemsAt {item : List Leaf} (hitem : item ∈ root.itemsAt place) :
    (∀ l ∈ item, l ∈ (Node.group shape children).leaves [⟨root, place⟩]) ∧
      ∃ before after, root.leaves = before ++ (item ++ after) := by
  rw [Group.itemsAt, filter_isWithin h] at hitem
  have hlast : ∀ as : List Leaf, as.dropLast <+: as := fun as => List.dropLast_prefix as
  rcases exists_of_mem_splitOnP hitem with ⟨front, back, hpiece, -⟩
  have hinside : item <:+: (Node.group shape children).leaves [⟨root, place⟩] := by
    refine List.IsInfix.trans ⟨front, back, ?_⟩
      ((hlast _).isInfix.trans (List.drop_suffix 1 _).isInfix)
    rw [List.append_assoc, ← hpiece]
  refine ⟨fun l hl => hinside.subset hl, ?_⟩
  have hall : (Node.group shape children).leaves [⟨root, place⟩] <:+: root.leaves := by
    rw [leaves_split h, ← List.append_assoc]
    exact List.infix_append _ _ _
  rcases hinside.trans hall with ⟨before, after, heq⟩
  exact ⟨before, after, by rw [← heq, List.append_assoc]⟩

end Places

/-- A node that is checked for its shape is a group. -/
theorem exists_group_of_any {n? : Option Node} {shape : Shape}
    (h : n?.any (fun n => n.isGroup shape) = true) :
    ∃ children, n? = some (.group shape children) := by
  rcases (Option.any_eq_true _ _).1 h with ⟨n, rfl, hn⟩
  cases n with
  | leaf t => exact absurd hn Bool.false_ne_true
  | group found children =>
      exact ⟨children, by rw [Option.some.inj (of_decide_eq_true hn)]⟩

/-- A parenthesis of the outermost group is tidy. -/
theorem tidy_body {sql : String} {root : Group} (hroot : Group.ofText sql = .ok root)
    {place : Nat} {children : List Node}
    (h : root.children[place]? = some (.group .parenthesis children)) :
    root.Outside [] ∧ (Node.group .parenthesis children).Tidy := by
  rcases ofText_eq_ok_iff.1 hroot with ⟨_, items, -, hnest, rfl⟩
  refine ⟨⟨Shape.noConfusion, fun f hf => absurd hf List.not_mem_nil⟩, ?_⟩
  rcases mem_rootNodes (Nested.matched_nest hnest) (List.mem_of_getElem? h) with
    htidy | ⟨clause, condition, heq, -⟩
  · exact htidy
  · exact absurd (Node.group.inj heq).1 Shape.noConfusion

/-- Behind the only column of an item, a keyword without a list contributes its
    constraint to that column, wherever the item stands. -/
theorem ownedAt_behind (before : List Leaf) {front mid back after : List Leaf}
    {name keyword : Leaf}
    (hone : ((front ++ name :: (mid ++ keyword :: back)).filter Leaf.isColumn).length ≤ 1)
    (hname : name.isColumn = true) {k : Keyword} {c : Constraint}
    (hk : keyword.constraintKeyword? = some k)
    (hc : constraintAt k (back ++ after) = .ok (some c))
    (hlist : k = .primary ∨ k = .unique → listedColumns? (back ++ after) = none) :
    ownedAt (before ++ (front ++ name :: mid)).reverse keyword (back ++ after) =
      .ok [⟨name.value, c⟩] := by
  have hmid : ∀ l ∈ mid, l.isColumn = false := by
    simp only [List.filter_append, List.filter_cons, hname, if_true, List.length_append,
      List.length_cons] at hone
    have hnone : (mid.filter Leaf.isColumn).length = 0 := by omega
    rw [List.length_eq_zero_iff, List.filter_eq_nil_iff] at hnone
    exact fun l hl => Bool.eq_false_iff.2 (hnone l hl)
  have hnear : Nearest name.value (before ++ (front ++ name :: mid)).reverse := by
    rw [List.reverse_append, List.reverse_append, List.reverse_cons, List.append_assoc,
      List.append_assoc]
    exact (nearest_cons hname _).append hmid
  exact ownedAt_of_keyword hk hc (ownersAt_nearest hnear hlist)

/-- In an item with `before` in front and `after` behind, what a keyword behind
    a bare name introduces belongs to the column of that name and to no other,
    unless the keyword lists columns. -/
def AttachesBehind (columns : List Column) (before item after : List Leaf) : Prop :=
  ∀ front name mid keyword back, item = front ++ name :: (mid ++ keyword :: back) →
    name.isBareName = true → ∀ k c, keyword.constraintKeyword? = some k →
      constraintAt k (back ++ after) = .ok (some c) →
      (k = .primary ∨ k = .unique → listedColumns? (back ++ after) = none) →
      ownedAt (before ++ (front ++ name :: mid)).reverse keyword (back ++ after) =
          .ok [⟨name.value, c⟩] ∧
        ∃ column ∈ columns, column.name = some name.value ∧ c ∈ column.constraints

/-- In an item of a table definition the columns are the bare names, and each is
    a column of the table. So an item with at most one bare name has at most one
    column, and the constraints behind that name belong to it. -/
theorem bodyItem_columns {sql : String} {t : Table} {root : Group} {place : Nat}
    {children : List Node} {item : List Leaf} (h : classify sql = .ok (.table t))
    (htag : statementTag sql = .ok "CREATETABLE") (hroot : Group.ofText sql = .ok root)
    (hbody : root.children[place]? = some (.group .parenthesis children))
    (hitem : item ∈ root.itemsAt place) :
    item.filter Leaf.isColumn = item.filter Leaf.isBareName ∧
      (∀ name ∈ item, name.isBareName = true →
        ∃ column ∈ t.columns, column.name = some name.value) ∧
      ∃ before after, root.leaves = before ++ (item ++ after) ∧
        ((item.filter Leaf.isBareName).length ≤ 1 →
          (item.filter Leaf.isColumn).length ≤ 1 ∧
            AttachesBehind t.columns before item after) := by
  have hextract : Command.createTable.extract root = .ok (.table t) := extract_of_tag h htag hroot
  rcases exists_definedColumns (by decide) hextract with ⟨u, action, heq, hcolumns⟩
  obtain rfl := Entity.table.inj heq
  rcases definedColumns_distribute hcolumns with ⟨all, hall, hnames, -, hown⟩
  rcases tidy_body hroot hbody with ⟨houtside, htidy⟩
  rcases exists_append_of_mem_itemsAt hbody hitem with ⟨hinside, before, after, hleaves⟩
  have hbare : ∀ l ∈ item, l.isColumn = l.isBareName := fun l hl =>
    isColumn_eq_isBareName htidy houtside (fun hgroup => absurd hgroup Bool.false_ne_true) place l
      (hinside l hl)
  have hcolumn : ∀ name ∈ item, name.isBareName = true →
      ∃ column ∈ t.columns, column.name = some name.value := by
    intro name hname hcolumn
    have hmem : name.value ∈ columnNames root.leaves := by
      refine mem_columnNames_iff.2 ⟨name, ?_, (hbare name hname).trans hcolumn, rfl⟩
      rw [hleaves]
      exact List.mem_append_right _ (List.mem_append_left _ hname)
    have hmem := List.mem_map_of_mem (f := some) hmem
    rwa [← hnames, List.mem_map] at hmem
  refine ⟨List.filter_congr hbare, hcolumn, before, after, hleaves, fun hone => ?_⟩
  rw [← List.filter_congr hbare] at hone
  refine ⟨hone, ?_⟩
  intro front name mid keyword back hsplit hname k c hk hc hlist
  have hmem : name ∈ item := by
    rw [hsplit]
    exact List.mem_append_right _ List.mem_cons_self
  rw [hsplit] at hone
  have howned := ownedAt_behind before hone ((hbare name hmem).trans hname) hk hc hlist
  refine ⟨howned, ?_⟩
  -- The constraint is among those of the statement, so its column carries it.
  rcases hcolumn name hmem hname with ⟨column, hcolumn, hvalue⟩
  refine ⟨column, hcolumn, hvalue, ?_⟩
  have hfrom := ownedFrom_of_owned hall
  rw [hleaves, hsplit, show before ++ (front ++ name :: (mid ++ keyword :: back) ++ after) =
    (before ++ (front ++ name :: mid)) ++ keyword :: (back ++ after) by
      simp only [List.append_assoc, List.cons_append]] at hfrom
  rcases exists_ownedAt_of_ownedFrom hfrom with ⟨first, here, rest, hhere, rfl⟩
  rw [List.append_nil, howned] at hhere
  rw [hown column hcolumn, hvalue, ← Except.ok.inj hhere]
  simp only [Option.map_some, Option.getD_some, constraintsOn, List.filter_append,
    List.filter_cons, decide_true, if_true, List.map_append, List.map_cons, List.mem_append,
    List.mem_cons, true_or, or_true]

/-- A type with a size, and a default that is no name. -/
theorem bodyItem_columns_default :
    ∃ t root children item,
      classify "CREATE TABLE t (a int NOT NULL, b varchar(10) DEFAULT 'x', UNIQUE (a))" =
        .ok (.table t) ∧
      statementTag "CREATE TABLE t (a int NOT NULL, b varchar(10) DEFAULT 'x', UNIQUE (a))" =
        .ok "CREATETABLE" ∧
      Group.ofText "CREATE TABLE t (a int NOT NULL, b varchar(10) DEFAULT 'x', UNIQUE (a))" =
        .ok root ∧
      root.children[6]? = some (.group .parenthesis children) ∧ item ∈ root.itemsAt 6 ∧
      (item.filter Leaf.isBareName).map Leaf.value = ["b"] ∧
      item.filter Leaf.isColumn = item.filter Leaf.isBareName ∧
      (∀ name ∈ item, name.isBareName = true →
        ∃ column ∈ t.columns, column.name = some name.value) ∧
      ∃ before after, root.leaves = before ++ (item ++ after) ∧
        ((item.filter Leaf.isBareName).length ≤ 1 →
          (item.filter Leaf.isColumn).length ≤ 1 ∧
            AttachesBehind t.columns before item after) := by
  have htable : ((classify "CREATE TABLE t (a int NOT NULL, b varchar(10) DEFAULT 'x', UNIQUE (a))"
      ).toOption.bind Entity.table?).any (fun _ => true) = true := by
    decide +kernel
  have htag : statementTag
      "CREATE TABLE t (a int NOT NULL, b varchar(10) DEFAULT 'x', UNIQUE (a))" =
        .ok "CREATETABLE" := by
    decide +kernel
  have hcheck : (Group.ofText
      "CREATE TABLE t (a int NOT NULL, b varchar(10) DEFAULT 'x', UNIQUE (a))").toOption.any
        (fun root => root.children[6]?.any (fun n => n.isGroup .parenthesis) &&
          (root.itemsAt 6).any fun item =>
            (item.filter Leaf.isBareName).map Leaf.value = ["b"]) = true := by
    decide +kernel
  rcases exists_table_of_any htable with ⟨t, ht, -⟩
  rcases exists_of_toOption_any hcheck with ⟨root, hroot, hcheck⟩
  rw [Bool.and_eq_true, List.any_eq_true] at hcheck
  rcases hcheck with ⟨hbody, item, hitem, hbare⟩
  rcases exists_group_of_any hbody with ⟨children, hbody⟩
  exact ⟨t, root, children, item, ht, htag, hroot, hbody, hitem, of_decide_eq_true hbare,
    bodyItem_columns ht htag hroot hbody hitem⟩

/-- A name for a default is a column, next to the one that it is the default
    of. -/
theorem not_oneColumnEach_of_default :
    ∃ t root children, classify "CREATE TABLE t (a int DEFAULT b)" = .ok (.table t) ∧
      statementTag "CREATE TABLE t (a int DEFAULT b)" = .ok "CREATETABLE" ∧
      Group.ofText "CREATE TABLE t (a int DEFAULT b)" = .ok root ∧
      root.children[6]? = some (.group .parenthesis children) ∧
      t.columns.map Column.name = [some "a", some "b"] ∧ ¬root.OneColumnEach 6 := by
  have htable : ((classify "CREATE TABLE t (a int DEFAULT b)").toOption.bind Entity.table?).any
      (fun t => t.columns.map Column.name = [some "a", some "b"]) = true := by
    decide +kernel
  have htag : statementTag "CREATE TABLE t (a int DEFAULT b)" = .ok "CREATETABLE" := by
    decide +kernel
  have hcheck : (Group.ofText "CREATE TABLE t (a int DEFAULT b)").toOption.any (fun root =>
      root.children[6]?.any (fun n => n.isGroup .parenthesis) &&
        decide (¬root.OneColumnEach 6)) = true := by
    decide +kernel
  rcases exists_table_of_any htable with ⟨t, ht, hcolumns⟩
  rcases exists_of_toOption_any hcheck with ⟨root, hroot, hcheck⟩
  rw [Bool.and_eq_true] at hcheck
  rcases exists_group_of_any hcheck.1 with ⟨children, hbody⟩
  exact ⟨t, root, children, ht, htag, hroot, hbody, of_decide_eq_true hcolumns,
    of_decide_eq_true hcheck.2⟩

end SqlGist
