import SqlGist.Proofs.Dispatch
import SqlGist.Proofs.Extraction.Blind
import SqlGist.Proofs.Extraction.Targets
import SqlGist.Proofs.Writes.Lists

/-!
# Named Constraints

A statement that adds or drops a named constraint has its names at three places,
behind `TABLE`, behind `CONSTRAINT` and, if it adds one, in the parenthesis behind
its last keyword. None of these is looked at. The table and the constraint are
the first two targets wherever they stand, and the columns are all column names of
the statement.

The targets are those at their places as long as one name stands in front of
`CONSTRAINT`. A qualified name counts for as many as it has components, since a
point between two names keeps neither from being a target. So the table is then
named by the qualifier, and the constraint by what is behind the first point.

The columns are the listed ones as long as no other leaf is a column.

## Main definitions

* `Node.Dotted`: A name with its qualifiers.
* `namedCommands`: The commands about a named constraint.
* `Table.NamedBy`: Two names are those of a table and of its constraint.
* `Group.ListsBehind`: The parenthesis behind a keyword.

## Theorems

* `Dotted.targets`: The components of a name are all targets.
* `keywords_of_named`: The keywords of these commands.
* `enclosed_of_opened`: A parenthesis in a list of a statement encloses a run.
* `ListsBehind.exists_leaves`: The leaves of the parenthesis among the others.
* `named_constraint_reads`: What names the table, the constraint and the columns.
* `misnamed_of_qualifier`: A qualified table takes the names of both.
-/

namespace SqlGist

namespace Node

/-- A name and its qualifiers, a point behind each of these, and their tokens. -/
inductive Dotted : List Node → List Token → Prop
  | last {t : Token} (ht : t.isName = true) : Dotted [nameRef (.leaf t)] [t]
  | qualified {t : Token} {point : Node} {ns : List Node} {ts : List Token}
      (ht : t.isName = true) (hpoint : point.isMark "." = true) (h : Dotted ns ts) :
      Dotted (nameRef (.leaf t) :: point :: ns) (t :: ts)

theorem target?_nameRef {t : Token} (ht : t.isName = true) :
    (nameRef (.leaf t)).target? = some t :=
  if_pos ht

theorem target?_of_leaf? {n : Node} {t : Token} (h : n.leaf? = some t) : n.target? = none := by
  cases n with
  | leaf u => rfl
  | group => exact absurd h.symm (Option.some_ne_none t)

theorem target?_of_isMark {n : Node} {mark : String} (h : n.isMark mark = true) :
    n.target? = none := by
  rcases (Option.any_eq_true _ _).1 h with ⟨t, ht, -⟩
  exact target?_of_leaf? ht

/-- Each component of a name is a target. -/
theorem Dotted.targets {ns : List Node} {ts : List Token} (h : Dotted ns ts) :
    Node.targets ns = ts := by
  induction h with
  | last ht => rw [targets_cons, target?_nameRef ht]; rfl
  | qualified ht hpoint _ ih =>
      rw [targets_cons, targets_cons, target?_nameRef ht, target?_of_isMark hpoint, ih]
      rfl

theorem targets_visibleOf (ns : List Node) : targets (visibleOf ns) = targets ns := by
  rw [targets, targets, visibleOf, List.filterMap_filter]
  refine List.filterMap_congr fun n _ => ?_
  split
  · rfl
  · rename_i hblank
    rw [Bool.not_eq_true', Bool.not_eq_false] at hblank
    rcases (Option.any_eq_true _ _).1 hblank with ⟨t, ht, -⟩
    exact (target?_of_leaf? ht).symm

/-- A name that comes first is the first target. -/
theorem exists_targets_of_head? {ns : List Node} {v : Token}
    (h : (visibleOf ns).head?.bind target? = some v) : ∃ rest, targets ns = v :: rest := by
  rcases Option.bind_eq_some_iff.1 h with ⟨n, hn, hv⟩
  rcases List.head?_eq_some_iff.1 hn with ⟨ms, hms⟩
  refine ⟨targets ms, ?_⟩
  rw [← targets_visibleOf, hms, targets_cons, hv]
  rfl

end Node

/-- The commands that add or drop a named constraint. -/
def namedCommands : List Command :=
  [.addUnique, .addPrimaryKey, .dropConstraint]

/-- The table has the value of the one token for its name, and every column of it
    bears one constraint, which has that of the other. -/
def Table.NamedBy (t : Table) (u v : Token) : Prop :=
  t.name = u.value ∧ t.columns ≠ [] ∧
    ∀ column ∈ t.columns, column.constraints.map Constraint.name = [v.value]

section Commands

variable {sql : String} {root : Group} {c : Command} (hc : c ∈ namedCommands)
  (htag : statementTag sql = .ok c.tag) (hroot : Group.ofText sql = .ok root)

include hc htag hroot

/-- A named constraint is added or dropped by no other keywords than these. -/
theorem keywords_of_named : root.keywords = c.keywords := by
  have hwhole : ∀ c ∈ namedCommands, c.IsWhole := by decide
  exact keywords_of_statementTag (hwhole c hc) htag hroot

/-- So there is one `CONSTRAINT`, and the other keywords stand around it. -/
theorem exists_split_at_constraint :
    ∃ front mark back, root.children = front ++ mark :: back ∧
      mark.keyword? = some .constraint ∧
      front.filterMap Node.keyword? ++ .constraint :: back.filterMap Node.keyword? =
        c.keywords := by
  have hkeywords := keywords_of_named hc htag hroot
  have hall : ∀ c ∈ namedCommands, .constraint ∈ c.keywords := by decide
  have hmem : .constraint ∈ root.keywords := hkeywords ▸ hall c hc
  rcases List.mem_filterMap.1 hmem with ⟨mark, hmark, hkeyword⟩
  rcases List.append_of_mem hmark with ⟨front, back, hchildren⟩
  refine ⟨front, mark, back, hchildren, hkeyword, ?_⟩
  rw [← hkeywords, Group.keywords, hchildren, List.filterMap_append,
    List.filterMap_cons_some hkeyword]

end Commands

/-- The parenthesis behind a keyword: it is a child of the statement or the first
    item of a list, and nothing visible is between the two. -/
structure Group.ListsBehind (root : Group) (k : Keyword) (front : List Node) (n p : Node)
    (back : List Node) : Prop where
  children : root.children = front ++ n :: back
  keyword : (Node.visibleOf front).getLast?.bind Node.keyword? = some k
  first : n.opened.head? = some p
  parens : p.isGroup .parenthesis = true

/-- A parenthesis of a statement encloses a run, also in a list. -/
theorem enclosed_of_opened {items : List Nested} (h : ∀ item ∈ items, item.Matched) {n p : Node}
    (hn : n ∈ rootNodes items) (hp : p ∈ n.opened) (hparens : p.isGroup .parenthesis = true) :
    ∃ forced, p.IsEnclosed forced := by
  have hlevel : p ∈ levelNodes items → ∃ forced, p.IsEnclosed forced := by
    intro hlevel
    rcases mem_outerNodes_or_call_of_level hparens (Or.inl rfl) hlevel with houter | ⟨hcall, -⟩
    · exact enclosed_of_mem_outerNodes h houter hparens
    · exact absurd hcall Shape.noConfusion
  by_cases hlist : n.isGroup .nameList = true
  · -- The items of a list stood on the level before it was listed.
    rw [rootNodes_eq_groupWhere] at hn
    rcases Node.mem_groupWhere hn with hn | ⟨_, _, rfl, -⟩
    · rcases Node.mem_groupLists hn with hn | ⟨parts, rfl, -, -, hmem⟩
      · exact absurd hlist (by rw [not_list_of_mem_levelNodes hn]; exact Bool.false_ne_true)
      · exact hlevel (hmem p hp)
    · exact absurd hlist Bool.false_ne_true
  · rw [Node.opened_of_not_list (Bool.eq_false_iff.2 hlist), List.mem_singleton] at hp
    exact enclosed_of_mem_rootNodes h (hp ▸ hn) hparens

/-- The leaves of a node begin with those of the first that it opens to. -/
theorem Node.exists_leaves_opened {n p : Node} (h : n.opened.head? = some p) (path : List Frame) :
    ∃ inner rest, n.leaves path = p.leaves (inner ++ path) ++ rest ∧
      ∀ f ∈ inner, f.shape ≠ .whereClause := by
  by_cases hlist : n.isGroup .nameList = true
  · cases n with
    | leaf t => exact absurd hlist Bool.false_ne_true
    | group shape items =>
        obtain rfl : shape = .nameList := Option.some.inj (of_decide_eq_true hlist)
        rcases List.head?_eq_some_iff.1 h with ⟨ns, hitems⟩
        obtain rfl : items = p :: ns := hitems
        exact ⟨[⟨⟨.nameList, p :: ns⟩, 0⟩], _, rfl, List.forall_mem_singleton.2 Shape.noConfusion⟩
  · rw [Node.opened_of_not_list (Bool.eq_false_iff.2 hlist), List.head?_cons,
      Option.some.injEq] at h
    exact ⟨[], [], by rw [h, List.append_nil, List.nil_append], List.forall_mem_nil _⟩

/-- The leaves of a listing parenthesis are a stretch of all, and if its items are
    names, its columns are these. -/
theorem Group.ListsBehind.exists_leaves {sql : String} {root : Group} {k : Keyword}
    {front back : List Node} {n p : Node} (h : root.ListsBehind k front n p back)
    (hroot : Group.ofText sql = .ok root) :
    ∃ path behind, root.leaves =
        Node.leavesFrom root [] 0 front ++ (p.leaves path ++ behind) ∧
      ∀ names : List Token, p.parenItems.map columnName? = names.map some →
        Leaf.readings Leaf.isColumn Leaf.value (p.leaves path) = names.map Token.value := by
  rcases Node.exists_leaves_opened h.first [⟨root, front.length⟩] with
    ⟨inner, rest, hleaves, hinner⟩
  rcases ofText_eq_ok_iff.1 hroot with ⟨_, items, -, hnest, hitems⟩
  refine ⟨inner ++ [⟨root, front.length⟩],
    rest ++ Node.leavesFrom root [] (front.length + 1) back, ?_, fun names hnames => ?_⟩
  · have hall : root.leaves = Node.leavesFrom root [] 0 root.children := rfl
    rw [hall, h.children, Node.leavesFrom_append, Nat.zero_add, Node.leavesFrom, hleaves,
      List.append_assoc]
  · have hn : n ∈ rootNodes items := by
      have hmem : n ∈ root.children := by
        rw [h.children]
        exact List.mem_append_right _ List.mem_cons_self
      rwa [hitems] at hmem
    rcases enclosed_of_opened (Nested.matched_nest hnest) hn (List.mem_of_mem_head? h.first)
      h.parens with ⟨forced, henclosed⟩
    have hpath : ∀ f ∈ inner ++ [⟨root, front.length⟩], f.shape ≠ .whereClause := by
      intro f hf
      rcases List.mem_append.1 hf with hf | hf
      · exact hinner f hf
      · rw [List.mem_singleton.1 hf, hitems]
        exact Shape.noConfusion
    exact (reads_enclosed (k := k) henclosed hpath hnames).names

namespace Leaf

/-- What is read of a stretch is all that is read exactly if nothing around it is
    chosen. -/
theorem readings_eq_stretch_iff {β : Type} {chosen : Leaf → Bool} {read : Leaf → β}
    {as ls bs : List Leaf} :
    readings chosen read (as ++ (ls ++ bs)) = readings chosen read ls ↔
      ∀ l ∈ as ++ bs, chosen l = false := by
  rw [readings_append, readings_append]
  constructor
  · intro h
    have hlength := congrArg List.length h
    simp only [List.length_append, readings, List.length_map] at hlength
    have has : as.filter chosen = [] := List.length_eq_zero_iff.1 (by omega)
    have hbs : bs.filter chosen = [] := List.length_eq_zero_iff.1 (by omega)
    intro l hl
    rcases List.mem_append.1 hl with hl | hl
    · exact Bool.eq_false_iff.2 (List.filter_eq_nil_iff.1 has l hl)
    · exact Bool.eq_false_iff.2 (List.filter_eq_nil_iff.1 hbs l hl)
  · intro h
    rw [readings_eq_nil fun l hl => h l (List.mem_append_left _ hl),
      readings_eq_nil fun l hl => h l (List.mem_append_right _ hl), List.nil_append,
      List.append_nil]

end Leaf

/-- What adds a named constraint puts it on every column name of the statement. -/
theorem columnNames_of_addition {kind : ConstraintKind} {root : Group} {t : Table}
    (h : (Extraction.addConstraint kind).run root = .ok (.table t)) :
    t.columnNames = Leaf.readings Leaf.isColumn Leaf.value root.leaves := by
  rcases map_eq_ok.1 h with ⟨u, hu, heq⟩
  obtain rfl := Entity.table.inj heq
  rcases constrainedTable_eq_ok_iff.1 hu with ⟨name, constraint, -, -, rfl⟩
  rw [Table.columnNames, List.filterMap_map, Leaf.readings, ← List.filterMap_eq_map]
  rfl

theorem exists_addition {c : Command} (hc : c ∈ namedCommands) (hdrop : c ≠ .dropConstraint) :
    ∃ kind, c.extraction = .addConstraint kind := by
  simp only [namedCommands, List.mem_cons, List.not_mem_nil, or_false] at hc
  rcases hc with rfl | rfl | rfl
  · exact ⟨_, rfl⟩
  · exact ⟨_, rfl⟩
  · exact absurd rfl hdrop

section Split

variable {front back : List Node} {mark : Node}

/-- A keyword is no target. -/
theorem targets_around (hmark : mark.keyword? = some .constraint) :
    Node.targets (front ++ mark :: back) = Node.targets front ++ Node.targets back := by
  rcases Option.bind_eq_some_iff.1 hmark with ⟨t, ht, -⟩
  rw [Node.targets_append, Node.targets_cons, Node.target?_of_leaf? ht]
  rfl

/-- The first two targets, if one name with its qualifiers stands in front and
    another name comes first behind. -/
theorem targets_of_dotted {before name after : List Node} {u v : Token} {us : List Token}
    (hfront : Node.visibleOf front = before ++ (name ++ after))
    (hbefore : Node.targets before = []) (hafter : Node.targets after = [])
    (hname : Node.Dotted name (u :: us))
    (hback : (Node.visibleOf back).head?.bind Node.target? = some v) :
    ∃ rest, Node.targets front ++ Node.targets back = u :: us.head?.getD v :: rest := by
  rcases Node.exists_targets_of_head? hback with ⟨rest, hrest⟩
  rw [← Node.targets_visibleOf front, hfront, Node.targets_append, Node.targets_append, hbefore,
    hafter, hname.targets, hrest, List.nil_append, List.append_nil]
  cases us with
  | nil => exact ⟨rest, rfl⟩
  | cons w us => exact ⟨us ++ v :: rest, rfl⟩

end Split

/-- A statement about a named constraint has its keywords around one `CONSTRAINT`.
    Its table and its constraint are named by the first two targets. These are the
    name in front and the one right behind the `CONSTRAINT`, if the first has no
    qualifier; if it has one, they are its first two components. Where a constraint
    is added, the columns are all column names. They are the names listed behind
    the last keyword exactly if no column name stands elsewhere. -/
theorem named_constraint_reads {sql : String} {c : Command} {e : Entity}
    (hc : c ∈ namedCommands) (h : classify sql = .ok e) (htag : statementTag sql = .ok c.tag) :
    ∃ root t front mark back, Group.ofText sql = .ok root ∧ e = .table t ∧
      root.children = front ++ mark :: back ∧ mark.keyword? = some .constraint ∧
      front.filterMap Node.keyword? ++ .constraint :: back.filterMap Node.keyword? =
        c.keywords ∧
      (∃ u v rest, Node.targets front ++ Node.targets back = u :: v :: rest ∧
        t.NamedBy u v) ∧
      (∀ before name after u us v, Node.visibleOf front = before ++ (name ++ after) →
        Node.targets before = [] → Node.targets after = [] → Node.Dotted name (u :: us) →
        (Node.visibleOf back).head?.bind Node.target? = some v →
        t.NamedBy u (us.head?.getD v)) ∧
      (c ≠ .dropConstraint →
        t.columnNames = Leaf.readings Leaf.isColumn Leaf.value root.leaves ∧
        ∀ k before n p after (names : List Token), c.keywords.getLast? = some k →
          root.ListsBehind k before n p after → p.parenItems.map columnName? = names.map some →
          ∃ ahead path behind, ahead = Node.leavesFrom root [] 0 before ∧
            root.leaves = ahead ++ (p.leaves path ++ behind) ∧
            t.columnNames = Leaf.readings Leaf.isColumn Leaf.value ahead ++
              (names.map Token.value ++ Leaf.readings Leaf.isColumn Leaf.value behind) ∧
            (t.columnNames = names.map Token.value ↔
              ∀ l ∈ ahead ++ behind, l.isColumn = false)) := by
  rcases classify_eq_ok_iff.1 h with ⟨root, _, hroot, -, -⟩
  have hextract := extract_of_tag h htag hroot
  rcases exists_split_at_constraint hc htag hroot with
    ⟨front, mark, back, hchildren, hmark, hkeywords⟩
  have hall : ∀ c ∈ namedCommands, c.targets = 2 := by decide
  have htwo : c.extraction.targets = 2 := by rw [c.targets_extraction, hall c hc]
  rcases Extraction.constraint_of_run (isStatement_of_ofText hroot) htwo hextract with
    ⟨u, v, rest, htargets, hname, hne, hcolumns⟩
  rw [hchildren, targets_around hmark] at htargets
  cases e with
  | database d => exact absurd rfl hne
  | table t =>
  have hnamed : t.NamedBy u v := ⟨hname, hne, hcolumns⟩
  refine ⟨root, t, front, mark, back, hroot, rfl, hchildren, hmark, hkeywords,
    ⟨u, v, rest, htargets, hnamed⟩, ?_, fun hdrop => ?_⟩
  · intro before name after u' us v' hfront hbefore hafter hdotted hback
    rcases targets_of_dotted hfront hbefore hafter hdotted hback with ⟨rest', hfirst⟩
    rw [htargets, List.cons.injEq, List.cons.injEq] at hfirst
    rwa [← hfirst.1, ← hfirst.2.1]
  · rcases exists_addition hc hdrop with ⟨kind, hkind⟩
    rw [Command.extract, hkind] at hextract
    have hnames := columnNames_of_addition hextract
    refine ⟨hnames, fun k before n p after names _ hlists hitems => ?_⟩
    rcases hlists.exists_leaves hroot with ⟨path, behind, hleaves, hlisted⟩
    refine ⟨_, path, behind, rfl, hleaves, ?_⟩
    rw [hnames, ← hlisted names hitems, hleaves]
    refine ⟨?_, Leaf.readings_eq_stretch_iff⟩
    rw [Leaf.readings_append, Leaf.readings_append]

/-- Two columns are listed, and no name has a qualifier. -/
theorem named_constraint_reads_pair :
    ∃ root t front mark back,
      classify "ALTER TABLE t ADD CONSTRAINT c PRIMARY KEY (a, b)" = .ok (.table t) ∧
      statementTag "ALTER TABLE t ADD CONSTRAINT c PRIMARY KEY (a, b)" =
        .ok Command.addPrimaryKey.tag ∧
      Group.ofText "ALTER TABLE t ADD CONSTRAINT c PRIMARY KEY (a, b)" = .ok root ∧
      root.children = front ++ mark :: back ∧ mark.keyword? = some .constraint ∧
      (∃ u v rest, Node.targets front ++ Node.targets back = u :: v :: rest ∧
        t.NamedBy u v) ∧
      t.columnNames = Leaf.readings Leaf.isColumn Leaf.value root.leaves := by
  have htag : (statementTag "ALTER TABLE t ADD CONSTRAINT c PRIMARY KEY (a, b)").toOption =
      some Command.addPrimaryKey.tag := by
    decide +kernel
  have hok : (classify "ALTER TABLE t ADD CONSTRAINT c PRIMARY KEY (a, b)").toOption.isSome =
      true := by
    decide +kernel
  rcases Option.isSome_iff_exists.1 hok with ⟨e, he⟩
  have he := eq_ok_of_toOption he
  have htag := eq_ok_of_toOption htag
  rcases named_constraint_reads (c := .addPrimaryKey) (by decide) he htag with
    ⟨root, t, front, mark, back, hroot, rfl, hchildren, hmark, -, hnames, -, hcolumns⟩
  exact ⟨root, t, front, mark, back, he, htag, hroot, hchildren, hmark, hnames,
    (hcolumns (by decide)).1⟩

/-- The qualifier of a table is taken for the table, and the table for the
    constraint. -/
theorem misnamed_of_qualifier :
    ∃ t, classify "ALTER TABLE s.t ADD CONSTRAINT c UNIQUE (a)" = .ok (.table t) ∧
      statementTag "ALTER TABLE s.t ADD CONSTRAINT c UNIQUE (a)" =
        .ok Command.addUnique.tag ∧
      t.name = "s" ∧ t.constraints.map Constraint.name = ["t"] := by
  have htag : (statementTag "ALTER TABLE s.t ADD CONSTRAINT c UNIQUE (a)").toOption =
      some Command.addUnique.tag := by
    decide +kernel
  have hcheck : ((classify "ALTER TABLE s.t ADD CONSTRAINT c UNIQUE (a)").toOption.bind
      Entity.table?).any (fun t => decide (t.name = "s") &&
        decide (t.constraints.map Constraint.name = ["t"])) = true := by
    decide +kernel
  rcases exists_table_of_any hcheck with ⟨t, ht, hnames⟩
  rw [Bool.and_eq_true, decide_eq_true_eq, decide_eq_true_eq] at hnames
  exact ⟨t, ht, eq_ok_of_toOption htag, hnames⟩

end SqlGist
