import Mathlib.Data.List.Basic
import SqlGist.Definition
import SqlGist.Proofs.Extraction.Stages
import SqlGist.Proofs.Tree.Grammar
import SqlGist.Proofs.Tree.Paths

/-!
# Reading Leaves in Order

Columns and constraints are read off the leaves from left to right, and most
leaves add nothing to either. The laws here take a stretch of leaves off the
front: one that adds nothing, and one that is a parenthesis of listed columns.

The two scans differ in what they look back at. Columns are gathered into a
state, so a stretch is described by the state behind it. A constraint looks for
the nearest column among all leaves before it, so there only that column is
kept in mind.

## Main definitions

* `Leaf.Quiet`: The leaf adds nothing to the columns.
* `Token.Silent`: The token introduces no constraint.
* `Nearest`: The column that was read last.
* `Unlisted`: No parenthesis comes next.
* `Group.Outside`: Nothing in a group belongs to the condition.
* `Node.IsPart`: No group at or below a node is a statement or a condition.

## Theorems

* `gatherFrom_append`, `gatherFrom_of_no_column`, `gatherFrom_quiet`: Gathering
  goes on behind a stretch.
* `ownedFrom_cons`, `ownedFrom_pass`, `ownedFrom_silent`: So does the scan for
  constraints.
* `owned_cases`, `owned_of_readable`: Some constraint fails for its kind, or all
  are read in order.
* `listedColumns?_of_unlisted`, `listedColumns?_parenthesis`: The columns behind
  a keyword.
* `Tidy.isPart`: Tidy nodes are parts of a statement.
* `inWhere_of_tidy`: No leaf of a tidy node belongs to the condition.
-/

namespace SqlGist

section Gathering

variable {definitions : Bool} {action : Action} {g g' : Gathered}

theorem gatherFrom_append {as : List Leaf} (h : gatherFrom definitions action g as = .ok g')
    (bs : List Leaf) :
    gatherFrom definitions action g (as ++ bs) = gatherFrom definitions action g' bs := by
  induction as generalizing g with
  | nil =>
      unfold gatherFrom at h
      rw [Except.ok.injEq] at h
      rw [h, List.nil_append]
  | cons a as ih =>
      unfold gatherFrom at h
      rw [List.cons_append, gatherFrom]
      -- A leaf that fails ends the scan, so none of the stretch does.
      cases hread : g.read definitions action a with
      | error m =>
          rw [hread] at h
          exact absurd h (by simp only [reduceCtorEq, not_false_eq_true])
      | ok g₁ =>
          rw [hread] at h
          exact ih h

theorem gatherFrom_of_no_column {leaves : List Leaf} (hcolumn : ∀ l ∈ leaves, l.isColumn = false)
    (htype : ∀ l ∈ leaves, (definitions && l.isType) = false) :
    gatherFrom definitions action g leaves = .ok g := by
  induction leaves with
  | nil => rfl
  | cons l leaves ih =>
      have hread : g.read definitions action l = .ok g := by
        rw [Gathered.read, hcolumn l List.mem_cons_self, htype l List.mem_cons_self]
        rfl
      rw [gatherFrom, hread]
      exact ih (fun m hm => hcolumn m (List.mem_cons_of_mem _ hm))
        fun m hm => htype m (List.mem_cons_of_mem _ hm)

/-- The leaf neither names a column nor declares a type. -/
def Leaf.Quiet (l : Leaf) : Prop :=
  l.isColumn = false ∧ l.isType = false

theorem gatherFrom_quiet {leaves : List Leaf} (h : ∀ l ∈ leaves, l.Quiet) :
    gatherFrom definitions action g leaves = .ok g := by
  refine gatherFrom_of_no_column (fun l hl => (h l hl).1) fun l hl => ?_
  rw [(h l hl).2, Bool.and_false]

/-- A token that is neither a name nor a type makes a quiet leaf. -/
theorem Leaf.quiet_of_kind {l : Leaf} (hname : l.token.isName = false)
    (hbuiltin : l.token.kind ≠ .builtin) : l.Quiet := by
  constructor
  · rw [Leaf.isColumn, hname]
    rfl
  · rw [Leaf.isType, Leaf.isCallName, hname, decide_eq_false hbuiltin]
    rfl

end Gathering

/-- The token is none of the keywords that introduce a constraint. -/
def Token.Silent (t : Token) : Prop :=
  ∀ k ∈ [Keyword.primary, .notNull, .unique, .default], t.keyword? ≠ some k

instance : DecidablePred Token.Silent := fun t =>
  inferInstanceAs (Decidable (∀ k ∈ [Keyword.primary, .notNull, .unique, .default],
    t.keyword? ≠ some k))

theorem Token.silent_of_keyword? {t : Token} (h : t.keyword? = none) : t.Silent := by
  intro k _ hk
  rw [h] at hk
  exact Option.some_ne_none k hk.symm

theorem ownedAt_silent {l : Leaf} (h : l.token.Silent) (before after : List Leaf) :
    ownedAt before l after = .ok [] := by
  unfold ownedAt Leaf.constraintKeyword?
  by_cases hwhere : l.inWhere = true
  · rw [if_pos hwhere]
  · rw [if_neg hwhere]
    cases hk : l.keyword? with
    | none => rfl
    | some k =>
        -- Any other keyword stands for no constraint.
        have hnone : constraintAt k after = .ok none := by
          fun_cases constraintAt k after with
          | case6 => rfl
          | _ => exact absurd hk (h _ (by decide))
        simp only [hnone]

theorem ownedFrom_cons {before after : List Leaf} {l : Leaf} {here : List Owned}
    (h : ownedAt before l after = .ok here) :
    ownedFrom before (l :: after) = (ownedFrom (l :: before) after).map (here ++ ·) := by
  rw [ownedFrom, h]
  cases ownedFrom (l :: before) after <;> rfl

theorem ownedFrom_pass {l : Leaf} (h : l.token.Silent) (before after : List Leaf) :
    ownedFrom before (l :: after) = ownedFrom (l :: before) after := by
  rw [ownedFrom_cons (ownedAt_silent h before after)]
  cases ownedFrom (l :: before) after <;> rfl

/-- Behind leaves that add nothing the scan goes on. -/
theorem ownedFrom_silent {as : List Leaf} (h : ∀ l ∈ as, l.token.Silent)
    (before bs : List Leaf) :
    ownedFrom before (as ++ bs) = ownedFrom (as.reverse ++ before) bs := by
  induction as generalizing before with
  | nil => rfl
  | cons a as ih =>
      rw [List.cons_append, ownedFrom_pass (h a List.mem_cons_self),
        ih fun l hl => h l (List.mem_cons_of_mem _ hl), List.reverse_cons, List.append_assoc]
      rfl

theorem Leaf.constraintKeyword?_eq_some_iff {l : Leaf} {k : Keyword} :
    l.constraintKeyword? = some k ↔ l.inWhere = false ∧ l.keyword? = some k := by
  rw [constraintKeyword?]
  cases l.inWhere with
  | true => simp only [if_true, reduceCtorEq, false_and]
  | false => simp only [Bool.false_eq_true, if_false, true_and]

/-- A constraint of a kind that is not read is reported before any other is looked
    at. -/
theorem owned_cases (leaves : List Leaf) :
    (∃ l ∈ leaves, ∃ k ∈ unreadConstraints, l.constraintKeyword? = some k ∧
      owned leaves = .error (.malformedConstraint k)) ∨
    (∀ l ∈ leaves, ∀ k ∈ unreadConstraints, l.constraintKeyword? ≠ some k) ∧
      owned leaves = ownedFrom [] leaves := by
  rw [owned]
  cases hfind : (leaves.filterMap Leaf.constraintKeyword?).find? unreadConstraints.contains with
  | some k =>
      rcases List.mem_filterMap.1 (List.mem_of_find?_eq_some hfind) with ⟨l, hl, hk⟩
      exact Or.inl ⟨l, hl, k, List.contains_iff_mem.1 (List.find?_some hfind), hk, rfl⟩
  | none =>
      refine Or.inr ⟨fun l hl k hunread hk => ?_, rfl⟩
      exact List.find?_eq_none.1 hfind k (List.mem_filterMap.2 ⟨l, hl, hk⟩)
        (List.contains_iff_mem.2 hunread)

/-- Where every constraint can be read, they are read in order. -/
theorem owned_of_readable {leaves : List Leaf}
    (h : ∀ l ∈ leaves, ∀ k ∈ unreadConstraints, l.keyword? ≠ some k) :
    owned leaves = ownedFrom [] leaves := by
  rcases owned_cases leaves with ⟨l, hl, k, hunread, hk, -⟩ | ⟨-, howned⟩
  · exact absurd (Leaf.constraintKeyword?_eq_some_iff.1 hk).2 (h l hl k hunread)
  · exact howned

/-- Of the leaves read so far, given in reverse, the last column has this
    name. -/
def Nearest (name : String) (before : List Leaf) : Prop :=
  ∃ l, before.find? Leaf.isColumn = some l ∧ l.value = name

theorem nearest_cons {l : Leaf} (h : l.isColumn = true) (before : List Leaf) :
    Nearest l.value (l :: before) :=
  ⟨l, List.find?_cons_of_pos h, rfl⟩

theorem Nearest.cons {name : String} {before : List Leaf} (h : Nearest name before) {l : Leaf}
    (hl : l.isColumn = false) : Nearest name (l :: before) := by
  unfold Nearest
  rw [List.find?_cons_of_neg (Bool.eq_false_iff.1 hl)]
  exact h

theorem Nearest.append {name : String} {before as : List Leaf} (h : Nearest name before)
    (has : ∀ l ∈ as, l.isColumn = false) : Nearest name (as.reverse ++ before) := by
  have hnone : as.reverse.find? Leaf.isColumn = none :=
    List.find?_eq_none.2 fun l hl => Bool.eq_false_iff.1 (has l (List.mem_reverse.1 hl))
  unfold Nearest
  rw [List.find?_append, hnone, Option.none_or]
  exact h

theorem Nearest.nearestColumn {name : String} {before : List Leaf} (h : Nearest name before)
    (k : Keyword) : nearestColumn k before = .ok [name] := by
  rcases h with ⟨l, hl, rfl⟩
  rw [SqlGist.nearestColumn, hl]

/-- What comes next, blanks aside, is neither a `KEY` nor a parenthesis. -/
def Unlisted (after : List Leaf) : Prop :=
  ∀ l, (skipBlanks after).head? = some l →
    l.keyword? ≠ some .key ∧ l.token.isMark "(" = false

theorem listedColumns?_of_head {after rest : List Leaf} (hkey : skipKey after = rest)
    (h : ∀ l, rest.head? = some l → l.token.isMark "(" = false) : listedColumns? after = none := by
  rw [listedColumns?, hkey]
  cases rest with
  | nil => rfl
  | cons l rest =>
      simp only [h l rfl, Bool.false_and, Bool.false_eq_true, if_false]

theorem listedColumns?_of_unlisted {after : List Leaf} (h : Unlisted after) :
    listedColumns? after = none := by
  unfold Unlisted at h
  have hskip : skipKey after = skipBlanks after := by
    unfold skipKey
    cases hnext : skipBlanks after with
    | nil => rfl
    | cons l rest =>
        rw [hnext] at h
        simp only [if_neg (h l rfl).1]
  refine listedColumns?_of_head hskip fun l hl => ?_
  exact (h l hl).2

/-- The same behind a `KEY`. -/
theorem listedColumns?_key {after behind : List Leaf} {key : Leaf}
    (hafter : skipBlanks after = key :: behind) (hkey : key.keyword? = some .key)
    (h : Unlisted behind) : listedColumns? after = none := by
  have hskip : skipKey after = skipBlanks behind := by
    rw [skipKey, hafter]
    simp only [hkey, if_true]
  exact listedColumns?_of_head hskip fun l hl => (h l hl).2

namespace Leaf

theorem address_length (l : Leaf) : l.address.length = l.path.length := by
  rw [address, List.length_reverse, List.length_map]

/-- A leaf that stands no deeper than a group does not lie in it. -/
theorem isWithin_of_length {l : Leaf} {path : List Frame} (h : l.path.length ≤ path.length) :
    l.isWithin (path.map Frame.index).reverse = false := by
  have hlong : ¬(path.map Frame.index).reverse.length < l.address.length := by
    rw [address_length, List.length_reverse, List.length_map]
    omega
  rw [isWithin, decide_eq_false hlong, Bool.and_false]

end Leaf

/-- A parenthesis behind a keyword lists the columns that stand in it. The
    first leaf behind it is one that stands no deeper than the parenthesis. -/
theorem listedColumns?_parenthesis {after inner rest : List Leaf} {path : List Frame}
    {t : Token} {children : List Node} {index : Nat} (hopen : t.isMark "(" = true)
    (hleaves : (Node.group .parenthesis children).leaves path =
      ⟨t, ⟨⟨.parenthesis, children⟩, index⟩ :: path⟩ :: inner)
    (hskip : skipKey after = (Node.group .parenthesis children).leaves path ++ rest)
    (hrest : ∀ l, rest.head? = some l → l.path.length ≤ path.length) :
    listedColumns? after = some ((inner.filter Leaf.isColumn).map Leaf.value) := by
  -- The scan takes all that lies in the parenthesis, and stops right behind it.
  have hwithin : ∀ l ∈ inner, l.isWithin (path.map Frame.index).reverse = true := by
    intro l hl
    have hmem : l ∈ (Node.group .parenthesis children).leaves path := by
      rw [hleaves]
      exact List.mem_cons_of_mem _ hl
    rcases Node.suffix_of_mem_leavesFrom _ path 0 children hmem with ⟨place, -, hsuffix⟩
    exact Leaf.isWithin_of_suffix hsuffix
  have hstop : rest.takeWhile (fun l => l.isWithin (path.map Frame.index).reverse) = [] := by
    cases rest with
    | nil => rfl
    | cons l rest =>
        exact List.takeWhile_cons_of_neg
          (Bool.eq_false_iff.1 (Leaf.isWithin_of_length (hrest l rfl)))
  have haddress : (Leaf.address ⟨t, ⟨⟨.parenthesis, children⟩, index⟩ :: path⟩).dropLast =
      (path.map Frame.index).reverse := by
    rw [Leaf.address, List.map_cons, List.reverse_cons, List.dropLast_concat]
  have hparent : Leaf.ancestorsAre ⟨t, ⟨⟨.parenthesis, children⟩, index⟩ :: path⟩
      [.parenthesis] = true := rfl
  rw [listedColumns?, hskip, hleaves, List.cons_append]
  simp only [haddress, hopen, Bool.true_and]
  rw [if_pos hparent, List.takeWhile_append_of_pos hwithin, hstop, List.append_nil]

/-- Neither a group nor what is around it is the condition. -/
def Group.Outside (g : Group) (path : List Frame) : Prop :=
  g.shape ≠ .whereClause ∧ ∀ f ∈ path, f.shape ≠ .whereClause

theorem outside_of_statement {g : Group} (h : g.shape = .statement) : g.Outside [] :=
  ⟨fun hwhere => Shape.noConfusion (h.symm.trans hwhere), fun _ hf => absurd hf List.not_mem_nil⟩

namespace Group.Outside

variable {g : Group} {path : List Frame} (h : g.Outside path)

include h

theorem frames (i : Nat) : ∀ f ∈ ⟨g, i⟩ :: path, f.shape ≠ .whereClause := by
  intro f hf
  rcases List.mem_cons.1 hf with rfl | hf
  · exact h.1
  · exact h.2 f hf

theorem inner {inside : Group} (hshape : inside.shape ≠ .whereClause) (i : Nat) :
    inside.Outside (⟨g, i⟩ :: path) :=
  ⟨hshape, h.frames i⟩

theorem inWhere (i : Nat) (t : Token) : Leaf.inWhere ⟨t, ⟨g, i⟩ :: path⟩ = false := by
  rw [Leaf.inWhere, Leaf.hasAncestor, ← Bool.not_eq_true, List.any_eq_true]
  rintro ⟨f, hf, hshape⟩
  exact h.frames i f hf (of_decide_eq_true hshape)

end Group.Outside

namespace Node

/-- Between a leaf of the node and what is around the node there are parts of a
    statement alone, and neither a statement nor a condition. -/
def IsPart (n : Node) : Prop :=
  ∀ path, ∀ l ∈ n.leaves path, ∃ front, l.path = front ++ path ∧
    ∀ f ∈ front, f.shape ≠ .statement ∧ f.shape ≠ .whereClause

theorem isPart_leaf (t : Token) : (leaf t).IsPart := by
  intro path l hl
  rw [List.mem_singleton.1 hl]
  exact ⟨[], rfl, fun f hf => absurd hf List.not_mem_nil⟩

theorem isPart_group {shape : Shape} {children : List Node} (hstatement : shape ≠ .statement)
    (hclause : shape ≠ .whereClause) (h : ∀ m ∈ children, m.IsPart) :
    (group shape children).IsPart := by
  intro path l hl
  rcases mem_leavesFrom hl with ⟨m, hm, place, hl⟩
  rcases h m hm _ l hl with ⟨front, hpath, hfront⟩
  refine ⟨front ++ [⟨⟨shape, children⟩, place⟩], ?_, ?_⟩
  · rw [hpath, List.append_assoc, List.singleton_append]
  · intro f hf
    rcases List.mem_append.1 hf with hf | hf
    · exact hfront f hf
    · rw [List.mem_singleton.1 hf]
      exact ⟨hstatement, hclause⟩

theorem Tidy.isPart {n : Node} (h : n.Tidy) : n.IsPart := by
  have hname (t : Token) : (nameRef (.leaf t)).IsPart :=
    isPart_group Shape.noConfusion Shape.noConfusion fun m hm =>
      List.mem_singleton.1 hm ▸ isPart_leaf t
  induction h with
  | leaf => exact isPart_leaf _
  | name => exact hname _
  | call _ _ _ ih =>
      refine isPart_group Shape.noConfusion Shape.noConfusion fun m hm => ?_
      rcases List.mem_pair.1 hm with rfl | rfl
      · exact hname _
      · exact ih
  | comparison _ _ _ _ _ _ ih => exact isPart_group Shape.noConfusion Shape.noConfusion ih
  | list _ _ _ ih => exact isPart_group Shape.noConfusion Shape.noConfusion ih
  | parens _ _ _ ih =>
      refine isPart_group Shape.noConfusion Shape.noConfusion fun m hm => ?_
      rcases List.mem_cons.1 hm with rfl | hm
      · exact isPart_leaf _
      · rcases List.mem_append.1 hm with hm | hm
        · exact ih m hm
        · exact List.mem_singleton.1 hm ▸ isPart_leaf _

end Node

/-- No leaf of a tidy node belongs to the condition, if the node does not. -/
theorem inWhere_of_tidy {n : Node} (h : n.Tidy) {g : Group} {path : List Frame}
    (houtside : g.Outside path) (index : Nat) :
    ∀ l ∈ n.leaves (⟨g, index⟩ :: path), l.inWhere = false := by
  intro l hl
  rcases h.isPart _ l hl with ⟨front, hpath, hfront⟩
  rw [Leaf.inWhere, Leaf.hasAncestor, hpath, ← Bool.not_eq_true, List.any_eq_true]
  rintro ⟨f, hf, hshape⟩
  rcases List.mem_append.1 hf with hf | hf
  · exact (hfront f hf).2 (of_decide_eq_true hshape)
  · exact houtside.frames index f hf (of_decide_eq_true hshape)

end SqlGist
