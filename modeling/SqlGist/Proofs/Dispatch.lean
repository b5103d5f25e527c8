import Mathlib.Data.List.Basic
import SqlGist.Classify

/-!
# Tags Decode

A tag runs the spellings of keywords together, and nothing in it says where one
ends. It can still be read back, but for two keywords that are made of others:
`INTO` is spelled like `IN` and `TO`, and `NOT NULL` like `NOT` and `NULL`. So
what a tag fixes is the sequence of keywords with these two taken apart.

Among the keywords that are left, some open with others, as `INSERT` and `INDEX`
do with `IN` and `ORDER` with `OR`. Whoever reads the shorter one there is left
with an end that no keyword continues, and this is all that decoding rests on:
two readings that part at some place cannot meet again, so they never part.

Two tags are looked up by how they begin. The keywords of `CREATE TABLE` and
`ALTER TABLE ADD` neither open another keyword nor with one, so a tag begins with
theirs only where the keywords do.

## Main definitions

* `Keyword.parts`, `expand`: Keywords taken apart.
* `Keyword.atoms`: The keywords that are made of no others.
* `Keyword.fused`: The keywords that others are made of.
* `Keyword.solid`: Keywords that share no beginning with another.
* `tagOf`: The tag of a sequence of keywords.
* `Command.keywords`: The keywords of a command.
* `Command.Names`: The keywords of a statement name a command.
* `Command.IsWhole`: No other keywords name a command.

## Theorems

* `dead_end`: What is left of a longer keyword behind a shorter one.
* `flatMap_tagPart_injective`: Atoms are read back from their spellings.
* `tagOf_eq_iff`: A tag fixes the keywords, taken apart.
* `exists_of_expand_eq_cons`, `exists_of_expand_eq_concat`, `eq_of_expand_eq`:
  Keywords that were whole all the time.
* `flatMap_tagPart_prefix_iff`: The beginning of a tag fixes solid keywords.
* `opensWith_tagOf_iff`: When a tag begins with that of a command.
* `names_of_statementTag`: The keywords of a statement name its command.
* `keywords_of_statementTag`: They are its own if these are whole.
* `dispatch_by_keywords`: Which command a statement is, by its keywords.
-/

namespace SqlGist

namespace Keyword

/-- The keywords that a keyword is made of, itself alone if it is one word. -/
def parts : Keyword → List Keyword
  | .into => [.inKw, .to]
  | .notNull => [.not, .null]
  | k => [k]

/-- The keywords that are made of no others. -/
def atoms : List Keyword :=
  singleWords.filter fun k => k ≠ .into

/-- The keywords that others are made of. -/
def fused : List Keyword :=
  into.parts ++ notNull.parts

/-- Keywords that neither open another keyword nor with one. -/
def solid : List Keyword :=
  [.create, .alter, .table, .add]

theorem tagPart_ne_nil (k : Keyword) : k.tagPart ≠ [] := by
  cases k <;> decide +kernel

theorem parts_ne_nil (k : Keyword) : k.parts ≠ [] := by
  cases k <;> exact List.cons_ne_nil _ _

/-- A keyword stays whole or comes apart into such as others are made of. -/
theorem parts_cases (k : Keyword) : k.parts = [k] ∨ ∀ a ∈ k.parts, a ∈ fused := by
  cases k <;> decide

theorem eq_of_parts_eq_singleton {k a : Keyword} (h : k.parts = [a]) : k = a := by
  cases k with
  | into => exact absurd (List.cons.inj h).2 (List.cons_ne_nil _ _)
  | notNull => exact absurd (List.cons.inj h).2 (List.cons_ne_nil _ _)
  | _ => exact (List.cons.inj h).1

theorem parts_injective {k k' : Keyword} (h : k.parts = k'.parts) : k = k' := by
  have hlength := congrArg List.length h
  cases k' with
  | into =>
      cases k with
      | into => rfl
      | notNull => exact absurd h (by decide)
      | _ => exact absurd hlength (by decide)
  | notNull =>
      cases k with
      | notNull => rfl
      | into => exact absurd h (by decide)
      | _ => exact absurd hlength (by decide)
  | _ => exact eq_of_parts_eq_singleton h

theorem mem_words (k : Keyword) : k ∈ .notNull :: singleWords := by
  cases k <;> decide

theorem parts_subset_atoms (k : Keyword) : ∀ a ∈ k.parts, a ∈ atoms := by
  cases k <;> decide

/-- A keyword is spelled like the keywords that it is made of. -/
theorem flatMap_tagPart_parts (k : Keyword) : k.parts.flatMap tagPart = k.tagPart := by
  cases k with
  | into => decide +kernel
  | notNull => decide +kernel
  | _ => exact List.append_nil _

/-- Where an atom opens another, no atom continues what is left of the longer
    one, and none ends in it. -/
theorem dead_end : ∀ a ∈ atoms, ∀ b ∈ atoms, a ≠ b → a.tagPart <+: b.tagPart →
    ∀ k ∈ atoms, ¬b.tagPart.drop a.tagPart.length <+: k.tagPart ∧
      ¬k.tagPart <+: b.tagPart.drop a.tagPart.length := by
  decide +kernel

theorem eq_of_solid : ∀ k ∈ solid, ∀ h ∈ .notNull :: singleWords,
    h.tagPart <+: k.tagPart ∨ k.tagPart <+: h.tagPart → h = k := by
  decide +kernel

/-- Two beginnings of one list are beginnings of each other. -/
theorem comparable_of_append_eq {as as' bs bs' : List Char} (h : as ++ as' = bs ++ bs') :
    as <+: bs ∨ bs <+: as :=
  List.prefix_or_prefix_of_prefix (h ▸ List.prefix_append as as') (List.prefix_append bs bs')

section Decoding

variable {a b : Keyword} {as bs : List Keyword}

/-- Two spellings that agree do not open with two different atoms, not even with
    one that opens the other. -/
theorem eq_of_opening (ha : a ∈ atoms) (hb : b ∈ atoms) (has : ∀ k ∈ as, k ∈ atoms)
    (h : a.tagPart ++ as.flatMap tagPart = b.tagPart ++ bs.flatMap tagPart)
    (hopens : a.tagPart <+: b.tagPart) : a = b := by
  by_contra hne
  have hdead := dead_end a ha b hb hne hopens
  rcases hopens with ⟨left, hleft⟩
  rw [← hleft, List.drop_left] at hdead
  rw [← hleft, List.append_assoc] at h
  have hbehind := List.append_cancel_left h
  -- What the shorter atom leaves has to be spelled by the atoms behind it.
  cases as with
  | nil =>
      have hnil := (List.append_eq_nil_iff.1 hbehind.symm).1
      exact (hdead a ha).1 (hnil ▸ List.nil_prefix)
  | cons k as =>
      rw [List.flatMap_cons] at hbehind
      have hk := hdead k (has k List.mem_cons_self)
      exact (comparable_of_append_eq hbehind).elim hk.2 hk.1

theorem flatMap_tagPart_injective (has : ∀ k ∈ as, k ∈ atoms) (hbs : ∀ k ∈ bs, k ∈ atoms)
    (h : as.flatMap tagPart = bs.flatMap tagPart) : as = bs := by
  induction as generalizing bs with
  | nil =>
      cases bs with
      | nil => rfl
      | cons b bs =>
          rw [List.flatMap_cons] at h
          exact absurd (List.append_eq_nil_iff.1 h.symm).1 (tagPart_ne_nil b)
  | cons a as ih =>
      cases bs with
      | nil =>
          rw [List.flatMap_cons] at h
          exact absurd (List.append_eq_nil_iff.1 h).1 (tagPart_ne_nil a)
      | cons b bs =>
          have ha := has a List.mem_cons_self
          have hb := hbs b List.mem_cons_self
          have has' := fun k hk => has k (List.mem_cons_of_mem a hk)
          have hbs' := fun k hk => hbs k (List.mem_cons_of_mem b hk)
          rw [List.flatMap_cons, List.flatMap_cons] at h
          obtain rfl : a = b := by
            rcases comparable_of_append_eq h with hopens | hopens
            · exact eq_of_opening ha hb has' h hopens
            · exact (eq_of_opening hb ha hbs' h.symm hopens).symm
          rw [ih has' hbs' (List.append_cancel_left h)]

end Decoding

/-- A spelling that begins with solid keywords is one of keywords that begin
    with them. -/
theorem flatMap_tagPart_prefix_iff {ws ks : List Keyword} (hws : ∀ w ∈ ws, w ∈ solid) :
    ws.flatMap tagPart <+: ks.flatMap tagPart ↔ ws <+: ks := by
  induction ws generalizing ks with
  | nil => exact iff_of_true List.nil_prefix List.nil_prefix
  | cons w ws ih =>
      cases ks with
      | nil =>
          rw [List.flatMap_nil, List.prefix_nil, List.prefix_nil, List.flatMap_cons,
            List.append_eq_nil_iff]
          exact iff_of_false (fun h => tagPart_ne_nil w h.1) (List.cons_ne_nil w ws)
      | cons k ks =>
          have hrest : ws.flatMap tagPart <+: ks.flatMap tagPart ↔ ws <+: ks :=
            ih fun w' hw' => hws w' (List.mem_cons_of_mem w hw')
          rw [List.flatMap_cons, List.flatMap_cons, List.cons_prefix_cons]
          constructor
          · intro h
            -- The first keyword begins the same spelling as the solid one.
            have hk : k = w := eq_of_solid w (hws w List.mem_cons_self) k (mem_words k)
              (List.prefix_or_prefix_of_prefix (List.prefix_append _ _)
                ((List.prefix_append _ _).trans h))
            subst hk
            exact ⟨rfl, hrest.1 ((List.prefix_append_right_inj _).1 h)⟩
          · rintro ⟨rfl, h⟩
            exact (List.prefix_append_right_inj _).2 (hrest.2 h)

end Keyword

/-- The keywords, with those taken apart that are made of others. -/
def expand (ks : List Keyword) : List Keyword :=
  ks.flatMap Keyword.parts

/-- The tag of a sequence of keywords: their spellings, run together. -/
def tagOf (ks : List Keyword) : String :=
  String.ofList (ks.flatMap Keyword.tagPart)

theorem expand_cons (k : Keyword) (ks : List Keyword) : expand (k :: ks) = k.parts ++ expand ks :=
  List.flatMap_cons

theorem expand_append (ks ks' : List Keyword) : expand (ks ++ ks') = expand ks ++ expand ks' :=
  List.flatMap_append

theorem expand_singleton (k : Keyword) : expand [k] = k.parts := by
  rw [expand_cons]
  exact List.append_nil _

theorem flatMap_tagPart_expand (ks : List Keyword) :
    (expand ks).flatMap Keyword.tagPart = ks.flatMap Keyword.tagPart := by
  rw [expand, List.flatMap_assoc]
  exact List.flatMap_congr fun k _ => Keyword.flatMap_tagPart_parts k

theorem expand_subset_atoms (ks : List Keyword) : ∀ k ∈ expand ks, k ∈ Keyword.atoms := by
  intro k hk
  rcases List.mem_flatMap.1 hk with ⟨whole, -, hpart⟩
  exact Keyword.parts_subset_atoms whole k hpart

/-- A tag fixes the keywords, taken apart. -/
theorem tagOf_eq_iff {ks ks' : List Keyword} : tagOf ks = tagOf ks' ↔ expand ks = expand ks' := by
  rw [tagOf, tagOf, String.ofList_inj, ← flatMap_tagPart_expand ks, ← flatMap_tagPart_expand ks']
  constructor
  · exact Keyword.flatMap_tagPart_injective (expand_subset_atoms ks) (expand_subset_atoms ks')
  · exact congrArg (List.flatMap Keyword.tagPart)

/-- A keyword that no other is made of was whole before. -/
theorem exists_of_expand_eq_cons {w : Keyword} {ws ks : List Keyword} (hw : w ∉ Keyword.fused)
    (h : expand ks = w :: ws) : ∃ ks', ks = w :: ks' ∧ expand ks' = ws := by
  cases ks with
  | nil => exact absurd h.symm (List.cons_ne_nil w ws)
  | cons k ks =>
      rw [expand_cons] at h
      rcases k.parts_cases with hk | hk
      · rw [hk, List.singleton_append, List.cons.injEq] at h
        exact ⟨ks, by rw [h.1], h.2⟩
      · rcases List.exists_cons_of_ne_nil k.parts_ne_nil with ⟨a, as, hparts⟩
        rw [hparts, List.cons_append, List.cons.injEq] at h
        refine absurd (hk w ?_) hw
        rw [hparts, h.1]
        exact List.mem_cons_self

/-- It was whole at the end too. -/
theorem exists_of_expand_eq_concat {w : Keyword} {ws ks : List Keyword} (hw : w ∉ Keyword.fused)
    (h : expand ks = ws ++ [w]) : ∃ ks', ks = ks' ++ [w] ∧ expand ks' = ws := by
  rcases List.eq_nil_or_concat ks with rfl | ⟨ks, k, rfl⟩
  · exact absurd (List.append_eq_nil_iff.1 h.symm).2 (List.cons_ne_nil w [])
  · rw [List.concat_eq_append] at h ⊢
    rw [expand_append, expand_singleton] at h
    rcases k.parts_cases with hk | hk
    · rw [hk] at h
      have hparts := List.append_inj' h rfl
      exact ⟨ks, by rw [List.singleton_inj.1 hparts.2], hparts.1⟩
    · -- The last part would be one that others are made of.
      have hlast := congrArg List.getLast? h
      rw [List.getLast?_append_of_ne_nil _ k.parts_ne_nil, List.getLast?_concat] at hlast
      exact absurd (hk w (List.mem_of_getLast? hlast)) hw

theorem eq_of_expand_eq {ws ks : List Keyword} (hws : ∀ w ∈ ws, w ∉ Keyword.fused)
    (h : expand ks = ws) : ks = ws := by
  induction ws generalizing ks with
  | nil =>
      cases ks with
      | nil => rfl
      | cons k ks =>
          rw [expand_cons, List.append_eq_nil_iff] at h
          exact absurd h.1 k.parts_ne_nil
  | cons w ws ih =>
      rcases exists_of_expand_eq_cons (hws w List.mem_cons_self) h with ⟨ks, rfl, hrest⟩
      rw [ih (fun w' hw' => hws w' (List.mem_cons_of_mem w hw')) hrest]

theorem eq_nil_of_expand_eq {ks : List Keyword} (h : expand ks = []) : ks = [] :=
  eq_of_expand_eq (fun _ hw => absurd hw List.not_mem_nil) h

theorem eq_singleton_of_expand_eq {ks : List Keyword} {a : Keyword} (h : expand ks = [a]) :
    ks = [a] := by
  cases ks with
  | nil => exact absurd h.symm (List.cons_ne_nil a [])
  | cons k ks =>
      rw [expand_cons] at h
      rcases List.append_eq_singleton_iff.1 h with ⟨hk, -⟩ | ⟨hk, hks⟩
      · exact absurd hk k.parts_ne_nil
      · rw [Keyword.eq_of_parts_eq_singleton hk, eq_nil_of_expand_eq hks]

/-- Two keywords come from the two of them, or from one that is made of them. -/
theorem eq_of_expand_eq_pair {ks : List Keyword} {a b : Keyword} (h : expand ks = [a, b]) :
    ks = [a, b] ∨ ∃ k, ks = [k] ∧ k.parts = [a, b] := by
  cases ks with
  | nil => exact absurd h.symm (List.cons_ne_nil a [b])
  | cons k ks =>
      rw [expand_cons] at h
      rcases List.append_eq_cons_iff.1 h with ⟨hk, -⟩ | ⟨rest, hk, hrest⟩
      · exact absurd hk k.parts_ne_nil
      · rcases List.append_eq_singleton_iff.1 hrest.symm with ⟨rfl, hks⟩ | ⟨rfl, hks⟩
        · rw [Keyword.eq_of_parts_eq_singleton hk, eq_singleton_of_expand_eq hks]
          exact Or.inl rfl
        · rw [eq_nil_of_expand_eq hks]
          exact Or.inr ⟨k, rfl, hk⟩

namespace Command

/-- The keywords of a command. -/
def keywords : Command → List Keyword
  | .createDatabase => [.create, .database]
  | .dropDatabase => [.drop, .database]
  | .createTable => [.create, .table]
  | .addColumn => [.alter, .table, .add]
  | .modifyColumn => [.alter, .table, .modify, .column]
  | .dropColumn => [.alter, .table, .drop, .column]
  | .modifyNotNull => [.alter, .table, .modify, .notNull]
  | .addUnique => [.alter, .table, .add, .constraint, .unique]
  | .addPrimaryKey => [.alter, .table, .add, .constraint, .primary, .key]
  | .dropConstraint => [.alter, .table, .drop, .constraint]
  | .setDefault => [.alter, .table, .alter, .column, .set, .default]
  | .dropDefault => [.alter, .table, .alter, .column, .drop, .default]
  | .dropTable => [.drop, .table]
  | .select => [.select, .fromKw]
  | .insert => [.insert, .into, .values]
  | .update => [.update, .set]
  | .delete => [.delete, .fromKw]

/-- The keywords of a statement name the command. What follows `CREATE TABLE`
    does not count, nor does what follows `ALTER TABLE ADD` unless these are the
    keywords of a named constraint. -/
def Names (c : Command) (ks : List Keyword) : Prop :=
  match c with
  | .createTable => createTable.keywords <+: ks
  | .addColumn => addColumn.keywords <+: ks ∧ ks ≠ addUnique.keywords ∧ ks ≠ addPrimaryKey.keywords
  | c => expand ks = expand c.keywords

/-- The command counts all keywords of a statement, and its own do not come
    together or apart. -/
def IsWhole (c : Command) : Prop :=
  c ≠ createTable ∧ c ≠ addColumn ∧ expand c.keywords = c.keywords ∧
    ∀ k ∈ c.keywords, k ∉ Keyword.fused

instance (c : Command) : Decidable c.IsWhole :=
  inferInstanceAs (Decidable (_ ∧ _))

theorem tag_eq (c : Command) : c.tag = tagOf c.keywords := by
  cases c <;> decide +kernel

/-- A tag begins with that of a command of solid keywords where the keywords
    do. -/
theorem opensWith_tagOf_iff {c : Command} (hc : ∀ k ∈ c.keywords, k ∈ Keyword.solid)
    {ks : List Keyword} : opensWith (tagOf ks) c = true ↔ c.keywords <+: ks := by
  rw [opensWith, List.isPrefixOf_iff_prefix, tag_eq c, tagOf, tagOf, String.toList_ofList,
    String.toList_ofList]
  exact Keyword.flatMap_tagPart_prefix_iff hc

theorem tag_eq_tagOf_iff {c : Command} {ks : List Keyword} :
    c.tag = tagOf ks ↔ expand ks = expand c.keywords := by
  rw [tag_eq c, tagOf_eq_iff]
  exact eq_comm

/-- Keywords that come apart into the same begin with the same solid ones. -/
theorem prefix_iff_of_expand_eq {c : Command} (hc : ∀ k ∈ c.keywords, k ∈ Keyword.solid)
    {ks ks' : List Keyword} (h : expand ks = expand ks') :
    c.keywords <+: ks ↔ c.keywords <+: ks' := by
  rw [← opensWith_tagOf_iff hc, tagOf_eq_iff.2 h, opensWith_tagOf_iff hc]

theorem solid_createTable : ∀ k ∈ createTable.keywords, k ∈ Keyword.solid := by
  decide

theorem solid_addColumn : ∀ k ∈ addColumn.keywords, k ∈ Keyword.solid := by
  decide

/-- A named constraint is added by no other keywords than its own. -/
theorem tag_eq_of_addition {c : Command} (hc : c = addUnique ∨ c = addPrimaryKey)
    {ks : List Keyword} : tagOf ks = c.tag ↔ ks = c.keywords := by
  have hwhole : expand c.keywords = c.keywords ∧ ∀ k ∈ c.keywords, k ∉ Keyword.fused := by
    rcases hc with rfl | rfl <;> decide
  rw [eq_comm, tag_eq_tagOf_iff, hwhole.1]
  exact ⟨eq_of_expand_eq hwhole.2, fun h => by rw [h, hwhole.1]⟩

theorem names_iff_expand {c : Command} (htable : c ≠ createTable) (hadd : c ≠ addColumn)
    {ks : List Keyword} : c.Names ks ↔ expand ks = expand c.keywords := by
  cases c with
  | createTable => exact absurd rfl htable
  | addColumn => exact absurd rfl hadd
  | _ => exact Iff.rfl

theorem IsWhole.eq_keywords {c : Command} (hc : c.IsWhole) {ks : List Keyword}
    (h : c.Names ks) : ks = c.keywords := by
  rcases hc with ⟨htable, hadd, hexpand, hfused⟩
  exact eq_of_expand_eq hfused (((names_iff_expand htable hadd).1 h).trans hexpand)

theorem eq_of_prefix_keywords {c : Command} :
    (createTable.keywords <+: c.keywords → c = createTable) ∧
      (addColumn.keywords <+: c.keywords → c = addColumn ∨ c = addUnique ∨ c = addPrimaryKey) := by
  cases c <;> decide

/-- Two commands with different keywords in front do not share a statement. -/
theorem not_table_of_addition {ks : List Keyword} (htable : createTable.keywords <+: ks) :
    ¬addColumn.keywords <+: ks := by
  intro hadd
  exact absurd (List.prefix_or_prefix_of_prefix htable hadd) (by decide)

/-- What begins like the definition of a table is no other command. -/
theorem names_iff_of_table {c : Command} {ks : List Keyword} (h : createTable.Names ks) :
    c.Names ks ↔ createTable = c := by
  refine ⟨fun hc => ?_, fun hc => hc ▸ h⟩
  by_cases htable : c = createTable
  · exact htable.symm
  by_cases hadd : c = addColumn
  · subst hadd
    exact absurd hc.1 (not_table_of_addition h)
  · rw [names_iff_expand htable hadd] at hc
    exact absurd (eq_of_prefix_keywords.1 ((prefix_iff_of_expand_eq solid_createTable hc).1 h))
      htable

/-- What begins like the addition of a column is no other command either, but for
    the named constraints. -/
theorem names_iff_of_addition {c : Command} {ks : List Keyword} (h : addColumn.Names ks) :
    c.Names ks ↔ addColumn = c := by
  refine ⟨fun hc => ?_, fun hc => hc ▸ h⟩
  by_cases hadd : c = addColumn
  · exact hadd.symm
  by_cases htable : c = createTable
  · subst htable
    exact absurd h.1 (not_table_of_addition hc)
  · rw [names_iff_expand htable hadd] at hc
    have hopens := (prefix_iff_of_expand_eq solid_addColumn hc).1 h.1
    have hnamed := (eq_of_prefix_keywords.2 hopens).resolve_left hadd
    -- These two are spared, so their keywords are not those of the statement.
    have hkeywords := (tag_eq_of_addition hnamed).1 (tag_eq_tagOf_iff.2 hc).symm
    rcases hnamed with rfl | rfl
    · exact absurd hkeywords h.2.1
    · exact absurd hkeywords h.2.2

/-- The tag of keywords that are not cut short is theirs as a whole. -/
theorem names_iff_of_whole {c : Command} {ks : List Keyword} (htable : ¬createTable.Names ks)
    (hadd : ¬addColumn.Names ks) : c.Names ks ↔ c.tag = tagOf ks := by
  rw [tag_eq_tagOf_iff]
  by_cases hcreate : c = createTable
  · subst hcreate
    refine iff_of_false htable fun h => htable ?_
    exact (prefix_iff_of_expand_eq solid_createTable h).2 (List.prefix_refl _)
  by_cases haddition : c = addColumn
  · subst haddition
    refine iff_of_false hadd fun h => hadd ?_
    have hks : ks = addColumn.keywords := eq_of_expand_eq (by decide) h
    rw [hks]
    exact ⟨List.prefix_refl _, by decide, by decide⟩
  · exact names_iff_expand hcreate haddition

theorem names_addColumn_iff {ks : List Keyword} :
    (opensWith (tagOf ks) addColumn && tagOf ks != addUnique.tag &&
      tagOf ks != addPrimaryKey.tag) = true ↔ addColumn.Names ks := by
  rw [Bool.and_eq_true, Bool.and_eq_true, bne_iff_ne, bne_iff_ne,
    opensWith_tagOf_iff solid_addColumn, ne_eq, ne_eq, tag_eq_of_addition (Or.inl rfl),
    tag_eq_of_addition (Or.inr rfl), and_assoc]
  exact Iff.rfl

/-- The tag of keywords, cut short, names the command that they name. -/
theorem ofTag?_normalizeTag_iff {c : Command} {ks : List Keyword} :
    ofTag? (normalizeTag (tagOf ks)) = some c ↔ c.Names ks := by
  have hcut : opensWith (tagOf ks) .createTable = true ↔ createTable.Names ks :=
    opensWith_tagOf_iff solid_createTable
  by_cases htable : createTable.Names ks
  · rw [normalizeTag, if_pos (hcut.2 htable), ofTag?_tag, names_iff_of_table htable,
      Option.some.injEq]
  rw [normalizeTag, if_neg fun h => htable (hcut.1 h)]
  by_cases hadd : addColumn.Names ks
  · rw [if_pos (names_addColumn_iff.2 hadd), ofTag?_tag, names_iff_of_addition hadd,
      Option.some.injEq]
  · rw [if_neg fun h => hadd (names_addColumn_iff.1 h), ofTag?_eq_some_iff,
      names_iff_of_whole htable hadd]

end Command

/-- The keywords of a statement name the command of its tag. -/
theorem names_of_statementTag {sql : String} {root : Group} {c : Command}
    (htag : statementTag sql = .ok c.tag) (hroot : Group.ofText sql = .ok root) :
    c.Names root.keywords := by
  rw [statementTag, hroot] at htag
  have hcut : normalizeTag (commandTag root) = c.tag := Except.ok.inj htag
  refine Command.ofTag?_normalizeTag_iff.1 ?_
  rw [show normalizeTag (tagOf root.keywords) = c.tag from hcut, Command.ofTag?_tag]

theorem keywords_of_statementTag {sql : String} {root : Group} {c : Command} (hc : c.IsWhole)
    (htag : statementTag sql = .ok c.tag) (hroot : Group.ofText sql = .ok root) :
    root.keywords = c.keywords :=
  hc.eq_keywords (names_of_statementTag htag hroot)

/-- Two sequences of keywords have one tag exactly if they come apart into the
    same, and a statement is the command that its keywords outside all groups
    name: by how they begin for a table and for a column, and by all of them,
    taken apart, for every other command. -/
theorem dispatch_by_keywords :
    (∀ ks ks' : List Keyword, tagOf ks = tagOf ks' ↔ expand ks = expand ks') ∧
      ∀ root : Group, commandTag root = tagOf root.keywords ∧
        ∀ c : Command, Command.ofTag? (normalizeTag (commandTag root)) = some c ↔
          c.Names root.keywords :=
  ⟨fun _ _ => tagOf_eq_iff, fun _ => ⟨rfl, fun _ => Command.ofTag?_normalizeTag_iff⟩⟩

end SqlGist
