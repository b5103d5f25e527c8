import SqlGist.Proofs.Extraction.Spelled
import SqlGist.Proofs.Tree.Levels

/-!
# Lists Parted by Commas

Parts with a comma and a space between them, as items and as nodes. What is
needed of a part is said of it alone: its tokens make a phrase, and the passes
turn its items into a tree whatever follows, as long as that is a comma or
nothing. The same of the whole list follows, for any number of parts.

Between parentheses a list has two shapes. One part stands there as it is, and
several are the items of a group.

## Main definitions

* `Nested.commas`, `Node.commas`: Parts with commas between them.
* `Nested.enclosed`, `Node.enclosed`: A comma list in parentheses.
* `Node.Ends`: Nothing follows, or a comma does.
* `Node.PartTree`: The tree of a part.
* `Node.listed`: The nodes that a comma list makes between parentheses.

## Theorems

* `mem_intercalate`, `ends_intercalate`: What stands in a list of parts, and at
  its ends.
* `phrase_commas`, `phrase_enclosed`: Comma lists are read back.
* `groupLevel_commas_append`, `groupLevel_commas`: A comma list is grouped part
  by part.
* `node_enclosed`, `node_enclosed_forced`: The node of a comma list in
  parentheses.
-/

namespace SqlGist

/-- The first of the parts, and each other one with the separator in front. -/
theorem intercalate_cons {α : Type} (separator a : List α) (rest : List (List α)) :
    separator.intercalate (a :: rest) = a ++ rest.flatMap fun b => separator ++ b := by
  induction rest generalizing a with
  | nil => rw [List.intercalate_singleton, List.flatMap_nil, List.append_nil]
  | cons b rest ih =>
      rw [List.intercalate_cons_cons, ih, List.flatMap_cons, List.append_assoc,
        List.append_assoc]

theorem mem_intercalate {α : Type} {separator : List α} {parts : List (List α)} {a : α}
    (h : a ∈ separator.intercalate parts) : a ∈ separator ∨ ∃ part ∈ parts, a ∈ part := by
  cases parts with
  | nil => exact absurd h List.not_mem_nil
  | cons first rest =>
      rw [intercalate_cons, List.mem_append, List.mem_flatMap] at h
      rcases h with h | ⟨part, hpart, h⟩
      · exact Or.inr ⟨first, List.mem_cons_self, h⟩
      · rcases List.mem_append.1 h with h | h
        · exact Or.inl h
        · exact Or.inr ⟨part, List.mem_cons_of_mem _ hpart, h⟩

/-- Parts that have something to show at either end make a list that has, too. -/
theorem ends_intercalate {α : Type} {p : α → Bool} (separator : List α)
    {parts : List (List α)} (h : ∀ part ∈ parts, part ≠ [] ∧
      (∀ a, part.head? = some a → p a = false) ∧ ∀ a, part.getLast? = some a → p a = false) :
    (∀ a, (separator.intercalate parts).head? = some a → p a = false) ∧
      ∀ a, (separator.intercalate parts).getLast? = some a → p a = false := by
  constructor
  · cases parts with
    | nil => exact fun a ha => absurd ha.symm (Option.some_ne_none a)
    | cons first rest =>
        rcases h first List.mem_cons_self with ⟨hne, hhead, -⟩
        rcases List.exists_cons_of_ne_nil hne with ⟨a, as, rfl⟩
        rw [intercalate_cons, List.cons_append, List.head?_cons]
        exact hhead
  · induction parts with
    | nil => exact fun a ha => absurd ha.symm (Option.some_ne_none a)
    | cons first rest ih =>
        cases rest with
        | nil =>
            rw [List.intercalate_singleton]
            exact (h first List.mem_cons_self).2.2
        | cons second rest =>
            -- The list goes on behind the first part, and ends where the rest does.
            have hrest := ih fun part hpart => h part (List.mem_cons_of_mem _ hpart)
            have hne : separator.intercalate (second :: rest) ≠ [] := by
              have hsecond := (h second (List.mem_cons_of_mem _ List.mem_cons_self)).1
              intro hnil
              rw [intercalate_cons, List.append_eq_nil_iff] at hnil
              exact hsecond hnil.1
            intro a ha
            rw [List.intercalate_cons_cons] at ha
            refine hrest a ?_
            rw [← ha]
            exact (List.getLast?_append_of_ne_nil _ hne).symm

namespace Nested

/-- A comma and the space behind it. -/
def comma : List Nested :=
  [.token (.mark ","), .token .space]

/-- Parts with commas between them. -/
def commas (parts : List (List Nested)) : List Nested :=
  comma.intercalate parts

/-- A comma list in parentheses. -/
def enclosed (parts : List (List Nested)) : Nested :=
  .parens (.mark "(") (commas parts) (.mark ")")

theorem commas_cons (part : List Nested) (parts : List (List Nested)) :
    commas (part :: parts) = part ++ parts.flatMap fun p => comma ++ p :=
  intercalate_cons comma part parts

theorem tokensOf_flatMap {α : Type} (f : α → List Nested) (as : List α) :
    tokensOf (as.flatMap f) = as.flatMap fun a => tokensOf (f a) := by
  induction as with
  | nil => rfl
  | cons a as ih => rw [List.flatMap_cons, tokensOf_append, ih, List.flatMap_cons]

theorem textsOf_commas (parts : List (List Nested)) :
    Token.textsOf (tokensOf (commas parts)) =
      [',', ' '].intercalate (parts.map fun part => Token.textsOf (tokensOf part)) := by
  cases parts with
  | nil => rfl
  | cons first rest =>
      have hrest : Token.textsOf (tokensOf (rest.flatMap fun part => comma ++ part)) =
          (rest.map fun part => Token.textsOf (tokensOf part)).flatMap fun text =>
            [',', ' '] ++ text := by
        induction rest with
        | nil => rfl
        | cons part rest ih =>
            rw [List.flatMap_cons, tokensOf_append, tokensOf_append, Token.textsOf_append,
              Token.textsOf_append, ih, List.map_cons, List.flatMap_cons]
            rfl
      rw [commas_cons, tokensOf_append, Token.textsOf_append, hrest, List.map_cons,
        intercalate_cons]

section Parts

variable {parts : List (List Nested)}

/-- Behind a part of a list the others make a chunk. -/
theorem chunk_commasBehind (h : ∀ part ∈ parts, Token.Argument (tokensOf part)) :
    Token.Chunk (tokensOf (parts.flatMap fun part => comma ++ part)) := by
  rw [tokensOf_flatMap]
  exact Token.chunk_flatMap fun part hpart => Token.chunk_comma (h part hpart)

theorem phrase_commas (hne : parts ≠ []) (h : ∀ part ∈ parts, Token.Phrase (tokensOf part)) :
    Token.Phrase (tokensOf (commas parts)) := by
  rcases List.exists_cons_of_ne_nil hne with ⟨first, rest, rfl⟩
  rw [commas_cons, tokensOf_append]
  exact Token.phrase_append (h first List.mem_cons_self)
    (chunk_commasBehind fun part hpart => (h part (List.mem_cons_of_mem _ hpart)).argument)

/-- Between parentheses every part stands where an operand is expected. -/
theorem phrase_enclosed (h : ∀ part ∈ parts, Token.Argument (tokensOf part)) :
    Token.Phrase (enclosed parts).tokens := by
  unfold enclosed tokens
  refine Token.phrase_parens ?_
  cases parts with
  | nil => exact fun _ _ => trivial
  | cons first rest =>
      rw [commas_cons, tokensOf_append]
      exact (Token.argument_append (h first List.mem_cons_self)
        (chunk_commasBehind fun part hpart => h part (List.mem_cons_of_mem _ hpart))).spelled

theorem plain_commas (h : ∀ part ∈ parts, ∀ item ∈ part, item.Plain) :
    ∀ item ∈ commas parts, item.Plain := by
  intro item hitem
  rcases mem_intercalate hitem with hitem | ⟨part, hpart, hitem⟩
  · simp only [comma, List.mem_cons, List.not_mem_nil, or_false] at hitem
    rcases hitem with rfl | rfl
    · exact .token Token.plain_comma
    · exact .token Token.plain_space
  · exact h part hpart item hitem

theorem plain_enclosed (h : ∀ part ∈ parts, ∀ item ∈ part, item.Plain) :
    (enclosed parts).Plain :=
  .parens (plain_commas h)

end Parts

end Nested

namespace Node

/-- A comma and the space behind it. -/
def comma : List Node :=
  [.leaf (.mark ","), .leaf .space]

/-- Parts with commas between them. -/
def commas (parts : List (List Node)) : List Node :=
  comma.intercalate parts

/-- The nodes of a comma list between parentheses. A single part is no list. -/
def listed : List (List Node) → List Node
  | [] => []
  | [part] => part
  | parts => [.group .nameList (commas parts)]

/-- A comma list in parentheses. -/
def enclosed (parts : List (List Node)) : Node :=
  .group .parenthesis (.leaf (.mark "(") :: (listed parts ++ [.leaf (.mark ")")]))

theorem commas_cons (part : List Node) (parts : List (List Node)) :
    commas (part :: parts) = part ++ parts.flatMap fun p => comma ++ p :=
  intercalate_cons comma part parts

/-- Nothing follows, or a comma does. -/
def Ends (ns : List Node) : Prop :=
  ∀ n, ns.head? = some n → n = .leaf (.mark ",")

theorem ends_nil : Ends [] := by
  intro n hn
  simp only [List.head?_nil, reduceCtorEq] at hn

theorem ends_comma (ns : List Node) : Ends (comma ++ ns) := by
  intro n hn
  rw [comma, List.cons_append, List.head?_cons, Option.some.injEq] at hn
  exact hn.symm

theorem Ends.noOperatorNext {ns : List Node} (h : Ends ns) : NoOperatorNext ns := by
  cases ns with
  | nil => exact noOperatorNext_nil
  | cons n ns =>
      rw [h n rfl]
      exact noOperatorNext_cons rfl fun hblank => absurd hblank Bool.false_ne_true

theorem Ends.no_parenthesis {ns : List Node} (h : Ends ns) :
    ∀ p, ns.head? = some p → p.isGroup .parenthesis = false := by
  intro p hp
  rw [h p hp]
  rfl

/-- The tree of a part of a comma list: what the passes make of its items, no
    comma in it, and no blank at either end. -/
structure PartTree (items : List Nested) (tree : List Node) : Prop where
  grouped : ∀ ns, Ends ns → groupLevel (Nested.nodes items ++ ns) = tree ++ groupLevel ns
  nonempty : tree ≠ []
  trimmed : Trimmed tree
  no_comma : ∀ n ∈ tree, n.isMark "," = false

theorem groupLevel_comma (ns : List Node) : groupLevel (comma ++ ns) = comma ++ groupLevel ns := by
  have hpass : groupLevel (.leaf (.mark ",") :: .leaf .space :: ns) =
      .leaf (.mark ",") :: groupLevel (.leaf .space :: ns) := groupLevel_pass rfl rfl _
  rw [comma, List.cons_append, List.cons_append, List.nil_append, hpass, groupLevel_space]
  rfl

section Grouping

variable {α : Type} {items : α → List Nested} {tree : α → List Node} {as : List α}
  {Before : List Node → Prop} (hcomma : ∀ ns, Before (comma ++ ns))
  (h : ∀ a ∈ as, ∀ ns, Before ns →
    groupLevel (Nested.nodes (items a) ++ ns) = tree a ++ groupLevel ns)
  {ns : List Node} (hns : Before ns)

include hcomma h hns

/-- Behind a part of a list comes a comma, or what follows the list. -/
theorem groupLevel_commasBehind :
    Before (Nested.nodes (as.flatMap fun a => Nested.comma ++ items a) ++ ns) ∧
      groupLevel (Nested.nodes (as.flatMap fun a => Nested.comma ++ items a) ++ ns) =
        (as.flatMap fun a => comma ++ tree a) ++ groupLevel ns := by
  induction as with
  | nil => exact ⟨hns, rfl⟩
  | cons a as ih =>
      rcases ih fun b hb => h b (List.mem_cons_of_mem _ hb) with ⟨hbehind, hrest⟩
      rw [List.flatMap_cons, List.flatMap_cons, Nested.nodes_append, Nested.nodes_append,
        List.append_assoc, List.append_assoc, show Nested.nodes Nested.comma = comma from rfl,
        groupLevel_comma, h a List.mem_cons_self _ hbehind, hrest, List.append_assoc,
        List.append_assoc]
      exact ⟨hcomma _, rfl⟩

/-- A comma list is grouped part by part, in front of whatever its parts can
    stand in front of. -/
theorem groupLevel_commas_append :
    groupLevel (Nested.nodes (Nested.commas (as.map items)) ++ ns) =
      commas (as.map tree) ++ groupLevel ns := by
  cases as with
  | nil => rfl
  | cons a as =>
      rcases groupLevel_commasBehind hcomma (fun b hb => h b (List.mem_cons_of_mem _ hb)) hns with
        ⟨hbehind, hrest⟩
      rw [List.map_cons, Nested.commas_cons, List.flatMap_map, Nested.nodes_append,
        List.append_assoc, h a List.mem_cons_self _ hbehind, hrest, List.map_cons, commas_cons,
        List.flatMap_map, List.append_assoc]

end Grouping

section Parts

variable {α : Type} {items : α → List Nested} {tree : α → List Node} {as : List α}
  (h : ∀ a ∈ as, PartTree (items a) (tree a))

include h

/-- A comma list is grouped part by part. -/
theorem groupLevel_commas :
    groupLevel (Nested.nodes (Nested.commas (as.map items))) = commas (as.map tree) := by
  have hgrouped := groupLevel_commas_append ends_comma (fun a ha => (h a ha).grouped) ends_nil
  rwa [groupLevel_nil, List.append_nil, List.append_nil] at hgrouped

theorem trimmed_commas : Trimmed (commas (as.map tree)) := by
  refine ends_intercalate comma fun part hpart => ?_
  rcases List.mem_map.1 hpart with ⟨a, ha, rfl⟩
  exact ⟨(h a ha).nonempty, (h a ha).trimmed⟩

/-- One part stands between parentheses as it is, and several as a list. -/
theorem groupInner_commas :
    groupInner false (Nested.nodes (Nested.commas (as.map items))) = listed (as.map tree) := by
  have hgrouped := groupLevel_commas h
  have htrimmed := trimmed_commas h
  rw [groupInner_eq, hgrouped]
  cases as with
  | nil => rfl
  | cons a as =>
      cases as with
      | nil =>
          have hone : commas ([a].map tree) = tree a := List.intercalate_singleton
          rw [hone]
          exact listRun_of_no_comma (h a List.mem_cons_self).no_comma
      | cons b as =>
          -- With a second part there is a comma.
          have hmem : Node.leaf (.mark ",") ∈ commas ((a :: b :: as).map tree) := by
            rw [List.map_cons, List.map_cons, commas_cons, List.flatMap_cons, comma]
            simp only [List.cons_append, List.mem_append, List.mem_cons, true_or, or_true]
          exact listRun_of_comma hmem rfl htrimmed false

theorem node_enclosed :
    (Nested.enclosed (as.map items)).node false = enclosed (as.map tree) := by
  rw [Nested.enclosed, Nested.node, groupInner_commas h, enclosed]

/-- Where a list is asked for, one part makes a list as well. -/
theorem node_enclosed_forced (hne : as ≠ []) :
    (Nested.enclosed (as.map items)).node true = .group .parenthesis
      [.leaf (.mark "("), .group .nameList (commas (as.map tree)), .leaf (.mark ")")] := by
  have hcommas : commas (as.map tree) ≠ [] := by
    rcases List.exists_cons_of_ne_nil hne with ⟨a, as, rfl⟩
    rw [List.map_cons, commas_cons]
    exact List.append_ne_nil_of_left_ne_nil (h a List.mem_cons_self).nonempty _
  rw [Nested.enclosed, Nested.node, groupInner_eq, groupLevel_commas h, listRun, Bool.true_or,
    if_pos rfl, wrapList_of_trimmed hcommas (trimmed_commas h)]
  rfl

end Parts

end Node

end SqlGist
