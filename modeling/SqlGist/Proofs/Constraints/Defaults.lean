import SqlGist.Proofs.Definitions.Declarations
import SqlGist.Proofs.FirstStatement

/-!
# Definitions and Their Defaults

A definition gives a value behind `DEFAULT`, or it ends there. Which of the two is
the case shows in the next token, blanks aside: a definition ends at a comma, at
the parenthesis that closes around it, and at the condition of the statement.

Whoever reads the constraints does not look for the end of a definition. A default
fails only where no token follows at all, and so at most one fails in a statement,
the last. It is what is reported if every constraint in front of it is read and has
an owner.

## Main definitions

* `Leaf.endsDefinition`, `restOfDefinition`: Where a definition ends, and what it
  still holds.
* `Leaf.IsGiven`: A leaf is the value that a definition gives.
* `EndsInDefault`: A `DEFAULT` with nothing behind it is what fails first.

## Theorems

* `isGiven_iff`, `definition_ends_iff`: What the next token tells of a definition.
* `ownedFrom_eq_error_iff`: The scan for constraints fails at the first leaf that
  does.
* `exists_ownedAt_iff`: When a leaf does not fail.
* `owned_malformed_iff`: When a default is malformed.
-/

namespace SqlGist

/-! ### What a definition gives -/

/-- Whether a definition ends with the leaf in front of this one: at a comma, at a
    closing parenthesis, and at the `WHERE` of the condition. -/
def Leaf.endsDefinition (l : Leaf) : Bool :=
  l.token.isMark "," || l.token.isMark ")" || (l.inWhere && l.keyword? = some .whereKw)

/-- What a definition still holds, when `depth` parentheses of it are open. -/
def restOfDefinition (depth : Nat) : List Leaf → List Leaf
  | [] => []
  | l :: ls =>
    -- Marks inside further parentheses belong to what is in them.
    if depth = 0 && l.endsDefinition then []
    else l :: restOfDefinition (depthAfter depth l.token) ls

/-- The leaf is what a definition gives for a value: the first that it still holds,
    blanks aside, and no punctuation. -/
def Leaf.IsGiven (l : Leaf) (after : List Leaf) : Prop :=
  (skipBlanks (restOfDefinition 0 after)).head? = some l ∧ l.token.kind ≠ .punctuation

theorem skipBlanks_eq_nil_iff {leaves : List Leaf} :
    skipBlanks leaves = [] ↔ ∀ l ∈ leaves, l.isWhitespace = true :=
  List.dropWhile_eq_nil_iff

theorem Leaf.keyword?_of_isWhitespace {l : Leaf} (h : l.isWhitespace = true) :
    l.keyword? = none := by
  rw [keyword?, Token.keyword?, show l.token.kind = .whitespace from of_decide_eq_true h]

/-- A blank does not end a definition and opens no parenthesis in it. -/
theorem Leaf.endsDefinition_of_isWhitespace {l : Leaf} (h : l.isWhitespace = true) :
    l.endsDefinition = false ∧ depthAfter 0 l.token = 0 := by
  have hkind : l.token.kind = .whitespace := of_decide_eq_true h
  have hmark : ∀ mark, l.token.isMark mark = false :=
    Token.isMark_eq_false (by rw [hkind]; exact TokenKind.noConfusion)
  refine ⟨?_, depthAfter_of_not_mark (hmark "(") (hmark ")") 0⟩
  rw [endsDefinition, hmark, hmark, keyword?_of_isWhitespace h]
  simp only [reduceCtorEq, decide_false, Bool.and_false, Bool.or_self]

theorem skipBlanks_restOfDefinition (after : List Leaf) :
    skipBlanks (restOfDefinition 0 after) = restOfDefinition 0 (skipBlanks after) := by
  induction after with
  | nil => rfl
  | cons l after ih =>
      cases hblank : l.isWhitespace with
      | true =>
          rcases Leaf.endsDefinition_of_isWhitespace hblank with ⟨hends, hdepth⟩
          rw [restOfDefinition, hends, hdepth, Bool.and_false, if_neg Bool.false_ne_true,
            skipBlanks, List.dropWhile_cons_of_pos hblank, skipBlanks,
            List.dropWhile_cons_of_pos hblank]
          exact ih
      | false =>
          have hskip : skipBlanks (l :: after) = l :: after :=
            List.dropWhile_cons_of_neg (Bool.eq_false_iff.1 hblank)
          rw [hskip, restOfDefinition]
          split
          · rfl
          · exact List.dropWhile_cons_of_neg (Bool.eq_false_iff.1 hblank)

section Next

variable {after rest : List Leaf} {l : Leaf} (h : skipBlanks after = l :: rest)

include h

/-- The next token is given by the definition unless it is punctuation or opens the
    condition. -/
theorem isGiven_iff : l.IsGiven after ↔
    l.token.kind ≠ .punctuation ∧ l.endsDefinition = false := by
  rw [Leaf.IsGiven, skipBlanks_restOfDefinition, h, restOfDefinition, and_comm]
  cases l.endsDefinition with
  | true => simp only [decide_true, Bool.and_self, if_true, List.head?_nil, reduceCtorEq]
  | false =>
      simp only [decide_true, Bool.and_false, Bool.false_eq_true, if_false, List.head?_cons]

/-- The definition holds nothing more exactly if the next token ends it. -/
theorem definition_ends_iff :
    (∀ m ∈ restOfDefinition 0 after, m.isWhitespace = true) ↔ l.endsDefinition = true := by
  rw [← skipBlanks_eq_nil_iff, skipBlanks_restOfDefinition, h, restOfDefinition]
  cases l.endsDefinition with
  | true => simp only [decide_true, Bool.and_self, if_true]
  | false =>
      simp only [decide_true, Bool.and_false, Bool.false_eq_true, if_false, reduceCtorEq]

end Next

/-! ### The scan for constraints -/

/-- The scan fails with an error exactly if a leaf does and none in front of it
    fails. -/
theorem ownedFrom_eq_error_iff {before leaves : List Leaf} {e : ClassifyError} :
    ownedFrom before leaves = .error e ↔
      ∃ front l back, leaves = front ++ l :: back ∧
        ownedAt (front.reverse ++ before) l back = .error e ∧
          ∀ first m rest, front = first ++ m :: rest →
            ∃ here, ownedAt (first.reverse ++ before) m (rest ++ l :: back) = .ok here := by
  induction leaves generalizing before with
  | nil =>
      refine iff_of_false (fun h => ?_) ?_
      · simp only [ownedFrom, reduceCtorEq] at h
      · rintro ⟨front, l, back, heq, -⟩
        exact List.append_ne_nil_of_right_ne_nil _ (List.cons_ne_nil _ _) heq.symm
  | cons l after ih =>
      rw [ownedFrom_cons_eq_error_iff, exists_split_cons_iff]
      refine or_congr ⟨fun h => ⟨h, fun first m rest heq => ?_⟩, fun h => h.1⟩ ⟨?_, ?_⟩
      · exact absurd heq.symm (List.append_ne_nil_of_right_ne_nil _ (List.cons_ne_nil _ _))
      · rintro ⟨here, hhere, h⟩
        rcases ih.1 h with ⟨front, m, back, heq, hm, hok⟩
        refine ⟨front, m, back, heq, ?_, fun first n rest hfront => ?_⟩
        · rwa [List.reverse_cons, List.append_assoc]
        · cases first with
          | nil =>
              rcases List.cons.inj hfront with ⟨rfl, rfl⟩
              exact ⟨here, heq ▸ hhere⟩
          | cons a first =>
              rcases List.cons.inj hfront with ⟨rfl, hrest⟩
              rw [List.reverse_cons, List.append_assoc]
              exact hok first n rest hrest
      · rintro ⟨front, m, back, rfl, hm, hok⟩
        -- The leaf stands in front of the one that fails, and so it does not fail.
        rcases hok [] l front rfl with ⟨here, hhere⟩
        rw [List.reverse_cons, List.append_assoc] at hm
        refine ⟨here, hhere, ih.2 ⟨front, m, back, rfl, hm, fun first n rest hfront => ?_⟩⟩
        have hbehind := hok (l :: first) n rest (congrArg (l :: ·) hfront)
        rwa [List.reverse_cons, List.append_assoc] at hbehind

section AtLeaf

variable {before after leaves : List Leaf} {l : Leaf}

theorem ownedAt_malformed_iff :
    ownedAt before l after = .error (.malformedConstraint .default) ↔
      l.constraintKeyword? = some .default ∧ ∀ m ∈ after, m.isWhitespace = true := by
  rw [ownedAt_eq_error_iff, ← skipBlanks_eq_nil_iff]
  constructor
  · rintro ⟨k, hk, hconstraint | ⟨-, howners⟩⟩
    · rcases constraintAt_eq_error_iff.1 hconstraint with ⟨rfl, hnil, -⟩
      exact ⟨hk, hnil⟩
    · -- A constraint without an owner is another fault.
      have hmismatch := (ownersAt_eq_error_iff.1 howners).2.2
      simp only [reduceCtorEq] at hmismatch
  · rintro ⟨hk, hnil⟩
    exact ⟨.default, hk, Or.inl (constraintAt_eq_error_iff.2 ⟨rfl, hnil, rfl⟩)⟩

/-- In front of a visible leaf nothing fails but for the lack of an owner. -/
theorem exists_ownedAt_iff (hvisible : skipBlanks after ≠ []) :
    (∃ here, ownedAt before l after = .ok here) ↔
      ∀ k, l.constraintKeyword? = some k → k ∈ readConstraints →
        (k = .primary ∨ k = .unique → listedColumns? after = none) →
          ∃ m ∈ before, m.isColumn = true := by
  constructor
  · rintro ⟨here, hhere⟩ k hk hread hunlisted
    -- What is visible behind the keyword is all that its constraint needs, but for an owner.
    by_contra hnone
    have hnone : ∀ m ∈ before, m.isColumn = false := fun m hm =>
      Bool.eq_false_iff.2 fun hcolumn => hnone ⟨m, hm, hcolumn⟩
    have herror := ownedAt_eq_error_iff.2 ⟨k, hk, Or.inr
      ⟨exists_constraintAt_iff.2 ⟨hread, fun _ => hvisible⟩,
        ownersAt_eq_error_iff.2 ⟨hunlisted, hnone, rfl⟩⟩⟩
    simp only [hhere, reduceCtorEq] at herror
  · intro h
    cases hown : ownedAt before l after with
    | ok here => exact ⟨here, rfl⟩
    | error e =>
        rcases ownedAt_eq_error_iff.1 hown with ⟨k, hk, hconstraint | ⟨hconstraint, howners⟩⟩
        · exact absurd (constraintAt_eq_error_iff.1 hconstraint).2.1 hvisible
        · rcases ownersAt_eq_error_iff.1 howners with ⟨hunlisted, hnone, -⟩
          rcases h k hk (exists_constraintAt_iff.1 hconstraint).1 hunlisted with ⟨m, hm, hcolumn⟩
          exact absurd ((hnone m hm).symm.trans hcolumn) Bool.false_ne_true

end AtLeaf

/-- Nothing but blanks follows a `DEFAULT`, and every constraint in front of it
    has an owner. -/
structure EndsInDefault (leaves before : List Leaf) (d : Leaf) (after : List Leaf) : Prop where
  split : leaves = before ++ d :: after
  keyword : d.constraintKeyword? = some .default
  last : ∀ m ∈ after, m.isWhitespace = true
  owned : ∀ front l back k, before = front ++ l :: back → l.constraintKeyword? = some k →
    k ∈ readConstraints →
      (k = .primary ∨ k = .unique → listedColumns? (back ++ d :: after) = none) →
        ∃ m ∈ front, m.isColumn = true

theorem ownedFrom_malformed_iff {leaves : List Leaf} :
    ownedFrom [] leaves = .error (.malformedConstraint .default) ↔
      ∃ before d after, EndsInDefault leaves before d after := by
  rw [ownedFrom_eq_error_iff]
  refine exists_congr fun before => exists_congr fun d => exists_congr fun after => ?_
  rw [ownedAt_malformed_iff]
  -- The keyword is visible, so in front of it only owners can be missing.
  have hvisible : d.constraintKeyword? = some .default → ∀ back : List Leaf,
      skipBlanks (back ++ d :: after) ≠ [] := by
    intro hd back hnil
    have hblank := skipBlanks_eq_nil_iff.1 hnil d (List.mem_append_right _ List.mem_cons_self)
    rw [Leaf.constraintKeyword?_eq_some_iff, Leaf.keyword?_of_isWhitespace hblank] at hd
    exact Option.some_ne_none _ hd.2.symm
  constructor
  · rintro ⟨hsplit, ⟨hd, hlast⟩, hok⟩
    refine ⟨hsplit, hd, hlast, fun front l back k hfront hk hread hunlisted => ?_⟩
    have hok := (exists_ownedAt_iff (hvisible hd back)).1 (hok front l back hfront)
    simpa only [List.append_nil, List.mem_reverse] using hok k hk hread hunlisted
  · rintro ⟨hsplit, hd, hlast, howned⟩
    refine ⟨hsplit, ⟨hd, hlast⟩, fun front l back hfront => ?_⟩
    refine (exists_ownedAt_iff (hvisible hd back)).2 fun k hk hread hunlisted => ?_
    simpa only [List.append_nil, List.mem_reverse] using
      howned front l back k hfront hk hread hunlisted

/-- A default is malformed exactly if all constraints are read, the statement ends
    in a `DEFAULT`, and nothing is wrong in front of that. -/
theorem owned_malformed_iff {leaves : List Leaf} :
    owned leaves = .error (.malformedConstraint .default) ↔
      (∀ l ∈ leaves, ∀ k ∈ unreadConstraints, l.constraintKeyword? ≠ some k) ∧
        ∃ before d after, EndsInDefault leaves before d after := by
  rw [← ownedFrom_malformed_iff]
  rcases owned_cases leaves with ⟨l, hl, k, hunread, hk, howned⟩ | ⟨hread, howned⟩
  · -- What is reported is another kind, since a default is read.
    refine iff_of_false (fun h => ?_) fun h => h.1 l hl k hunread hk
    rw [howned, Except.error.injEq, ClassifyError.malformedConstraint.injEq] at h
    rw [h] at hunread
    exact absurd hunread (by decide)
  · rw [howned]
    exact (and_iff_right hread).symm

end SqlGist
