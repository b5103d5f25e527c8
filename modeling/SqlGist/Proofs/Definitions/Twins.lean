import SqlGist.Proofs.Extraction.Scanning

/-!
# Leaves That Read Alike

The same definitions can stand in trees of different build. What is read of them
is the same if their leaves are twins, one by one: two leaves with the same token
that are the same kind of name or type, and of which both or neither belong to
the condition.

One thing a constraint asks is not about single leaves. The columns listed
behind `PRIMARY KEY` or `UNIQUE` are the leaves in the same parenthesis, so being
in the parenthesis of another leaf has to be the same on both sides.

## Main definitions

* `Leaf.IsTwin`: Two leaves that read alike by themselves.
* `Twins`: Leaves in pairs, which also read alike together.

## Theorems

* `gatherFrom_twins`: Twins add the same columns.
* `listedColumns?_twins`, `ownersAt_twins`: They list the same columns.
* `ownedFrom_twins`: They have the same constraints.
-/

namespace SqlGist

/-- Two leaves that read alike by themselves. -/
structure Leaf.IsTwin (l l' : Leaf) : Prop where
  token : l.token = l'.token
  inWhere : l.inWhere = l'.inWhere
  isColumn : l.isColumn = l'.isColumn
  isType : l.isType = l'.isType
  columnType? : l.columnType? = l'.columnType?
  inParenthesis : l.ancestorsAre [.parenthesis] = l'.ancestorsAre [.parenthesis]

/-- Leaves in pairs that read alike, also where one is asked for those that share
    a parenthesis with it. -/
structure Twins (pairs : List (Leaf × Leaf)) : Prop where
  isTwin : ∀ z ∈ pairs, z.1.IsTwin z.2
  isWithin : ∀ z ∈ pairs, z.1.ancestorsAre [.parenthesis] = true → ∀ w ∈ pairs,
    w.1.isWithin z.1.address.dropLast = w.2.isWithin z.2.address.dropLast

namespace Leaf.IsTwin

variable {l l' : Leaf} (h : l.IsTwin l')

include h

theorem value : l.value = l'.value := by
  rw [Leaf.value, h.token, Leaf.value]

theorem keyword? : l.keyword? = l'.keyword? := by
  rw [Leaf.keyword?, h.token, Leaf.keyword?]

theorem isWhitespace : l.isWhitespace = l'.isWhitespace := by
  rw [Leaf.isWhitespace, h.token, Leaf.isWhitespace]

theorem constraintKeyword? : l.constraintKeyword? = l'.constraintKeyword? := by
  rw [Leaf.constraintKeyword?, h.inWhere, h.keyword?, Leaf.constraintKeyword?]

end Leaf.IsTwin

theorem Twins.mono {pairs rest : List (Leaf × Leaf)} (h : Twins pairs)
    (hsub : ∀ z ∈ rest, z ∈ pairs) : Twins rest :=
  ⟨fun z hz => h.isTwin z (hsub z hz),
    fun z hz hmark w hw => h.isWithin z (hsub z hz) hmark w (hsub w hw)⟩

/-- Twins add the same columns. -/
theorem gatherFrom_twins {pairs : List (Leaf × Leaf)} (h : Twins pairs) (definitions : Bool)
    (action : Action) (g : Gathered) :
    gatherFrom definitions action g (pairs.map Prod.fst) =
      gatherFrom definitions action g (pairs.map Prod.snd) := by
  induction pairs generalizing g with
  | nil => rfl
  | cons z pairs ih =>
      have hz := h.isTwin z List.mem_cons_self
      have hread : g.read definitions action z.1 = g.read definitions action z.2 := by
        rw [Gathered.read, hz.isColumn, hz.isType, hz.columnType?, hz.value, Gathered.read]
      rw [List.map_cons, List.map_cons, gatherFrom, gatherFrom, hread]
      cases g.read definitions action z.2 with
      | error m => rfl
      | ok g => exact ih (h.mono fun w hw => List.mem_cons_of_mem _ hw) g

section Twins

variable {pairs : List (Leaf × Leaf)} (h : Twins pairs)

include h

theorem exists_skipBlanks_twins : ∃ rest, rest <:+ pairs ∧
    skipBlanks (pairs.map Prod.fst) = rest.map Prod.fst ∧
      skipBlanks (pairs.map Prod.snd) = rest.map Prod.snd := by
  induction pairs with
  | nil => exact ⟨[], List.suffix_refl _, rfl, rfl⟩
  | cons z pairs ih =>
      have hblank := (h.isTwin z List.mem_cons_self).isWhitespace
      rw [skipBlanks, skipBlanks, List.map_cons, List.map_cons, List.dropWhile_cons,
        List.dropWhile_cons, hblank]
      by_cases hz : z.2.isWhitespace = true
      · rcases ih (h.mono fun w hw => List.mem_cons_of_mem _ hw) with ⟨rest, hrest, hfst, hsnd⟩
        rw [if_pos hz, if_pos hz]
        exact ⟨rest, hrest.trans (List.suffix_cons _ _), hfst, hsnd⟩
      · rw [if_neg hz, if_neg hz]
        exact ⟨z :: pairs, List.suffix_refl _, rfl, rfl⟩

theorem exists_skipKey_twins : ∃ rest, rest <:+ pairs ∧
    skipKey (pairs.map Prod.fst) = rest.map Prod.fst ∧
      skipKey (pairs.map Prod.snd) = rest.map Prod.snd := by
  rcases exists_skipBlanks_twins h with ⟨rest, hrest, hfst, hsnd⟩
  rw [skipKey, skipKey, hfst, hsnd]
  cases rest with
  | nil => exact ⟨[], hrest, rfl, rfl⟩
  | cons z rest =>
      have hbehind := (List.suffix_cons z rest).trans hrest
      simp only [List.map_cons, (h.isTwin z (hrest.subset List.mem_cons_self)).keyword?]
      by_cases hkey : z.2.keyword? = some .key
      · rcases exists_skipBlanks_twins (h.mono fun w hw => hbehind.subset hw) with
          ⟨behind, hsuffix, hfst, hsnd⟩
        rw [if_pos hkey, if_pos hkey]
        exact ⟨behind, hsuffix.trans hbehind, hfst, hsnd⟩
      · rw [if_neg hkey, if_neg hkey]
        exact ⟨z :: rest, hrest, rfl, rfl⟩

/-- Of twins the same first ones are taken, and have the same columns. -/
theorem columns_takeWhile_twins {p q : Leaf → Bool} (hpq : ∀ z ∈ pairs, p z.1 = q z.2) :
    (((pairs.map Prod.fst).takeWhile p).filter Leaf.isColumn).map Leaf.value =
      (((pairs.map Prod.snd).takeWhile q).filter Leaf.isColumn).map Leaf.value := by
  induction pairs with
  | nil => rfl
  | cons z pairs ih =>
      have hz := h.isTwin z List.mem_cons_self
      have hrest := ih (h.mono fun w hw => List.mem_cons_of_mem _ hw)
        fun w hw => hpq w (List.mem_cons_of_mem _ hw)
      rw [List.map_cons, List.map_cons, List.takeWhile_cons, List.takeWhile_cons,
        hpq z List.mem_cons_self]
      by_cases htaken : q z.2 = true
      · rw [if_pos htaken, if_pos htaken, List.filter_cons, List.filter_cons, hz.isColumn]
        split
        · rw [List.map_cons, List.map_cons, hz.value, hrest]
        · exact hrest
      · rw [if_neg htaken, if_neg htaken]

theorem listedColumns?_twins :
    listedColumns? (pairs.map Prod.fst) = listedColumns? (pairs.map Prod.snd) := by
  rcases exists_skipKey_twins h with ⟨rest, hrest, hfst, hsnd⟩
  rw [listedColumns?, listedColumns?, hfst, hsnd]
  cases rest with
  | nil => rfl
  | cons z rest =>
      have hmem := hrest.subset (List.mem_cons_self (a := z))
      have hz := h.isTwin z hmem
      have hbehind : ∀ w ∈ rest, w ∈ pairs :=
        fun w hw => hrest.subset (List.mem_cons_of_mem _ hw)
      simp only [List.map_cons, hz.token, hz.inParenthesis]
      split
      · rename_i hopen
        have hmark : z.1.ancestorsAre [.parenthesis] = true :=
          hz.inParenthesis.trans (Bool.and_eq_true_iff.1 hopen).2
        rw [columns_takeWhile_twins (q := fun m => m.isWithin z.2.address.dropLast)
          (h.mono hbehind) fun w hw => h.isWithin z hmem hmark w (hbehind w hw)]
      · rfl

theorem constraintAt_twins (k : Keyword) :
    constraintAt k (pairs.map Prod.fst) = constraintAt k (pairs.map Prod.snd) := by
  by_cases hk : k = .default
  · -- The value of a `DEFAULT` is the next leaf.
    subst hk
    rcases exists_skipBlanks_twins h with ⟨rest, hrest, hfst, hsnd⟩
    rw [constraintAt, constraintAt, hfst, hsnd]
    cases rest with
    | nil => rfl
    | cons z rest =>
        simp only [List.map_cons, (h.isTwin z (hrest.subset List.mem_cons_self)).value]
  · cases k <;> first | rfl | exact absurd rfl hk

theorem ownersAt_twins (k : Keyword) {before before' : List Leaf}
    (hbefore : nearestColumn k before = nearestColumn k before') :
    ownersAt k before (pairs.map Prod.fst) = ownersAt k before' (pairs.map Prod.snd) := by
  rw [ownersAt, ownersAt, listedColumns?_twins h, hbefore]

end Twins

/-- Behind leaves whose nearest column is the same, twins have the same
    constraints. -/
theorem ownedFrom_twins {pairs : List (Leaf × Leaf)} (h : Twins pairs) {before before' : List Leaf}
    (hbefore : ∀ k, nearestColumn k before = nearestColumn k before') :
    ownedFrom before (pairs.map Prod.fst) = ownedFrom before' (pairs.map Prod.snd) := by
  induction pairs generalizing before before' with
  | nil => rfl
  | cons z pairs ih =>
      have hz := h.isTwin z List.mem_cons_self
      have hrest := h.mono fun w hw => List.mem_cons_of_mem z hw
      have hhere : ownedAt before z.1 (pairs.map Prod.fst) =
          ownedAt before' z.2 (pairs.map Prod.snd) := by
        simp only [ownedAt, hz.constraintKeyword?, constraintAt_twins hrest,
          ownersAt_twins hrest _ (hbefore _)]
      have hnearest (k : Keyword) :
          nearestColumn k (z.1 :: before) = nearestColumn k (z.2 :: before') := by
        have hk := hbefore k
        rw [nearestColumn, nearestColumn] at hk
        rw [nearestColumn, nearestColumn, List.find?_cons, List.find?_cons, hz.isColumn]
        cases z.2.isColumn with
        | true => exact congrArg (fun name => Except.ok [name]) hz.value
        | false => exact hk
      rw [List.map_cons, List.map_cons, ownedFrom, ownedFrom, hhere, ih hrest hnearest]

end SqlGist
