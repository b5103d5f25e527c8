import SqlGist.Proofs.Token.Partition
import SqlGist.Statement

/-!
# Where the First Statement Stands

`splitStatements` cuts a list of tokens at its top-level semicolons, and
`firstStatement?` takes the first stretch that holds more than blanks. Here the
same stretch is said by its surroundings: blanks and semicolons alone stand
before it, no semicolon in it is at top level, and it ends at one that is, or
with the text.

The depth at which a token stands is that of the whole stretch before it, so
`depthBehind` folds `depthAfter` over a list. Blanks and semicolons leave it
alone, and a stretch is always entered at depth zero.

## Main definitions

* `depthBehind`: The depth of parentheses behind a list of tokens.
* `Undivided`: No semicolon of a stretch is at top level.
* `IsFirstStatement`: A stretch is the first one with anything in it.

## Theorems

* `splitStatements_eq_cons`: What the first stretch is, and where it ends.
* `exists_of_firstStatement?`: The first stretch that holds more than blanks
  has blanks and semicolons alone before it.
* `firstStatement?_of_surroundings`: It is found by what stands around it.
* `firstStatement?_append_mark`: A semicolon behind it ends the search.
* `firstStatement?_eq_self`: Without a semicolon there is one statement.
* `isFirstStatement_of_readStatement`: The tokens that are read as a statement
  are the first statement of the text.
-/

namespace SqlGist

/-- The depth of parentheses behind a list of tokens, when `depth` are open
    before it. -/
def depthBehind (depth : Nat) (ts : List Token) : Nat :=
  ts.foldl depthAfter depth

/-- No semicolon of the stretch stands at depth zero, when `depth` parentheses
    are open before it. -/
def Undivided (depth : Nat) (stretch : List Token) : Prop :=
  ∀ front mark back, stretch = front ++ mark :: back → mark.isMark ";" = true →
    depthBehind depth front ≠ 0

/-- A token that holds nothing: a blank or a semicolon. -/
def Token.IsIdle (t : Token) : Prop :=
  t.isWhitespace = true ∨ t.isMark ";" = true

/-- The stretch of tokens is the first one between top-level semicolons, or a
    semicolon and the end, that holds more than blanks. -/
structure IsFirstStatement (before stretch after : List Token) : Prop where
  idle_before : ∀ t ∈ before, t.IsIdle
  opens : ∀ t, before.getLast? = some t → t.isMark ";" = true
  visible : ∃ t ∈ stretch, t.isWhitespace = false
  undivided : Undivided 0 stretch
  closes : ∃ t rest, after = t :: rest ∧
    (t.kind = .eof ∨ t.isMark ";" = true ∧ depthBehind 0 stretch = 0)

/-- What is no punctuation is no mark. -/
theorem Token.isMark_eq_false {t : Token} (h : t.kind ≠ .punctuation) (mark : String) :
    t.isMark mark = false := by
  rw [isMark, decide_eq_false h, Bool.false_and]

theorem undivided_nil (depth : Nat) : Undivided depth [] := by
  intro front mark back h
  exact absurd h.symm (List.append_ne_nil_of_right_ne_nil _ (List.cons_ne_nil _ _))

theorem undivided_cons {depth : Nat} {t : Token} {ts : List Token}
    (ht : (t.isMark ";" && decide (depth = 0)) = false)
    (hts : Undivided (depthAfter depth t) ts) : Undivided depth (t :: ts) := by
  intro front mark back h hmark
  cases front with
  | nil =>
      simp only [List.nil_append, List.cons.injEq] at h
      rw [h.1, hmark, Bool.true_and, decide_eq_false_iff_not] at ht
      exact ht
  | cons u front =>
      simp only [List.cons_append, List.cons.injEq] at h
      rw [depthBehind, List.foldl_cons, ← h.1]
      exact hts front mark back h.2 hmark

/-- The first stretch is undivided, and it is either all there is, or ends at a
    top-level semicolon behind which the splitting starts anew. -/
theorem splitStatements_eq_cons {depth : Nat} {ts stretch : List Token}
    {stretches : List (List Token)} (h : splitStatements depth ts = stretch :: stretches) :
    Undivided depth stretch ∧
      (ts = stretch ∧ stretches = [] ∨
        ∃ mark rest, ts = stretch ++ mark :: rest ∧ mark.isMark ";" = true ∧
          depthBehind depth stretch = 0 ∧ stretches = splitStatements 0 rest) := by
  induction ts generalizing depth stretch stretches with
  | nil =>
      simp only [splitStatements, List.cons.injEq] at h
      rw [← h.1, ← h.2]
      exact ⟨undivided_nil depth, Or.inl ⟨rfl, rfl⟩⟩
  | cons t ts ih =>
      by_cases hsemi : (t.isMark ";" && decide (depth = 0)) = true
      · rw [splitStatements, if_pos hsemi, List.cons.injEq] at h
        simp only [Bool.and_eq_true, decide_eq_true_eq] at hsemi
        rw [← h.1]
        refine ⟨undivided_nil depth, Or.inr ⟨t, ts, rfl, hsemi.1, ?_, h.2.symm⟩⟩
        rw [depthBehind, List.foldl_nil, hsemi.2]
      · rw [Bool.not_eq_true] at hsemi
        -- The token opens the first stretch, and what is known of the rest shifts by one.
        rcases splitStatements_cons hsemi ts with ⟨s, ss, hrest, hall⟩
        rw [hall, List.cons.injEq] at h
        rcases ih hrest with ⟨hund, hend⟩
        rw [← h.1, ← h.2]
        refine ⟨undivided_cons hsemi hund, ?_⟩
        rcases hend with ⟨rfl, rfl⟩ | ⟨mark, rest, rfl, hmark, hdepth, rfl⟩
        · exact Or.inl ⟨rfl, rfl⟩
        · exact Or.inr ⟨mark, rest, rfl, hmark, hdepth, rfl⟩

theorem exists_of_firstStatement? {ts stretch : List Token}
    (h : firstStatement? ts = some stretch) :
    ∃ before after, ts = before ++ (stretch ++ after) ∧
      (∀ t ∈ before, t.IsIdle) ∧ (∀ t, before.getLast? = some t → t.isMark ";" = true) ∧
      (∃ t ∈ stretch, t.isWhitespace = false) ∧ Undivided 0 stretch ∧
      ∀ t, after.head? = some t → t.isMark ";" = true ∧ depthBehind 0 stretch = 0 := by
  induction hn : ts.length using Nat.strong_induction_on generalizing ts with
  | _ n ih =>
    rcases List.exists_cons_of_ne_nil (splitStatements_ne_nil 0 ts) with ⟨s, ss, hsplit⟩
    rcases splitStatements_eq_cons hsplit with ⟨hund, hend⟩
    rw [firstStatement?, hsplit, List.find?_cons] at h
    by_cases hvisible : (s.any fun t => !t.isWhitespace) = true
    · -- The very first stretch holds something.
      rw [hvisible, Option.some.injEq] at h
      subst h
      simp only [List.any_eq_true, Bool.not_eq_true'] at hvisible
      rcases hend with ⟨rfl, -⟩ | ⟨mark, rest, rfl, hmark, hdepth, -⟩
      · refine ⟨[], [], by rw [List.append_nil, List.nil_append], ?_, ?_, hvisible, hund, ?_⟩
        · exact fun t ht => absurd ht List.not_mem_nil
        · exact fun t ht => by simp only [List.getLast?_nil, reduceCtorEq] at ht
        · exact fun t ht => by simp only [List.head?_nil, reduceCtorEq] at ht
      · refine ⟨[], mark :: rest, by rw [List.nil_append], ?_, ?_, hvisible, hund, ?_⟩
        · exact fun t ht => absurd ht List.not_mem_nil
        · exact fun t ht => by simp only [List.getLast?_nil, reduceCtorEq] at ht
        · intro t ht
          rw [List.head?_cons, Option.some.injEq] at ht
          rw [← ht]
          exact ⟨hmark, hdepth⟩
    · -- The first stretch is blank, and the statement is looked for behind its semicolon.
      rw [Bool.not_eq_true] at hvisible
      rw [hvisible] at h
      have hblank : ∀ t ∈ s, t.isWhitespace = true := by
        intro t ht
        simpa only [Bool.not_eq_true', Bool.not_eq_false] using List.any_eq_false.1 hvisible t ht
      rcases hend with ⟨-, rfl⟩ | ⟨mark, rest, rfl, hmark, -, rfl⟩
      · simp only [List.find?_nil, reduceCtorEq] at h
      · have hlt : rest.length < n := by
          rw [← hn, List.length_append, List.length_cons]
          omega
        rcases ih rest.length hlt h rfl with ⟨before, after, rfl, hbefore, hopens, hrest⟩
        refine ⟨s ++ mark :: before, after, by rw [List.append_assoc, List.cons_append], ?_, ?_,
          hrest⟩
        · intro t ht
          rcases List.mem_append.1 ht with ht | ht
          · exact Or.inl (hblank t ht)
          · rcases List.mem_cons.1 ht with rfl | ht
            · exact Or.inr hmark
            · exact hbefore t ht
        · intro t ht
          rw [List.getLast?_append_cons] at ht
          cases before with
          | nil =>
              rw [List.getLast?_singleton, Option.some.injEq] at ht
              rw [← ht]
              exact hmark
          | cons u before => exact hopens t (by rwa [List.getLast?_cons_cons] at ht)

/-- Idle tokens up to a semicolon are cut off as blank stretches, and what
    follows them is split anew. -/
theorem splitStatements_idle {before : List Token} (hidle : ∀ t ∈ before, t.IsIdle)
    (hopens : ∀ t, before.getLast? = some t → t.isMark ";" = true) (ts : List Token) :
    ∃ blanks, splitStatements 0 (before ++ ts) = blanks ++ splitStatements 0 ts ∧
      (∀ stretch ∈ blanks, ∀ t ∈ stretch, t.isWhitespace = true) ∧
      (before ≠ [] → blanks ≠ []) := by
  induction before with
  | nil =>
      exact ⟨[], rfl, fun stretch h => absurd h List.not_mem_nil, fun h => absurd rfl h⟩
  | cons t before ih =>
      have hopens' : ∀ u, before.getLast? = some u → u.isMark ";" = true := by
        intro u hu
        refine hopens u ?_
        rw [List.getLast?_cons, hu, Option.getD_some]
      rcases ih (fun u hu => hidle u (List.mem_cons_of_mem t hu)) hopens' with
        ⟨blanks, hsplit, hblank, hne⟩
      rcases hidle t List.mem_cons_self with hspace | hmark
      · -- A blank opens the first blank stretch, and there is one up to the semicolon.
        have hkind : t.kind ≠ .punctuation := by
          rw [of_decide_eq_true hspace]
          exact TokenKind.noConfusion
        have hmark := Token.isMark_eq_false hkind
        have hbefore : before ≠ [] := by
          rintro rfl
          exact Bool.false_ne_true ((hmark ";").symm.trans (hopens t rfl))
        rcases List.exists_cons_of_ne_nil (hne hbefore) with ⟨stretch, stretches, rfl⟩
        refine ⟨(t :: stretch) :: stretches, ?_, ?_, fun _ => List.cons_ne_nil _ _⟩
        · rw [List.cons_append, splitStatements, hmark ";", Bool.false_and,
            if_neg Bool.false_ne_true, depthAfter_of_not_mark (hmark "(") (hmark ")"), hsplit]
          rfl
        · intro s hs
          rcases List.mem_cons.1 hs with rfl | hs
          · exact List.forall_mem_cons.2 ⟨hspace, hblank stretch List.mem_cons_self⟩
          · exact hblank s (List.mem_cons_of_mem _ hs)
      · refine ⟨[] :: blanks, ?_, ?_, fun _ => List.cons_ne_nil _ _⟩
        · rw [List.cons_append, splitStatements, hmark, hsplit]
          rfl
        · intro stretch hstretch
          rcases List.mem_cons.1 hstretch with rfl | hstretch
          · exact fun u hu => absurd hu List.not_mem_nil
          · exact hblank stretch hstretch

/-- An undivided stretch is cut off where it ends. -/
theorem head?_splitStatements {depth : Nat} {stretch after : List Token}
    (hund : Undivided depth stretch)
    (hcloses : ∀ t, after.head? = some t →
      t.isMark ";" = true ∧ depthBehind depth stretch = 0) :
    (splitStatements depth (stretch ++ after)).head? = some stretch := by
  induction stretch generalizing depth with
  | nil =>
      cases after with
      | nil => rfl
      | cons t after =>
          rcases hcloses t rfl with ⟨hmark, hdepth⟩
          rw [depthBehind, List.foldl_nil] at hdepth
          rw [List.nil_append, splitStatements, hmark, hdepth]
          rfl
  | cons u stretch ih =>
      have hu : (u.isMark ";" && decide (depth = 0)) = false := by
        rw [Bool.eq_false_iff, ne_eq, Bool.and_eq_true, decide_eq_true_eq]
        exact fun h => hund [] u stretch rfl h.1 h.2
      have hund' : Undivided (depthAfter depth u) stretch :=
        fun front mark back h hmark => hund (u :: front) mark back (by rw [h]; rfl) hmark
      have hrec := ih hund' hcloses
      rcases splitStatements_cons hu (stretch ++ after) with ⟨s, ss, hrest, hall⟩
      rw [hrest, List.head?_cons, Option.some.injEq] at hrec
      rw [List.cons_append, hall, hrec, List.head?_cons]

/-- A first stretch is found by its surroundings. -/
theorem firstStatement?_of_surroundings {before stretch after : List Token}
    (hidle : ∀ t ∈ before, t.IsIdle)
    (hopens : ∀ t, before.getLast? = some t → t.isMark ";" = true)
    (hvisible : ∃ t ∈ stretch, t.isWhitespace = false) (hund : Undivided 0 stretch)
    (hcloses : ∀ t, after.head? = some t → t.isMark ";" = true ∧ depthBehind 0 stretch = 0) :
    firstStatement? (before ++ (stretch ++ after)) = some stretch := by
  rcases splitStatements_idle hidle hopens (stretch ++ after) with ⟨blanks, hsplit, hblank, -⟩
  have hnone : blanks.find? (fun s => s.any fun t => !t.isWhitespace) = none := by
    refine List.find?_eq_none.2 fun s hs => ?_
    rw [Bool.not_eq_true, List.any_eq_false]
    exact fun t ht => by rw [hblank s hs t ht]; exact Bool.false_ne_true
  rcases List.exists_cons_of_ne_nil (splitStatements_ne_nil 0 (stretch ++ after)) with
    ⟨s, ss, hcons⟩
  have hhead := head?_splitStatements hund hcloses
  rw [hcons, List.head?_cons, Option.some.injEq] at hhead
  have hany : (stretch.any fun t => !t.isWhitespace) = true := by
    simpa only [List.any_eq_true, Bool.not_eq_true'] using hvisible
  rw [firstStatement?, hsplit, List.find?_append, hnone, Option.none_or, hcons, hhead,
    List.find?_cons, hany]

/-- A semicolon behind a statement at depth zero, and whatever follows it, leave
    the first statement what it is. -/
theorem firstStatement?_append_mark {ts stretch : List Token} {mark : Token}
    (h : firstStatement? ts = some stretch) (hmark : mark.isMark ";" = true)
    (hdepth : depthBehind 0 stretch = 0) (rest : List Token) :
    firstStatement? (ts ++ mark :: rest) = some stretch := by
  rcases exists_of_firstStatement? h with
    ⟨before, after, rfl, hidle, hopens, hvisible, hund, hcloses⟩
  rw [List.append_assoc, List.append_assoc]
  refine firstStatement?_of_surroundings hidle hopens hvisible hund ?_
  intro t ht
  cases after with
  | nil =>
      rw [List.nil_append, List.head?_cons, Option.some.injEq] at ht
      exact ⟨ht ▸ hmark, hdepth⟩
  | cons u after => exact hcloses t ht

theorem splitStatements_eq_singleton {ts : List Token} (h : ∀ t ∈ ts, t.isMark ";" = false)
    (depth : Nat) : splitStatements depth ts = [ts] := by
  induction ts generalizing depth with
  | nil => rfl
  | cons t ts ih =>
      rw [splitStatements, h t List.mem_cons_self,
        ih (fun u hu => h u (List.mem_cons_of_mem _ hu)) (depthAfter depth t)]
      rfl

/-- Without a semicolon there is one statement, if there is any. -/
theorem firstStatement?_eq_self {ts : List Token} (hmark : ∀ t ∈ ts, t.isMark ";" = false)
    (hvisible : ∃ t ∈ ts, t.isWhitespace = false) : firstStatement? ts = some ts := by
  have hany : (ts.any fun t => !t.isWhitespace) = true := by
    simpa only [List.any_eq_true, Bool.not_eq_true'] using hvisible
  rw [firstStatement?, splitStatements_eq_singleton hmark 0, List.find?_cons, hany]

/-- The tokens of a text without the one that stands for the end. -/
theorem filter_tokenize (sql : String) :
    ∃ body, tokenize sql = body ++ [Token.ending sql.utf8ByteSize] ∧
      (tokenize sql).filter (fun t => t.kind != .eof) = body ∧ ∀ t ∈ body, t.kind ≠ .eof := by
  rcases tokenize_eq_concat sql with ⟨body, hbody, hall⟩
  refine ⟨body, hbody, ?_, fun t ht => (hall t ht).1⟩
  -- Of all tokens only the last stands for the end, and it is left out.
  rw [hbody, List.filter_append, List.filter_eq_self.2 fun t ht => bne_iff_ne.2 (hall t ht).1]
  exact List.append_nil body

/-- The tokens that are read as a statement are the first statement of the
    text. No token of the text is an error then. -/
theorem isFirstStatement_of_readStatement {sql : String} {statement : List Token}
    (h : readStatement sql = .ok statement) :
    (∀ t ∈ tokenize sql, t.error? = none) ∧
      ∃ before after, tokenize sql = before ++ (statement ++ after) ∧
        IsFirstStatement before statement after := by
  rw [readStatement] at h
  split at h
  · simp only [reduceCtorEq] at h
  · rename_i herror
    split at h
    · rename_i found hfound
      rw [Except.ok.injEq] at h
      subst h
      rcases filter_tokenize sql with ⟨body, hbody, hfilter, -⟩
      rw [hfilter] at hfound
      rcases exists_of_firstStatement? hfound with
        ⟨before, after, rfl, hidle, hopens, hvisible, hund, hcloses⟩
      refine ⟨?_, before, after ++ [Token.ending sql.utf8ByteSize], ?_,
        hidle, hopens, hvisible, hund, ?_⟩
      · intro t ht
        simpa only [Token.parseError?, Option.map_eq_none_iff] using
          List.findSome?_eq_none_iff.1 herror t ht
      · rw [hbody, List.append_assoc, List.append_assoc]
      · cases after with
        | nil => exact ⟨_, [], rfl, Or.inl rfl⟩
        | cons mark rest => exact ⟨mark, _, rfl, Or.inr (hcloses mark rfl)⟩
    · simp only [reduceCtorEq] at h

end SqlGist
