import SqlGist.Proofs.Tree.Depth

/-!
# Parentheses and Their Partners

Which parenthesis belongs to which is said here without a stack and without a
counter: two marks are partners if what stands between them is balanced. A mark
without a partner is what `nest` fails at, the first closing one if there is any,
and otherwise the last opening one.

The counter that finds the end of a statement never goes below zero, so it does
not tell a balanced stretch from one with a closing mark too many. It does tell
how many opening marks are still without a partner, and so whether a closing mark
that comes next has one. That is `openedIn_iff`, and through it the counter and
the stack agree: the stack is as high as the counter says, as long as no closing
mark has failed.

## Main definitions

* `Balanced`: The parentheses of a stretch are in pairs.
* `OpenedIn`, `ClosedIn`: A mark next to a stretch has its partner in it.
* `AllOpened`, `AllClosed`: All closing and all opening marks have partners.
* `Unpaired`: The mark without a partner that is named.

## Theorems

* `Balanced.depthBehind`: A balanced stretch leaves the depth as it is.
* `openedIn_iff`: What the counter says of the mark that comes next.
* `balanced_of_allClosed`: Where all opening marks have partners and no closing
  mark lacks one.
* `nestFrom_append`: The stack is as high as the counter says.
* `exists_unpaired`: All marks have partners, or one is named.
* `nest_eq_error_iff`, `nest_eq_ok_iff`: When nesting fails, and where.
-/

namespace SqlGist

/-- The parentheses of the tokens are in pairs. -/
inductive Balanced : List Token → Prop
  | nil : Balanced []
  | token {t : Token} {ts : List Token} (hopen : t.isMark "(" = false)
      (hclose : t.isMark ")" = false) (h : Balanced ts) : Balanced (t :: ts)
  | parens {opening closing : Token} {inner ts : List Token} (hopen : opening.isMark "(" = true)
      (hclose : closing.isMark ")" = true) (hinner : Balanced inner) (h : Balanced ts) :
      Balanced (opening :: (inner ++ closing :: ts))

/-- A closing mark right behind these tokens has its partner among them. -/
def OpenedIn (front : List Token) : Prop :=
  ∃ before opening inner, front = before ++ opening :: inner ∧ opening.isMark "(" = true ∧
    Balanced inner

/-- An opening mark right in front of these tokens has its partner among them. -/
def ClosedIn (back : List Token) : Prop :=
  ∃ inner closing after, back = inner ++ closing :: after ∧ closing.isMark ")" = true ∧
    Balanced inner

/-- Every closing mark of the tokens has a partner in front of it. -/
def AllOpened (ts : List Token) : Prop :=
  ∀ front t back, ts = front ++ t :: back → t.isMark ")" = true → OpenedIn front

/-- Every opening mark of the tokens has a partner behind it. -/
def AllClosed (ts : List Token) : Prop :=
  ∀ front t back, ts = front ++ t :: back → t.isMark "(" = true → ClosedIn back

/-- The mark without a partner that is named: the first closing one, or the last
    opening one if all closing ones have partners. -/
inductive Unpaired (ts : List Token) : ParseError → Prop
  | closing {front back : List Token} {t : Token} (heq : ts = front ++ t :: back)
      (hmark : t.isMark ")" = true) (halone : ¬OpenedIn front) (hfirst : AllOpened front) :
      Unpaired ts ⟨.unbalancedClose, t.span⟩
  | opening {front back : List Token} {t : Token} (hopened : AllOpened ts)
      (heq : ts = front ++ t :: back) (hmark : t.isMark "(" = true) (halone : ¬ClosedIn back)
      (hlast : AllClosed back) : Unpaired ts ⟨.unclosedOpen, t.span⟩

namespace Balanced

variable {as bs : List Token}

theorem append (has : Balanced as) (hbs : Balanced bs) : Balanced (as ++ bs) := by
  induction has with
  | nil => exact hbs
  | token hopen hclose _ ih => exact .token hopen hclose ih
  | parens hopen hclose hinner _ _ ih =>
      rw [List.cons_append, List.append_assoc, List.cons_append]
      exact .parens hopen hclose hinner ih

theorem depthBehind (h : Balanced as) (depth : Nat) : depthBehind depth as = depth := by
  induction h generalizing depth with
  | nil => rfl
  | token hopen hclose _ ih =>
      rw [depthBehind_cons, depthAfter_of_not_mark hopen hclose, ih]
  | parens hopen hclose _ _ ihinner ih =>
      rw [depthBehind_cons, depthAfter_open hopen, depthBehind_append, ihinner, depthBehind_cons,
        depthAfter_close hclose, ih]

/-- A balanced stretch is what some matched items are made of. -/
theorem exists_items (h : Balanced as) :
    ∃ items, (∀ item ∈ items, Nested.Matched item) ∧ Nested.tokensOf items = as := by
  induction h with
  | nil => exact ⟨[], fun item hitem => absurd hitem List.not_mem_nil, rfl⟩
  | @token t ts hopen hclose _ ih =>
      rcases ih with ⟨items, hitems, rfl⟩
      exact ⟨.token t :: items, List.forall_mem_cons.2 ⟨.token hopen hclose, hitems⟩, rfl⟩
  | @parens opening closing inner ts hopen hclose _ _ ihinner ih =>
      rcases ihinner with ⟨inside, hinside, rfl⟩
      rcases ih with ⟨items, hitems, rfl⟩
      refine ⟨.parens opening inside closing :: items,
        List.forall_mem_cons.2 ⟨.parens hopen hclose hinside, hitems⟩, ?_⟩
      rw [Nested.tokensOf, Nested.tokens, List.cons_append, List.append_assoc,
        List.singleton_append]

end Balanced

/-- Behind an opening mark and a balanced stretch the depth is not zero. -/
theorem depthBehind_opening {before inner : List Token} {opening : Token}
    (hopen : opening.isMark "(" = true) (hinner : Balanced inner) (depth : Nat) :
    depthBehind depth (before ++ opening :: inner) = depthBehind depth before + 1 := by
  rw [depthBehind_append, depthBehind_cons, depthAfter_open hopen, hinner.depthBehind]

/-- The counter is above zero as long as an opening mark waits for its partner. -/
theorem openedIn_iff {front : List Token} : OpenedIn front ↔ depthBehind 0 front ≠ 0 := by
  constructor
  · rintro ⟨before, opening, inner, rfl, hopen, hinner⟩
    rw [depthBehind_opening hopen hinner]
    exact Nat.succ_ne_zero _
  · intro hdepth
    induction hn : front.length using Nat.strong_induction_on generalizing front with
    | _ n ih =>
      rcases List.eq_nil_or_concat front with rfl | ⟨ts, t, rfl⟩
      · exact absurd rfl hdepth
      rw [List.concat_eq_append] at hdepth hn ⊢
      rw [List.length_append, List.length_singleton] at hn
      rw [depthBehind_append, depthBehind_cons] at hdepth
      by_cases hopen : t.isMark "(" = true
      · exact ⟨ts, t, [], rfl, hopen, .nil⟩
      by_cases hclose : t.isMark ")" = true
      · -- The mark takes the nearest waiting one, and the next one outside is looked for.
        have hdeep : depthBehind 0 ts ≠ 0 ∧ depthBehind 0 ts ≠ 1 := by
          rw [depthAfter, if_neg hopen, if_pos hclose] at hdepth
          have hdepth : depthBehind 0 ts - 1 ≠ 0 := hdepth
          omega
        rcases ih ts.length (by omega) hdeep.1 rfl with
          ⟨before, opening, inner, rfl, hopening, hinner⟩
        have houter : depthBehind 0 before ≠ 0 := by
          rw [depthBehind_opening hopening hinner] at hdeep
          omega
        rw [List.length_append, List.length_cons] at hn
        rcases ih before.length (by omega) houter rfl with
          ⟨before, outer, inner', rfl, houter, hinner'⟩
        refine ⟨before, outer, inner' ++ opening :: (inner ++ t :: []), ?_, houter,
          hinner'.append (.parens hopening hclose hinner .nil)⟩
        simp only [List.append_assoc, List.cons_append]
      · rw [Bool.not_eq_true] at hopen hclose
        rw [depthAfter_of_not_mark hopen hclose] at hdepth
        rcases ih ts.length (by omega) hdepth rfl with
          ⟨before, opening, inner, rfl, hopening, hinner⟩
        refine ⟨before, opening, inner ++ [t], ?_, hopening,
          hinner.append (.token hopen hclose .nil)⟩
        rw [List.append_assoc, List.cons_append]

theorem Balanced.not_openedIn {ts : List Token} (h : Balanced ts) : ¬OpenedIn ts :=
  fun hopened => openedIn_iff.1 hopened (h.depthBehind 0)

theorem AllOpened.of_append {as bs : List Token} (h : AllOpened (as ++ bs)) : AllOpened as :=
  fun front t back heq hmark =>
    h front t (back ++ bs) (by rw [heq, List.append_assoc, List.cons_append]) hmark

theorem AllClosed.of_append (as : List Token) {bs : List Token} (h : AllClosed (as ++ bs)) :
    AllClosed bs :=
  fun front t back heq hmark =>
    h (as ++ front) t back (by rw [heq, List.append_assoc]) hmark

/-- Tokens are balanced if all their opening marks have partners and none of
    their closing marks is the partner of one in front of them. -/
theorem balanced_of_allClosed {ts : List Token} (hclosed : AllClosed ts) (hfree : ¬ClosedIn ts) :
    Balanced ts := by
  induction hn : ts.length using Nat.strong_induction_on generalizing ts with
  | _ n ih =>
    cases ts with
    | nil => exact .nil
    | cons t ts =>
        rw [List.length_cons] at hn
        by_cases hclose : t.isMark ")" = true
        · exact absurd ⟨[], t, ts, rfl, hclose, .nil⟩ hfree
        by_cases hopen : t.isMark "(" = true
        · -- Behind the partner of the mark the same holds of what is left.
          rcases hclosed [] t ts rfl hopen with ⟨inner, closing, after, rfl, hclosing, hinner⟩
          refine .parens hopen hclosing hinner (ih after.length ?_ ?_ ?_ rfl)
          · rw [List.length_append, List.length_cons] at hn
            omega
          · exact AllClosed.of_append (t :: (inner ++ [closing])) (by
              rwa [List.cons_append, List.append_assoc, List.singleton_append])
          · rintro ⟨inner', closing', after', rfl, hclosing', hinner'⟩
            refine hfree ⟨t :: (inner ++ closing :: inner'), closing', after', ?_, hclosing',
              .parens hopen hclosing hinner hinner'⟩
            rw [List.cons_append, List.append_assoc, List.cons_append]
        · rw [Bool.not_eq_true] at hopen hclose
          refine .token hopen hclose (ih ts.length (by omega) ?_ ?_ rfl)
          · exact AllClosed.of_append [t] hclosed
          · rintro ⟨inner, closing, after, rfl, hclosing, hinner⟩
            exact hfree ⟨t :: inner, closing, after, rfl, hclosing, .token hopen hclose hinner⟩

theorem balanced_of_all {ts : List Token} (hopened : AllOpened ts) (hclosed : AllClosed ts) :
    Balanced ts := by
  refine balanced_of_allClosed hclosed ?_
  rintro ⟨inner, closing, after, heq, hclosing, hinner⟩
  exact hinner.not_openedIn (hopened inner closing after heq hclosing)

theorem exists_unpaired_close (ts : List Token) :
    AllOpened ts ∨ ∃ front t back, ts = front ++ t :: back ∧ t.isMark ")" = true ∧
      ¬OpenedIn front ∧ AllOpened front := by
  induction ts using List.reverseRecOn with
  | nil =>
      exact Or.inl fun front t back heq => absurd heq.symm
        (List.append_ne_nil_of_right_ne_nil _ (List.cons_ne_nil _ _))
  | append_singleton ts t ih =>
      rcases ih with hopened | ⟨front, u, back, rfl, hmark, halone, hfirst⟩
      · by_cases hfault : t.isMark ")" = true ∧ ¬OpenedIn ts
        · exact Or.inr ⟨ts, t, [], rfl, hfault.1, hfault.2, hopened⟩
        · refine Or.inl fun front u back heq hmark => ?_
          rcases List.eq_nil_or_concat back with rfl | ⟨back, v, rfl⟩
          · rcases List.append_inj' heq rfl with ⟨rfl, hlast⟩
            rw [← (List.cons.inj hlast).1] at hmark
            exact not_not.1 fun halone => hfault ⟨hmark, halone⟩
          · rw [List.concat_eq_append, ← List.cons_append, ← List.append_assoc] at heq
            exact hopened front u back (List.append_inj' heq rfl).1 hmark
      · refine Or.inr ⟨front, u, back ++ [t], ?_, hmark, halone, hfirst⟩
        rw [List.append_assoc, List.cons_append]

theorem exists_unpaired_open (ts : List Token) :
    AllClosed ts ∨ ∃ front t back, ts = front ++ t :: back ∧ t.isMark "(" = true ∧
      ¬ClosedIn back ∧ AllClosed back := by
  induction ts with
  | nil =>
      exact Or.inl fun front t back heq => absurd heq.symm
        (List.append_ne_nil_of_right_ne_nil _ (List.cons_ne_nil _ _))
  | cons t ts ih =>
      rcases ih with hclosed | ⟨front, u, back, rfl, hmark, halone, hlast⟩
      · by_cases hfault : t.isMark "(" = true ∧ ¬ClosedIn ts
        · exact Or.inr ⟨[], t, ts, rfl, hfault.1, hfault.2, hclosed⟩
        · refine Or.inl fun front u back heq hmark => ?_
          cases front with
          | nil =>
              rcases List.cons.inj heq with ⟨rfl, rfl⟩
              exact not_not.1 fun halone => hfault ⟨hmark, halone⟩
          | cons v front => exact hclosed front u back (List.cons.inj heq).2 hmark
      · exact Or.inr ⟨t :: front, u, back, rfl, hmark, halone, hlast⟩

/-- All marks have partners, or one without is named. -/
theorem exists_unpaired (ts : List Token) :
    AllOpened ts ∧ AllClosed ts ∨ ∃ e, Unpaired ts e := by
  rcases exists_unpaired_close ts with hopened | ⟨front, t, back, heq, hmark, halone, hfirst⟩
  · rcases exists_unpaired_open ts with hclosed | ⟨front, t, back, heq, hmark, halone, hlast⟩
    · exact Or.inl ⟨hopened, hclosed⟩
    · exact Or.inr ⟨_, .opening hopened heq hmark halone hlast⟩
  · exact Or.inr ⟨_, .closing heq hmark halone hfirst⟩

namespace Nested

/-- Reading on over tokens whose closing marks find an opening one leaves the
    stack as high as the counter says. -/
theorem nestFrom_append (stack : List (Token × List Nested)) {front : List Token}
    (h : ∀ before t after, front = before ++ t :: after → t.isMark ")" = true →
      depthBehind stack.length before ≠ 0) (current : List Nested) (rest : List Token) :
    ∃ stack' current', nestFrom stack current (front ++ rest) = nestFrom stack' current' rest ∧
      stack'.length = depthBehind stack.length front := by
  induction front generalizing stack current with
  | nil => exact ⟨stack, current, rfl, rfl⟩
  | cons t front ih =>
      have hrest : ∀ before u after, front = before ++ u :: after → u.isMark ")" = true →
          depthBehind (depthAfter stack.length t) before ≠ 0 :=
        fun before u after heq hmark => h (t :: before) u after (by rw [heq]; rfl) hmark
      rw [List.cons_append, depthBehind_cons]
      by_cases hopen : t.isMark "(" = true
      · rw [depthAfter_open hopen] at hrest ⊢
        rw [nestFrom_open hopen]
        exact ih ((t, current) :: stack) hrest []
      rw [Bool.not_eq_true] at hopen
      by_cases hclose : t.isMark ")" = true
      · -- The mark finds an opening one, so the stack is not empty.
        cases stack with
        | nil => exact absurd rfl (h [] t front rfl hclose)
        | cons frame outer =>
            rw [List.length_cons, depthAfter_close hclose] at hrest ⊢
            rw [nestFrom_close hopen hclose]
            exact ih _ hrest _
      · rw [Bool.not_eq_true] at hclose
        rw [depthAfter_of_not_mark hopen hclose] at hrest ⊢
        rw [nestFrom_token hopen hclose]
        exact ih _ hrest _

theorem nestFrom_allOpened {front : List Token} (h : AllOpened front) (rest : List Token) :
    ∃ stack current, nest (front ++ rest) = nestFrom stack current rest ∧
      stack.length = depthBehind 0 front :=
  nestFrom_append []
    (fun before t after heq hmark => openedIn_iff.1 (h before t after heq hmark)) [] rest

theorem nest_of_unpaired {ts : List Token} {e : ParseError} (h : Unpaired ts e) :
    nest ts = .error e := by
  cases h with
  | @closing front back t heq hmark halone hfirst =>
      rcases nestFrom_allOpened hfirst (t :: back) with ⟨stack, current, hrun, hlength⟩
      -- No opening mark is left on the stack for this one.
      rw [not_not.1 (mt openedIn_iff.2 halone), List.length_eq_zero_iff] at hlength
      rw [heq, hrun, hlength]
      simp only [nestFrom, Token.not_open_of_close hmark, hmark, Bool.false_eq_true, if_false,
        if_true]
  | @opening front back t hopened heq hmark halone hlast =>
      rw [heq] at hopened
      rcases nestFrom_allOpened hopened.of_append (t :: back) with ⟨stack, current, hrun, -⟩
      rcases (balanced_of_allClosed hlast halone).exists_items with ⟨items, hitems, rfl⟩
      -- What follows the mark is balanced and leaves it on top of the stack.
      have hback := nestFrom_tokensOf items hitems ((t, current) :: stack) [] []
      rw [List.append_nil] at hback
      rw [heq, hrun, nestFrom_open hmark, hback, nestFrom]

theorem nest_of_all {ts : List Token} (hopened : AllOpened ts) (hclosed : AllClosed ts) :
    ∃ items, nest ts = .ok items := by
  rcases (balanced_of_all hopened hclosed).exists_items with ⟨items, hitems, rfl⟩
  exact ⟨items, nest_tokensOf hitems⟩

/-- Nesting fails exactly at the mark without a partner that is named. -/
theorem nest_eq_error_iff {ts : List Token} {e : ParseError} :
    nest ts = .error e ↔ Unpaired ts e := by
  refine ⟨fun h => ?_, nest_of_unpaired⟩
  rcases exists_unpaired ts with ⟨hopened, hclosed⟩ | ⟨e', he'⟩
  · rcases nest_of_all hopened hclosed with ⟨items, hitems⟩
    simp only [hitems, reduceCtorEq] at h
  · rw [nest_of_unpaired he', Except.error.injEq] at h
    rwa [← h]

/-- It succeeds exactly if all marks have partners. -/
theorem nest_eq_ok_iff {ts : List Token} :
    (∃ items, nest ts = .ok items) ↔ AllOpened ts ∧ AllClosed ts := by
  refine ⟨?_, fun h => nest_of_all h.1 h.2⟩
  rintro ⟨items, hitems⟩
  rcases exists_unpaired ts with hall | ⟨e, he⟩
  · exact hall
  · simp only [nest_of_unpaired he, reduceCtorEq] at hitems

end Nested

end SqlGist
