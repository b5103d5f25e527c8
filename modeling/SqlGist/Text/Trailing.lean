/-!
# Trailing Runs

Lists cut in two where their last run begins. The tree groups a clause or a
list without the blanks behind it, and text is trimmed at both ends; both
need the longest run at the *end* of a list on which a test holds, which
`List.takeWhile` cannot name without reversing twice.

## Main definitions

* `cutTrailing`: The list before its last run, and that run.

## Theorems

* `cutTrailing_append`: The two parts make up the list.
* `cutTrailing_snd`: The second part passes the test throughout.
* `cutTrailing_getLast`: The first part ends in an element that fails it.
* `cutTrailing_eq_nil_iff`: The first part is empty exactly when every
  element passes.
* `cutTrailing_append_of_forall`: A run is cut off where its list began.
* `cutTrailing_of_getLast`: Nothing is cut off a list whose last element fails.
-/

namespace SqlGist

variable {α : Type}

/-- The list without its longest trailing run of elements that pass `p`, and
    that run. -/
def cutTrailing (p : α → Bool) : List α → List α × List α
  | [] => ([], [])
  | a :: as =>
    match cutTrailing p as with
    -- The run reaches back to here only if the whole tail belongs to it.
    | ([], run) => if p a then ([], a :: run) else ([a], run)
    | (b :: body, run) => (a :: b :: body, run)

theorem cutTrailing_append (p : α → Bool) (as : List α) :
    (cutTrailing p as).1 ++ (cutTrailing p as).2 = as := by
  induction as with
  | nil => rfl
  | cons a as ih =>
      simp only [cutTrailing]
      split
      · rename_i run heq
        rw [heq] at ih
        simp only [List.nil_append] at ih
        split <;> simp only [List.nil_append, List.cons_append, ih]
      · rename_i b body run heq
        rw [heq] at ih
        simp only [List.cons_append] at ih ⊢
        rw [ih]

theorem cutTrailing_snd (p : α → Bool) (as : List α) :
    ∀ x ∈ (cutTrailing p as).2, p x = true := by
  induction as with
  | nil => exact fun x hx => absurd hx List.not_mem_nil
  | cons a as ih =>
      simp only [cutTrailing]
      split
      · rename_i run heq
        rw [heq] at ih
        split
        · rename_i ha
          intro x hx
          rcases List.mem_cons.1 hx with rfl | hx
          · exact ha
          · exact ih x hx
        · exact ih
      · rename_i b body run heq
        rw [heq] at ih
        exact ih

theorem cutTrailing_getLast (p : α → Bool) (as : List α) :
    ∀ x, (cutTrailing p as).1.getLast? = some x → p x = false := by
  induction as with
  | nil => exact fun x hx => by simp only [cutTrailing, List.getLast?_nil, reduceCtorEq] at hx
  | cons a as ih =>
      simp only [cutTrailing]
      split
      · split
        · exact fun x hx => by simp only [List.getLast?_nil, reduceCtorEq] at hx
        · rename_i ha
          intro x hx
          simp only [List.getLast?_singleton, Option.some.injEq] at hx
          rw [← hx]
          exact Bool.eq_false_iff.2 ha
      · rename_i b body run heq
        rw [heq] at ih
        intro x hx
        rw [List.getLast?_cons_cons] at hx
        exact ih x hx

theorem cutTrailing_eq_nil_iff (p : α → Bool) (as : List α) :
    (cutTrailing p as).1 = [] ↔ ∀ x ∈ as, p x = true := by
  constructor
  · intro h x hx
    have happ := cutTrailing_append p as
    rw [h, List.nil_append] at happ
    exact cutTrailing_snd p as x (happ.symm ▸ hx)
  · intro h
    induction as with
    | nil => rfl
    | cons a as ih =>
        have htail := ih fun x hx => h x (List.mem_cons_of_mem a hx)
        have ha := h a List.mem_cons_self
        simp only [cutTrailing]
        split
        · simp only [ha, if_true]
        · rename_i heq
          rw [heq] at htail
          exact absurd htail (List.cons_ne_nil _ _)

theorem cutTrailing_append_of_forall {p : α → Bool} {as bs : List α}
    (has : ∀ x, as.getLast? = some x → p x = false) (hbs : ∀ x ∈ bs, p x = true) :
    cutTrailing p (as ++ bs) = (as, bs) := by
  induction as with
  | nil =>
      have hnil := (cutTrailing_eq_nil_iff p bs).2 hbs
      have happ := cutTrailing_append p bs
      rw [hnil, List.nil_append] at happ
      exact Prod.ext hnil happ
  | cons a as ih =>
      rw [List.cons_append, cutTrailing]
      cases as with
      | nil =>
          rw [ih fun x hx => absurd hx.symm (Option.some_ne_none x)]
          simp only [has a rfl, Bool.false_eq_true, if_false]
      | cons b body => rw [ih fun x hx => has x (by rwa [List.getLast?_cons_cons])]

theorem cutTrailing_of_getLast {p : α → Bool} {as : List α}
    (h : ∀ x, as.getLast? = some x → p x = false) : cutTrailing p as = (as, []) := by
  have hcut := cutTrailing_append_of_forall h fun x hx => absurd hx List.not_mem_nil
  rwa [List.append_nil] at hcut

end SqlGist
