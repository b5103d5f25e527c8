import SqlGist.Proofs.Token.Words

/-!
# Runs of Blanks and Comments

Blanks and comments mean nothing by themselves, so a run of them may be replaced
by one space. `Respaced` relates a text to each text that comes of that, for some
of its runs or for all.

The two texts need not begin with the same character, but they nearly do. Only a
blank, a hyphen or a slash opens a run, and so does the space in its place. To
anything that asks for other characters the two begin alike, and where no run
begins in the text none begins in the other.

## Main definitions

* `CharClass.opensRun`: A run can begin with the character.
* `Respaced`: A text, and the text with spaces for some of its runs.

## Theorems

* `blankRun_eq_nil_iff`, `exists_opensRun`: Where a run begins.
* `blankRun_of_visible`: None begins with a token that is no blank.
* `Respaced.append`: What stands in front may stay as it is.
* `Respaced.any_head?`, `Respaced.takeWhile_eq`, `Respaced.blankRun_eq_nil`: What
  the first characters have in common.
-/

namespace SqlGist

/-- Whether a run of blanks and comments can begin with the character. -/
def CharClass.opensRun (c : Char) : Bool :=
  isBlank c || c = '-' || c = '/'

/-- A text, and the same text with one space in place of some of its runs of
    blanks and comments. -/
inductive Respaced : List Char → List Char → Prop
  | nil : Respaced [] []
  | same (c : Char) {cs ds : List Char} : Respaced cs ds → Respaced (c :: cs) (c :: ds)
  | space {cs ds : List Char} (hrun : (Lexeme.blankRun .between cs).1 ≠ []) :
      Respaced (Lexeme.blankRun .between cs).2 ds → Respaced cs (' ' :: ds)

theorem CharClass.isWordChar_of_opensRun {c : Char} (h : opensRun c = true) :
    isWordChar c = false := by
  rw [← Bool.not_eq_true]
  intro hword
  simp only [opensRun, Bool.or_eq_true, decide_eq_true_eq] at h
  rcases h with (hblank | rfl) | rfl
  · exact Bool.false_ne_true ((isBlank_of_isWordChar hword).symm.trans hblank)
  · exact absurd hword (by decide)
  · exact absurd hword (by decide)

theorem CharClass.isDigit_of_opensRun {c : Char} (h : opensRun c = true) : c.isDigit = false := by
  rw [← Bool.not_eq_true]
  intro hdigit
  exact Bool.false_ne_true
    ((isWordChar_of_opensRun h).symm.trans (isWordChar_of_isDigit hdigit))

namespace Lexeme

theorem blankRun_eq_nil_iff {c : Char} {cs : List Char} :
    (blankRun .between (c :: cs)).1 = [] ↔
      CharClass.isBlank c = false ∧ ¬(c = '-' ∧ cs.head? = some '-') ∧
        ¬(c = '/' ∧ cs.head? = some '*') := by
  by_cases hline : c = '-' ∧ cs.head? = some '-'
  · obtain ⟨rfl, hcs⟩ := hline
    obtain ⟨cs, rfl⟩ := List.head?_eq_some_iff.1 hcs
    exact ⟨fun h => absurd h (List.cons_ne_nil _ _), fun h => absurd ⟨rfl, rfl⟩ h.2.1⟩
  by_cases hblock : c = '/' ∧ cs.head? = some '*'
  · obtain ⟨rfl, hcs⟩ := hblock
    obtain ⟨cs, rfl⟩ := List.head?_eq_some_iff.1 hcs
    exact ⟨fun h => absurd h (List.cons_ne_nil _ _), fun h => absurd ⟨rfl, rfl⟩ h.2.2⟩
  -- No comment opens here, so only the character itself counts.
  rw [blankRun.eq_4 c cs (fun _ hc hcs => hline ⟨hc, by rw [hcs, List.head?_cons]⟩)
    fun _ hc hcs => hblock ⟨hc, by rw [hcs, List.head?_cons]⟩]
  simp only [hline, hblock, not_false_eq_true, and_true]
  split
  · rename_i hblank
    exact ⟨fun h => absurd h (List.cons_ne_nil _ _),
      fun h => absurd hblank (Bool.eq_false_iff.1 h)⟩
  · rename_i hblank
    exact ⟨fun _ => Bool.eq_false_iff.2 hblank, fun _ => rfl⟩

/-- What begins with no run is separated from nothing in front of it. -/
theorem not_blank_of_head? {cs : List Char} (h : (blankRun .between cs).1 = []) :
    ∀ c, cs.head? = some c → CharClass.isBlank c = false := by
  intro c hc
  obtain ⟨cs, rfl⟩ := List.head?_eq_some_iff.1 hc
  exact (blankRun_eq_nil_iff.1 h).1

/-- What begins with a run begins with a character that opens one. -/
theorem exists_opensRun {cs : List Char} (h : (blankRun .between cs).1 ≠ []) :
    ∃ c bs, cs = c :: bs ∧ CharClass.opensRun c = true := by
  cases cs with
  | nil => exact absurd rfl h
  | cons c bs =>
      refine ⟨c, bs, rfl, ?_⟩
      by_contra hc
      simp only [CharClass.opensRun, Bool.or_eq_true, decide_eq_true_eq, not_or] at hc
      exact h (blankRun_eq_nil_iff.2
        ⟨Bool.eq_false_iff.2 hc.1.1, fun hline => hc.1.2 hline.1, fun hblock => hc.2 hblock.1⟩)

end Lexeme

/-- No run of blanks opens where a token is that is no blank. -/
theorem Cursor.blankRun_of_visible {c : Cursor} (h : c.next.1.kind ≠ .whitespace) :
    (Lexeme.blankRun .between c.rest).1 = [] :=
  not_not.1 fun hrun => h (lexeme_whitespace_iff.2 hrun)

namespace Respaced

theorem append (front : List Char) {cs ds : List Char} (h : Respaced cs ds) :
    Respaced (front ++ cs) (front ++ ds) := by
  induction front with
  | nil => exact h
  | cons c front ih => exact .same c ih

theorem refl (cs : List Char) : Respaced cs cs := by
  have h := append cs .nil
  rwa [List.append_nil] at h

theorem eq_nil {ds : List Char} (h : Respaced [] ds) : ds = [] := by
  cases h with
  | nil => rfl
  | space hrun => exact absurd rfl hrun

/-- A character that is no space is one of the text. -/
theorem exists_cons {cs ds : List Char} {d : Char} (h : Respaced cs (d :: ds)) (hd : d ≠ ' ') :
    ∃ bs, cs = d :: bs ∧ Respaced bs ds := by
  cases h with
  | same _ h => exact ⟨_, rfl, h⟩
  | space => exact absurd rfl hd

/-- A class without the characters that open a run does not tell the two texts
    apart by their first characters. -/
theorem any_head? {p : Char → Bool} (hp : ∀ c, CharClass.opensRun c = true → p c = false)
    {cs ds : List Char} (h : Respaced cs ds) : ds.head?.any p = cs.head?.any p := by
  cases h with
  | nil => rfl
  | same => rfl
  | space hrun =>
      rcases Lexeme.exists_opensRun hrun with ⟨c, bs, rfl, hc⟩
      simp only [List.head?_cons, Option.any_some, hp c hc, hp ' ' (by decide)]

theorem head?_of_head? {d : Char} (hd : d ≠ ' ') {cs ds : List Char} (h : Respaced cs ds)
    (hds : ds.head? = some d) : cs.head? = some d := by
  obtain ⟨ds, rfl⟩ := List.head?_eq_some_iff.1 hds
  obtain ⟨bs, rfl, -⟩ := h.exists_cons hd
  rfl

theorem head?_eq_some_iff {d : Char} (hd : CharClass.opensRun d = false) {cs ds : List Char}
    (h : Respaced cs ds) : ds.head? = some d ↔ cs.head? = some d := by
  constructor
  · refine h.head?_of_head? ?_
    rintro rfl
    exact absurd hd (by decide)
  · cases h with
    | nil => exact id
    | same => exact id
    | space hrun =>
        rcases Lexeme.exists_opensRun hrun with ⟨c, bs, rfl, hc⟩
        rw [List.head?_cons, Option.some.injEq]
        rintro rfl
        exact absurd (hd.symm.trans hc) Bool.false_ne_true

theorem takeWhile_eq {p : Char → Bool} (hp : ∀ c, CharClass.opensRun c = true → p c = false)
    {cs ds : List Char} (h : Respaced cs ds) : ds.takeWhile p = cs.takeWhile p := by
  induction h with
  | nil => rfl
  | same c h ih => rw [List.takeWhile_cons, List.takeWhile_cons, ih]
  | space hrun =>
      rcases Lexeme.exists_opensRun hrun with ⟨c, bs, rfl, hc⟩
      rw [List.takeWhile_cons_of_neg (Bool.eq_false_iff.1 (hp ' ' (by decide))),
        List.takeWhile_cons_of_neg (Bool.eq_false_iff.1 (hp c hc))]

/-- Where the text begins with no run, the other does not either. -/
theorem blankRun_eq_nil {cs ds : List Char} (h : Respaced cs ds)
    (hcs : (Lexeme.blankRun .between cs).1 = []) : (Lexeme.blankRun .between ds).1 = [] := by
  cases h with
  | nil => rfl
  | space hrun => exact absurd hcs hrun
  | same c h =>
      rw [Lexeme.blankRun_eq_nil_iff] at hcs ⊢
      exact ⟨hcs.1, fun hline => hcs.2.1 ⟨hline.1, h.head?_of_head? (by decide) hline.2⟩,
        fun hblock => hcs.2.2 ⟨hblock.1, h.head?_of_head? (by decide) hblock.2⟩⟩

end Respaced

end SqlGist
