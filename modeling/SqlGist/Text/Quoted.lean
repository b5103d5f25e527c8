/-!
# Quoted Text

String literals and quoted names are written between two quote characters,
and a quote inside is written twice. Reading a value back takes off the outer
quotes and collapses the pairs.

`unquote` has to answer for every token, also for a hand-made one that was
never quoted: such a text is only collapsed. What the lexer relies on is
`closeQuote?`, which finds where a quoted text ends.

## Main definitions

* `Quote`: The three quote characters.
* `double`: A text with each quote written twice.
* `enclose`: The quoted form of a text.
* `collapse`: A text with each pair of quotes made one.
* `unquote`: The text that a quoted form stands for.
* `closeQuote?`: The rest of a quoted form up to its closing quote, and what
  follows it.

## Theorems

* `closeQuote?_append`: The two parts make up the text.
* `collapse_double`: Collapsing undoes doubling.
* `unquote_enclose`: Unquoting undoes quoting.
* `closeQuote?_double`: A doubled text closes at the first single quote.
-/

namespace SqlGist

/-- The characters that quote a text: an apostrophe around a string literal,
    double quotes or grave accents around a name. -/
inductive Quote
  | apostrophe
  | double
  | grave
deriving DecidableEq, Repr

namespace Quote

/-- The character itself. -/
def char : Quote → Char
  | .apostrophe => '\x27'
  | .double => '\x22'
  | .grave => '\x60'

/-- The quote that a character is, if it is one around names. -/
def ofNameQuote? (c : Char) : Option Quote :=
  if c = Quote.double.char then some .double
  else if c = Quote.grave.char then some .grave
  else none

end Quote

namespace Text

/-- The text with each `q` written twice. -/
def double (q : Char) : List Char → List Char
  | [] => []
  | c :: cs => if c = q then q :: q :: double q cs else c :: double q cs

/-- The quoted form of a text. -/
def enclose (q : Char) (cs : List Char) : List Char :=
  q :: (double q cs ++ [q])

/-- The text with each pair of neighbouring `q` made one, read from the
    left. -/
def collapse (q : Char) : List Char → List Char
  | [] => []
  | [c] => [c]
  | c :: d :: cs =>
    if c = q ∧ d = q then q :: collapse q cs
    else c :: collapse q (d :: cs)

/-- What stands between the first and the last character, if both are `q`
    and they are not the same one. -/
def stripQuotes? (q : Char) : List Char → Option (List Char)
  | [] => none
  | c :: cs => if c = q ∧ cs.getLast? = some q then some cs.dropLast else none

/-- The text that a quoted form stands for. A text without outer quotes is
    only collapsed. -/
def unquote (q : Char) (cs : List Char) : List Char :=
  collapse q ((stripQuotes? q cs).getD cs)

/-- Behind an opening `q`: the characters up to and with the closing one, and
    what follows. A doubled `q` does not close; `none` if nothing does. -/
def closeQuote? (q : Char) : List Char → Option (List Char × List Char)
  | [] => none
  | [c] => if c = q then some ([c], []) else none
  | c :: d :: cs =>
    if c = q then
      -- Two in a row stand for one inside, and reading goes on behind both.
      if d = q then (closeQuote? q cs).map fun parts => (c :: d :: parts.1, parts.2)
      else some ([c], d :: cs)
    else
      (closeQuote? q (d :: cs)).map fun parts => (c :: parts.1, parts.2)

theorem closeQuote?_append {q : Char} {cs body rest : List Char}
    (h : closeQuote? q cs = some (body, rest)) : body ++ rest = cs := by
  fun_induction closeQuote? q cs generalizing body with
  | case1 => simp only [reduceCtorEq] at h
  | case2 =>
      simp only [Option.some.injEq, Prod.mk.injEq] at h
      rw [← h.1, ← h.2]
      rfl
  | case3 => simp only [reduceCtorEq] at h
  | case4 cs ih =>
      rcases Option.map_eq_some_iff.1 h with ⟨⟨b, r⟩, hrec, heq⟩
      simp only [Prod.mk.injEq] at heq
      rw [← heq.1]
      simp only [List.cons_append, ih (heq.2 ▸ hrec)]
  | case5 d cs _ =>
      simp only [Option.some.injEq, Prod.mk.injEq] at h
      rw [← h.1, ← h.2]
      rfl
  | case6 c d cs _ ih =>
      rcases Option.map_eq_some_iff.1 h with ⟨⟨b, r⟩, hrec, heq⟩
      simp only [Prod.mk.injEq] at heq
      rw [← heq.1]
      simp only [List.cons_append, ih (heq.2 ▸ hrec)]

theorem collapse_double (q : Char) (cs : List Char) : collapse q (double q cs) = cs := by
  induction cs with
  | nil => rfl
  | cons c cs ih =>
      rw [double]
      split
      · rename_i hc
        rw [collapse, if_pos ⟨rfl, rfl⟩, ih, hc]
      · rename_i hc
        -- The next character, if there is one, cannot pair with this one.
        cases hd : double q cs with
        | nil =>
            rw [hd, collapse] at ih
            rw [collapse, ← ih]
        | cons d ds =>
            rw [collapse, if_neg fun h => hc h.1, ← hd, ih]

theorem unquote_enclose (q : Char) (cs : List Char) : unquote q (enclose q cs) = cs := by
  simp only [unquote, enclose, stripQuotes?, List.getLast?_concat, and_self, if_true,
    List.dropLast_concat, Option.getD_some, collapse_double]

theorem closeQuote?_double (q : Char) (cs rest : List Char) (h : rest.head? ≠ some q) :
    closeQuote? q (double q cs ++ q :: rest) = some (double q cs ++ [q], rest) := by
  induction cs with
  | nil =>
      cases rest with
      | nil => simp only [double, List.nil_append, closeQuote?, if_true]
      | cons d rest =>
          have hd : d ≠ q := fun hd => h (by rw [List.head?_cons, hd])
          simp only [double, List.nil_append, closeQuote?, if_true, if_neg hd]
  | cons c cs ih =>
      rw [double]
      split
      -- A quote of the text was doubled, and is passed as a pair.
      · simp only [List.cons_append, closeQuote?, if_true, ih, Option.map_some]
      · rename_i hc
        rw [List.cons_append]
        cases hd : double q cs ++ q :: rest with
        | nil => exact absurd hd (by simp only [List.append_eq_nil_iff, reduceCtorEq, and_false,
            not_false_eq_true])
        | cons d ds =>
            rw [closeQuote?, if_neg hc, ← hd, ih, Option.map_some]
            rfl

end Text

end SqlGist
