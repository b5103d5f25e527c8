import SqlGist.ParseError

/-!
# Nested Parentheses

The tokens of a statement with every parenthesis closed: the form between a
flat list and a tree. Whether the parentheses balance is decided here once, and
everything behind works on a type that cannot hold an open one.

`nest` keeps the parentheses that are still open on a stack, innermost first,
each with what stood before it at its own level. A closing one without a
partner fails on the spot; one that stays open fails at the end, and the
innermost of them is named.

## Main definitions

* `Nested`: A token, or a pair of parentheses around such items.
* `tokens`: The tokens an item is made of.
* `nest`: The items that a list of tokens makes up.

## Theorems

* `nestFrom_open`, `nestFrom_close`, `nestFrom_token`: What one token does.
* `tokensOf_append`: The tokens of two lists of items.
* `tokens_of_nest`: Nesting keeps every token in its place.
-/

namespace SqlGist

/-- A token, or a pair of parentheses and what stands between them. -/
inductive Nested
  | token (t : Token)
  | parens (opening : Token) (inner : List Nested) (closing : Token)

namespace Nested

mutual

/-- The tokens that an item is made of. -/
def tokens : Nested → List Token
  | .token t => [t]
  | .parens opening inner closing => opening :: (tokensOf inner ++ [closing])

/-- The tokens that a list of items is made of. -/
def tokensOf : List Nested → List Token
  | [] => []
  | item :: items => item.tokens ++ tokensOf items

end

/-- The keyword, if the item is one. -/
def keyword? : Nested → Option Keyword
  | .token t => t.keyword?
  | .parens _ _ _ => none

/-- Reads on with `stack` holding the open parentheses, innermost first, each
    with the items before it, and `current` the items behind the innermost
    one. Items are kept in reverse. -/
def nestFrom (stack : List (Token × List Nested)) (current : List Nested) :
    List Token → Except ParseError (List Nested)
  | [] =>
    match stack with
    | [] => .ok current.reverse
    -- The innermost of those still open is the one named.
    | (opening, _) :: _ => .error ⟨.unclosedOpen, opening.span⟩
  | t :: ts =>
    if t.isMark "(" then nestFrom ((t, current) :: stack) [] ts
    else if t.isMark ")" then
      match stack with
      | [] => .error ⟨.unbalancedClose, t.span⟩
      -- The level is complete and becomes one item of the level around it.
      | (opening, before) :: outer =>
        nestFrom outer (.parens opening current.reverse t :: before) ts
    else nestFrom stack (.token t :: current) ts

/-- The items that a list of tokens makes up. -/
def nest (ts : List Token) : Except ParseError (List Nested) :=
  nestFrom [] [] ts

theorem nestFrom_open {t : Token} (hopen : t.isMark "(" = true) (stack : List (Token × List Nested))
    (current : List Nested) (ts : List Token) :
    nestFrom stack current (t :: ts) = nestFrom ((t, current) :: stack) [] ts := by
  cases stack <;> simp only [nestFrom, hopen, if_true]

theorem nestFrom_close {t : Token} (hopen : t.isMark "(" = false) (hclose : t.isMark ")" = true)
    (opening : Token) (before : List Nested) (outer : List (Token × List Nested))
    (current : List Nested) (ts : List Token) :
    nestFrom ((opening, before) :: outer) current (t :: ts) =
      nestFrom outer (.parens opening current.reverse t :: before) ts := by
  simp only [nestFrom, hopen, hclose, if_true, Bool.false_eq_true, if_false]

theorem nestFrom_token {t : Token} (hopen : t.isMark "(" = false) (hclose : t.isMark ")" = false)
    (stack : List (Token × List Nested)) (current : List Nested) (ts : List Token) :
    nestFrom stack current (t :: ts) = nestFrom stack (.token t :: current) ts := by
  cases stack <;> simp only [nestFrom, hopen, hclose, Bool.false_eq_true, if_false]

theorem tokensOf_append (as bs : List Nested) :
    tokensOf (as ++ bs) = tokensOf as ++ tokensOf bs := by
  induction as with
  | nil => rfl
  | cons a as ih => simp only [List.cons_append, tokensOf, ih, List.append_assoc]

/-- The tokens read so far: of each open level what stood before it and its
    parenthesis, outermost first. -/
def readSoFar : List (Token × List Nested) → List Nested → List Token
  | [], current => tokensOf current.reverse
  | (opening, before) :: outer, current =>
    readSoFar outer before ++ opening :: tokensOf current.reverse

theorem readSoFar_cons (stack : List (Token × List Nested)) (item : Nested)
    (current : List Nested) :
    readSoFar stack (item :: current) = readSoFar stack current ++ item.tokens := by
  cases stack with
  | nil =>
      simp only [readSoFar, List.reverse_cons, tokensOf_append, tokensOf, List.append_nil]
  | cons frame outer =>
      simp only [readSoFar, List.reverse_cons, tokensOf_append, tokensOf, List.append_nil,
        List.append_assoc, List.cons_append]

theorem tokensOf_nestFrom {stack : List (Token × List Nested)} {current items : List Nested}
    {ts : List Token} (h : nestFrom stack current ts = .ok items) :
    tokensOf items = readSoFar stack current ++ ts := by
  fun_induction nestFrom stack current ts with
  | case1 current =>
      simp only [Except.ok.injEq] at h
      simp only [← h, readSoFar, List.append_nil]
  | case2 => simp only [reduceCtorEq] at h
  | case3 stack current t ts _ ih =>
      -- The parenthesis opens a level on which nothing has been read.
      rw [ih h]
      simp only [readSoFar, List.reverse_nil, tokensOf, List.append_assoc, List.cons_append,
        List.nil_append]
  | case4 => simp only [reduceCtorEq] at h
  | case5 current t ts _ _ opening before outer ih =>
      -- The closed level goes behind what stood before it, parentheses included.
      rw [ih h, readSoFar_cons]
      simp only [readSoFar, tokens, List.append_assoc, List.cons_append, List.nil_append]
  | case6 stack current t ts _ _ ih =>
      rw [ih h, readSoFar_cons]
      simp only [tokens, List.append_assoc, List.cons_append, List.nil_append]

theorem tokens_of_nest {ts : List Token} {items : List Nested} (h : nest ts = .ok items) :
    tokensOf items = ts :=
  tokensOf_nestFrom h

end Nested

end SqlGist
