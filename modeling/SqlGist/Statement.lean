import SqlGist.ParseError
import SqlGist.Token.Cursor

/-!
# The First Statement

A text may hold several statements, parted by semicolons, and only the first
one with anything in it counts. A semicolon inside parentheses parts nothing.

Depth is counted on the tokens alone, before it is known whether the
parentheses balance. A closing one without a partner leaves the depth at zero:
it is an error of the statement it stands in, and must not hide the semicolon
behind it.

## Main definitions

* `splitStatements`: The stretches between semicolons outside parentheses.
* `firstStatement?`: The first stretch that holds more than blanks.
* `readStatement`: The tokens of the first statement of a text.

## Theorems

* `depthAfter_open`, `depthAfter_close`, `depthAfter_of_not_mark`: What a token
  does to the depth.
* `splitStatements_ne_nil`: There is always a stretch.
* `splitStatements_cons`: A token that is no separator opens the first stretch.
-/

namespace SqlGist

/-- The depth of parentheses behind a token. -/
def depthAfter (depth : Nat) (t : Token) : Nat :=
  if t.isMark "(" then depth + 1
  else if t.isMark ")" then depth - 1
  else depth

/-- Puts an element in front of the first stretch. -/
def consFirst {α : Type} (a : α) : List (List α) → List (List α)
  | [] => [[a]]
  | stretch :: stretches => (a :: stretch) :: stretches

/-- The stretches of tokens between semicolons outside parentheses, when
    `depth` parentheses are open already. -/
def splitStatements (depth : Nat) : List Token → List (List Token)
  | [] => [[]]
  | t :: ts =>
    -- The separator ends a stretch and belongs to none.
    if t.isMark ";" && depth = 0 then [] :: splitStatements 0 ts
    else consFirst t (splitStatements (depthAfter depth t) ts)

/-- The first stretch that holds more than blanks. -/
def firstStatement? (tokens : List Token) : Option (List Token) :=
  (splitStatements 0 tokens).find? fun stretch => stretch.any fun t => !t.isWhitespace

/-- The error that a token stands for. -/
def Token.parseError? (t : Token) : Option ParseError :=
  t.error?.map fun cause => ⟨.lexical cause, t.span⟩

/-- The tokens of the first statement of a text. An error token anywhere in the
    text comes before every other complaint. -/
def readStatement (sql : String) : Except ParseError (List Token) :=
  match (tokenize sql).findSome? Token.parseError? with
  | some e => .error e
  | none =>
    match firstStatement? ((tokenize sql).filter fun t => t.kind != .eof) with
    | some statement => .ok statement
    | none => .error ⟨.emptyStatement, ⟨0, sql.utf8ByteSize⟩⟩

/-- A mark that closes does not open. -/
theorem Token.not_open_of_close {t : Token} (h : t.isMark ")" = true) : t.isMark "(" = false := by
  simp only [isMark, Bool.and_eq_true, decide_eq_true_eq] at h
  simp only [isMark, h.2, String.reduceEq, decide_false, Bool.and_false]

theorem depthAfter_open {t : Token} (h : t.isMark "(" = true) (depth : Nat) :
    depthAfter depth t = depth + 1 := by
  rw [depthAfter, h, if_pos rfl]

theorem depthAfter_close {t : Token} (h : t.isMark ")" = true) (depth : Nat) :
    depthAfter (depth + 1) t = depth := by
  rw [depthAfter, Token.not_open_of_close h, h, if_neg Bool.false_ne_true, if_pos rfl,
    Nat.add_sub_cancel]

theorem depthAfter_of_not_mark {t : Token} (hopen : t.isMark "(" = false)
    (hclose : t.isMark ")" = false) (depth : Nat) : depthAfter depth t = depth := by
  rw [depthAfter, hopen, hclose, if_neg Bool.false_ne_true, if_neg Bool.false_ne_true]

theorem splitStatements_ne_nil (depth : Nat) (ts : List Token) :
    splitStatements depth ts ≠ [] := by
  cases ts with
  | nil => exact List.cons_ne_nil _ _
  | cons t ts =>
      rw [splitStatements]
      split
      · exact List.cons_ne_nil _ _
      · rw [consFirst.eq_def]
        split <;> exact List.cons_ne_nil _ _

theorem splitStatements_cons {depth : Nat} {t : Token}
    (h : (t.isMark ";" && decide (depth = 0)) = false) (ts : List Token) :
    ∃ stretch stretches, splitStatements (depthAfter depth t) ts = stretch :: stretches ∧
      splitStatements depth (t :: ts) = (t :: stretch) :: stretches := by
  rcases List.exists_cons_of_ne_nil (splitStatements_ne_nil (depthAfter depth t) ts) with
    ⟨stretch, stretches, heq⟩
  refine ⟨stretch, stretches, heq, ?_⟩
  rw [splitStatements, h, heq]
  rfl

end SqlGist
