import SqlGist.ParseError

/-!
# Classification Errors

Why a text yields no entity. It may have no tree, its keywords may be those of
no command, a constraint may be of a kind that is not read, or the tree may
lack what its command asks for. The last comes in ten ways, and each is a
cause of its own; the wording is one function.

## Main definitions

* `Mismatch`: What a tree lacks.
* `ClassifyError`: Why a text yields no entity.
* `ClassifyError.message`: The wording.
-/

namespace SqlGist

/-- What a tree lacks. -/
inductive Mismatch
  /-- Fewer names of tables or databases than the command asks for. -/
  | missingTargets (expected found : Nat)
  /-- No column at all. -/
  | missingColumn
  /-- A type in front of every column. -/
  | typeWithoutColumn (type : String)
  /-- A second type for a column. -/
  | secondType (column first second : String)
  /-- A constraint in front of every column. -/
  | constraintWithoutColumn (keyword : Keyword)
  /-- A named constraint that names no columns. -/
  | constraintOnNothing (name : String)
  /-- Columns and values that do not pair off. -/
  | unpaired (names values : Nat)
  /-- A connective with nothing behind it. -/
  | nothingAfter (introducer : String)
  /-- A connective with something else than a condition behind it. -/
  | noCondition (introducer found : String)
  /-- A comparison that has not three parts. -/
  | malformedComparison (text : String)
deriving DecidableEq, Repr

/-- The wording of a mismatch. -/
def Mismatch.message : Mismatch → String
  | .missingTargets expected found => s!"expected {expected} target name(s), found {found}"
  | .missingColumn => "missing column name"
  | .typeWithoutColumn type => s!"type '{type}' has no column"
  | .secondType column first second => s!"column '{column}' has two types: '{first}' and '{second}'"
  | .constraintWithoutColumn keyword => s!"no column before constraint '{keyword.spelling}'"
  | .constraintOnNothing name => s!"constraint '{name}' names no columns"
  | .unpaired names values => s!"{names} column name(s) for {values} value(s)"
  | .nothingAfter introducer => s!"'{introducer}' is not followed by a condition"
  | .noCondition introducer found => s!"expected a condition after '{introducer}', found '{found}'"
  | .malformedComparison text => s!"malformed comparison '{text}'"

/-- Why a text yields no entity. -/
inductive ClassifyError
  | parse (e : ParseError)
  | unsupportedStatement (tag : String)
  | malformedConstraint (keyword : Keyword)
  | mismatch (m : Mismatch)
deriving DecidableEq, Repr

/-- The wording of an error. -/
def ClassifyError.message : ClassifyError → String
  | .parse e => "Parse error: " ++ e.toText
  | .unsupportedStatement tag => "Unsupported statement: " ++ tag
  | .malformedConstraint keyword => "Malformed constraint: " ++ keyword.spelling
  | .mismatch m => "Structural mismatch: " ++ m.message

end SqlGist
