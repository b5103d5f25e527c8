import SqlGist.Token

/-!
# Parse Errors

Why a text has no tree, and where. There are four causes: a token that is none,
a text without a statement, and a parenthesis too many on either side. Nothing
else can go wrong, because grouping never rejects what it does not recognise.

## Main definitions

* `ParseCause`: The four causes.
* `ParseError`: A cause and its place.
* `toText`: The written form, `message at start..stop`.
-/

namespace SqlGist

/-- Why a text has no tree. -/
inductive ParseCause
  | lexical (cause : LexicalError)
  | emptyStatement
  | unbalancedClose
  | unclosedOpen
deriving DecidableEq, Repr

/-- The wording of a cause. -/
def ParseCause.message : ParseCause → String
  | .lexical cause => cause.message
  | .emptyStatement => "Empty statement"
  | .unbalancedClose => "Unbalanced ')'"
  | .unclosedOpen => "Unclosed '('"

/-- A cause and the place it concerns. -/
structure ParseError where
  cause : ParseCause
  span : Span
deriving DecidableEq, Repr

/-- The written form of a parse error. -/
def ParseError.toText (e : ParseError) : String :=
  e.cause.message ++ " at " ++ e.span.toText

end SqlGist
