import SqlGist.Keyword
import SqlGist.Span
import SqlGist.Text.Quoted

/-!
# Tokens

What a statement is made of. A token keeps its source text as written, so the
texts of a statement's tokens make up the statement again; what the text
means is worked out on demand by `value` and `normalized`.

Blanks and comments are tokens too. Text that is no token of any kind is an
`error` token: the lexer goes on behind it, and whoever builds a tree turns
the first one into a failure.

## Main definitions

* `LexicalError`: Why a stretch of text is no token.
* `TokenKind`: What a token is.
* `Token`: A kind, the source text, and where it stands.
* `value`: What the token denotes.
* `normalized`: The token's text, or the spelling of its keyword.
-/

namespace SqlGist

/-- Why a stretch of text is no token. -/
inductive LexicalError
  | unterminatedString
  | unterminatedName
  | unexpected (c : Char)
deriving DecidableEq, Repr

/-- The wording of a lexical error. -/
def LexicalError.message : LexicalError → String
  | .unterminatedString => "Unterminated string literal"
  | .unterminatedName => "Unterminated quoted identifier"
  | .unexpected c => "Unexpected character: " ++ String.singleton c

/-- What a token is. A `builtin` is a type name such as `int`, a `name` any
    other word or a quoted name, `whitespace` a run of blanks and comments. -/
inductive TokenKind
  | keyword (k : Keyword)
  | name
  | builtin
  | string
  | number
  | operator
  | wildcard
  | punctuation
  | whitespace
  | eof
  | error (cause : LexicalError)
deriving DecidableEq, Repr

/-- A token: its kind, its source text, and the bytes it was read from. -/
structure Token where
  kind : TokenKind
  text : String
  span : Span
deriving DecidableEq, Repr

namespace Token

/-- The keyword, if the token is one. -/
def keyword? (t : Token) : Option Keyword :=
  match t.kind with
  | .keyword k => some k
  | _ => none

/-- The reason, if the token is no token at all. -/
def error? (t : Token) : Option LexicalError :=
  match t.kind with
  | .error cause => some cause
  | _ => none

/-- Whether the token only separates others. -/
def isWhitespace (t : Token) : Bool :=
  t.kind = .whitespace

/-- Whether the token is a name, quoted or bare. -/
def isName (t : Token) : Bool :=
  t.kind = .name

/-- Whether the token is a string or a number. -/
def isLiteral (t : Token) : Bool :=
  t.kind = .string || t.kind = .number

/-- Whether the token is a value: a literal, `NULL`, `TRUE` or `FALSE`. -/
def isValue (t : Token) : Bool :=
  t.isLiteral || t.kind = .keyword .null || t.kind = .keyword .trueKw ||
    t.kind = .keyword .falseKw

/-- Whether the token is this punctuation mark. -/
def isMark (t : Token) (mark : String) : Bool :=
  t.kind = .punctuation && t.text = mark

/-- The spelling of a keyword, and the source text of any other token. -/
def normalized (t : Token) : String :=
  match t.kind with
  | .keyword k => k.spelling
  | _ => t.text

/-- The quote that a name opens with. -/
def nameQuote? (t : Token) : Option Quote :=
  t.text.toList.head?.bind Quote.ofNameQuote?

/-- What the token denotes: a string or a quoted name without its quotes, any
    other token its source text. -/
def value (t : Token) : String :=
  match t.kind with
  | .string => String.ofList (Text.unquote Quote.apostrophe.char t.text.toList)
  | .name =>
    match t.nameQuote? with
    | some q => String.ofList (Text.unquote q.char t.text.toList)
    | none => t.text
  | _ => t.text

end Token

end SqlGist
