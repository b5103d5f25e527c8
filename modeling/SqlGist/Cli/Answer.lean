import SqlGist.Classify
import SqlGist.Cli.Invocation
import SqlGist.Json.Entity
import SqlGist.Tree.Outline

/-!
# Answers

What an invocation prints, once its statement is read. A failure is a chain of
causes, the outermost first, each of which says more exactly what the one
before it says. A parse error is preceded by the text it points at, if there is
any but blanks.

## Main definitions

* `explain`: The causes of a classification error.
* `Invocation.answer`: What an invocation prints for a statement.
* `unreadable`: The causes when a file cannot be read.
* `report`: A chain of causes as text.
-/

namespace SqlGist

namespace Cli

/-- The text that a parse error points at, without blanks around it. -/
def nearText? (e : ParseError) (sql : String) : Option String :=
  (e.span.slice? sql).bind fun covered =>
    -- The span may cover blanks alone, and then there is nothing to show.
    let text := Text.trim covered.toList
    if text.isEmpty then none else some (String.ofList text)

/-- The causes of an error, the outermost first. -/
def explain (sql : String) (e : ClassifyError) : List String :=
  match e with
  | .parse p =>
    ((nearText? p sql).map fun text => "Invalid SQL near '" ++ text ++ "'").toList ++
      [e.message, p.toText]
  | _ => [e.message]

/-- The causes when a file cannot be read. -/
def unreadable (path cause : String) : List String :=
  ["Failed to read " ++ path, cause]

/-- A text without the blanks at its end. -/
def trimEnd (s : String) : String :=
  String.ofList (cutTrailing CharClass.isBlank s.toList).1

/-- What an invocation prints for a statement, or why it fails. -/
def Invocation.answer (inv : Invocation) (sql : String) : Except (List String) String :=
  match inv.question with
  | .classify =>
    match classify sql with
    | .ok e => .ok (if inv.pretty then e.toJson.pretty else e.toJson.compact)
    | .error e => .error (explain sql e)
  | .tag =>
    match statementTag sql with
    | .ok tag => .ok tag
    | .error e => .error (explain sql (.parse e))
  | .tree =>
    match Group.ofText sql with
    | .ok root => .ok (trimEnd root.outline)
    | .error e => .error (explain sql (.parse e))

/-- The causes behind the first one, each on a line and numbered if there are
    several. -/
def causeLines (causes : List String) : List String :=
  match causes with
  | [cause] => ["    " ++ cause]
  | _ => causes.zipIdx.map fun (cause, n) => "    " ++ toString n ++ ": " ++ cause

/-- A chain of causes as text. -/
def report (causes : List String) : String :=
  match causes with
  | [] => "Error"
  | [cause] => "Error: " ++ cause
  | cause :: causes =>
    "Error: " ++ cause ++ "\n\nCaused by:\n" ++ "\n".intercalate (causeLines causes)

end Cli

end SqlGist
