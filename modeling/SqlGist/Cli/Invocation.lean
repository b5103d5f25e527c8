/-!
# Invocations

What a command line asks about a statement. Two flags come before the question
and can be run together, as in `-pv`. Behind it stands at most one source: a
statement, or a file to read it from. Without either the statement comes from
standard input.

A command line is refused as a whole if anything in it is not understood, so
reading one answers with an invocation or with nothing. Each flag and each
source may be given once. An argument that begins with a hyphen is never a
statement, unless it is the hyphen alone or stands behind `--`.

## Main definitions

* `Question`: What is asked about the statement.
* `Source`: Where the statement comes from.
* `Invocation`: A question, a layout, and a source.
* `Argument.ofString`: What one argument behind the question is.
* `Invocation.ofArguments?`: The invocation of a command line.
-/

namespace SqlGist

namespace Cli

/-- What is asked about a statement: its entity, its tag, or its tree. -/
inductive Question
  | classify
  | tag
  | tree
deriving DecidableEq, Repr

/-- The question of this name. -/
def Question.ofName? (name : String) : Option Question :=
  if name = "classify" then some .classify
  else if name = "tag" then some .tag
  else if name = "tree" then some .tree
  else none

/-- Where the statement comes from. -/
inductive Source
  | text (sql : String)
  | file (path : String)
  | standardInput
deriving DecidableEq, Repr

/-- What a command line asks for. -/
structure Invocation where
  question : Question
  /-- Whether the entity is laid out on lines. -/
  pretty : Bool
  source : Source
deriving DecidableEq, Repr

/-- The flags that were given. -/
structure Flags where
  pretty : Bool
  verbose : Bool
deriving DecidableEq, Repr

namespace Flags

/-- The flags with one more, by its letter. A flag is not given twice. -/
def add? (f : Flags) (letter : Char) : Option Flags :=
  if letter = 'p' ∧ f.pretty = false then some { f with pretty := true }
  else if letter = 'v' ∧ f.verbose = false then some { f with verbose := true }
  else none

/-- The letters of the flags that an argument gives, if it gives any. -/
def letters? (arg : String) : Option (List Char) :=
  if arg = "--pretty" then some ['p']
  else if arg = "--verbose" then some ['v']
  else
    -- Two hyphens open a long name, and one alone is no flag.
    match arg.toList with
    | '-' :: c :: cs => if c = '-' then none else some (c :: cs)
    | _ => none

/-- The flags with those of an argument. -/
def addAll? (f : Flags) (letters : List Char) : Option Flags :=
  letters.foldlM add? f

end Flags

/-- The flags before the question, the question, and the arguments behind it. -/
def readQuestion (f : Flags) : List String → Option (Flags × Question × List String)
  | [] => none
  | arg :: args =>
    match Flags.letters? arg with
    | some letters => (f.addAll? letters).bind fun f => readQuestion f args
    | none => (Question.ofName? arg).map fun question => (f, question, args)

/-- What an argument behind the question is. -/
inductive Argument
  /-- A statement, or the path that an argument before it asks for. -/
  | text (s : String)
  /-- A path. -/
  | file (path : String)
  /-- The next argument is a path. -/
  | fileNext
  /-- All further arguments are statements. -/
  | plainOnly
  /-- Nothing that is understood. -/
  | unknown

/-- A path that is written right behind its option, with or without a sign of
    equality. -/
def attachedPath : List Char → String
  | '=' :: cs => String.ofList cs
  | cs => String.ofList cs

/-- What an argument behind the question is. -/
def Argument.ofString (arg : String) : Argument :=
  if arg = "--" then .plainOnly
  else if arg = "--file" ∨ arg = "-f" then .fileNext
  else if "--file=".toList.isPrefixOf arg.toList then .file (attachedPath (arg.toList.drop 6))
  else
    -- The path may follow its letter at once.
    match arg.toList with
    | '-' :: 'f' :: cs => .file (attachedPath cs)
    | '-' :: _ :: _ => .unknown
    | _ => .text arg

/-- The sources that were given. -/
structure Given where
  sql : Option String
  path : Option String

namespace Given

/-- One more statement. -/
def addText? (g : Given) (sql : String) : Option Given :=
  if g.sql.isSome then none else some { g with sql := some sql }

/-- One more path, which must not be empty. -/
def addFile? (g : Given) (path : String) : Option Given :=
  if g.path.isSome || path.isEmpty then none else some { g with path := some path }

/-- The sources with those of the arguments behind the question. -/
def read? (g : Given) : List String → Option Given
  | [] => some g
  | arg :: args =>
    match Argument.ofString arg with
    | .text s => (g.addText? s).bind fun g => g.read? args
    | .file path => (g.addFile? path).bind fun g => g.read? args
    | .fileNext =>
      -- An option is no path, and neither is the mark that ends the options.
      match args with
      | [] => none
      | value :: args =>
        match Argument.ofString value with
        | .text path => (g.addFile? path).bind fun g => g.read? args
        | _ => none
    | .plainOnly => args.foldlM addText? g
    | .unknown => none

/-- The one source that was given. -/
def source? (g : Given) : Option Source :=
  match g.sql, g.path with
  | some _, some _ => none
  | some sql, none => some (.text sql)
  | none, some path => some (.file path)
  | none, none => some .standardInput

end Given

/-- Whether the entity is laid out on lines. A setting of the environment stands
    in for the flag and is not looked at beside it. -/
def prettyOf? (flag : Bool) (setting : Option String) : Option Bool :=
  if flag then some true
  else
    match setting with
    | none => some false
    | some value =>
      if value = "true" then some true else if value = "false" then some false else none

/-- The invocation of a command line, given the setting that stands in for
    `--pretty`. -/
def Invocation.ofArguments? (setting : Option String) (args : List String) : Option Invocation :=
  (readQuestion ⟨false, false⟩ args).bind fun (flags, question, args) =>
    ((Given.mk none none).read? args).bind fun given =>
      given.source?.bind fun source =>
        (prettyOf? flags.pretty setting).map fun pretty => ⟨question, pretty, source⟩

end Cli

end SqlGist
