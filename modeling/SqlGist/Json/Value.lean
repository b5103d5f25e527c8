/-!
# JSON Text

Values of the data format, and how they are written. A text can be compact or
laid out on lines; the two differ only in what stands between the parts, so
there is one writer and a record of the choices.

A string keeps every character but those that the format reserves. Quotes and
backslashes are escaped, the controls that have a short form use it, and the
other controls below the space are written by their code. Letters beyond ASCII
and slashes are left alone.

## Main definitions

* `JsonValue`: A value, with the fields of an object in order.
* `JsonLayout`: What stands between the parts of a text.
* `JsonValue.write`: The text of a value.
* `JsonValue.compact`, `JsonValue.pretty`: The two texts in use.
-/

namespace SqlGist

/-- A value. An object keeps its fields in the order in which they are
    written. -/
inductive JsonValue
  | null
  | string (s : String)
  | array (items : List JsonValue)
  | object (fields : List (String × JsonValue))
deriving Repr

/-- What stands between the parts of a text. -/
structure JsonLayout where
  /-- What opens a line at this depth. -/
  line : Nat → List Char
  /-- What parts the name of a field from its value. -/
  colon : List Char

namespace JsonLayout

/-- Nothing between the parts. -/
def compact : JsonLayout :=
  ⟨fun _ => [], [':']⟩

/-- A line for each item, two blanks in for each level. -/
def pretty : JsonLayout :=
  ⟨fun depth => '\n' :: List.replicate (2 * depth) ' ', [':', ' ']⟩

end JsonLayout

/-- A character inside a string. -/
def escapeChar (c : Char) : List Char :=
  if c = '\x22' then ['\\', '\x22']
  else if c = '\\' then ['\\', '\\']
  -- Five controls have a short form, and the rest are written by their code.
  else if c = '\x08' then ['\\', 'b']
  else if c = '\x0c' then ['\\', 'f']
  else if c = '\n' then ['\\', 'n']
  else if c = '\r' then ['\\', 'r']
  else if c = '\t' then ['\\', 't']
  else if c.toNat < 32 then
    ['\\', 'u', '0', '0', (c.toNat / 16).digitChar, (c.toNat % 16).digitChar]
  else [c]

/-- A string between its quotes. -/
def quoteJson (s : String) : List Char :=
  '\x22' :: (s.toList.flatMap escapeChar ++ ['\x22'])

namespace JsonValue

mutual

/-- The text of a value at this depth. An empty list or object takes no
    line. -/
def write (layout : JsonLayout) (depth : Nat) : JsonValue → List Char
  | .null => ['n', 'u', 'l', 'l']
  | .string s => quoteJson s
  | .array [] => ['[', ']']
  | .array (item :: items) =>
    '[' :: (layout.line (depth + 1) ++ write layout (depth + 1) item ++
      (writeItems layout (depth + 1) items ++ (layout.line depth ++ [']'])))
  | .object [] => ['\x7b', '\x7d']
  | .object (field :: fields) =>
    '\x7b' :: (layout.line (depth + 1) ++ writeField layout (depth + 1) field ++
      (writeFields layout (depth + 1) fields ++ (layout.line depth ++ ['\x7d'])))

/-- The texts of the items behind the first one. -/
def writeItems (layout : JsonLayout) (depth : Nat) : List JsonValue → List Char
  | [] => []
  | item :: items =>
    ',' :: (layout.line depth ++ write layout depth item ++ writeItems layout depth items)

/-- The text of a field: its name and its value. -/
def writeField (layout : JsonLayout) (depth : Nat) : String × JsonValue → List Char
  | (name, value) => quoteJson name ++ layout.colon ++ write layout depth value

/-- The texts of the fields behind the first one. -/
def writeFields (layout : JsonLayout) (depth : Nat) : List (String × JsonValue) → List Char
  | [] => []
  | field :: fields =>
    ',' :: (layout.line depth ++ writeField layout depth field ++
      writeFields layout depth fields)

end

/-- The text of a value on one line. -/
def compact (v : JsonValue) : String :=
  String.ofList (v.write .compact 0)

/-- The text of a value on many lines. -/
def pretty (v : JsonValue) : String :=
  String.ofList (v.write .pretty 0)

/-- A string, or `null` where there is none. -/
def ofOption : Option String → JsonValue
  | some s => .string s
  | none => .null

end JsonValue

end SqlGist
