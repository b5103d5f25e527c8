/-!
# Keywords

The words that are never names. A keyword has one spelling, which is also how
it enters a command tag; reading a word as a keyword ignores the case of
ASCII letters.

`NOT NULL` is one keyword of two words. No single word spells it, so `ofWord?`
never yields it, and only the lexer, which sees the blank between them, does.

A constructor named with `Kw` stands for a word that Lean keeps for itself, or
for a truth value.

## Main definitions

* `Keyword`: The keywords.
* `spelling`: The upper-case spelling.
* `ofWord?`: The keyword that one word spells.
* `label`: The name under which an outline shows the keyword.
* `isBuiltinType`: Whether a word names a column type of its own.

## Theorems

* `ofWord?_spelling`: A keyword of one word is read back from its spelling.
* `ofWord?_spelling_notNull`: The spelling of `NOT NULL` is no word.
* `spelling_injective`: Different keywords are spelled differently.
* `ofWord?_ne_notNull`: No word is `NOT NULL`.
-/

namespace SqlGist

/-- The keywords: of definitions and constraints, of queries and changes, of
    the clauses behind a condition, and of conditions themselves. -/
inductive Keyword
  | create | alter | drop | table | database | schema | index | view
  | add | modify | column | rename | to | ifKw | existsKw | cascade
  | constraint | primary | key | unique | notNull | default | check | foreign
  | references | autoincrement
  | select | distinct | fromKw | whereKw | insert | into | values | update
  | set | delete
  | order | group | byKw | having | limit
  | and | or | not | like | inKw | is | between | null
  | trueKw | falseKw | asKw
deriving DecidableEq, Repr

/-- A word with its ASCII letters in upper case. Letters beyond ASCII have no
    case here, so `ı` never makes a word a keyword. -/
def upperCase (word : String) : String :=
  String.ofList (word.toList.map Char.toUpper)

namespace Keyword

/-- The upper-case spelling of a keyword. -/
def spelling : Keyword → String
  | .create => "CREATE"
  | .alter => "ALTER"
  | .drop => "DROP"
  | .table => "TABLE"
  | .database => "DATABASE"
  | .schema => "SCHEMA"
  | .index => "INDEX"
  | .view => "VIEW"
  | .add => "ADD"
  | .modify => "MODIFY"
  | .column => "COLUMN"
  | .rename => "RENAME"
  | .to => "TO"
  | .ifKw => "IF"
  | .existsKw => "EXISTS"
  | .cascade => "CASCADE"
  | .constraint => "CONSTRAINT"
  | .primary => "PRIMARY"
  | .key => "KEY"
  | .unique => "UNIQUE"
  | .notNull => "NOT NULL"
  | .default => "DEFAULT"
  | .check => "CHECK"
  | .foreign => "FOREIGN"
  | .references => "REFERENCES"
  | .autoincrement => "AUTOINCREMENT"
  | .select => "SELECT"
  | .distinct => "DISTINCT"
  | .fromKw => "FROM"
  | .whereKw => "WHERE"
  | .insert => "INSERT"
  | .into => "INTO"
  | .values => "VALUES"
  | .update => "UPDATE"
  | .set => "SET"
  | .delete => "DELETE"
  | .order => "ORDER"
  | .group => "GROUP"
  | .byKw => "BY"
  | .having => "HAVING"
  | .limit => "LIMIT"
  | .and => "AND"
  | .or => "OR"
  | .not => "NOT"
  | .like => "LIKE"
  | .inKw => "IN"
  | .is => "IS"
  | .between => "BETWEEN"
  | .null => "NULL"
  | .trueKw => "TRUE"
  | .falseKw => "FALSE"
  | .asKw => "AS"

/-- The keywords that are one word. -/
def singleWords : List Keyword :=
  [.create, .alter, .drop, .table, .database, .schema, .index, .view, .add, .modify, .column,
    .rename, .to, .ifKw, .existsKw, .cascade, .constraint, .primary, .key, .unique, .default,
    .check, .foreign, .references, .autoincrement, .select, .distinct, .fromKw, .whereKw,
    .insert, .into, .values, .update, .set, .delete, .order, .group, .byKw, .having, .limit,
    .and, .or, .not, .like, .inKw, .is, .between, .null, .trueKw, .falseKw, .asKw]

/-- The keyword that a word spells, in any mixture of cases.
    `AUTO_INCREMENT` is a second spelling of `AUTOINCREMENT`. -/
def ofWord? (word : String) : Option Keyword :=
  if upperCase word = "AUTO_INCREMENT" then some .autoincrement
  else singleWords.find? fun k => k.spelling = upperCase word

/-- A word with all but its first letter in lower case. -/
def titleCase : List Char → List Char
  | [] => []
  | c :: cs => c :: cs.map Char.toLower

/-- The name of a keyword in an outline: the words of its spelling in title
    case, run together, as in `NotNull`. -/
def label (k : Keyword) : String :=
  match k with
  | .notNull => String.ofList (titleCase "NOT".toList ++ titleCase "NULL".toList)
  | k => String.ofList (titleCase k.spelling.toList)

end Keyword

/-- The words that name a column type of their own. -/
def builtinTypes : List String :=
  ["INT", "INTEGER", "TINYINT", "SMALLINT", "MEDIUMINT", "BIGINT", "REAL", "DOUBLE", "FLOAT",
    "DECIMAL", "NUMERIC", "BIT", "BOOL", "BOOLEAN", "CHAR", "NCHAR", "VARCHAR", "NVARCHAR", "TEXT",
    "BLOB", "BINARY", "VARBINARY", "DATE", "TIME", "DATETIME", "TIMESTAMP", "YEAR", "JSON", "UUID"]

/-- Whether a word names a builtin column type, in any mixture of cases. -/
def isBuiltinType (word : String) : Bool :=
  builtinTypes.contains (upperCase word)

namespace Keyword

theorem ofWord?_spelling {k : Keyword} (h : k ≠ .notNull) : ofWord? k.spelling = some k := by
  cases k <;> first | exact absurd rfl h | decide +kernel

theorem ofWord?_spelling_notNull : ofWord? (spelling .notNull) = none := rfl

theorem spelling_injective {a b : Keyword} (h : a.spelling = b.spelling) : a = b := by
  by_cases ha : a = .notNull <;> by_cases hb : b = .notNull
  -- Only one of the two can be the keyword that no word spells.
  · rw [ha, hb]
  · have := ofWord?_spelling hb
    rw [← h, ha, ofWord?_spelling_notNull] at this
    exact absurd this (by simp only [reduceCtorEq, not_false_eq_true])
  · have := ofWord?_spelling ha
    rw [h, hb, ofWord?_spelling_notNull] at this
    exact absurd this (by simp only [reduceCtorEq, not_false_eq_true])
  · have := ofWord?_spelling ha
    rw [h, ofWord?_spelling hb] at this
    exact (Option.some.inj this).symm

theorem ofWord?_ne_notNull (word : String) : ofWord? word ≠ some .notNull := by
  intro h
  rw [ofWord?] at h
  split at h
  · simp only [Option.some.injEq, reduceCtorEq] at h
  · exact absurd (List.mem_of_find?_eq_some h) (by decide)

end Keyword

end SqlGist
