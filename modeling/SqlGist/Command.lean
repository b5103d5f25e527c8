import SqlGist.Text.CharClass
import SqlGist.Tree.Node

/-!
# Commands

Which command a statement is. Its keywords outside all groups are spelled
without blanks and run together into a tag, and a tag names a command.

Two families of tags are cut short before the look-up. Whatever follows
`CREATE TABLE` is no part of the command, and neither is what follows
`ALTER TABLE ADD`, unless it adds a named key or a named unique constraint, for
these are commands of their own.

## Main definitions

* `Command`: The commands.
* `Command.tag`, `Command.ofTag?`: The tag of a command, and back.
* `commandTag`: The tag of a statement.
* `normalizeTag`: A tag cut short.

## Theorems

* `ofTag?_tag`: A command is read back from its tag.
* `ofTag?_eq_some_iff`: A tag names the one command whose tag it is.
* `normalizeTag_tag`: The tags of commands are not cut.
* `normalizeTag_idem`: A tag is cut once at most.
-/

namespace SqlGist

/-- The commands. -/
inductive Command
  | createDatabase
  | dropDatabase
  | createTable
  | addColumn
  | modifyColumn
  | dropColumn
  | modifyNotNull
  | addUnique
  | addPrimaryKey
  | dropConstraint
  | setDefault
  | dropDefault
  | dropTable
  | select
  | insert
  | update
  | delete
deriving DecidableEq, Repr

namespace Command

/-- All commands. -/
def all : List Command :=
  [.createDatabase, .dropDatabase, .createTable, .addColumn, .modifyColumn, .dropColumn,
    .modifyNotNull, .addUnique, .addPrimaryKey, .dropConstraint, .setDefault, .dropDefault,
    .dropTable, .select, .insert, .update, .delete]

/-- The tag of a command: its keywords, run together. -/
def tag : Command → String
  | .createDatabase => "CREATEDATABASE"
  | .dropDatabase => "DROPDATABASE"
  | .createTable => "CREATETABLE"
  | .addColumn => "ALTERTABLEADD"
  | .modifyColumn => "ALTERTABLEMODIFYCOLUMN"
  | .dropColumn => "ALTERTABLEDROPCOLUMN"
  | .modifyNotNull => "ALTERTABLEMODIFYNOTNULL"
  | .addUnique => "ALTERTABLEADDCONSTRAINTUNIQUE"
  | .addPrimaryKey => "ALTERTABLEADDCONSTRAINTPRIMARYKEY"
  | .dropConstraint => "ALTERTABLEDROPCONSTRAINT"
  | .setDefault => "ALTERTABLEALTERCOLUMNSETDEFAULT"
  | .dropDefault => "ALTERTABLEALTERCOLUMNDROPDEFAULT"
  | .dropTable => "DROPTABLE"
  | .select => "SELECTFROM"
  | .insert => "INSERTINTOVALUES"
  | .update => "UPDATESET"
  | .delete => "DELETEFROM"

/-- The command that a tag names. -/
def ofTag? (tag : String) : Option Command :=
  all.find? fun c => c.tag = tag

end Command

/-- The spelling of a keyword without blanks. -/
def Keyword.tagPart (k : Keyword) : List Char :=
  k.spelling.toList.filter fun c => !CharClass.isBlank c

/-- The tag of a statement: its keywords outside all groups, run together. -/
def commandTag (root : Group) : String :=
  String.ofList (root.keywords.flatMap Keyword.tagPart)

/-- Whether a tag begins with that of a command. -/
def opensWith (tag : String) (c : Command) : Bool :=
  c.tag.toList.isPrefixOf tag.toList

/-- A tag without what is no part of the command. -/
def normalizeTag (tag : String) : String :=
  if opensWith tag .createTable then Command.createTable.tag
  else if opensWith tag .addColumn && tag != Command.addUnique.tag &&
      tag != Command.addPrimaryKey.tag then
    Command.addColumn.tag
  else tag

namespace Command

theorem mem_all (c : Command) : c ∈ all := by
  cases c <;> decide

theorem ofTag?_tag (c : Command) : ofTag? c.tag = some c := by
  cases c <;> decide +kernel

theorem ofTag?_eq_some_iff {tag : String} {c : Command} : ofTag? tag = some c ↔ c.tag = tag := by
  constructor
  · intro h
    have := List.find?_some h
    simp only [decide_eq_true_eq] at this
    exact this
  · rintro rfl
    exact ofTag?_tag c

theorem normalizeTag_tag (c : Command) : normalizeTag c.tag = c.tag := by
  cases c <;> decide +kernel

end Command

theorem normalizeTag_idem (tag : String) : normalizeTag (normalizeTag tag) = normalizeTag tag := by
  by_cases htable : opensWith tag .createTable = true
  -- A tag that was cut is the tag of a command, and cutting that changes nothing.
  · rw [show normalizeTag tag = Command.createTable.tag by rw [normalizeTag, if_pos htable]]
    exact Command.normalizeTag_tag .createTable
  · by_cases hadd : (opensWith tag .addColumn && tag != Command.addUnique.tag &&
        tag != Command.addPrimaryKey.tag) = true
    · rw [show normalizeTag tag = Command.addColumn.tag by
        rw [normalizeTag, if_neg htable, if_pos hadd]]
      exact Command.normalizeTag_tag .addColumn
    -- A tag that was not cut is the same tag the second time.
    · have htag : normalizeTag tag = tag := by rw [normalizeTag, if_neg htable, if_neg hadd]
      rw [htag, htag]

end SqlGist
