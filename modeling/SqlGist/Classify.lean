import SqlGist.Extract
import SqlGist.Tree.Build

/-!
# Classification

From a text to the entity that its first statement is about. The tree is built,
its tag chooses a command, and the command reads the entity off the tree.

## Main definitions

* `statementTag`: The tag that chooses the command.
* `classify`: The entity of a text.

## Theorems

* `classify_eq_ok_iff`: A text has an entity exactly when it has a tree, the
  tag of the tree names a command, and that command finds an entity in it.
-/

namespace SqlGist

/-- The tag of the first statement of a text, cut short but not looked up. -/
def statementTag (sql : String) : Except ParseError String :=
  (Group.ofText sql).map fun root => normalizeTag (commandTag root)

/-- The entity that a tree is about. -/
def classifyTree (root : Group) : Except ClassifyError Entity :=
  let tag := normalizeTag (commandTag root)
  match Command.ofTag? tag with
  | none => .error (.unsupportedStatement tag)
  | some c => c.extract root

/-- The entity that the first statement of a text is about. -/
def classify (sql : String) : Except ClassifyError Entity :=
  match Group.ofText sql with
  | .error e => .error (.parse e)
  | .ok root => classifyTree root

theorem classify_eq_ok_iff {sql : String} {e : Entity} :
    classify sql = .ok e ↔
      ∃ root c, Group.ofText sql = .ok root ∧
        Command.ofTag? (normalizeTag (commandTag root)) = some c ∧ c.extract root = .ok e := by
  constructor
  · intro h
    rw [classify] at h
    split at h
    · simp only [reduceCtorEq] at h
    · rename_i root hroot
      simp only [classifyTree] at h
      split at h
      · simp only [reduceCtorEq] at h
      · rename_i c hc
        exact ⟨root, c, hroot, hc, h⟩
  · rintro ⟨root, c, hroot, hc, h⟩
    simp only [classify, hroot, classifyTree, hc, h]

end SqlGist
