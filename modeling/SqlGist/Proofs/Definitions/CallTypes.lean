import SqlGist.Proofs.Definitions.Types
import SqlGist.Proofs.Extraction.Stages
import SqlGist.Proofs.Extraction.Targets
import SqlGist.Proofs.Token.Quoting
import SqlGist.Proofs.Tree.Shapes

/-!
# The Type That a Call Declares

A type with parameters is a call, and the tree knows its parts: the name, the
two marks, and what stands between them. The type is read without the tree. The
text of the call is cut at the first parenthesis that opens in it and at the last
that closes.

The last one that closes is the mark of the call, whatever stands in front of it,
so nested calls, strings and comments do not shift it. The first one that opens
is the mark of the call unless the name has a parenthesis of its own. A bare word
has none. In a quoted name there can be one, and then the name is cut in two.

## Main definitions

* `Leaf.Calls`: The marks of the call that a leaf names, and what stands between
  them.

## Theorems

* `exists_calls`: The name of a call has a call.
* `Token.trim_name`: A name has no blank at its ends.
* `columnType?_of_calls`: The text that a type is read from.
* `callName_columnType`: A type is cut where the tree cuts it, unless its name
  holds a parenthesis.
-/

namespace SqlGist

namespace Leaf

/-- The leaf is the name of a call with these marks and these nodes between
    them. -/
def Calls (l : Leaf) (opening : Token) (inner : List Node) (closing : Token) : Prop :=
  opening.isMark "(" = true ∧ closing.isMark ")" = true ∧
    (l.ancestor? 1).map Frame.group = some ⟨.functionCall, [Node.nameRef (.leaf l.token),
      .group .parenthesis (.leaf opening :: (inner ++ [.leaf closing]))]⟩

theorem kind_of_isCallName {l : Leaf} (h : l.isCallName = true) : l.token.kind = .name := by
  rw [isCallName, Bool.and_eq_true] at h
  exact of_decide_eq_true h.1

theorem isCallName_of_not_name {l : Leaf} (h : l.token.isName = false) : l.isCallName = false := by
  rw [isCallName, h, Bool.false_and]

/-- In a tidy node a name that is taken for the name of a call is one, as long as
    the node itself is no name in a call. -/
theorem exists_calls {n : Node} (h : n.Tidy) {f : Frame} {path : List Frame}
    (hname : n.isGroup .nameRef = true → f.shape ≠ .functionCall) :
    ∀ l ∈ n.leaves (f :: path), l.isCallName = true →
      ∃ opening inner closing, l.Calls opening inner closing := by
  induction h generalizing f path with
  | @leaf t hbare _ _ =>
      intro l hl hcall
      obtain rfl := List.mem_singleton.1 hl
      exact absurd hcall (Bool.eq_false_iff.1 (isCallName_of_not_name hbare))
  | @name t ht =>
      intro l hl hcall
      obtain rfl := List.mem_singleton.1 hl
      rw [isCallName, Bool.and_eq_true] at hcall
      -- The group behind that of the name is the one that holds it, and is no call.
      have hshapes := hcall.2
      simp only [ancestorsAre, List.map_cons, List.isPrefixOf_cons_cons, Bool.and_eq_true,
        beq_iff_eq] at hshapes
      exact absurd hshapes.2.1.symm (hname rfl)
  | @call t p ht hshape hp ih =>
      intro l hl hcall
      rcases Node.mem_leavesFrom hl with ⟨m, hm, place, hl⟩
      rcases List.mem_pair.1 hm with rfl | rfl
      · obtain rfl := List.mem_singleton.1 hl
        cases hp with
        | @parens opening closing inner hopen hclose _ =>
            exact ⟨opening, inner, closing, hopen, hclose, rfl⟩
        | _ => exact absurd hshape Bool.false_ne_true
      · refine ih (fun hgroup => ?_) l hl hcall
        rw [Node.isGroup, of_decide_eq_true hshape] at hgroup
        exact absurd hgroup (by decide)
  | comparison _ _ _ _ _ _ ih =>
      intro l hl hcall
      rcases Node.mem_leavesFrom hl with ⟨m, hm, place, hl⟩
      exact ih m hm (fun _ => Shape.noConfusion) l hl hcall
  | list _ _ _ ih =>
      intro l hl hcall
      rcases Node.mem_leavesFrom hl with ⟨m, hm, place, hl⟩
      exact ih m hm (fun _ => Shape.noConfusion) l hl hcall
  | @parens opening closing inner hopen hclose _ ih =>
      intro l hl hcall
      rcases Node.mem_leavesFrom hl with ⟨m, hm, place, hl⟩
      have hmark : ∀ {t : Token} {mark : String}, t.isMark mark = true → m ≠ .leaf t := by
        rintro t mark ht rfl
        obtain rfl := List.mem_singleton.1 hl
        exact absurd hcall
          (Bool.eq_false_iff.1 (isCallName_of_not_name (Node.isName_of_isMark (n := .leaf t) ht)))
      rcases List.mem_cons.1 hm with hm | hm
      · exact absurd hm (hmark hopen)
      · rcases List.mem_append.1 hm with hm | hm
        · exact ih m hm (fun _ => Shape.noConfusion) l hl hcall
        · exact absurd (List.mem_singleton.1 hm) (hmark hclose)

end Leaf

theorem Group.IsStatement.exists_calls {root : Group} (h : root.IsStatement) {l : Leaf}
    (hl : l ∈ root.leaves) (hcall : l.isCallName = true) :
    ∃ opening inner closing, l.Calls opening inner closing := by
  have hroot : ∀ place, Frame.shape ⟨root, place⟩ ≠ .functionCall := by
    intro place
    rw [Frame.shape, h.shape]
    exact Shape.noConfusion
  rcases Node.mem_leavesFrom hl with ⟨n, hn, place, hl⟩
  rcases h.children n hn with htidy | ⟨condition, rfl, hcondition⟩
  · exact Leaf.exists_calls htidy (fun _ => hroot place) l hl hcall
  · rcases Node.mem_leavesFrom hl with ⟨m, hm, index, hl⟩
    exact Leaf.exists_calls (hcondition m hm) (fun _ => Shape.noConfusion) l hl hcall

theorem Text.mem_of_mem_trim {c : Char} {cs : List Char} (h : c ∈ trim cs) : c ∈ cs := by
  have happ := cutTrailing_append CharClass.isBlank (cs.dropWhile CharClass.isBlank)
  refine (List.dropWhile_sublist CharClass.isBlank).subset ?_
  rw [← happ]
  exact List.mem_append_left _ h

namespace Token

variable {sql : String} {t : Token} (ht : t ∈ tokenize sql) (hkind : t.kind = .name)

include ht hkind

/-- A name has no blank at its ends: it is bare, or stands between quotes. -/
theorem trim_name : Text.trim t.text.toList = t.text.toList := by
  have hwritten := isWritten_of_mem_tokenize ht
  rw [hkind] at hwritten
  rcases hwritten with ⟨q, ds, -, htext⟩ | hword
  · have hquote : CharClass.isBlank q.char = false := by cases q <;> decide
    refine Text.trim_of_ends (fun c hc => ?_) fun c hc => ?_
    · rw [htext, Text.enclose, List.head?_cons, Option.some.injEq] at hc
      rwa [← hc]
    · rw [htext, Text.enclose, ← List.cons_append, List.getLast?_concat, Option.some.injEq] at hc
      rwa [← hc]
  · exact Text.trim_of_no_blank fun c hc => CharClass.isBlank_of_isWordChar (hword c hc)

/-- Only a quoted name can hold a parenthesis. -/
theorem nameQuote?_of_parenthesis (hparen : '(' ∈ t.text.toList) : t.nameQuote?.isSome = true := by
  rw [Option.isSome_iff_ne_none]
  intro hnone
  exact absurd (isWordChar_of_nameQuote? ht hkind hnone '(' hparen) (by decide)

end Token

/-- A leaf of the tree of a text is a token of the text. -/
theorem mem_tokenize_of_mem_leaves {sql : String} {root : Group}
    (hroot : Group.ofText sql = .ok root) {l : Leaf} (hl : l ∈ root.leaves) :
    l.token ∈ tokenize sql := by
  rcases ofText_tokens hroot with ⟨statement, hread, hstatement⟩
  rcases isFirstStatement_of_readStatement hread with ⟨-, before, after, htokens, -⟩
  rw [htokens, ← hstatement]
  exact List.mem_append_right _ (List.mem_append_left _ (List.mem_map_of_mem hl))

/-- The type of a call is read from its text, which is the name and what stands
    in the parentheses behind it. -/
theorem columnType?_of_calls {l : Leaf} {opening closing : Token} {inner : List Node}
    (hcall : l.isCallName = true) (h : l.Calls opening inner closing) :
    ∃ call : String, call.toList =
        l.token.text.toList ++ '(' :: ((Node.textOf inner).toList ++ [')']) ∧
      l.columnType? = ColumnType.ofCall? call := by
  rcases h with ⟨hopen, hclose, hgroup⟩
  rcases Option.map_eq_some_iff.1 hgroup with ⟨f, hf, hgroup⟩
  have hname := Leaf.kind_of_isCallName hcall
  have hmark : ∀ {t : Token} {mark : String}, t.isMark mark = true → t.text = mark :=
    fun ht => of_decide_eq_true (Bool.and_eq_true_iff.1 ht).2
  refine ⟨f.group.text, ?_, ?_⟩
  · simp only [hgroup, Group.text, Group.toNode, Node.nameRef, Node.text, Node.textOf,
      Node.textOf_append, hmark hopen, hmark hclose, String.toList_append, String.append_empty]
    rfl
  · rw [Leaf.columnType?, hname, if_neg (by decide), if_pos hcall, hf]
    rfl

/-- A type is cut where the tree cuts it exactly if its name holds no
    parenthesis. Its name is then the text of its leaf, and its size what stands
    between the marks of the call, trimmed, if that is more than blanks. Only a
    quoted name can hold a parenthesis. It is cut at the first, and what is behind
    that counts as the size. -/
theorem callName_columnType {sql : String} {root : Group} (hroot : Group.ofText sql = .ok root)
    {l : Leaf} (hl : l ∈ root.leaves) (hcall : l.isCallName = true) :
    ∃ opening inner closing, l.Calls opening inner closing ∧
      (l.columnType? = some (.ofParts l.token.text.toList (Node.textOf inner).toList) ↔
        '(' ∉ l.token.text.toList) ∧
      ∀ front back, l.token.text.toList = front ++ '(' :: back → '(' ∉ front →
        l.token.nameQuote?.isSome = true ∧
          l.columnType? = some (.ofParts (Text.trim front)
            (back ++ '(' :: (Node.textOf inner).toList)) := by
  rcases (isStatement_of_ofText hroot).exists_calls hl hcall with ⟨opening, inner, closing, hcalls⟩
  rcases columnType?_of_calls hcall hcalls with ⟨call, htext, htype⟩
  have hmem := mem_tokenize_of_mem_leaves hroot hl
  have hname := Leaf.kind_of_isCallName hcall
  have hcut : ∀ front back, l.token.text.toList = front ++ '(' :: back → '(' ∉ front →
      l.columnType? = some (.ofParts (Text.trim front)
        (back ++ '(' :: (Node.textOf inner).toList)) := by
    intro front back hsplit hparen
    rw [htype]
    refine ColumnType.ofCall?_parts ?_ hparen
    rw [htext, hsplit, List.append_assoc, List.append_assoc, List.cons_append]
    rfl
  refine ⟨opening, inner, closing, hcalls, ⟨fun heq hparen => ?_, fun hparen => ?_⟩, ?_⟩
  · -- Cut at the parenthesis it holds, the name would be what stands before that.
    cases hfirst : Text.cutFirst? '(' l.token.text.toList with
    | none => exact (Text.cutFirst?_eq_none_iff _ _).1 hfirst hparen
    | some parts =>
        rcases Text.cutFirst?_eq_some_iff.1 hfirst with ⟨hsplit, hfront⟩
        rw [hcut _ _ hsplit hfront, Option.some.injEq, ColumnType.ofParts, ColumnType.ofParts,
          ColumnType.mk.injEq, String.ofList_inj] at heq
        exact hfront (Text.mem_of_mem_trim (heq.1 ▸ hparen))
  · rw [htype, ColumnType.ofCall?_parts htext hparen, Token.trim_name hmem hname]
  · intro front back hsplit hparen
    refine ⟨Token.nameQuote?_of_parenthesis hmem hname ?_, hcut front back hsplit hparen⟩
    rw [hsplit]
    exact List.mem_append_right _ List.mem_cons_self

/-- A nested call and a quoted mark in the parentheses do not shift the cut. -/
theorem callName_columnType_nested :
    ∃ root l opening inner closing,
      Group.ofText "CREATE TABLE t (a \"my type\"( f(1), ')' ))" = .ok root ∧ l ∈ root.leaves ∧
      l.isCallName = true ∧ l.token.text.toList = "\"my type\"".toList ∧
      l.Calls opening inner closing ∧
      (l.columnType? = some (.ofParts l.token.text.toList (Node.textOf inner).toList) ↔
        '(' ∉ l.token.text.toList) ∧
      ∀ front back, l.token.text.toList = front ++ '(' :: back → '(' ∉ front →
        l.token.nameQuote?.isSome = true ∧
          l.columnType? = some (.ofParts (Text.trim front)
            (back ++ '(' :: (Node.textOf inner).toList)) := by
  have hcheck : (Group.ofText "CREATE TABLE t (a \"my type\"( f(1), ')' ))").toOption.any
      (fun root => root.leaves.any fun l =>
        l.isCallName && decide (l.token.text.toList = "\"my type\"".toList)) = true := by
    decide +kernel
  rcases exists_of_toOption_any hcheck with ⟨root, hroot, hcheck⟩
  rcases List.any_eq_true.1 hcheck with ⟨l, hl, hl'⟩
  rw [Bool.and_eq_true, decide_eq_true_eq] at hl'
  rcases callName_columnType hroot hl hl'.1 with ⟨opening, inner, closing, htype⟩
  exact ⟨root, l, opening, inner, closing, hroot, hl, hl'.1, hl'.2, htype⟩

/-- The name of a type may be quoted and hold a parenthesis, and is cut there. -/
theorem not_columnType_of_parenthesis :
    ∃ root l opening inner closing,
      Group.ofText "CREATE TABLE t (x \"a(b\"(10))" = .ok root ∧ l ∈ root.leaves ∧
      l.isCallName = true ∧ l.Calls opening inner closing ∧ l.token.text = "\"a(b\"" ∧
      l.columnType? = some ⟨"\"a", some "b\"(10"⟩ ∧
      l.columnType? ≠ some (.ofParts l.token.text.toList (Node.textOf inner).toList) := by
  have hcheck : (Group.ofText "CREATE TABLE t (x \"a(b\"(10))").toOption.any
      (fun root => root.leaves.any fun l => l.isCallName &&
        decide (l.token.text = "\"a(b\"" ∧ l.columnType? = some ⟨"\"a", some "b\"(10"⟩)) =
          true := by
    decide +kernel
  rcases exists_of_toOption_any hcheck with ⟨root, hroot, hcheck⟩
  rcases List.any_eq_true.1 hcheck with ⟨l, hl, hl'⟩
  rw [Bool.and_eq_true, decide_eq_true_eq] at hl'
  rcases hl' with ⟨hcall, htext, htype⟩
  rcases (isStatement_of_ofText hroot).exists_calls hl hcall with ⟨opening, inner, closing, hcalls⟩
  refine ⟨root, l, opening, inner, closing, hroot, hl, hcall, hcalls, htext, htype, ?_⟩
  -- Whatever the size, the name is not the text of the leaf.
  rw [htype, htext, ne_eq, Option.some.injEq, ColumnType.ofParts, ColumnType.mk.injEq]
  exact fun heq => absurd heq.1 (by decide)

end SqlGist
