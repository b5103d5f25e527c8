import SqlGist.Classify
import SqlGist.Proofs.Token.Terminator
import SqlGist.Proofs.Tree.Depth

/-!
# Text Behind the First Statement

A text that has a tree keeps it when a semicolon and more text are put behind
it, as long as the semicolon is a token of its own. It need not be the one that
ends the statement: if the text holds several, the first ended before, and if
it holds one, that left no parenthesis open.

The one thing behind the semicolon that counts is a token that is none. The
whole text is searched for these before the statement is looked for, so an
apostrophe without a partner fails a statement that ended long before it.

## Theorems

* `readStatement_eq_ok_iff`: When a text has a first statement, and which.
* `readStatement_append_mark`: The first statement, with more text behind it.
* `ofText_remainder`: The tree and the entity, with more text behind it.
* `not_ofText_of_open_quote`: An open quote behind a statement fails it.
-/

namespace SqlGist

theorem findSome?_parseError?_eq_none_iff {ts : List Token} :
    ts.findSome? Token.parseError? = none ↔ ∀ t ∈ ts, t.error? = none := by
  simp only [List.findSome?_eq_none_iff, Token.parseError?, Option.map_eq_none_iff]

theorem readStatement_eq_ok_iff {sql : String} {statement : List Token} :
    readStatement sql = .ok statement ↔
      (∀ t ∈ tokenize sql, t.error? = none) ∧
        firstStatement? ((tokenize sql).filter fun t => t.kind != .eof) = some statement := by
  rw [← findSome?_parseError?_eq_none_iff, readStatement]
  split
  · rename_i e he
    simp only [reduceCtorEq, he, false_and]
  · rename_i hnone
    split
    · rename_i found hfound
      simp only [Except.ok.injEq, hnone, hfound, Option.some.injEq, true_and]
    · rename_i hfound
      simp only [reduceCtorEq, hfound, and_false]

section Remainder

variable {first rest : String} {front back : List Token} {mark : Token}

theorem readStatement_append_mark {statement : List Token}
    (hread : readStatement first = .ok statement) (hdepth : depthBehind 0 statement = 0)
    (htokens : tokenize (first ++ ";" ++ rest) = front ++ mark :: back)
    (hmark : mark.isMark ";" = true) (hstart : mark.span.start = first.utf8ByteSize) :
    ((∀ t ∈ back, t.error? = none) → readStatement (first ++ ";" ++ rest) = .ok statement) ∧
      ∀ e, back.findSome? Token.parseError? = some e →
        readStatement (first ++ ";" ++ rest) = .error e := by
  have hfront := tokenize_of_mark htokens hstart
  rcases readStatement_eq_ok_iff.1 hread with ⟨hnone, hfirst⟩
  rw [hfront] at hnone hfirst
  have hnone' : ∀ t ∈ front, t.error? = none := fun t ht => hnone t (List.mem_append_left _ ht)
  have hmarkKind : mark.kind = .punctuation := by
    rw [Token.isMark, Bool.and_eq_true, decide_eq_true_eq] at hmark
    exact hmark.1
  have hmarkError : mark.error? = none := by rw [Token.error?, hmarkKind]
  constructor
  · intro hback
    refine readStatement_eq_ok_iff.2 ⟨?_, ?_⟩
    · rw [htokens]
      intro t ht
      rcases List.mem_append.1 ht with ht | ht
      · exact hnone' t ht
      · rcases List.mem_cons.1 ht with rfl | ht
        · exact hmarkError
        · exact hback t ht
    · -- The token that stands for the end is all that is left out in front.
      have hend : [Token.ending first.utf8ByteSize].filter (fun t => t.kind != .eof) = [] := rfl
      have hkept : (mark.kind != .eof) = true := by
        rw [hmarkKind]
        rfl
      rw [List.filter_append, hend, List.append_nil] at hfirst
      rw [htokens, List.filter_append, List.filter_cons, if_pos hkept]
      exact firstStatement?_append_mark hfirst hmark hdepth _
  · intro e he
    rw [readStatement, htokens, List.findSome?_append, findSome?_parseError?_eq_none_iff.2 hnone',
      Option.none_or, List.findSome?_cons, Token.parseError?, hmarkError, Option.map_none, he]

/-- A semicolon and more text behind a text with a tree change neither the tree
    nor the entity, unless some of the text is no token. Then the first such
    token is the error. -/
theorem ofText_remainder {root : Group} (hroot : Group.ofText first = .ok root)
    (htokens : tokenize (first ++ ";" ++ rest) = front ++ mark :: back)
    (hmark : mark.isMark ";" = true) (hstart : mark.span.start = first.utf8ByteSize) :
    ((∀ t ∈ back, t.error? = none) →
      Group.ofText (first ++ ";" ++ rest) = .ok root ∧
        classify (first ++ ";" ++ rest) = classify first) ∧
      ∀ e, back.findSome? Token.parseError? = some e →
        Group.ofText (first ++ ";" ++ rest) = .error e ∧
          classify (first ++ ";" ++ rest) = .error (.parse e) := by
  rcases ofText_tokens hroot with ⟨statement, hread, hleaves⟩
  have hdepth := depthBehind_of_ofText hroot
  rw [hleaves] at hdepth
  rcases readStatement_append_mark hread hdepth htokens hmark hstart with ⟨hok, herror⟩
  constructor
  · intro hback
    have htext : Group.ofText (first ++ ";" ++ rest) = Group.ofText first := by
      rw [Group.ofText, Group.ofText, hok hback, hread]
    exact ⟨htext.trans hroot, by rw [classify, classify, htext]⟩
  · intro e he
    have htext : Group.ofText (first ++ ";" ++ rest) = .error e := by
      rw [Group.ofText, herror e he]
    exact ⟨htext, by rw [classify, htext]⟩

end Remainder

/-- A parenthesis too many behind the semicolon does no harm. -/
theorem ofText_remainder_unbalanced :
    ∃ root front mark back, Group.ofText "DROP TABLE t" = .ok root ∧
      tokenize ("DROP TABLE t" ++ ";" ++ " )") = front ++ mark :: back ∧
        mark.isMark ";" = true ∧ mark.span.start = "DROP TABLE t".utf8ByteSize ∧
          Group.ofText ("DROP TABLE t" ++ ";" ++ " )") = .ok root ∧
            classify ("DROP TABLE t" ++ ";" ++ " )") = classify "DROP TABLE t" := by
  have hok : (Group.ofText "DROP TABLE t").isOk = true := by decide +kernel
  have htokens : tokenize ("DROP TABLE t" ++ ";" ++ " )") =
      (tokenize "DROP TABLE t").take 5 ++ ⟨.punctuation, ";", ⟨12, 13⟩⟩ ::
        [⟨.whitespace, " ", ⟨13, 14⟩⟩, ⟨.punctuation, ")", ⟨14, 15⟩⟩,
          Token.ending 15] := by
    decide +kernel
  cases hroot : Group.ofText "DROP TABLE t" with
  | error e =>
      rw [hroot] at hok
      exact absurd hok Bool.false_ne_true
  | ok root =>
      have hbehind := (ofText_remainder hroot htokens rfl rfl).1 (by decide)
      exact ⟨root, _, _, _, rfl, htokens, rfl, rfl, hbehind.1, hbehind.2⟩

/-- An apostrophe without a partner behind the semicolon fails the statement in
    front of it. -/
theorem not_ofText_of_open_quote :
    ¬∀ (first rest : String) (root : Group) (front back : List Token) (mark : Token),
      Group.ofText first = .ok root →
        tokenize (first ++ ";" ++ rest) = front ++ mark :: back → mark.isMark ";" = true →
          mark.span.start = first.utf8ByteSize → depthBehind 0 front = 0 →
            Group.ofText (first ++ ";" ++ rest) = .ok root ∧
              classify (first ++ ";" ++ rest) = classify first := by
  intro hall
  have hok : (Group.ofText "DROP TABLE t").isOk = true := by decide +kernel
  have htokens : tokenize ("DROP TABLE t" ++ ";" ++ " '") =
      (tokenize "DROP TABLE t").take 5 ++ ⟨.punctuation, ";", ⟨12, 13⟩⟩ ::
        [⟨.whitespace, " ", ⟨13, 14⟩⟩, ⟨.error .unterminatedString, "'", ⟨14, 15⟩⟩,
          Token.ending 15] := by
    decide +kernel
  cases hroot : Group.ofText "DROP TABLE t" with
  | error e =>
      rw [hroot] at hok
      exact absurd hok Bool.false_ne_true
  | ok root =>
      have hbehind := (hall _ _ root _ _ _ hroot htokens rfl rfl (by decide +kernel)).1
      have herror : (Group.ofText ("DROP TABLE t" ++ ";" ++ " '")).isOk = false := by
        decide +kernel
      rw [hbehind] at herror
      exact Bool.false_ne_true herror.symm

end SqlGist
