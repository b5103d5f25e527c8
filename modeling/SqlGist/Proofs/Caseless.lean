import SqlGist.Proofs.Extraction.Placeless
import SqlGist.Proofs.Token.Case

/-!
# Trees Do Not See the Case of ASCII Letters

A text in upper case has the tree of the text as it was, with every token in
upper case, or fails for the same reason in the same place. So two texts that
differ in the case of ASCII letters alone, wherever these stand, have trees of
one shape, with leaves of the same kinds in the same places, and the same tag.

The tokens are those of `tokenize_upperCase`. Putting one in upper case is a
change that grouping does not see, and one that moves no token, so nesting also
fails at the same place.

## Main definitions

* `Token.textless`: A token without its text.
* `EqualButCase`: Texts that differ at most in the case of ASCII letters.

## Theorems

* `readStatement_upperCase`, `ofText_upperCase`, `statementTag_upperCase`: What
  becomes of a text in upper case.
* `same_structure_of_equalButCase`: Two texts that differ in nothing else have
  tokens and trees that differ in their texts at most, and one tag.
-/

namespace SqlGist

namespace Token

theorem faithful_upper : Faithful upper :=
  ⟨kind_upper, fun t h => congrArg text (if_pos (show t.kind.IsSymbol from h))⟩

/-- The token without its text. -/
def textless (t : Token) : Token :=
  { t with text := "" }

theorem textless_comp_upper : textless ∘ upper = textless := by
  funext t
  rw [Function.comp_apply, textless, textless, kind_upper, span_upper]

end Token

theorem readStatement_upperCase (sql : String) :
    readStatement (upperCase sql) = (readStatement sql).map (List.map Token.upper) := by
  have herror : Token.parseError? ∘ Token.upper = Token.parseError? := by
    funext t
    simp only [Function.comp_apply, Token.parseError?, Token.error?, Token.kind_upper,
      Token.span_upper]
  have hend : (fun t : Token => t.kind != .eof) ∘ Token.upper = fun t => t.kind != .eof := by
    funext t
    rw [Function.comp_apply, Token.kind_upper]
  simp only [readStatement, tokenize_upperCase, List.findSome?_map, herror, List.filter_map, hend,
    firstStatement?_map Token.faithful_upper, utf8ByteSize_upperCase]
  cases (tokenize sql).findSome? Token.parseError? with
  | some e => rfl
  | none => cases firstStatement? ((tokenize sql).filter fun t => t.kind != .eof) <;> rfl

theorem ofText_upperCase (sql : String) :
    Group.ofText (upperCase sql) = (Group.ofText sql).map (Group.relabel Token.upper) := by
  rw [Group.ofText, Group.ofText, readStatement_upperCase]
  cases readStatement sql with
  | error e => rfl
  | ok statement =>
      simp only [Except.map,
        Nested.nest_relabel_of_span Token.faithful_upper Token.span_upper statement]
      cases Nested.nest statement with
      | error e => rfl
      | ok items => simp only [rootNodes_relabel Token.faithful_upper, Group.relabel]

theorem statementTag_upperCase (sql : String) :
    statementTag (upperCase sql) = statementTag sql := by
  rw [statementTag, statementTag, ofText_upperCase]
  cases Group.ofText sql with
  | error e => rfl
  | ok root => simp only [Except.map, commandTag_relabel Token.faithful_upper]

/-- Two texts of one length that differ at most in the case of ASCII letters. -/
def EqualButCase (sql sql' : String) : Prop :=
  List.Forall₂ (fun c d => c = d ∨ c.toUpper = d ∨ c = d.toUpper) sql.toList sql'.toList

instance (sql sql' : String) : Decidable (EqualButCase sql sql') :=
  inferInstanceAs (Decidable (List.Forall₂ _ _ _))

theorem EqualButCase.upperCase_eq {sql sql' : String} (h : EqualButCase sql sql') :
    upperCase sql = upperCase sql' := by
  have hchars := h.imp fun c d hcd => show c.toUpper = d.toUpper by
    rcases hcd with rfl | rfl | rfl
    · rfl
    · exact (CharClass.toUpper_toUpper c).symm
    · exact CharClass.toUpper_toUpper d
  have hmap := (List.forall₂_map_left_iff (R := Eq)).2 (List.forall₂_map_right_iff.2 hchars)
  rw [List.forall₂_eq_eq_eq] at hmap
  rw [upperCase, upperCase, hmap]

/-- The tokens of the two texts have the same kinds, the error of a token that is
    none included, and the same places. The trees are the same but for the texts
    of their leaves, or both fail with one error. -/
theorem same_structure_of_equalButCase {sql sql' : String} (h : EqualButCase sql sql') :
    (tokenize sql).map Token.textless = (tokenize sql').map Token.textless ∧
      (Group.ofText sql).map (Group.relabel Token.textless) =
        (Group.ofText sql').map (Group.relabel Token.textless) ∧
      statementTag sql = statementTag sql' := by
  have hupper := h.upperCase_eq
  -- Each part is one of the text in upper case, and that is the same text.
  have htokens (s : String) :
      (tokenize (upperCase s)).map Token.textless = (tokenize s).map Token.textless := by
    rw [tokenize_upperCase, List.map_map, Token.textless_comp_upper]
  have htree (s : String) : (Group.ofText (upperCase s)).map (Group.relabel Token.textless) =
      (Group.ofText s).map (Group.relabel Token.textless) := by
    rw [ofText_upperCase]
    cases Group.ofText s with
    | error e => rfl
    | ok root => simp only [Except.map, Group.relabel_relabel, Token.textless_comp_upper]
  refine ⟨?_, ?_, ?_⟩
  · rw [← htokens sql, hupper, htokens]
  · rw [← htree sql, hupper, htree]
  · rw [← statementTag_upperCase sql, hupper, statementTag_upperCase]

/-- Keywords, the `NULL` behind `NOT`, an exponent, a string and a quoted name,
    with every ASCII letter in the other case. The dotless `ı` is no ASCII
    letter, and stays. -/
theorem same_structure_of_swapped_case :
    (Group.ofText "Select ı, \"a b\" from T where c is Not Null or d > 1e3 or e = 'x Y'").isOk ∧
      (Group.ofText "Select ı, \"a b\" from T where c is Not Null or d > 1e3 or e = 'x Y'").map
          (Group.relabel Token.textless) =
        (Group.ofText "sELECT ı, \"A B\" FROM t WHERE C IS nOT nULL OR D > 1E3 OR E = 'X y'").map
          (Group.relabel Token.textless) :=
  ⟨by decide +kernel, (same_structure_of_equalButCase (by decide)).2.1⟩

end SqlGist
