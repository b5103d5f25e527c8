import SqlGist.Proofs.Definitions.Spelling
import SqlGist.Role

/-!
# Reading Types Back

A type in the form of a call is read off the text that the call covers: its
name is what stands before the first opening parenthesis, its size what stands
before the last closing one, and both are trimmed. The name is a bare word and
the size a list of numerals, so neither has a blank at its ends to lose, nor the
name a parenthesis.

## Main definitions

* `ColumnType.ofParts`: A type with its name and the text in its parentheses.
* `TypeSpec.columnType`: The type that a definition declares.

## Theorems

* `trim_of_ends`, `trim_of_no_blank`: A text that is not trimmed.
* `ofCall?_parts`, `ofCall?_append`: The type of a call whose parts are known.
* `ofCall?_node`: A type is read back from the text of its node.
-/

namespace SqlGist

namespace Text

/-- A text without blanks at its ends is not trimmed. -/
theorem trim_of_ends {cs : List Char} (hhead : ∀ c, cs.head? = some c → CharClass.isBlank c = false)
    (hlast : ∀ c, cs.getLast? = some c → CharClass.isBlank c = false) : trim cs = cs := by
  have hdrop : cs.dropWhile CharClass.isBlank = cs := by
    cases cs with
    | nil => rfl
    | cons c cs => exact List.dropWhile_cons_of_neg (Bool.eq_false_iff.1 (hhead c rfl))
  rw [trim, hdrop, cutTrailing_of_getLast hlast]

theorem trim_of_no_blank {cs : List Char} (h : ∀ c ∈ cs, CharClass.isBlank c = false) :
    trim cs = cs :=
  trim_of_ends (fun c hc => h c (List.mem_of_head? hc)) fun c hc => h c (List.mem_of_getLast? hc)

end Text

/-- The type with this name, and in its parentheses this text. -/
def ColumnType.ofParts (name inner : List Char) : ColumnType :=
  ⟨String.ofList name,
    if (Text.trim inner).isEmpty then none else some (String.ofList (Text.trim inner))⟩

/-- A call is cut where its first parenthesis opens and where its last closes. -/
theorem ColumnType.ofCall?_parts {call : String} {name inner : List Char}
    (hcall : call.toList = name ++ '(' :: (inner ++ [')'])) (hparen : '(' ∉ name) :
    ColumnType.ofCall? call = some (.ofParts (Text.trim name) inner) := by
  have hfirst : Text.cutFirst? '(' call.toList = some (name, inner ++ [')']) :=
    Text.cutFirst?_eq_some_iff.2 ⟨hcall, hparen⟩
  have hlast : Text.cutLast? ')' (inner ++ [')']) = some (inner, []) :=
    Text.cutLast?_eq_some_iff.2 ⟨rfl, List.not_mem_nil⟩
  simp only [ofCall?, hfirst, Option.map_some, hlast, Option.getD_some, ofParts]

/-- The type of a call whose name and size are known. -/
theorem ColumnType.ofCall?_append {call : String} {name size : List Char}
    (hcall : call.toList = name ++ '(' :: (size ++ [')']))
    (hname : ∀ c ∈ name, CharClass.isWordChar c = true) (hsize : Text.trim size = size) :
    ColumnType.ofCall? call =
      some ⟨String.ofList name, if size.isEmpty then none else some (String.ofList size)⟩ := by
  -- The name holds no parenthesis, so the first one is where it ends.
  have hparen : '(' ∉ name := fun hmem => absurd (hname '(' hmem) (by decide)
  have htrim : Text.trim name = name :=
    Text.trim_of_no_blank fun c hc => CharClass.isBlank_of_isWordChar (hname c hc)
  rw [ofCall?_parts hcall hparen, ofParts, htrim, hsize]

namespace TypeSpec

/-- What stands in the parentheses of a type. -/
def sizeText (numerals : List Numeral) : List Char :=
  [',', ' '].intercalate (numerals.map Numeral.digits)

/-- The type that a definition declares. -/
def columnType : TypeSpec → ColumnType
  | builtin word _ => ⟨word, none⟩
  | call name _ _ numerals =>
    ⟨name, if numerals.isEmpty then none else some (String.ofList (sizeText numerals))⟩

theorem trim_sizeText (numerals : List Numeral) :
    Text.trim (sizeText numerals) = sizeText numerals := by
  have hdigits : ∀ part ∈ numerals.map Numeral.digits,
      part ≠ [] ∧ (∀ d, part.head? = some d → CharClass.isBlank d = false) ∧
        ∀ d, part.getLast? = some d → CharClass.isBlank d = false := by
    intro part hpart
    rcases List.mem_map.1 hpart with ⟨n, -, rfl⟩
    have hdigit : ∀ d ∈ n.digits, CharClass.isBlank d = false :=
      fun d hd => CharClass.isBlank_of_isWordChar
        (CharClass.isWordChar_of_isDigit (n.isDigit d hd))
    exact ⟨n.nonempty, fun d hd => hdigit d (List.mem_of_head? hd),
      fun d hd => hdigit d (List.mem_of_getLast? hd)⟩
  have hends := ends_intercalate [',', ' '] hdigits
  exact Text.trim_of_ends hends.1 hends.2

theorem isEmpty_sizeText (numerals : List Numeral) :
    (sizeText numerals).isEmpty = numerals.isEmpty := by
  cases numerals with
  | nil => rfl
  | cons n numerals =>
      rw [sizeText, List.map_cons, intercalate_cons]
      rcases List.exists_cons_of_ne_nil n.nonempty with ⟨d, ds, hdigits⟩
      rw [hdigits]
      rfl

theorem text_node_call (name : String) (hbare : Lexeme.isBareWord name.toList = true)
    (hk : Keyword.ofWord? name = none) (numerals : List Numeral) :
    (call name hbare hk numerals).node.text.toList =
      name.toList ++ '(' :: (sizeText numerals ++ [')']) := by
  have htexts : ((numerals.map fun n => [Nested.token n.token]).map fun part =>
      Token.textsOf (Nested.tokensOf part)) = numerals.map Numeral.digits := by
    rw [List.map_map]
    refine List.map_congr_left fun n _ => ?_
    simp only [Function.comp, Nested.tokensOf, Nested.tokens, List.append_nil, Token.textsOf,
      List.map_cons, List.map_nil, List.flatten_cons, List.flatten_nil, Numeral.token, Token.bare,
      Numeral.text, String.toList_ofList]
  have harguments : Token.textsOf (arguments numerals).tokens =
      '(' :: (sizeText numerals ++ [')']) := by
    rw [arguments, Nested.enclosed, Nested.tokens, Token.textsOf_cons, Token.textsOf_append,
      Nested.textsOf_commas, htexts]
    rfl
  rw [Node.text_eq_tokens, node, Node.tokens, Node.tokensOf, Node.tokensOf, Node.tokensOf,
    Nested.node_tokens, List.append_nil, List.map_append, List.flatten_append]
  exact congrArg₂ (· ++ ·) (List.append_nil name.toList) harguments

/-- A type in the form of a call is read back from the text of its node. -/
theorem ofCall?_node (name : String) (hbare : Lexeme.isBareWord name.toList = true)
    (hk : Keyword.ofWord? name = none) (numerals : List Numeral) :
    ColumnType.ofCall? (call name hbare hk numerals).node.text =
      some (call name hbare hk numerals).columnType := by
  have hparts := ColumnType.ofCall?_append (text_node_call name hbare hk numerals)
    (Lexeme.forall_isWordChar hbare) (trim_sizeText numerals)
  rw [hparts, isEmpty_sizeText, String.ofList_toList]
  rfl

end TypeSpec

end SqlGist
