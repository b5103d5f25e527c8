import Mathlib.Data.List.Basic
import SqlGist.Json.Value

/-!
# Reading JSON Texts Back

A text on one line determines its value. Nothing in it has to be looked for: the
first character of a value tells what the value is, and each value ends by itself,
at its closing quote or mark. So two values with anything behind them make up one
text only if they are the same value with the same behind it, and that can be
shown along the values. Characters of a string are told apart the same way, by
reading off the front what one of them was written as.

A text on many lines holds blanks between its parts and is the same otherwise. A
scan for them has to know where strings begin and end, since a string keeps its
blanks, and a quote inside is not an end because of the backslash in front of it.

## Main definitions

* `unescape?`: The character at the front of a written string.
* `JsonValue.opening`: The first character of the text of a value.
* `dropBlanks`, `withoutBlanks`: A text without the blanks outside its strings.
* `JsonLayout.IsBlank`: Only blanks stand between the parts.

## Theorems

* `unescape?_escapeChar`: A character is read back from what it is written as.
* `write_cancel`: A value is determined by a text that opens with its own.
* `compact_injective`: Different values have different texts.
* `dropBlanks_write`: Without its blanks, a text is on one line.
* `withoutBlanks_pretty`, `withoutBlanks_compact`: The two texts of a value differ in
  blanks alone, and the one on one line has none.
* `pretty_injective`: Different values have different texts on many lines as well.
-/

namespace SqlGist

/-! ### Characters of a string -/

/-- What a hexadecimal digit counts. -/
def hexValue (d : Char) : Nat :=
  if d.isDigit then d.toNat - '0'.toNat else d.toNat + 10 - 'a'.toNat

theorem hexValue_digitChar {n : Nat} (h : n < 16) : hexValue n.digitChar = n := by
  have hall : ∀ n ∈ List.range 16, hexValue n.digitChar = n := by decide
  exact hall n (List.mem_range.2 h)

/-- The character that stands behind a backslash, and what follows it. -/
def escape? : List Char → Option (Char × List Char)
  | [] => none
  | 'b' :: cs => some ('\x08', cs)
  | 'f' :: cs => some ('\x0c', cs)
  | 'n' :: cs => some ('\n', cs)
  | 'r' :: cs => some ('\r', cs)
  | 't' :: cs => some ('\t', cs)
  | 'u' :: _ :: _ :: high :: low :: cs =>
    some (Char.ofNat (16 * hexValue high + hexValue low), cs)
  | c :: cs => some (c, cs)

/-- The character at the front of a written string, and what follows it. -/
def unescape? : List Char → Option (Char × List Char)
  | [] => none
  | c :: cs => if c = '\\' then escape? cs else some (c, cs)

/-- A character is read back from what it is written as. -/
theorem unescape?_escapeChar (c : Char) (cs : List Char) :
    unescape? (escapeChar c ++ cs) = some (c, cs) := by
  fun_cases escapeChar c with
  | case8 _ _ _ _ _ _ _ hcontrol =>
      have hcode : 16 * (c.toNat / 16) + c.toNat % 16 = c.toNat := Nat.div_add_mod _ _
      simp only [List.cons_append, List.nil_append, unescape?, if_true, escape?,
        hexValue_digitChar (show c.toNat / 16 < 16 by omega),
        hexValue_digitChar (show c.toNat % 16 < 16 by omega), hcode, Char.ofNat_toNat]
  | case9 _ hbackslash =>
      rw [List.singleton_append, unescape?, if_neg hbackslash]
  | _ =>
      subst_vars
      rfl

/-- No character is written with a quote in front. -/
theorem exists_escapeChar (c : Char) : ∃ d ds, escapeChar c = d :: ds ∧ d ≠ '\x22' := by
  fun_cases escapeChar c with
  | case9 hquote => exact ⟨c, [], rfl, hquote⟩
  | _ => exact ⟨_, _, rfl, by decide⟩

theorem escaped_cancel {as bs r r' : List Char}
    (h : as.flatMap escapeChar ++ '\x22' :: r = bs.flatMap escapeChar ++ '\x22' :: r') :
    as = bs ∧ r = r' := by
  induction as generalizing bs with
  | nil =>
      cases bs with
      | nil => exact ⟨rfl, (List.cons.inj h).2⟩
      | cons b bs =>
          rcases exists_escapeChar b with ⟨d, ds, hb, hd⟩
          rw [List.flatMap_cons, hb] at h
          exact absurd (List.cons.inj h).1.symm hd
  | cons a as ih =>
      cases bs with
      | nil =>
          rcases exists_escapeChar a with ⟨d, ds, ha, hd⟩
          rw [List.flatMap_cons, ha] at h
          exact absurd (List.cons.inj h).1 hd
      | cons b bs =>
          -- The first characters are read off both texts, and with them what follows.
          have hfront := congrArg unescape? h
          rw [List.flatMap_cons, List.flatMap_cons, List.append_assoc, List.append_assoc,
            unescape?_escapeChar, unescape?_escapeChar, Option.some.injEq, Prod.mk.injEq] at hfront
          rcases ih hfront.2 with ⟨rfl, hr⟩
          exact ⟨by rw [hfront.1], hr⟩

theorem quoteJson_cancel {s t : String} {r r' : List Char}
    (h : quoteJson s ++ r = quoteJson t ++ r') : s = t ∧ r = r' := by
  rw [quoteJson, quoteJson, List.cons_append, List.cons_append, List.append_assoc,
    List.append_assoc, List.singleton_append, List.singleton_append] at h
  rcases escaped_cancel (List.cons.inj h).2 with ⟨hchars, hr⟩
  exact ⟨String.toList_inj.1 hchars, hr⟩

theorem JsonLayout.compact_line (depth : Nat) : compact.line depth = [] := rfl

theorem JsonLayout.compact_colon : compact.colon = [':'] := rfl

namespace JsonValue

/-! ### Values -/

/-- The first character of the text of a value. -/
def opening : JsonValue → Char
  | .null => 'n'
  | .string _ => '\x22'
  | .array _ => '['
  | .object _ => '\x7b'

theorem exists_write_eq (layout : JsonLayout) (depth : Nat) (v : JsonValue) :
    ∃ cs, v.write layout depth = v.opening :: cs := by
  fun_cases write layout depth v <;> exact ⟨_, rfl⟩

theorem opening_eq {layout : JsonLayout} {depth : Nat} {v w : JsonValue} {r r' : List Char}
    (h : v.write layout depth ++ r = w.write layout depth ++ r') : v.opening = w.opening := by
  rcases exists_write_eq layout depth v with ⟨cs, hv⟩
  rcases exists_write_eq layout depth w with ⟨ds, hw⟩
  rw [hv, hw] at h
  exact (List.cons.inj h).1

/-- Values do not open with the mark that closes a list. -/
theorem write_ne_close {layout : JsonLayout} {depth : Nat} {v : JsonValue} {r cs : List Char} :
    v.write layout depth ++ r ≠ ']' :: cs := by
  rcases exists_write_eq layout depth v with ⟨ds, hv⟩
  rw [hv]
  intro h
  have hopening := (List.cons.inj h).1
  cases v <;> exact absurd hopening (by simp only [opening, Char.reduceEq, not_false_eq_true])

/-- The texts of the items of a list. -/
def itemsText (depth : Nat) : List JsonValue → List Char
  | [] => []
  | item :: items => item.write .compact depth ++ writeItems .compact depth items

/-- The texts of the fields of an object. -/
def fieldsText (depth : Nat) : List (String × JsonValue) → List Char
  | [] => []
  | field :: fields => writeField .compact depth field ++ writeFields .compact depth fields

theorem write_array (depth : Nat) (items : List JsonValue) :
    (array items).write .compact depth = '[' :: (itemsText (depth + 1) items ++ [']']) := by
  cases items with
  | nil => rfl
  | cons item items =>
      simp only [write, JsonLayout.compact_line, itemsText, List.nil_append, List.append_assoc]

theorem write_object (depth : Nat) (fields : List (String × JsonValue)) :
    (object fields).write .compact depth =
      '\x7b' :: (fieldsText (depth + 1) fields ++ ['\x7d']) := by
  cases fields with
  | nil => rfl
  | cons field fields =>
      simp only [write, JsonLayout.compact_line, fieldsText, List.nil_append, List.append_assoc]

mutual

/-- A value is determined by a text that opens with its own, and so is what
    follows. -/
theorem write_cancel {depth : Nat} {r r' : List Char} : (v w : JsonValue) →
    v.write .compact depth ++ r = w.write .compact depth ++ r' → v = w ∧ r = r'
  | .null, w, h => by
      cases w with
      | null => exact ⟨rfl, List.append_cancel_left h⟩
      | _ =>
          exact absurd (opening_eq h) (by simp only [opening, Char.reduceEq, not_false_eq_true])
  | .string s, w, h => by
      cases w with
      | string t =>
          rw [write, write] at h
          rcases quoteJson_cancel h with ⟨rfl, hr⟩
          exact ⟨rfl, hr⟩
      | _ =>
          exact absurd (opening_eq h) (by simp only [opening, Char.reduceEq, not_false_eq_true])
  | .array items, w, h => by
      cases w with
      | array items' =>
          rw [write_array, write_array, List.cons_append, List.cons_append, List.append_assoc,
            List.append_assoc] at h
          rcases itemsText_cancel items items' (List.cons.inj h).2 with ⟨rfl, hr⟩
          exact ⟨rfl, hr⟩
      | _ =>
          exact absurd (opening_eq h) (by simp only [opening, Char.reduceEq, not_false_eq_true])
  | .object fields, w, h => by
      cases w with
      | object fields' =>
          rw [write_object, write_object, List.cons_append, List.cons_append, List.append_assoc,
            List.append_assoc] at h
          rcases fieldsText_cancel fields fields' (List.cons.inj h).2 with ⟨rfl, hr⟩
          exact ⟨rfl, hr⟩
      | _ =>
          exact absurd (opening_eq h) (by simp only [opening, Char.reduceEq, not_false_eq_true])

theorem itemsText_cancel {depth : Nat} {r r' : List Char} : (items items' : List JsonValue) →
    itemsText depth items ++ ']' :: r = itemsText depth items' ++ ']' :: r' →
      items = items' ∧ r = r'
  | [], [], h => ⟨rfl, (List.cons.inj h).2⟩
  | [], _ :: _, h => by
      rw [itemsText, itemsText, List.append_assoc] at h
      exact absurd h.symm write_ne_close
  | _ :: _, [], h => by
      rw [itemsText, itemsText, List.append_assoc] at h
      exact absurd h write_ne_close
  | item :: items, item' :: items', h => by
      rw [itemsText, itemsText, List.append_assoc, List.append_assoc] at h
      rcases write_cancel item item' h with ⟨rfl, hrest⟩
      rcases writeItems_cancel items items' hrest with ⟨rfl, hr⟩
      exact ⟨rfl, hr⟩

theorem writeItems_cancel {depth : Nat} {r r' : List Char} : (items items' : List JsonValue) →
    writeItems .compact depth items ++ ']' :: r = writeItems .compact depth items' ++ ']' :: r' →
      items = items' ∧ r = r'
  | [], [], h => ⟨rfl, (List.cons.inj h).2⟩
  | [], _ :: _, h => absurd (List.cons.inj h).1 (by decide)
  | _ :: _, [], h => absurd (List.cons.inj h).1 (by decide)
  | item :: items, item' :: items', h => by
      simp only [writeItems, JsonLayout.compact_line, List.nil_append, List.cons_append,
        List.append_assoc, List.cons.injEq, true_and] at h
      rcases write_cancel item item' h with ⟨rfl, hrest⟩
      rcases writeItems_cancel items items' hrest with ⟨rfl, hr⟩
      exact ⟨rfl, hr⟩

theorem writeField_cancel {depth : Nat} {r r' : List Char} : (field field' : String × JsonValue) →
    writeField .compact depth field ++ r = writeField .compact depth field' ++ r' →
      field = field' ∧ r = r'
  | (name, value), (name', value'), h => by
      simp only [writeField, JsonLayout.compact_colon, List.append_assoc] at h
      rcases quoteJson_cancel h with ⟨rfl, hrest⟩
      rcases write_cancel value value' (List.append_cancel_left hrest) with ⟨rfl, hr⟩
      exact ⟨rfl, hr⟩

theorem fieldsText_cancel {depth : Nat} {r r' : List Char} :
    (fields fields' : List (String × JsonValue)) →
    fieldsText depth fields ++ '\x7d' :: r = fieldsText depth fields' ++ '\x7d' :: r' →
      fields = fields' ∧ r = r'
  | [], [], h => ⟨rfl, (List.cons.inj h).2⟩
  | [], (_, _) :: _, h => absurd (List.cons.inj h).1 (by decide)
  | (_, _) :: _, [], h => absurd (List.cons.inj h).1 (by decide)
  | field :: fields, field' :: fields', h => by
      rw [fieldsText, fieldsText, List.append_assoc, List.append_assoc] at h
      rcases writeField_cancel field field' h with ⟨rfl, hrest⟩
      rcases writeFields_cancel fields fields' hrest with ⟨rfl, hr⟩
      exact ⟨rfl, hr⟩

theorem writeFields_cancel {depth : Nat} {r r' : List Char} :
    (fields fields' : List (String × JsonValue)) →
    writeFields .compact depth fields ++ '\x7d' :: r =
        writeFields .compact depth fields' ++ '\x7d' :: r' →
      fields = fields' ∧ r = r'
  | [], [], h => ⟨rfl, (List.cons.inj h).2⟩
  | [], _ :: _, h => absurd (List.cons.inj h).1 (by decide)
  | _ :: _, [], h => absurd (List.cons.inj h).1 (by decide)
  | field :: fields, field' :: fields', h => by
      simp only [writeFields, JsonLayout.compact_line, List.nil_append, List.cons_append,
        List.append_assoc, List.cons.injEq, true_and] at h
      rcases writeField_cancel field field' h with ⟨rfl, hrest⟩
      rcases writeFields_cancel fields fields' hrest with ⟨rfl, hr⟩
      exact ⟨rfl, hr⟩

end

/-- Different values have different texts. -/
theorem compact_injective : Function.Injective compact := by
  intro v w h
  rw [compact, compact, String.ofList_inj] at h
  have hcancel : v.write .compact 0 ++ [] = w.write .compact 0 ++ [] := by rw [h]
  exact (write_cancel v w hcancel).1

end JsonValue

/-! ### Blanks -/

/-- The blanks of the format. -/
def isJsonBlank (c : Char) : Bool :=
  c = ' ' || c = '\n' || c = '\r' || c = '\t'

/-- Where a text is read: between strings, in one, or behind a backslash in
    one. -/
inductive JsonPlace
  | between
  | string
  | escape

/-- The text without the blanks outside its strings. -/
def dropBlanks : JsonPlace → List Char → List Char
  | _, [] => []
  | .between, c :: cs =>
    if isJsonBlank c then dropBlanks .between cs
    else c :: dropBlanks (if c = '\x22' then .string else .between) cs
  | .string, c :: cs =>
    c :: dropBlanks (if c = '\x22' then .between else if c = '\\' then .escape else .string) cs
  -- What stands behind a backslash neither ends the string nor escapes anything.
  | .escape, c :: cs => c :: dropBlanks .string cs

/-- A text without the blanks outside its strings. -/
def withoutBlanks (text : String) : String :=
  String.ofList (dropBlanks .between text.toList)

theorem dropBlanks_append {blanks : List Char} (h : ∀ c ∈ blanks, isJsonBlank c = true)
    (cs : List Char) : dropBlanks .between (blanks ++ cs) = dropBlanks .between cs := by
  induction blanks with
  | nil => rfl
  | cons c blanks ih =>
      rw [List.cons_append, dropBlanks, if_pos (h c List.mem_cons_self),
        ih fun d hd => h d (List.mem_cons_of_mem c hd)]

theorem dropBlanks_mark {c : Char} (hblank : isJsonBlank c = false) (hquote : c ≠ '\x22')
    (cs : List Char) : dropBlanks .between (c :: cs) = c :: dropBlanks .between cs := by
  rw [dropBlanks, if_neg (Bool.eq_false_iff.1 hblank), if_neg hquote]

/-- A character that is no quote and no backslash is one of the string. -/
theorem dropBlanks_string {c : Char} (hquote : c ≠ '\x22') (hbackslash : c ≠ '\\')
    (cs : List Char) : dropBlanks .string (c :: cs) = c :: dropBlanks .string cs := by
  rw [dropBlanks, if_neg hquote, if_neg hbackslash]

theorem digitChar_ne {n : Nat} (h : n < 16) : n.digitChar ≠ '\x22' ∧ n.digitChar ≠ '\\' := by
  have hall : ∀ n ∈ List.range 16, n.digitChar ≠ '\x22' ∧ n.digitChar ≠ '\\' := by decide
  exact hall n (List.mem_range.2 h)

theorem dropBlanks_escapeChar (c : Char) (cs : List Char) :
    dropBlanks .string (escapeChar c ++ cs) = escapeChar c ++ dropBlanks .string cs := by
  fun_cases escapeChar c with
  | case8 _ _ _ _ _ _ _ hcontrol =>
      have hhigh := digitChar_ne (show c.toNat / 16 < 16 by omega)
      have hlow := digitChar_ne (show c.toNat % 16 < 16 by omega)
      have hcode : dropBlanks .string ((c.toNat / 16).digitChar :: (c.toNat % 16).digitChar :: cs) =
          (c.toNat / 16).digitChar :: (c.toNat % 16).digitChar :: dropBlanks .string cs := by
        rw [dropBlanks_string hhigh.1 hhigh.2, dropBlanks_string hlow.1 hlow.2]
      exact congrArg (['\\', 'u', '0', '0'] ++ ·) hcode
  | case9 hquote hbackslash => exact dropBlanks_string hquote hbackslash cs
  | _ => rfl

/-- A string keeps its blanks. -/
theorem dropBlanks_quoteJson (s : String) (cs : List Char) :
    dropBlanks .between (quoteJson s ++ cs) = quoteJson s ++ dropBlanks .between cs := by
  have hchars : ∀ as : List Char, dropBlanks .string (as.flatMap escapeChar ++ '\x22' :: cs) =
      as.flatMap escapeChar ++ '\x22' :: dropBlanks .between cs := by
    intro as
    induction as with
    | nil => rfl
    | cons a as ih =>
        rw [List.flatMap_cons, List.append_assoc, dropBlanks_escapeChar, ih, List.append_assoc]
  rw [quoteJson, List.cons_append, List.cons_append, List.append_assoc, List.append_assoc]
  exact congrArg ('\x22' :: ·) (hchars s.toList)

/-- Only blanks stand between the parts of a text. -/
structure JsonLayout.IsBlank (layout : JsonLayout) : Prop where
  line : ∀ depth, ∀ c ∈ layout.line depth, isJsonBlank c = true
  colon : ∃ gap, layout.colon = ':' :: gap ∧ ∀ c ∈ gap, isJsonBlank c = true

theorem JsonLayout.isBlank_compact : compact.IsBlank where
  line _ _ hc := absurd hc List.not_mem_nil
  colon := ⟨[], rfl, fun _ hc => absurd hc List.not_mem_nil⟩

theorem JsonLayout.isBlank_pretty : pretty.IsBlank where
  line depth c hc := by
    rcases List.mem_cons.1 hc with rfl | hc
    · rfl
    · rw [(List.mem_replicate.1 hc).2]
      rfl
  colon := ⟨[' '], rfl, List.forall_mem_singleton.2 rfl⟩

namespace JsonValue

section Layout

variable {layout : JsonLayout} (h : layout.IsBlank)

include h

theorem dropBlanks_colon (cs : List Char) :
    dropBlanks .between (layout.colon ++ cs) = ':' :: dropBlanks .between cs := by
  rcases h.colon with ⟨gap, hcolon, hgap⟩
  rw [hcolon, List.cons_append]
  exact congrArg (':' :: ·) (dropBlanks_append hgap cs)

mutual

/-- Without its blanks, the text of a value is the one on one line. -/
theorem dropBlanks_write (depth depth' : Nat) (cs : List Char) : (v : JsonValue) →
    dropBlanks .between (v.write layout depth ++ cs) =
      v.write .compact depth' ++ dropBlanks .between cs
  | .null => rfl
  | .string s => dropBlanks_quoteJson s cs
  -- The depth is only in the blanks, so on one line any will do.
  | .array [] => rfl
  | .array (item :: items) => by
      simp only [write, List.cons_append, List.append_assoc, JsonLayout.compact_line,
        List.nil_append]
      rw [dropBlanks_mark (by decide) (by decide), dropBlanks_append (h.line _),
        dropBlanks_write _ (depth' + 1), dropBlanks_writeItems _ (depth' + 1),
        dropBlanks_append (h.line _), dropBlanks_mark (by decide) (by decide)]
  | .object [] => rfl
  | .object (field :: fields) => by
      simp only [write, List.cons_append, List.append_assoc, JsonLayout.compact_line,
        List.nil_append]
      rw [dropBlanks_mark (by decide) (by decide), dropBlanks_append (h.line _),
        dropBlanks_writeField _ (depth' + 1), dropBlanks_writeFields _ (depth' + 1),
        dropBlanks_append (h.line _), dropBlanks_mark (by decide) (by decide)]

theorem dropBlanks_writeItems (depth depth' : Nat) (cs : List Char) : (items : List JsonValue) →
    dropBlanks .between (writeItems layout depth items ++ cs) =
      writeItems .compact depth' items ++ dropBlanks .between cs
  | [] => rfl
  | item :: items => by
      simp only [writeItems, List.cons_append, List.append_assoc, JsonLayout.compact_line,
        List.nil_append]
      rw [dropBlanks_mark (by decide) (by decide), dropBlanks_append (h.line _),
        dropBlanks_write _ depth', dropBlanks_writeItems _ depth']

theorem dropBlanks_writeField (depth depth' : Nat) (cs : List Char) :
    (field : String × JsonValue) →
    dropBlanks .between (writeField layout depth field ++ cs) =
      writeField .compact depth' field ++ dropBlanks .between cs
  | (name, value) => by
      simp only [writeField, List.append_assoc, JsonLayout.compact_colon]
      rw [dropBlanks_quoteJson, dropBlanks_colon h, dropBlanks_write depth depth' cs value,
        List.singleton_append]

theorem dropBlanks_writeFields (depth depth' : Nat) (cs : List Char) :
    (fields : List (String × JsonValue)) →
    dropBlanks .between (writeFields layout depth fields ++ cs) =
      writeFields .compact depth' fields ++ dropBlanks .between cs
  | [] => rfl
  | field :: fields => by
      simp only [writeFields, List.cons_append, List.append_assoc, JsonLayout.compact_line,
        List.nil_append]
      rw [dropBlanks_mark (by decide) (by decide), dropBlanks_append (h.line _),
        dropBlanks_writeField _ depth', dropBlanks_writeFields _ depth']

end

end Layout

theorem withoutBlanks_write {layout : JsonLayout} (h : layout.IsBlank) (v : JsonValue) :
    withoutBlanks (String.ofList (v.write layout 0)) = v.compact := by
  have hwrite := dropBlanks_write h 0 0 [] v
  rw [dropBlanks, List.append_nil, List.append_nil] at hwrite
  rw [withoutBlanks, String.toList_ofList, hwrite, compact]

/-- The two texts of a value differ in blanks alone. -/
theorem withoutBlanks_pretty (v : JsonValue) : withoutBlanks v.pretty = v.compact :=
  withoutBlanks_write JsonLayout.isBlank_pretty v

/-- A text on one line has no blanks to lose. -/
theorem withoutBlanks_compact (v : JsonValue) : withoutBlanks v.compact = v.compact :=
  withoutBlanks_write JsonLayout.isBlank_compact v

/-- So different values have different texts on many lines as well. -/
theorem pretty_injective : Function.Injective pretty := by
  intro v w h
  refine compact_injective ?_
  rw [← withoutBlanks_pretty v, ← withoutBlanks_pretty w, h]

end JsonValue

end SqlGist
