import SqlGist.Json.Entity
import SqlGist.Proofs.Json.Writing

/-!
# JSON Texts of Entities

An entity can be told from its text. What could be lost on the way is not: an
absent name is written otherwise than an empty one, a constraint says its kind,
and has a field for its value only if it is a default, an entity says which it is,
and a node of a filter has one field where a condition has three.

The text on many lines holds the same and more blanks, all of them outside its
strings.

## Main definitions

* `Action.all`: The actions.

## Theorems

* `Action.label_injective`, `ConstraintKind.eq_of_label`: Words tell apart what
  they stand for.
* `FilterItem.toJson_injective`: Items of a filter are told apart to any depth.
* `Entity.toJson_injective`: An entity is determined by its value.
* `entity_json_lossless`: An entity is determined by its text, and the text on
  many lines differs in blanks alone.
-/

namespace SqlGist

/-! ### Words -/

/-- The actions. -/
def Action.all : List Action :=
  [.create, .alter, .drop, .addConstraint, .dropConstraint, .addColumn, .modifyColumn, .dropColumn,
    .select, .insert, .update, .delete]

theorem Action.label_injective : Function.Injective Action.label := by
  -- Looking for the word finds the action.
  have hfind : ∀ a : Action, all.find? (fun b => b.label = a.label) = some a := by
    intro a
    cases a <;> decide +kernel
  intro a b h
  have ha := hfind a
  rw [h, hfind b] at ha
  exact (Option.some.inj ha).symm

theorem Connective.label_injective : Function.Injective Connective.label := by
  intro a b h
  cases a <;> cases b <;> first | rfl | exact absurd h (by decide)

/-- A kind is known by its word and its value. -/
theorem ConstraintKind.eq_of_label {k k' : ConstraintKind} (hlabel : k.label = k'.label)
    (hvalue : k.value? = k'.value?) : k = k' := by
  cases k <;> cases k' <;>
    first
    | rfl
    | exact congrArg default (Option.some.inj hvalue)
    | exact absurd hlabel (by simp only [label, String.reduceEq, not_false_eq_true])

theorem JsonValue.ofOption_injective : Function.Injective JsonValue.ofOption := by
  intro a b h
  cases a <;> cases b
  · rfl
  · exact absurd h JsonValue.noConfusion
  · exact absurd h JsonValue.noConfusion
  · rw [JsonValue.string.inj h]

/-! ### Parts of an entity -/

/-- The field of a value tells whether there is a value, and which. -/
theorem valueField_injective : Function.Injective fun value? : Option String =>
    (value?.map fun value => ("value", JsonValue.string value)).toList := by
  intro a b h
  cases a <;> cases b
  · rfl
  · exact absurd h.symm (List.cons_ne_nil _ _)
  · exact absurd h (List.cons_ne_nil _ _)
  · rw [JsonValue.string.inj (Prod.mk.inj (List.cons.inj h).1).2]

theorem Constraint.toJson_injective : Function.Injective Constraint.toJson := by
  rintro ⟨kind, name, action⟩ ⟨kind', name', action'⟩ h
  simp only [toJson, List.cons_append, List.nil_append, JsonValue.object.injEq, List.cons.injEq,
    Prod.mk.injEq, JsonValue.string.injEq, true_and] at h
  rcases h with ⟨hlabel, rfl, haction, hvalue⟩
  rw [ConstraintKind.eq_of_label hlabel (valueField_injective hvalue),
    Action.label_injective haction]

theorem Column.toJson_injective : Function.Injective Column.toJson := by
  rintro ⟨name, action, type, size, constraints, value⟩
    ⟨name', action', type', size', constraints', value'⟩ h
  simp only [toJson, JsonValue.object.injEq, List.cons.injEq, Prod.mk.injEq,
    JsonValue.string.injEq, JsonValue.array.injEq, JsonValue.ofOption_injective.eq_iff,
    (List.map_injective_iff.2 Constraint.toJson_injective).eq_iff,
    Action.label_injective.eq_iff, true_and, and_true] at h
  rcases h with ⟨rfl, rfl, rfl, rfl, rfl, rfl⟩
  rfl

namespace FilterItem

mutual

/-- A node has one field and a condition three, so they are told apart. -/
theorem toJson_inj : (item item' : FilterItem) → item.toJson = item'.toJson → item = item'
  | .condition c, .condition d, h => by
      rcases c with ⟨column, operator, value⟩
      rcases d with ⟨column', operator', value'⟩
      simp only [toJson, Condition.toJson, JsonValue.object.injEq, List.cons.injEq,
        Prod.mk.injEq, JsonValue.string.injEq, true_and, and_true] at h
      rw [h.1, h.2.1, h.2.2]
  | .condition _, .node _ _, h =>
      absurd (List.cons.inj (JsonValue.object.inj h)).2 (List.cons_ne_nil _ _)
  | .node _ _, .condition _, h =>
      absurd (List.cons.inj (JsonValue.object.inj h)).2.symm (List.cons_ne_nil _ _)
  | .node k items, .node k' items', h => by
      simp only [toJson, JsonValue.object.injEq, List.cons.injEq, Prod.mk.injEq,
        JsonValue.array.injEq, and_true] at h
      rw [Connective.label_injective h.1, toJsonAll_inj items items' h.2]

theorem toJsonAll_inj : (items items' : List FilterItem) → toJsonAll items = toJsonAll items' →
    items = items'
  | [], [], _ => rfl
  | item :: items, item' :: items', h => by
      rw [toJsonAll, toJsonAll, List.cons.injEq] at h
      rw [toJson_inj item item' h.1, toJsonAll_inj items items' h.2]

end

end FilterItem

theorem FilterNode.toJson_injective : Function.Injective FilterNode.toJson := by
  rintro ⟨k, items⟩ ⟨k', items'⟩ h
  have hitem := FilterItem.toJson_inj _ _ h
  simp only [toItem, FilterItem.node.injEq] at hitem
  rw [hitem.1, hitem.2]

/-- No filter is another thing than a filter without nodes. -/
theorem filterToJson_injective : Function.Injective filterToJson := by
  intro a b h
  cases a <;> cases b
  · rfl
  · exact absurd h JsonValue.noConfusion
  · exact absurd h JsonValue.noConfusion
  · rw [List.map_injective_iff.2 FilterNode.toJson_injective (JsonValue.array.inj h)]

/-! ### Entities -/

theorem Table.toJson_injective : Function.Injective Table.toJson := by
  rintro ⟨name, action, columns, filter⟩ ⟨name', action', columns', filter'⟩ h
  simp only [toJson, JsonValue.object.injEq, List.cons.injEq, Prod.mk.injEq,
    JsonValue.string.injEq, JsonValue.array.injEq, Action.label_injective.eq_iff,
    (List.map_injective_iff.2 Column.toJson_injective).eq_iff,
    filterToJson_injective.eq_iff, true_and, and_true] at h
  rcases h with ⟨rfl, rfl, rfl, rfl⟩
  rfl

theorem Database.toJson_injective : Function.Injective Database.toJson := by
  rintro ⟨name, action⟩ ⟨name', action'⟩ h
  simp only [toJson, JsonValue.object.injEq, List.cons.injEq, Prod.mk.injEq,
    JsonValue.string.injEq, Action.label_injective.eq_iff, true_and, and_true] at h
  rw [h.1, h.2]

/-- The first field tells a database from a table. -/
theorem Database.toJson_ne (d : Database) (t : Table) : d.toJson ≠ t.toJson := by
  simp only [toJson, Table.toJson, ne_eq, JsonValue.object.injEq, List.cons.injEq, Prod.mk.injEq,
    JsonValue.string.injEq, String.reduceEq, and_false, false_and, not_false_eq_true]

theorem Entity.toJson_injective : Function.Injective Entity.toJson := by
  intro a b h
  cases a with
  | database d =>
      cases b with
      | database d' => rw [Database.toJson_injective h]
      | table t => exact absurd h (d.toJson_ne t)
  | table t =>
      cases b with
      | database d => exact absurd h.symm (d.toJson_ne t)
      | table t' => rw [Table.toJson_injective h]

/-- Nothing is lost in the text of an entity. Two entities have the same text only
    if they are the same, and the text on many lines is the one on one line but for
    the blanks outside its strings. -/
theorem entity_json_lossless :
    (∀ a b : Entity, a.toJson.compact = b.toJson.compact ↔ a = b) ∧
      ∀ e : Entity, withoutBlanks e.toJson.pretty = e.toJson.compact :=
  ⟨fun _ _ => (JsonValue.compact_injective.comp Entity.toJson_injective).eq_iff,
    fun e => e.toJson.withoutBlanks_pretty⟩

end SqlGist
