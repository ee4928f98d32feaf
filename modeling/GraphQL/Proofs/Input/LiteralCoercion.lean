import GraphQL.Input.Literal

/-!
When a literal has a value at a type. Main statements: a list literal does at a list type if its
items do, any other literal does at a type if it does at the named type under all wrappers, and an
object literal does if every field of the input object type finds a value or can do without.
-/
namespace GraphQL

open Ast TypeSystem

/-- As types are written: non-null is not around another non-null. -/
def TypeRef.Proper : TypeRef → Prop
  | named _ => True
  | list item => item.Proper
  | nonNull inner => inner.isNonNull = false ∧ inner.Proper

/-- The type of the items of a list literal: any other type than a list type stands for itself. -/
def TypeRef.itemType (type : TypeRef) : TypeRef :=
  match type.nullable with
  | .list item => item
  | other => other

/-- A scalar, enum or input object type under wrappers. -/
structure InputType (schema : Schema) (type : TypeRef) : Prop where
  known : schema.isInputType type = true
  proper : type.Proper

theorem TypeRef.coreName_nullable (type : TypeRef) : type.nullable.coreName = type.coreName := by
  cases type <;> rfl

theorem TypeRef.Proper.nullable {type : TypeRef} (h : type.Proper) : type.nullable.Proper := by
  cases type with
  | nonNull inner => exact h.2
  | _ => exact h

theorem TypeRef.Proper.isNonNull_nullable {type : TypeRef} (h : type.Proper) :
    type.nullable.isNonNull = false := by
  cases type with
  | nonNull inner => exact h.1
  | _ => rfl

theorem TypeRef.coreName_itemType (type : TypeRef) : type.itemType.coreName = type.coreName := by
  rw [← coreName_nullable type, itemType]
  split
  · rename_i item h
    rw [h]
    rfl
  · rfl

namespace InputType

variable {schema : Schema} {type : TypeRef}

theorem core (h : InputType schema type) :
    ∃ t, schema.core? type = some t ∧ t.isInput = true := by
  have known := h.known
  unfold Schema.isInputType at known
  cases hc : schema.core? type with
  | none => simp [hc] at known
  | some t => exact ⟨t, rfl, by simpa [hc] using known⟩

theorem itemType (h : InputType schema type) : InputType schema type.itemType := by
  refine ⟨?_, ?_⟩
  · have known := h.known
    unfold Schema.isInputType Schema.core? at known ⊢
    rwa [type.coreName_itemType]
  · have proper := h.proper.nullable
    unfold TypeRef.itemType
    split
    · rename_i item hl
      rw [hl] at proper
      exact proper
    · exact proper

end InputType

section

variable (schema : Schema) (vars : Entries Json)

theorem literalItems_eq_map (values : List Value) :
    literalItems schema vars values = values.map (literalValue schema vars) := by
  induction values with
  | nil => rfl
  | cons v rest ih => rw [literalItems, ih, List.map_cons]

theorem get?_literalEntries (fields : List ObjectField) (name : String) :
    Entries.get? (literalEntries schema vars fields) name =
      (fields.find? (·.name.value = name)).map fun f =>
        (isProvided vars f.value, literalValue schema vars f.value) := by
  induction fields with
  | nil => rfl
  | cons f rest ih =>
    obtain ⟨fieldName, value, loc⟩ := f
    rw [literalEntries, literalEntry, Entries.get?, List.find?_cons]
    by_cases h : fieldName.value = name
    · simp [h]
    · simpa [h] using ih

end

section

variable {schema : Schema} {vars : Entries Json} {items : List TypedLiteral}
variable {fields : Entries (Bool × TypedLiteral)}

theorem literalAt_null (loc : Option Location) (type : TypeRef) :
    (literalAt schema vars (.null loc) items fields type).isSome = !type.isNonNull := by
  cases type <;> rfl

theorem literalAt_single {literal : Value} (null : ∀ loc, literal ≠ .null loc)
    (list : ∀ values loc, literal ≠ .list values loc) (type : TypeRef) :
    (literalAt schema vars literal items fields type).isSome =
      (literalNamed schema vars literal fields type.coreName).isSome := by
  induction type with
  | named name =>
    unfold literalAt
    split
    · exact absurd rfl (null _)
    · rfl
  | list item ih =>
    unfold literalAt
    split
    · exact absurd rfl (null _)
    · exact absurd rfl (list _ _)
    · rw [Option.isSome_map, ih]
      rfl
  | nonNull inner ih =>
    unfold literalAt
    split
    · exact absurd rfl (null _)
    · exact ih

/-- Non-null wrappers do not matter to literals other than null. -/
theorem literalAt_nullable {literal : Value} (null : ∀ loc, literal ≠ .null loc) (type : TypeRef) :
    literalAt schema vars literal items fields type.nullable =
      literalAt schema vars literal items fields type := by
  cases type with
  | nonNull inner =>
    rw [TypeRef.nullable, literalAt.eq_def schema vars literal items fields (.nonNull inner)]
    dsimp only
    split
    · exact absurd rfl (null _)
    · rfl
  | _ => rfl

theorem mapM_isSome {α β : Type} (f : α → Option β) (as : List α) :
    (as.mapM f).isSome = as.all fun a => (f a).isSome := by
  induction as with
  | nil => rfl
  | cons a rest ih =>
    rw [List.mapM_cons, List.all_cons, ← ih]
    cases f a <;> cases rest.mapM f <;> rfl

theorem literalAt_list {type item : TypeRef} (h : type.nullable = .list item) (values : List Value)
    (loc : Option Location) :
    (literalAt schema vars (.list values loc) items fields type).isSome =
      items.all fun literal => (literal item).isSome := by
  rw [← literalAt_nullable (by simp), h, literalAt, Option.isSome_map, mapM_isSome]

/-- A list literal stands for no single value, unless the named type takes it as it is. -/
theorem literalAt_list_named {type : TypeRef} {name : String} (h : type.nullable = .named name)
    (values : List Value) (loc : Option Location) :
    literalAt schema vars (.list values loc) items fields type =
      literalNamed schema vars (.list values loc) fields name := by
  rw [← literalAt_nullable (by simp), h, literalAt.eq_def]

/-- Whether a field of an input object can be given a value, from the literals given. -/
def Supplied (fields : Entries (Bool × TypedLiteral)) (d : InputValue) : Prop :=
  match fields.get? d.name with
  | some (true, literal) => (literal d.type).isSome = true
  | _ => d.isRequired = false

theorem literalFields_isSome (definitions : List InputValue) (built : Entries Json) :
    (literalFields fields built definitions).isSome = true ↔
      ∀ d ∈ definitions, Supplied fields d := by
  induction definitions generalizing built with
  | nil => simp [literalFields]
  | cons d rest ih =>
    rw [List.forall_mem_cons, literalFields, Supplied]
    rcases fields.get? d.name with - | ⟨provided, literal⟩
    · rcases hd : d.default with - | default <;> cases hn : d.type.isNonNull <;>
        simp [InputValue.isRequired, hd, hn, ih]
    cases provided with
    | false =>
      rcases hd : d.default with - | default <;> cases hn : d.type.isNonNull <;>
        simp [InputValue.isRequired, hd, hn, ih]
    | true => cases hl : literal d.type <;> simp [hl, ih]

end

end GraphQL
