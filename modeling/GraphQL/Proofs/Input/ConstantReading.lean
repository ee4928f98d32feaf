import GraphQL.Proofs.Input.LiteralReading
import GraphQL.Proofs.Input.UntypedLiterals

/-!
How literals without variables are read at types. Main statements: a literal that has a value is
taken apart along its type, its members being such literals again, and it has that value whatever the
values of variables are.
-/
namespace GraphQL.Input

open Ast TypeSystem

section

variable {schema : Schema} {vars : Entries Json} {literal : Literal} {k : Nat}

def objectGives (schema : Schema) (vars : Entries Json) (fields : Entries Literal)
    (d : InputValue) : Option (Option Json) :=
  writtenGives schema vars (writtenField (fieldsOfLiterals fields) d.name) d

variable {fields : Entries Literal} {d : InputValue}

theorem objectGives_absent (h : fields.get? d.name = none) :
    objectGives schema vars fields d = absentGives d := by
  rw [objectGives, writtenField_fieldsOfLiterals, h]
  rfl

theorem objectGives_written (fits : (Literal.object fields).Fits true k)
    (h : fields.get? d.name = some literal) :
    objectGives schema vars fields d =
      (literalValue schema vars (.ofLiteral literal) d.type).map some := by
  obtain ⟨-, k, memberFits⟩ := fits.fields
  have provided := (memberFits _ (Entries.mem_of_get? h)).isProvided vars
  rw [objectGives, writtenField_of_get? h, writtenGives, Option.filter_some_pos provided]

/-- `Denotes schema type literal value`: the literal, which has no variables, has the value at the
type. -/
inductive Denotes (schema : Schema) : TypeRef → Literal → Json → Prop where
  | null {type : TypeRef} : type.isNonNull = false → Denotes schema type .null .null
  | nonNull {inner : TypeRef} {literal : Literal} {k : Nat} {v : Json} :
      literal.Fits true k → (Value.ofLiteral literal).kind ≠ .nullValue →
      Denotes schema inner literal v → Denotes schema (.nonNull inner) literal v
  | list {item : TypeRef} {items : List Literal} {vs : List Json} :
      items.length = vs.length → (∀ p ∈ items.zip vs, Denotes schema item p.1 p.2) →
      Denotes schema (.list item) (.list items) (.array vs)
  | single {item : TypeRef} {literal : Literal} {k : Nat} {v : Json} :
      literal.Fits true k → (Value.ofLiteral literal).kind ≠ .nullValue →
      (Value.ofLiteral literal).kind ≠ .listValue → Denotes schema item literal v →
      Denotes schema (.list item) literal (.array [v])
  | scalar {name : String} {t : ScalarType} {literal : Literal} {k : Nat} {v : Json} :
      schema.type? name = some (.scalar t) → literal.Fits true k →
      (Value.ofLiteral literal).kind ≠ .nullValue →
      (Value.ofLiteral literal).toScalar [] name = .ok v → Denotes schema (.named name) literal v
  | enum {name : String} {t : EnumType} {v : EnumValue} :
      schema.type? name = some (.enum t) → v ∈ t.values →
      Denotes schema (.named name) (.enum v.name) (.string v.name)
  | object {name : String} {t : InputObjectType} {fields : Entries Literal} {k : Nat}
      {out : Entries Json} :
      schema.type? name = some (.inputObject t) → (Literal.object fields).Fits true k →
      fill (objectGives schema [] fields) [] t.fields = some out →
      (∀ d ∈ t.fields, ∀ literal, fields.get? d.name = some literal → ∀ v,
        literalValue schema [] (.ofLiteral literal) d.type = some v →
          Denotes schema d.type literal v) →
      Denotes schema (.named name) (.object fields) (.object out)

theorem Reads.denotes {type : TypeRef} {node : Value} {v : Json} (h : Reads schema [] type node v)
    (written : node = .ofLiteral literal) (fits : literal.Fits true k) :
    Denotes schema type literal v := by
  induction h generalizing literal k with
  | «variable» => exact absurd (congrArg Value.kind written.symm) fits.kind_ne_variable
  | null nullable =>
    cases literal with
    | null => exact .null nullable
    | _ => cases written
  | nonNull null _ _ ih =>
    subst written
    exact .nonNull fits null (ih rfl fits)
  | list length _ ih =>
    cases literal with
    | list items =>
      cases written
      obtain ⟨k, memberFits⟩ := fits.items
      rw [valuesOfLiterals_eq] at length ih
      rw [List.length_map] at length
      apply Denotes.list length
      intro p hp
      have member := List.mem_map_of_mem (f := Prod.map Value.ofLiteral id) hp
      rw [← List.zip_map_left] at member
      exact ih _ member rfl (memberFits p.1 (List.of_mem_zip hp).1)
    | _ => cases written
  | single null _ list _ ih =>
    subst written
    exact .single fits null list (ih rfl fits)
  | scalar null _ ht ok =>
    subst written
    exact .scalar ht fits null ok
  | enum ht hv =>
    cases literal with
    | enum name =>
      cases written
      exact .enum ht hv
    | _ => cases written
  | object ht filled _ ih =>
    cases literal with
    | object fields =>
      cases written
      obtain ⟨-, k, memberFits⟩ := fits.fields
      apply Denotes.object ht fits filled
      intro d hd literal found v read
      exact ih d hd _ (writtenField_of_get? found) v read rfl
        (memberFits _ (Entries.mem_of_get? found))
    | _ => cases written

theorem denotes_of_literalValue {type : TypeRef} {v : Json} (fits : literal.Fits true k)
    (h : literalValue schema [] (.ofLiteral literal) type = some v) :
    Denotes schema type literal v :=
  (reads_of_literalValue _ _ _ h).denotes rfl fits

theorem Denotes.literalValue_eq {type : TypeRef} {v : Json} (h : Denotes schema type literal v)
    (vars : Entries Json) : literalValue schema vars (.ofLiteral literal) type = some v := by
  induction h with
  | null nullable =>
    rw [Value.ofLiteral, literalValue_null, nullable]
    rfl
  | nonNull fits null _ ih =>
    rw [literalValue_nonNull null fits.kind_ne_variable]
    exact ih
  | @list item items vs length _ ih =>
    have each : List.Forall₂ (fun literal v => literalValue schema vars literal item = some v)
        (items.map .ofLiteral) vs := by
      rw [List.forall₂_map_left_iff]
      exact List.forall₂_iff_zip.mpr ⟨length, fun hp => ih _ hp⟩
    rw [Value.ofLiteral, valuesOfLiterals_eq, literalValue_list, mapM_eq_some.mpr each]
    rfl
  | single fits null list _ ih =>
    rw [literalValue_single null fits.kind_ne_variable list, ih]
    rfl
  | scalar ht fits null ok =>
    rw [literalValue_scalar null fits.kind_ne_variable ht, fits.toScalar_ofLiteral, ok]
    rfl
  | enum ht hv =>
    apply (literalValue_enum_eq_some (by simp [Value.ofLiteral, Value.kind])
      (by simp [Value.ofLiteral, Value.kind]) ht).mpr
    exact ⟨_, hv, ⟨none, rfl⟩, rfl⟩
  | @object name t fields k out ht fits filled _ ih =>
    have same : ∀ d ∈ t.fields,
        objectGives schema vars fields d = objectGives schema [] fields d := by
      intro d hd
      cases found : fields.get? d.name with
      | none => rw [objectGives_absent found, objectGives_absent found]
      | some literal =>
        have given := fill_isSome.mp (Option.isSome_of_eq_some filled) d hd
        rw [objectGives_written fits found, Option.isSome_map] at given
        obtain ⟨v, read⟩ := Option.isSome_iff_exists.mp given
        rw [objectGives_written fits found, objectGives_written fits found, read,
          ih d hd literal found v read]
    rw [Value.ofLiteral, literalValue_inputObject ht]
    exact congrArg (Option.map Json.object) ((fill_congr same).trans filled)

end

end GraphQL.Input
