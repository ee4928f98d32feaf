import GraphQL.Proofs.Input.Equations

/-!
How literals are read at types. Main statements: a literal that has a value is taken apart along its
type, and the members that are read stand at positions inside it.
-/
namespace GraphQL

open Ast TypeSystem

theorem Ast.Value.induction {motive : Value → Prop}
    (step : ∀ literal : Value,
      (∀ values loc, literal = .list values loc → ∀ v ∈ values, motive v) →
      (∀ fields loc, literal = .object fields loc → ∀ f ∈ fields, motive f.value) →
      motive literal) (literal : Value) : motive literal :=
  step literal
    (fun values loc h v hv => by
      have := List.sizeOf_lt_of_mem hv
      exact Ast.Value.induction step v)
    (fun fields loc h f hf => by
      have := List.sizeOf_lt_of_mem hf
      obtain ⟨name, value, loc⟩ := f
      exact Ast.Value.induction step value)
termination_by sizeOf literal
decreasing_by
  all_goals simp_all
  all_goals omega

namespace Input

/-- `At schema type literal type' literal'`: when `literal` is read at `type`, `literal'` stands at
`type'`. Wrappers are not taken off for variables, and not for null. -/
inductive At (schema : Schema) : TypeRef → Value → TypeRef → Value → Prop where
  | here {type : TypeRef} {literal : Value} : At schema type literal type literal
  | nonNull {inner type : TypeRef} {outer literal : Value} :
      outer.kind ≠ .nullValue → outer.kind ≠ .variable → At schema inner outer type literal →
      At schema (.nonNull inner) outer type literal
  | single {item type : TypeRef} {outer literal : Value} :
      outer.kind ≠ .nullValue → outer.kind ≠ .variable → outer.kind ≠ .listValue →
      At schema item outer type literal → At schema (.list item) outer type literal
  | item {item type : TypeRef} {values : List Value} {loc : Option Location} {v literal : Value} :
      v ∈ values → At schema item v type literal →
      At schema (.list item) (.list values loc) type literal
  /-- Of several literals of a name the first counts. -/
  | field {name : String} {t : InputObjectType} {fields : List ObjectField} {loc : Option Location}
      {d : InputValue} {type : TypeRef} {member literal : Value} :
      schema.type? name = some (.inputObject t) → d ∈ t.fields →
      writtenField fields d.name = some member → At schema d.type member type literal →
      At schema (.named name) (.object fields loc) type literal

theorem At.of_variable {schema : Schema} {type wanted : TypeRef} {v : Variable} {literal : Value}
    (h : At schema type (.variable v) wanted literal) : wanted = type ∧ literal = .variable v := by
  cases h with
  | here => exact ⟨rfl, rfl⟩
  | nonNull _ isVariable => exact absurd rfl isVariable
  | single _ isVariable => exact absurd rfl isVariable

theorem At.of_leaf {schema : Schema} {type wanted : TypeRef} {outer literal : Value}
    (h : At schema type outer wanted literal) (list : outer.kind ≠ .listValue)
    (object : outer.kind ≠ .objectValue) : literal = outer := by
  induction h with
  | here => rfl
  | nonNull _ _ _ ih => exact ih list object
  | single _ _ _ _ ih => exact ih list object
  | item => exact absurd rfl list
  | field => exact absurd rfl object

/-- `Reads schema vars type literal value`: the literal has the value at the type. -/
inductive Reads (schema : Schema) (vars : Entries Json) : TypeRef → Value → Json → Prop where
  | variable {v : Variable} {type : TypeRef} {value : Json} :
      variableAt (vars.get? v.name.value) type = some value →
      Reads schema vars type (.variable v) value
  | null {loc : Option Location} {type : TypeRef} :
      type.isNonNull = false → Reads schema vars type (.null loc) .null
  | nonNull {literal : Value} {inner : TypeRef} {value : Json} :
      literal.kind ≠ .nullValue → literal.kind ≠ .variable → Reads schema vars inner literal value →
      Reads schema vars (.nonNull inner) literal value
  | list {item : TypeRef} {values : List Value} {loc : Option Location} {results : List Json} :
      values.length = results.length →
      (∀ p ∈ values.zip results, Reads schema vars item p.1 p.2) →
      Reads schema vars (.list item) (.list values loc) (.array results)
  | single {item : TypeRef} {literal : Value} {value : Json} :
      literal.kind ≠ .nullValue → literal.kind ≠ .variable → literal.kind ≠ .listValue →
      Reads schema vars item literal value → Reads schema vars (.list item) literal (.array [value])
  | scalar {name : String} {t : ScalarType} {literal : Value} {value : Json} :
      literal.kind ≠ .nullValue → literal.kind ≠ .variable →
      schema.type? name = some (.scalar t) → literal.toScalar vars name = .ok value →
      Reads schema vars (.named name) literal value
  | enum {name : String} {t : EnumType} {v : EnumValue} {loc : Option Location} :
      schema.type? name = some (.enum t) → v ∈ t.values →
      Reads schema vars (.named name) (.enum v.name loc) (.string v.name)
  | object {name : String} {t : InputObjectType} {fields : List ObjectField}
      {loc : Option Location} {out : Entries Json} :
      schema.type? name = some (.inputObject t) →
      fill (fun d => writtenGives schema vars (writtenField fields d.name) d) [] t.fields =
        some out →
      (∀ d ∈ t.fields, ∀ literal, writtenField fields d.name = some literal →
        ∀ value, literalValue schema vars literal d.type = some value →
          Reads schema vars d.type literal value) →
      Reads schema vars (.named name) (.object fields loc) (.object out)

section

variable {schema : Schema} {vars : Entries Json}

/-- By induction on the literal and, since wrappers keep the literal, on the type. -/
theorem reads_of_literalValue (literal : Value) :
    ∀ type value, literalValue schema vars literal type = some value →
      Reads schema vars type literal value := by
  induction literal using Ast.Value.induction with
  | step literal items fields =>
  intro type value h
  by_cases null : literal.kind = .nullValue
  · cases literal with
    | null loc =>
      rw [literalValue_null] at h
      split_ifs at h with nonNull
      cases h
      exact .null (Bool.eq_false_iff.mpr nonNull)
    | _ => cases null
  by_cases isVariable : literal.kind = .variable
  · cases literal with
    | «variable» v => exact .variable h
    | _ => cases isVariable
  induction type generalizing value with
  | nonNull inner ih =>
    rw [literalValue_nonNull null isVariable] at h
    exact .nonNull null isVariable (ih value h)
  | list item ih =>
    by_cases list : literal.kind = .listValue
    · cases literal with
      | list values loc =>
        rw [literalValue_list] at h
        obtain ⟨results, hr, rfl⟩ := Option.map_eq_some_iff.mp h
        have each := mapM_eq_some.mp hr
        refine .list each.length_eq fun p hp => ?_
        exact items values loc rfl p.1 (List.of_mem_zip hp).1 item p.2
          (List.forall₂_iff_zip.mp each |>.2 hp)
      | _ => cases list
    · rw [literalValue_single null isVariable list] at h
      obtain ⟨v, hv, rfl⟩ := Option.map_eq_some_iff.mp h
      exact .single null isVariable list (ih v hv)
  | named name =>
    match ht : schema.type? name with
    | some (.scalar t) =>
      rw [literalValue_scalar null isVariable ht, toOption_eq_some] at h
      exact .scalar null isVariable ht h
    | some (.enum t) =>
      obtain ⟨v, hv, ⟨loc, rfl⟩, rfl⟩ := (literalValue_enum_eq_some null isVariable ht).mp h
      exact .enum ht hv
    | some (.inputObject t) =>
      by_cases object : literal.kind = .objectValue
      · cases literal with
        | object fs loc =>
          rw [literalValue_inputObject ht] at h
          obtain ⟨out, hout, rfl⟩ := Option.map_eq_some_iff.mp h
          refine .object ht hout fun d _ literal written value hv => ?_
          obtain ⟨f, found, rfl⟩ := Option.map_eq_some_iff.mp written
          exact fields fs loc rfl f (List.mem_of_find?_eq_some found) d.type value hv
        | _ => cases object
      · rw [literalValue_inputObject_of_not_object null isVariable ht object] at h
        cases h
    | none | some (.object _) | some (.interface _) | some (.union _) =>
      rw [literalValue_output null isVariable (by simp [ht, TypeDefinition.isInput])] at h
      cases h

end

end Input

end GraphQL
