import GraphQL.Proofs.Input.Conforming

/-!
Coercing runtime values. Main statement: exactly the values that a type accepts are coerced, and
what they become conforms to the type.
-/
namespace GraphQL.Input

open TypeSystem

section

variable {schema : Schema} {value result : Json}

theorem coerced?_ne_null {type : TypeRef} (h : coerced? schema type value = some result)
    (null : value ≠ .null) : result ≠ .null := by
  induction type with
  | nonNull inner ih =>
    rw [coerced?_nonNull null] at h
    exact ih h
  | list item =>
    cases value with
    | null => exact absurd rfl null
    | array values =>
      rw [coerced?_list] at h
      obtain ⟨items, -, rfl⟩ := Option.map_eq_some_iff.mp h
      simp
    | _ =>
      rw [coerced?_single null rfl] at h
      obtain ⟨item, -, rfl⟩ := Option.map_eq_some_iff.mp h
      simp
  | named name =>
    match ht : schema.type? name with
    | some (.scalar t) =>
      rw [coerced?_scalar ht null, toOption_eq_some] at h
      exact coerceScalar_ne_null h null
    | some (.enum t) =>
      obtain ⟨-, rfl⟩ := (coerced?_enum_eq_some ht null).mp h
      exact null
    | some (.inputObject t) =>
      cases value with
      | object entries =>
        obtain ⟨-, out, -, rfl⟩ := (coerced?_inputObject_eq_some ht entries).mp h
        simp
      | null => exact absurd rfl null
      | _ => rw [coerced?_inputObject_of_not_object ht null rfl] at h; cases h
    | none | some (.object _) | some (.interface _) | some (.union _) =>
      rw [coerced?_output (by simp [ht, TypeDefinition.isInput]) null] at h
      cases h

theorem inputGives_isSome {entries : Entries Json} {d : InputValue} :
    (inputGives (entryInputs schema entries) d).isSome = true ↔
      (∀ value, entries.get? d.name = some value → (coerced? schema d.type value).isSome = true) ∧
        (entries.get? d.name = none → d.isRequired = false) := by
  rw [inputGives_entryInputs]
  cases entries.get? d.name with
  | some value => simp
  | none =>
    unfold absentGives InputValue.isRequired
    cases d.default <;> cases d.type.isNonNull <;> simp

theorem inputGives_ne_none {entries : Entries Json} {d : InputValue}
    (h : d.type.isNonNull = true ∨ d.default.isSome = true) :
    inputGives (entryInputs schema entries) d ≠ some none := by
  rw [inputGives_entryInputs]
  cases entries.get? d.name with
  | some value => simp
  | none => exact absentGives_ne_none h

theorem Accepts.isSome {type : TypeRef} (h : Accepts schema type value) :
    (coerced? schema type value).isSome = true := by
  induction h with
  | null nullable => simp [coerced?_null, nullable]
  | nonNull null _ ih =>
    rw [coerced?_nonNull null]
    exact ih
  | list _ ih =>
    rw [coerced?_list, Option.isSome_map, mapM_isSome, List.all_eq_true]
    exact ih
  | single null list _ ih =>
    rw [coerced?_single null list, Option.isSome_map]
    exact ih
  | scalar ht null accepts =>
    obtain ⟨result, ok⟩ := coerceScalar_isOk.mpr accepts
    rw [coerced?_scalar ht null, ok]
    rfl
  | enum ht hv =>
    exact Option.isSome_of_eq_some ((coerced?_enum_eq_some ht (by simp)).mpr ⟨⟨_, hv, rfl⟩, rfl⟩)
  | inputObject ht declared _ absent ih =>
    obtain ⟨out, hout⟩ := exists_fill fun d hd => inputGives_isSome.mpr ⟨ih d hd, absent d hd⟩
    exact Option.isSome_of_eq_some
      ((coerced?_inputObject_eq_some ht _).mpr ⟨declared, out, hout, rfl⟩)

end

section

variable {schema : Schema} {asked : Demand}

/-- Whatever the value is coerced to, it was accepted, and the result conforms. -/
def CoercesSoundly (schema : Schema) (asked : Demand) (value : Json) : Prop :=
  ∀ type result, coerced? schema type value = some result →
    Accepts schema type value ∧ Conforms schema asked type result

theorem array_sound {values : List Json}
    (items : ∀ value ∈ values, CoercesSoundly schema asked value) {item : TypeRef} {result : Json}
    (h : coerced? schema (.list item) (.array values) = some result) :
    Accepts schema (.list item) (.array values) ∧ Conforms schema asked (.list item) result := by
  rw [coerced?_list] at h
  obtain ⟨results, hr, rfl⟩ := Option.map_eq_some_iff.mp h
  have each := mapM_eq_some.mp hr
  constructor
  · apply Accepts.list
    intro v hv
    obtain ⟨w, -, hw⟩ := exists_right_of_forall₂ each hv
    exact (items v hv item w hw).1
  · apply Conforms.list
    intro w hw
    obtain ⟨v, hv, hw⟩ := exists_left_of_forall₂ each hw
    exact (items v hv item w hw).2

theorem object_sound (defaults : FieldDefaultsConform schema asked) {fields : Entries Json}
    (entries : ∀ e ∈ fields, CoercesSoundly schema asked e.2) {name : String} {t : InputObjectType}
    (ht : schema.type? name = some (.inputObject t)) {result : Json}
    (h : coerced? schema (.named name) (.object fields) = some result) :
    Accepts schema (.named name) (.object fields) ∧ Conforms schema asked (.named name) result := by
  obtain ⟨declared, out, hout, rfl⟩ := (coerced?_inputObject_eq_some ht fields).mp h
  have given (d : InputValue) (hd : d ∈ t.fields) :=
    inputGives_isSome.mp (fill_isSome.mp (Option.isSome_of_eq_some hout) d hd)
  constructor
  · refine .inputObject ht declared ?_ fun d hd => (given d hd).2
    intro d hd v hv
    obtain ⟨w, hw⟩ := Option.isSome_iff_exists.mp ((given d hd).1 v hv)
    exact (entries (d.name, v) (Entries.mem_of_get? hv) d.type w hw).1
  · refine .of_fill ht hout (fun d _ => inputGives_ne_none) ?_
    intro d hd w hw
    rw [inputGives_entryInputs] at hw
    cases hv : Entries.get? fields d.name with
    | none =>
      rw [hv] at hw
      exact conforms_of_absentGives (defaults name t ht) hd hw
    | some v =>
      rw [hv] at hw
      obtain ⟨_, hw, same⟩ := Option.map_eq_some_iff.mp hw
      cases same
      exact (entries (d.name, v) (Entries.mem_of_get? hv) d.type w hw).2

/-- By induction on the value and, since wrappers keep the value, on the type. -/
theorem coercesSoundly (defaults : FieldDefaultsConform schema asked) (value : Json) :
    CoercesSoundly schema asked value := by
  induction value using Json.induction with
  | step value items entries =>
    intro type result h
    by_cases null : value = .null
    · subst null
      rw [coerced?_null] at h
      split_ifs at h with nonNull
      cases h
      rw [Bool.not_eq_true] at nonNull
      exact ⟨.null nonNull, .null nonNull⟩
    induction type generalizing result with
    | nonNull inner ih =>
      rw [coerced?_nonNull null] at h
      obtain ⟨accepts, conforms⟩ := ih result h
      exact ⟨.nonNull null accepts, .nonNull (coerced?_ne_null h null) conforms⟩
    | list item ih =>
      cases value with
      | array values => exact array_sound items h
      | null => exact absurd rfl null
      | _ =>
        rw [coerced?_single null rfl] at h
        obtain ⟨w, hw, rfl⟩ := Option.map_eq_some_iff.mp h
        obtain ⟨accepts, conforms⟩ := ih w hw
        exact ⟨.single null rfl accepts, .list (List.forall_mem_singleton.mpr conforms)⟩
    | named name =>
      match ht : schema.type? name with
      | some (.scalar t) =>
        rw [coerced?_scalar ht null, toOption_eq_some] at h
        exact ⟨.scalar ht null (coerceScalar_isOk.mp ⟨result, h⟩),
          .scalar ht (isScalarValue_of_coerceScalar h)⟩
      | some (.enum t) =>
        obtain ⟨⟨v, hv, rfl⟩, rfl⟩ := (coerced?_enum_eq_some ht null).mp h
        exact ⟨.enum ht hv, .enum ht hv⟩
      | some (.inputObject t) =>
        cases value with
        | object fields => exact object_sound defaults entries ht h
        | null => exact absurd rfl null
        | _ =>
          rw [coerced?_inputObject_of_not_object ht null rfl] at h
          cases h
      | none | some (.object _) | some (.interface _) | some (.union _) =>
        rw [coerced?_output (by simp [ht, TypeDefinition.isInput]) null] at h
        cases h

/-- Exactly the values that a type accepts are coerced, and they become values of the type, provided
that the defaults which fill their objects are. -/
theorem coerceInput_accepts_and_conforms (defaults : FieldDefaultsConform schema asked)
    (type : TypeRef) (value : Json) :
    ((∃ result, coerceInput schema value type = .ok result) ↔ Accepts schema type value) ∧
      ∀ result, coerceInput schema value type = .ok result → Conforms schema asked type result := by
  have sound (result : Json) (h : coerceInput schema value type = .ok result) :=
    coercesSoundly defaults value type result (toOption_eq_some.mpr h)
  refine ⟨⟨?_, ?_⟩, fun result h => (sound result h).2⟩
  · rintro ⟨result, h⟩
    exact (sound result h).1
  · intro accepts
    obtain ⟨result, h⟩ := Option.isSome_iff_exists.mp accepts.isSome
    exact ⟨result, toOption_eq_some.mp h⟩

end

namespace Filters

/-- `{"within": {"limit": 5, "tags": "a", "id": 7}}` -/
def given : Json :=
  .object [("within", .object [("limit", .ofInt 5), ("tags", .string "a"),
    ("id", .ofInt 7)])]

def coerced : Json :=
  .object [("limit", .ofInt 10), ("tags", .array [.string "all"]),
    ("within", .object [("limit", .ofInt 5), ("tags", .array [.string "a"]),
      ("id", .string "7")])]

end Filters

theorem filter_accepts_and_conforms :
    FieldDefaultsConform Filters.schema Demand.full ∧
      coerceInput Filters.schema Filters.given (.named "Filter") = .ok Filters.coerced ∧
      Accepts Filters.schema (.named "Filter") Filters.given ∧
      Conforms Filters.schema Demand.full (.named "Filter") Filters.coerced := by
  have defaults := Filters.defaultsConform Demand.full
  have ok : coerceInput Filters.schema Filters.given (.named "Filter") = .ok Filters.coerced := rfl
  obtain ⟨accepts, conforms⟩ :=
    coerceInput_accepts_and_conforms defaults (.named "Filter") Filters.given
  exact ⟨defaults, ok, accepts.mp ⟨_, ok⟩, conforms _ ok⟩

end GraphQL.Input
