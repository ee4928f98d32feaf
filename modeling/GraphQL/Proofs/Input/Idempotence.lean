import GraphQL.Proofs.Input.ValueCoercion
import GraphQL.Proofs.Validation.Literals

/-!
Coercing what was coerced. Main statement: a coerced value is coerced to itself, with its keys in
the same order, if the defaults of input objects are and fields of one name are alike.
-/
namespace GraphQL.Input

open TypeSystem

/-- The value is coerced to itself. -/
def Stays (schema : Schema) (type : TypeRef) (value : Json) : Prop :=
  coerceInput schema value type = .ok value

def FieldDefaultsStay (schema : Schema) : Prop :=
  ∀ name t, schema.type? name = some (.inputObject t) →
    ∀ d ∈ t.fields, ∀ default, d.default = some default → Stays schema d.type default.toJson

/-- Fields of one name in an input object have one type, and all have a default or none has. -/
def FieldsAlike (schema : Schema) : Prop :=
  ∀ name t, schema.type? name = some (.inputObject t) →
    ∀ d ∈ t.fields, ∀ e ∈ t.fields, d.name = e.name →
      d.type = e.type ∧ d.default.isSome = e.default.isSome

section

variable {schema : Schema} {value result : Json}

theorem stays_iff {type : TypeRef} :
    Stays schema type value ↔ coerced? schema type value = some value :=
  toOption_eq_some.symm

theorem Stays.list {item : TypeRef} {values : List Json}
    (h : ∀ value ∈ values, Stays schema item value) :
    Stays schema (.list item) (.array values) := by
  rw [stays_iff, coerced?_list, mapM_eq_some.mpr (List.forall₂_same.mpr fun v hv =>
    stays_iff.mp (h v hv))]
  rfl

/-- Whatever the value is coerced to stays. -/
def CoercesToStay (schema : Schema) (value : Json) : Prop :=
  ∀ type result, coerced? schema type value = some result → Stays schema type result

variable {fields out : Entries Json} {d : InputValue}

theorem get?_of_gives_none {ds : List InputValue}
    (alike : ∀ e ∈ ds, e.name = d.name → e.default.isSome = d.default.isSome)
    (filled : fill (inputGives (entryInputs schema fields)) [] ds = some out)
    (h : inputGives (entryInputs schema fields) d = some none) :
    fields.get? d.name = none ∧ absentGives d = some none ∧ out.get? d.name = none := by
  rw [inputGives_entryInputs] at h
  cases given : fields.get? d.name with
  | some v =>
    rw [given] at h
    obtain ⟨_, -, same⟩ := Option.map_eq_some_iff.mp h
    cases same
  | none =>
    rw [given] at h
    refine ⟨rfl, h, Option.eq_none_iff_forall_ne_some.mpr fun w found => ?_⟩
    obtain ⟨e, he, named, gives⟩ := exists_of_mem_fill filled (Entries.mem_of_get? found)
    have same : e.name = d.name := named
    rw [inputGives_entryInputs, same, given] at gives
    obtain ⟨default, some, -⟩ := absentGives_eq_value.mp gives
    have both := alike e he same
    rw [some, default_of_absentGives h] at both
    cases both

theorem stays_of_gives (entries : ∀ e ∈ fields, CoercesToStay schema e.2)
    (default : ∀ default, d.default = some default → Stays schema d.type default.toJson)
    (h : inputGives (entryInputs schema fields) d = some (some value)) :
    Stays schema d.type value := by
  rw [inputGives_entryInputs] at h
  cases given : fields.get? d.name with
  | some v =>
    rw [given] at h
    obtain ⟨_, hv, same⟩ := Option.map_eq_some_iff.mp h
    cases same
    exact entries (d.name, v) (Entries.mem_of_get? given) d.type value hv
  | none =>
    rw [given] at h
    obtain ⟨literal, some, rfl⟩ := absentGives_eq_value.mp h
    exact default literal some

theorem object_stays (defaults : FieldDefaultsStay schema) (alike : FieldsAlike schema)
    (entries : ∀ e ∈ fields, CoercesToStay schema e.2) {name : String} {t : InputObjectType}
    (ht : schema.type? name = some (.inputObject t))
    (h : coerced? schema (.named name) (.object fields) = some result) :
    Stays schema (.named name) result := by
  obtain ⟨-, out, filled, rfl⟩ := (coerced?_inputObject_eq_some ht fields).mp h
  have declared : ∀ key ∈ out.keys, ∃ d ∈ t.fields, d.name = key := fun key hk =>
    List.mem_map.mp ((keys_sublist_of_fill filled).subset hk)
  have again : fill (inputGives (entryInputs schema out)) [] t.fields = some out := by
    apply fill_again filled
    · intro d hd none
      obtain ⟨-, absent, missing⟩ := get?_of_gives_none
        (fun e he named => (alike name t ht e he d hd named).2) filled none
      rw [inputGives_entryInputs, missing]
      exact absent
    · intro d hd value found
      obtain ⟨e, he, named, gives⟩ := exists_of_mem_fill filled (Entries.mem_of_get? found)
      have stays := stays_of_gives entries (defaults name t ht e he) gives
      rw [(alike name t ht e he d hd named).1] at stays
      rw [inputGives_entryInputs, found]
      exact congrArg (Option.map some) (stays_iff.mp stays)
  exact stays_iff.mpr ((coerced?_inputObject_eq_some ht out).mpr ⟨declared, out, again, rfl⟩)

/-- By induction on the value and, since wrappers keep the value, on the type. -/
theorem coercesToStay (defaults : FieldDefaultsStay schema) (alike : FieldsAlike schema)
    (value : Json) : CoercesToStay schema value := by
  induction value using Json.induction with
  | step value items entries =>
    intro type result h
    by_cases null : value = .null
    · subst null
      have same : result = .null := by
        rw [coerced?_null] at h
        split_ifs at h
        exact (Option.some.inj h).symm
      rw [same] at h ⊢
      exact stays_iff.mpr h
    induction type generalizing result with
    | nonNull inner ih =>
      rw [coerced?_nonNull null] at h
      rw [stays_iff, coerced?_nonNull (coerced?_ne_null h null)]
      exact stays_iff.mp (ih result h)
    | list item ih =>
      cases value with
      | array values =>
        rw [coerced?_list] at h
        obtain ⟨results, hr, rfl⟩ := Option.map_eq_some_iff.mp h
        apply Stays.list
        intro w hw
        obtain ⟨v, hv, coerced⟩ := exists_left_of_forall₂ (mapM_eq_some.mp hr) hw
        exact items v hv item w coerced
      | null => exact absurd rfl null
      | _ =>
        rw [coerced?_single null rfl] at h
        obtain ⟨w, hw, rfl⟩ := Option.map_eq_some_iff.mp h
        exact .list (List.forall_mem_singleton.mpr (ih w hw))
    | named name =>
      match ht : schema.type? name with
      | some (.scalar t) =>
        have kept := coerced?_ne_null h null
        rw [coerced?_scalar ht null, toOption_eq_some] at h
        rw [stays_iff, coerced?_scalar ht kept, toOption_eq_some]
        exact coerceScalar_again h
      | some (.enum t) =>
        obtain ⟨-, rfl⟩ := (coerced?_enum_eq_some ht null).mp h
        exact stays_iff.mpr h
      | some (.inputObject t) =>
        cases value with
        | object fields => exact object_stays defaults alike entries ht h
        | null => exact absurd rfl null
        | _ =>
          rw [coerced?_inputObject_of_not_object ht null rfl] at h
          cases h
      | none | some (.object _) | some (.interface _) | some (.union _) =>
        rw [coerced?_output (by simp [ht, TypeDefinition.isInput]) null] at h
        cases h

/-- A coerced value is coerced to itself. -/
theorem coerceInput_again (defaults : FieldDefaultsStay schema) (alike : FieldsAlike schema)
    (type : TypeRef) (h : coerceInput schema value type = .ok result) :
    coerceInput schema result type = .ok result :=
  coercesToStay defaults alike value type result (toOption_eq_some.mpr h)

end

namespace Filters

theorem defaultsStay : FieldDefaultsStay schema := by
  intro name t ht
  rw [eq_of_schemaOf ht]
  intro d hd default hdefault
  simp only [filter, inputValue, List.mem_cons, List.not_mem_nil, or_false] at hd
  rcases hd with rfl | rfl | rfl | rfl | rfl
  · cases hdefault
    rfl
  · cases hdefault
    rfl
  all_goals cases hdefault

theorem fieldsAlike : FieldsAlike schema := by
  intro name t ht
  rw [eq_of_schemaOf ht]
  decide

end Filters

theorem filter_coerced_again :
    FieldDefaultsStay Filters.schema ∧ FieldsAlike Filters.schema ∧
      coerceInput Filters.schema Filters.given (.named "Filter") = .ok Filters.coerced ∧
      coerceInput Filters.schema Filters.coerced (.named "Filter") = .ok Filters.coerced := by
  have ok : coerceInput Filters.schema Filters.given (.named "Filter") = .ok Filters.coerced := rfl
  exact ⟨Filters.defaultsStay, Filters.fieldsAlike, ok,
    coerceInput_again Filters.defaultsStay Filters.fieldsAlike (.named "Filter") ok⟩

namespace Twice

open Validation (Points.source)
open Filters (inputValue)

/-- `input Point { x: Int x: ID }` -/
def typed : InputObjectType :=
  ⟨Points.source, none, "Point", [],
    [inputValue "x" (.named "Int") none, inputValue "x" (.named "ID") none]⟩

/-- `input Point { x: Int y: Int = 1 x: Int = 2 }` -/
def late : InputObjectType :=
  ⟨Points.source, none, "Point", [],
    [inputValue "x" (.named "Int") none, inputValue "y" (.named "Int") (some (.int 1)),
      inputValue "x" (.named "Int") (some (.int 2))]⟩

end Twice

open Validation (Points.schema Points.definitions) in
/-- Where a point has two fields `x`, a coerced point is refused if their types differ; and if the
second alone has a default, its keys change places. -/
theorem coerced_not_again :
    (Schema.ofDefinitions (Points.definitions Twice.typed) = .ok (Points.schema Twice.typed) ∧
      FieldDefaultsStay (Points.schema Twice.typed) ∧
      coerceInput (Points.schema Twice.typed) (.object [("x", .ofInt 7)]) (.named "Point") =
        .ok (.object [("x", .string "7")]) ∧
      ∃ es, coerceInput (Points.schema Twice.typed) (.object [("x", .string "7")])
        (.named "Point") = .error es) ∧
    Schema.ofDefinitions (Points.definitions Twice.late) = .ok (Points.schema Twice.late) ∧
      FieldDefaultsStay (Points.schema Twice.late) ∧
      coerceInput (Points.schema Twice.late) (.object []) (.named "Point") =
        .ok (.object [("y", .ofInt 1), ("x", .ofInt 2)]) ∧
      coerceInput (Points.schema Twice.late) (.object [("y", .ofInt 1), ("x", .ofInt 2)])
        (.named "Point") = .ok (.object [("x", .ofInt 2), ("y", .ofInt 1)]) := by
  refine ⟨⟨rfl, ?_, rfl, _, rfl⟩, rfl, ?_, rfl, rfl⟩
  · intro name t ht d hd default hdefault
    rw [Validation.Points.eq_point ht] at hd
    simp only [Twice.typed, Filters.inputValue, List.mem_cons, List.not_mem_nil, or_false] at hd
    rcases hd with rfl | rfl
    all_goals cases hdefault
  · intro name t ht d hd default hdefault
    rw [Validation.Points.eq_point ht] at hd
    simp only [Twice.late, Filters.inputValue, List.mem_cons, List.not_mem_nil, or_false] at hd
    rcases hd with rfl | rfl | rfl
    · cases hdefault
    · cases hdefault
      rfl
    · cases hdefault
      rfl

end GraphQL.Input
