import GraphQL.Proofs.Execution.NullPropagation
import GraphQL.Proofs.Input.ValueCoercion

/-!
What is wrong with a runtime value. Main statement: a value that fits no type has errors, the path
of each leads to the part that it is about, and the errors of a list or an input object are those of
its parts, in order.
-/
namespace GraphQL

open TypeSystem

/-- The type under non-null wrappers. -/
def TypeRef.unwrapped : TypeRef → TypeRef
  | nonNull inner => inner.unwrapped
  | type => type

/-- What a result tells is wrong, nothing where there is a value. -/
def errorsIn {ε α : Type} : Except (List ε) α → List ε
  | .ok _ => []
  | .error es => es

@[simp]
theorem errorsIn_ok {ε α : Type} (x : α) : errorsIn (.ok x : Except (List ε) α) = [] := rfl

@[simp]
theorem errorsIn_error {ε α : Type} (es : List ε) :
    errorsIn (.error es : Except (List ε) α) = es := rfl

namespace Coerced

variable {α β : Type} {result : Coerced α}

@[simp]
theorem errorsIn_map (f : α → β) : errorsIn (result.map f) = errorsIn result := by
  cases result <;> rfl

@[simp]
theorem errorsIn_failing (es : List InputError) :
    errorsIn (result.failing es) = es ++ errorsIn result := by
  cases result <;> simp [failing]

theorem map_ne_error_nil (h : result ≠ .error []) (f : α → β) : result.map f ≠ .error [] := by
  cases result with
  | ok x => simp [Except.map]
  | error es => simpa [Except.map] using h

theorem failing_ne_error_nil {es : List InputError} (h : es ≠ []) :
    result.failing es ≠ .error [] := by
  cases result <;> simp [failing, h]

end Coerced

def fieldErrors (object : Json) (d : InputValue) : Option (Coerced Json) → List InputError
  | some result => (errorsIn result).map (·.under (.key d.name))
  | none => if d.isRequired then [⟨[], object, .missingField d.name d.type⟩] else []

section

variable {item : TypeRef} {value : Json} {inputs : Entries TypedInput}

theorem coerceItems_errors (item : TypeRef) (i : Nat) (inputs : List TypedInput) :
    errorsIn (coerceItems item i inputs) =
      (inputs.zipIdx i).flatMap fun p => (errorsIn (p.1 item)).map (·.under (.index p.2)) := by
  induction inputs generalizing i with
  | nil => rfl
  | cons input rest ih =>
    rw [coerceItems, List.zipIdx_cons, List.flatMap_cons, ← ih (i + 1)]
    cases hi : input item <;> simp [hi]

theorem coerceItems_ne_error_nil {inputs : List TypedInput}
    (h : ∀ input ∈ inputs, input item ≠ .error []) (i : Nat) :
    coerceItems item i inputs ≠ .error [] := by
  induction inputs generalizing i with
  | nil => simp [coerceItems]
  | cons input rest ih =>
    rw [coerceItems]
    cases hi : input item with
    | ok v => exact Coerced.map_ne_error_nil (ih (fun j hj => h j (.tail _ hj)) (i + 1)) _
    | error es =>
      apply Coerced.failing_ne_error_nil
      have := h input (.head _)
      simpa [hi] using this

theorem coerceFields_errors (built : Entries Json) (ds : List InputValue) :
    errorsIn (coerceFields value inputs built ds) =
      ds.flatMap fun d => fieldErrors value d ((inputs.get? d.name).map (· d.type)) := by
  induction ds generalizing built with
  | nil => rfl
  | cons d rest ih =>
    rw [coerceFields, List.flatMap_cons]
    cases inputs.get? d.name with
    | some input => cases hi : input d.type <;> simp [hi, ih, fieldErrors]
    | none =>
      cases hd : d.default <;> cases hn : d.type.isNonNull <;>
        simp [ih, fieldErrors, InputValue.isRequired, hd, hn]

theorem coerceFields_ne_error_nil {ds : List InputValue}
    (h : ∀ d ∈ ds, ∀ input, inputs.get? d.name = some input → input d.type ≠ .error [])
    (built : Entries Json) : coerceFields value inputs built ds ≠ .error [] := by
  induction ds generalizing built with
  | nil => simp [coerceFields]
  | cons d rest ih =>
    have ih := ih fun d hd => h d (.tail _ hd)
    rw [coerceFields]
    cases given : inputs.get? d.name with
    | some input =>
      dsimp only
      cases hi : input d.type with
      | ok v => exact ih _
      | error es =>
        apply Coerced.failing_ne_error_nil
        have := h d (.head _) input given
        simpa [hi] using this
    | none =>
      cases d.default with
      | some default => exact ih _
      | none =>
        dsimp only
        split
        · exact Coerced.failing_ne_error_nil (by simp)
        · exact ih _

theorem undefinedFields_eq (t : InputObjectType) (value : Json) (keys : List String) :
    undefinedFields t value keys =
      (keys.filter fun key => !t.fields.any (·.name = key)).map fun key =>
        ⟨[], value, .undefinedField key t.name⟩ := by
  induction keys with
  | nil => rfl
  | cons key keys ih =>
    rw [undefinedFields, List.filterMap_cons, List.filter_cons, ← undefinedFields, ih]
    cases t.fields.any (·.name = key) <;> rfl

theorem coerceObject_errors (t : InputObjectType) :
    errorsIn (coerceObject t value inputs) =
      errorsIn (coerceFields value inputs [] t.fields) ++ undefinedFields t value inputs.keys := by
  unfold coerceObject
  cases coerceFields value inputs [] t.fields with
  | error es => rfl
  | ok built => cases undefinedFields t value inputs.keys <;> rfl

theorem coerceObject_ne_error_nil {t : InputObjectType}
    (h : coerceFields value inputs [] t.fields ≠ .error []) :
    coerceObject t value inputs ≠ .error [] := by
  unfold coerceObject
  cases hf : coerceFields value inputs [] t.fields with
  | error es =>
    have : es ≠ [] := by simpa [hf] using h
    simp [this]
  | ok built => cases undefinedFields t value inputs.keys <;> simp

end

namespace Input

/-- Following the path of the error from a value arrives at the value of the error. -/
def Leads (value : Json) (e : InputError) : Prop := value.at? e.path = some e.value

section

variable {schema : Schema} {value : Json} {type : TypeRef}

theorem Leads.under {part : Json} {step : PathElement} (child : value.child? step = some part)
    {e : InputError} (h : Leads part e) : Leads value (e.under step) := by
  unfold Leads InputError.under
  rw [Json.at?, child]
  exact h

/-- Where a value does not fit, there is an error, and errors lead to parts of the value. -/
structure Explained {α : Type} (value : Json) (result : Coerced α) : Prop where
  told : result ≠ .error []
  leads : ∀ e ∈ errorsIn result, Leads value e

theorem Explained.map {α β : Type} {result : Coerced α} (h : Explained value result) (f : α → β) :
    Explained value (result.map f) where
  told := Coerced.map_ne_error_nil h.told f
  leads := by
    rw [Coerced.errorsIn_map]
    exact h.leads

theorem explained_ok {α : Type} (value : Json) (result : α) : Explained value (.ok result) where
  told := by simp
  leads := by simp

theorem explained_error {α : Type} (value : Json) (problem : InputProblem) :
    Explained value (.error [⟨[], value, problem⟩] : Coerced α) where
  told := by simp
  leads := by simp [Leads, Json.at?]

theorem list_explained {item : TypeRef} {values : List Json}
    (items : ∀ v ∈ values, Explained v (coerceInput schema v item)) :
    Explained (.array values) (coerceInput schema (.array values) (.list item)) := by
  rw [coerceInput_list]
  apply Explained.map
  constructor
  · apply coerceItems_ne_error_nil
    intro input hi
    obtain ⟨v, hv, rfl⟩ := List.mem_map.mp hi
    exact (items v hv).told
  · rw [coerceItems_errors, List.zipIdx_map]
    intro e he
    obtain ⟨p, hp, he⟩ := List.mem_flatMap.mp he
    obtain ⟨⟨v, i⟩, hv, rfl⟩ := List.mem_map.mp hp
    obtain ⟨f, hf, rfl⟩ := List.mem_map.mp he
    have present : values[i]? = some v := List.mem_zipIdx_iff_getElem?.mp hv
    have child : (Json.array values).child? (.index i) = some v := present
    exact ((items v (List.mem_of_getElem? present)).leads f hf).under child

theorem fieldErrors_lead {entries : Entries Json} {d : InputValue}
    (present : ∀ v, entries.get? d.name = some v → Explained v (coerceInput schema v d.type)) :
    ∀ e ∈ fieldErrors (.object entries) d
      ((entries.get? d.name).map fun v => coerceInput schema v d.type),
      Leads (.object entries) e := by
  intro e he
  cases given : entries.get? d.name with
  | some v =>
    rw [given] at he
    obtain ⟨f, hf, rfl⟩ := List.mem_map.mp he
    have child : (Json.object entries).child? (.key d.name) = some v := given
    exact ((present v given).leads f hf).under child
  | none =>
    rw [given, Option.map_none, fieldErrors] at he
    split_ifs at he
    · rw [List.mem_singleton.mp he]
      rfl
    · cases he

theorem object_explained {entries : Entries Json} {t : InputObjectType}
    (fields : ∀ e ∈ entries, ∀ type, Explained e.2 (coerceInput schema e.2 type)) :
    Explained (.object entries)
      (coerceObject t (.object entries) (entryInputs schema entries)) := by
  constructor
  · apply coerceObject_ne_error_nil
    apply coerceFields_ne_error_nil
    intro d _ input given
    rw [get?_entryInputs] at given
    obtain ⟨v, hv, rfl⟩ := Option.map_eq_some_iff.mp given
    exact (fields _ (Entries.mem_of_get? hv) d.type).told
  · rw [coerceObject_errors, coerceFields_errors, undefinedFields_eq]
    intro e he
    rcases List.mem_append.mp he with he | he
    · obtain ⟨d, _, he⟩ := List.mem_flatMap.mp he
      rw [get?_entryInputs, Option.map_map] at he
      exact fieldErrors_lead (fun v hv => fields _ (Entries.mem_of_get? hv) d.type) e he
    · obtain ⟨key, _, rfl⟩ := List.mem_map.mp he
      rfl

theorem named_explained (null : value ≠ .null) {name : String}
    (fields : ∀ e ∈ value.entries?.getD [], ∀ type, Explained e.2 (coerceInput schema e.2 type)) :
    Explained value (coerceInput schema value (.named name)) := by
  rw [coerceInput_named null, coerceNamed]
  split
  · cases coerceScalar name value with
    | ok result => exact explained_ok value result
    | error e => exact explained_error value (.scalar e)
  · unfold coerceEnum
    split
    · split
      · exact explained_ok _ _
      · exact explained_error _ _
    · exact explained_error _ _
  · split
    · exact object_explained fields
    · exact explained_error _ _
  · exact explained_error _ _

/-- By induction on the value and, since wrappers keep the value, on the type. -/
theorem coerceInput_explained (value : Json) (type : TypeRef) :
    Explained value (coerceInput schema value type) := by
  induction value using Json.induction generalizing type with
  | step value items entries =>
    by_cases null : value = .null
    · subst null
      rw [coerceInput_null]
      split_ifs
      · exact explained_error _ _
      · exact explained_ok _ _
    induction type with
    | nonNull inner ih =>
      rw [coerceInput_nonNull null]
      exact ih
    | list item ih =>
      cases value with
      | array values => exact list_explained fun v hv => items v hv item
      | null => exact absurd rfl null
      | _ =>
        rw [coerceInput_single null rfl]
        exact ih.map _
    | named name => exact named_explained null entries

theorem coerceInput_unwrapped (null : value ≠ .null) (type : TypeRef) :
    coerceInput schema value type = coerceInput schema value type.unwrapped := by
  induction type with
  | nonNull inner ih => rw [coerceInput_nonNull null, ih, TypeRef.unwrapped]
  | list item => rfl
  | named name => rfl

theorem list_errors (item : TypeRef) (values : List Json) :
    errorsIn (coerceInput schema (.array values) (.list item)) =
      values.zipIdx.flatMap fun p =>
        (errorsIn (coerceInput schema p.1 item)).map (·.under (.index p.2)) := by
  rw [coerceInput_list, Coerced.errorsIn_map, coerceItems_errors, List.zipIdx_map, List.flatMap_map]
  rfl

theorem object_errors {name : String} {t : InputObjectType}
    (ht : schema.type? name = some (.inputObject t)) (entries : Entries Json) :
    errorsIn (coerceInput schema (.object entries) (.named name)) =
      (t.fields.flatMap fun d => fieldErrors (.object entries) d
        ((entries.get? d.name).map fun v => coerceInput schema v d.type)) ++
      (entries.keys.filter fun key => !t.fields.any (·.name = key)).map fun key =>
        ⟨[], .object entries, .undefinedField key t.name⟩ := by
  rw [coerceInput_named (by simp), coerceNamed, ht]
  dsimp only [Json.entries?, Option.getD_some]
  rw [coerceObject_errors, coerceFields_errors, undefinedFields_eq, keys_entryInputs]
  simp only [get?_entryInputs, Option.map_map]
  rfl

/-- A value that does not fit has errors, and each has the part of the value that its path leads to.
The errors at list types are those of the items under their indices, or of the value that stands for
a list of itself; those at input object types are of the fields in the order of their definitions,
then of keys that are not defined. -/
theorem inputErrors_lead {es : List InputError} (h : coerceInput schema value type = .error es) :
    es ≠ [] ∧
      (∀ e ∈ es, value.at? e.path = some e.value) ∧
      (∀ item values, type.unwrapped = .list item → value = .array values →
        es = values.zipIdx.flatMap fun p =>
          (errorsIn (coerceInput schema p.1 item)).map (·.under (.index p.2))) ∧
      (∀ item, type.unwrapped = .list item → value ≠ .null → value.items? = none →
        coerceInput schema value item = .error es) ∧
      ∀ name t (entries : Entries Json), type.unwrapped = .named name →
        schema.type? name = some (.inputObject t) → value = .object entries →
        es = (t.fields.flatMap fun d => fieldErrors value d
            ((entries.get? d.name).map fun v => coerceInput schema v d.type)) ++
          (entries.keys.filter fun key => !t.fields.any (·.name = key)).map fun key =>
            ⟨[], value, .undefinedField key t.name⟩ := by
  have explained : Explained value (coerceInput schema value type) :=
    coerceInput_explained value type
  rw [h] at explained
  refine ⟨fun none => explained.told (by rw [none]), explained.leads, ?_, ?_, ?_⟩
  · rintro item values wrapped rfl
    rw [coerceInput_unwrapped (by simp), wrapped] at h
    rw [← list_errors, h, errorsIn_error]
  · intro item wrapped null list
    rw [coerceInput_unwrapped null, wrapped, coerceInput_single null list] at h
    cases hv : coerceInput schema value item <;> rw [hv] at h <;> cases h
    rfl
  · rintro name t entries wrapped ht rfl
    rw [coerceInput_unwrapped (by simp), wrapped] at h
    rw [← object_errors ht, h, errorsIn_error]

end

namespace Spans

open Filters (inputValue)

/-- `input Span { from: Int! to: [Int!]! }` -/
def span : InputObjectType :=
  ⟨⟨1, 1⟩, none, "Span", [],
    [inputValue "from" (.nonNull (.named "Int")) none,
      inputValue "to" (.nonNull (.list (.nonNull (.named "Int")))) none]⟩

def given : Json :=
  .object [("by", .ofInt 2), ("to", .array [.ofInt 1, .null, .string "x"])]

/-- The field `from` is missing, two items of `to` do not fit, and `by` is not defined. -/
def errors : List InputError :=
  [⟨[], given, .missingField "from" (.nonNull (.named "Int"))⟩,
    ⟨[.key "to", .index 1], .null, .nullNotAllowed (.nonNull (.named "Int"))⟩,
    ⟨[.key "to", .index 2], .string "x", .scalar .notAnInteger⟩,
    ⟨[], given, .undefinedField "by" "Span"⟩]

end Spans

theorem spanErrors_lead :
    coerceInput (Filters.schemaOf Spans.span) Spans.given (.named "Span") = .error Spans.errors ∧
      ∀ e ∈ Spans.errors, Spans.given.at? e.path = some e.value := by
  have fails : coerceInput (Filters.schemaOf Spans.span) Spans.given (.named "Span") =
      .error Spans.errors := rfl
  exact ⟨fails, (inputErrors_lead fails).2.1⟩

end Input

end GraphQL
