import GraphQL.Proofs.Input.Equations
import GraphQL.Proofs.Input.Scalars

/-!
The values of a type: what is accepted of callers, and what values that were coerced look like. How
much the latter asks of input objects, and of which types it asks nothing, is a parameter, so that
one relation covers all that is said of coerced values.
-/
namespace GraphQL

open TypeSystem

/-- Values from those of their items and entries. -/
theorem Json.induction {motive : Json → Prop}
    (step : ∀ value : Json, (∀ item ∈ value.items?.getD [], motive item) →
      (∀ e ∈ value.entries?.getD [], motive e.2) → motive value) (value : Json) : motive value :=
  step value
    (fun item h => by
      cases value with
      | array items =>
        have := List.sizeOf_lt_of_mem (show item ∈ items from h)
        exact Json.induction step item
      | _ => cases h)
    (fun e h => by
      cases value with
      | object entries =>
        have := List.sizeOf_lt_of_mem (show e ∈ entries from h)
        obtain ⟨key, v⟩ := e
        exact Json.induction step v
      | _ => cases h)
termination_by sizeOf value
decreasing_by
  all_goals simp_all
  all_goals omega

namespace Input

/-- The values that are accepted for a type. Of a type that is no input type only null is. -/
inductive Accepts (schema : Schema) : TypeRef → Json → Prop where
  | null {type : TypeRef} : type.isNonNull = false → Accepts schema type .null
  | nonNull {inner : TypeRef} {value : Json} :
      value ≠ .null → Accepts schema inner value → Accepts schema (.nonNull inner) value
  | list {item : TypeRef} {values : List Json} :
      (∀ value ∈ values, Accepts schema item value) → Accepts schema (.list item) (.array values)
  /-- A value that is no list stands for the list of itself. -/
  | single {item : TypeRef} {value : Json} :
      value ≠ .null → value.items? = none → Accepts schema item value →
      Accepts schema (.list item) value
  | scalar {name : String} {t : ScalarType} {value : Json} :
      schema.type? name = some (.scalar t) → value ≠ .null → AcceptsScalar name value →
      Accepts schema (.named name) value
  | enum {name : String} {t : EnumType} {value : EnumValue} :
      schema.type? name = some (.enum t) → value ∈ t.values →
      Accepts schema (.named name) (.string value.name)
  | inputObject {name : String} {t : InputObjectType} {entries : Entries Json} :
      schema.type? name = some (.inputObject t) →
      (∀ key ∈ entries.keys, ∃ d ∈ t.fields, d.name = key) →
      (∀ d ∈ t.fields, ∀ value, entries.get? d.name = some value → Accepts schema d.type value) →
      (∀ d ∈ t.fields, entries.get? d.name = none → d.isRequired = false) →
      Accepts schema (.named name) (.object entries)

/-- The keys are names of definitions, in their order, and none is missing that is non-null or has a
default. -/
structure Complete (ds : List InputValue) (keys : List String) : Prop where
  inOrder : keys.Sublist (ds.map (·.name))
  present : ∀ d ∈ ds, d.type.isNonNull = true ∨ d.default.isSome = true → d.name ∈ keys

/-- The keys are names of definitions, and none is missing that must be given. -/
structure Sufficient (ds : List InputValue) (keys : List String) : Prop where
  declared : ∀ key ∈ keys, ∃ d ∈ ds, d.name = key
  required : ∀ d ∈ ds, d.isRequired = true → d.name ∈ keys

theorem Complete.sufficient {ds : List InputValue} {keys : List String} (h : Complete ds keys) :
    Sufficient ds keys where
  declared key hk := List.mem_map.mp (h.inOrder.subset hk)
  required d hd needed := by
    rw [InputValue.isRequired, Bool.and_eq_true] at needed
    exact h.present d hd (.inl needed.1)

/-- What is asked of values. -/
structure Demand where
  /-- The types at which nothing is asked. -/
  free : TypeRef → Prop
  /-- The keys that input objects may have, by the definitions of their fields. -/
  keys : List InputValue → List String → Prop
  complete : ∀ {ds ks}, Complete ds ks → keys ds ks

/-- No type is free, and input objects have all keys that coercion gives them. -/
def Demand.full : Demand := ⟨fun _ => False, Complete, id⟩

/-- The values of a type. Each value of an input object conforms to a field of its key. -/
inductive Conforms (schema : Schema) (asked : Demand) : TypeRef → Json → Prop where
  | free {type : TypeRef} {value : Json} : asked.free type → Conforms schema asked type value
  | null {type : TypeRef} : type.isNonNull = false → Conforms schema asked type .null
  | nonNull {inner : TypeRef} {value : Json} :
      value ≠ .null → Conforms schema asked inner value →
      Conforms schema asked (.nonNull inner) value
  | list {item : TypeRef} {values : List Json} :
      (∀ value ∈ values, Conforms schema asked item value) →
      Conforms schema asked (.list item) (.array values)
  | scalar {name : String} {t : ScalarType} {value : Json} :
      schema.type? name = some (.scalar t) → IsScalarValue name value →
      Conforms schema asked (.named name) value
  | enum {name : String} {t : EnumType} {value : EnumValue} :
      schema.type? name = some (.enum t) → value ∈ t.values →
      Conforms schema asked (.named name) (.string value.name)
  | inputObject {name : String} {t : InputObjectType} {entries : Entries Json}
      (field : String × Json → InputValue) :
      schema.type? name = some (.inputObject t) → asked.keys t.fields entries.keys →
      (∀ e ∈ entries, field e ∈ t.fields ∧ (field e).name = e.1) →
      (∀ e ∈ entries, Conforms schema asked (field e).type e.2) →
      Conforms schema asked (.named name) (.object entries)

/-- The defaults of definitions conform to their types. -/
def DefaultsConform (schema : Schema) (asked : Demand) (ds : List InputValue) : Prop :=
  ∀ d ∈ ds, ∀ default, d.default = some default → Conforms schema asked d.type default.toJson

def FieldDefaultsConform (schema : Schema) (asked : Demand) : Prop :=
  ∀ name t, schema.type? name = some (.inputObject t) → DefaultsConform schema asked t.fields

section

variable {schema : Schema} {asked : Demand} {give : InputValue → Option (Option Json)}
variable {ds : List InputValue} {d : InputValue} {out : Entries Json}

theorem absentGives_ne_none (h : d.type.isNonNull = true ∨ d.default.isSome = true) :
    absentGives d ≠ some none := by
  unfold absentGives
  cases hd : d.default with
  | some default => simp
  | none =>
    rcases h with h | h
    · simp [h]
    · rw [hd] at h
      cases h

theorem conforms_of_absentGives (defaults : DefaultsConform schema asked ds) (hd : d ∈ ds)
    {value : Json} (h : absentGives d = some (some value)) :
    Conforms schema asked d.type value := by
  obtain ⟨literal, default, rfl⟩ := absentGives_eq_value.mp h
  exact defaults d hd literal default

theorem complete_of_fill (h : fill give [] ds = some out)
    (gives : ∀ d ∈ ds, d.type.isNonNull = true ∨ d.default.isSome = true → give d ≠ some none) :
    Complete ds out.keys where
  inOrder := keys_sublist_of_fill h
  present d hd needed := name_mem_of_fill h hd (gives d hd needed)

theorem Conforms.of_fill {name : String} {t : InputObjectType}
    (ht : schema.type? name = some (.inputObject t)) (h : fill give [] t.fields = some out)
    (gives : ∀ d ∈ t.fields, d.type.isNonNull = true ∨ d.default.isSome = true → give d ≠ some none)
    (values : ∀ d ∈ t.fields, ∀ value, give d = some (some value) →
      Conforms schema asked d.type value) :
    Conforms schema asked (.named name) (.object out) := by
  have source : ∀ e ∈ out,
      ∃ d, (d ∈ t.fields ∧ d.name = e.1) ∧ Conforms schema asked d.type e.2 := by
    intro e he
    obtain ⟨d, hd, named, given⟩ := exists_of_mem_fill h he
    exact ⟨d, ⟨hd, named⟩, values d hd e.2 given⟩
  choose! field fields conform using source
  exact .inputObject field ht (asked.complete (complete_of_fill h gives)) fields conform

end

namespace Filters

def inputValue (name : String) (type : TypeRef) (default : Option Literal) : InputValue :=
  ⟨⟨1, 1⟩, none, name, type, default, []⟩

/-- The type
`input Filter { limit: Int! = 10 tags: [String!] = ["all"] id: ID ratio: Float within: Filter }`. -/
def filter : InputObjectType :=
  ⟨⟨1, 1⟩, none, "Filter", [],
    [inputValue "limit" (.nonNull (.named "Int")) (some (.int 10)),
      inputValue "tags" (.list (.nonNull (.named "String"))) (some (.list [.string "all"])),
      inputValue "id" (.named "ID") none, inputValue "ratio" (.named "Float") none,
      inputValue "within" (.named "Filter") none]⟩

def schemaOf (t : InputObjectType) : Schema where
  types := (t.name, .inputObject t) :: builtinScalars.map fun t => (t.name, .scalar t)
  directives := []
  query := "Query"
  mutation := none
  subscription := none

def schema : Schema := schemaOf filter

theorem eq_of_schemaOf {t u : InputObjectType} {name : String}
    (h : (schemaOf t).type? name = some (.inputObject u)) : u = t := by
  have := Entries.mem_of_get? h
  have both : name = t.name ∧ u = t := by simpa [schemaOf, builtinScalars] using this
  exact both.2

theorem int_conforms (asked : Demand) {n : Int} (range : InInt32 n) :
    Conforms schema asked (.nonNull (.named "Int")) (.ofInt n) := by
  obtain ⟨m, rfl⟩ := JsonInteger.exists_of_inInt64 range.inInt64
  rw [Json.ofInt_val]
  exact .nonNull (by simp) (.scalar rfl ⟨m, rfl, range⟩)

theorem defaultsConform (asked : Demand) : FieldDefaultsConform schema asked := by
  intro name t ht
  have limit := int_conforms asked (show InInt32 10 by decide)
  have tags : Conforms schema asked (.list (.nonNull (.named "String"))) (.array [.string "all"]) :=
    .list (List.forall_mem_singleton.mpr (.nonNull (by simp) (.scalar rfl ⟨_, rfl⟩)))
  rw [eq_of_schemaOf ht]
  intro d hd default hdefault
  simp only [filter, inputValue, List.mem_cons, List.not_mem_nil, or_false] at hd
  rcases hd with rfl | rfl | rfl | rfl | rfl
  · cases hdefault
    exact limit
  · cases hdefault
    exact tags
  all_goals cases hdefault

end Filters

end Input

end GraphQL
