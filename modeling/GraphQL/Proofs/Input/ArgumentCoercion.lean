import GraphQL.Proofs.Input.Conforming
import GraphQL.Proofs.Input.LiteralReading

/-!
Coercing arguments. Main statement: the values of arguments conform to their definitions, if the
defaults and the values of variables do.
-/
namespace GraphQL.Input

open Ast TypeSystem

def IsCustom (schema : Schema) : TypeRef → Prop
  | .named name =>
    (∃ t, schema.type? name = some (.scalar t)) ∧ Validation.isCustomScalar name = true
  | .nonNull inner => IsCustom schema inner
  | .list _ => False

/-- Custom scalars are free, and input objects have what must be given. -/
def Demand.sufficient (schema : Schema) : Demand :=
  ⟨IsCustom schema, Sufficient, Complete.sufficient⟩

/-- The values of variables conform to the types where the variables stand in a literal. -/
def VariablesConform (schema : Schema) (asked : Demand) (vars : Entries Json) (type : TypeRef)
    (literal : Value) : Prop :=
  ∀ wanted v value, At schema type literal wanted (.variable v) →
    vars.get? v.name.value = some value → Conforms schema asked wanted value

section

variable {schema : Schema} {vars : Entries Json} {asked : Demand}

theorem Reads.ne_null {type : TypeRef} {literal : Value} {value : Json}
    (h : Reads schema vars type literal value) (null : literal.kind ≠ .nullValue)
    (isVariable : literal.kind ≠ .variable) :
    value ≠ .null ∨ literal.Overflows ∧ IsCustom schema type := by
  induction h with
  | «variable» => exact absurd rfl isVariable
  | null => exact absurd rfl null
  | nonNull _ _ _ ih => exact ih null isVariable
  | @scalar name t _ value _ _ ht ok =>
    by_cases isNull : value = .null
    · subst isNull
      obtain ⟨overflows, custom⟩ := (toScalar_eq_null null isVariable).mp ok
      exact .inr ⟨overflows, ⟨_, ht⟩, custom⟩
    · exact .inl isNull
  | _ => exact .inl (by simp)

theorem Reads.overflows_of_null {type : TypeRef} {literal : Value}
    (h : Reads schema vars type literal .null) (nonNull : type.isNonNull = true) :
    literal.Overflows ∧ IsCustom schema type := by
  cases h with
  | «variable» read =>
    unfold variableAt at read
    split at read
    · rw [if_pos nonNull] at read
      cases read
    · rw [if_pos nonNull] at read
      cases read
    · rename_i notNull _
      cases read
      exact absurd rfl notNull
  | null nullable => exact absurd nonNull (Bool.eq_false_iff.mp nullable)
  | nonNull null isVariable reads => exact (reads.ne_null null isVariable).resolve_left (· rfl)
  | scalar => cases nonNull

theorem conforms_of_variableAt {type : TypeRef} {value : Json} {given : Option Json}
    (h : variableAt given type = some value)
    (conform : ∀ v, given = some v → Conforms schema asked type v) :
    Conforms schema asked type value := by
  unfold variableAt at h
  split at h
  · split_ifs at h with nonNull
    cases h
    exact .null (Bool.eq_false_iff.mpr nonNull)
  · split_ifs at h with nonNull
    cases h
    exact .null (Bool.eq_false_iff.mpr nonNull)
  · cases h
    exact conform value rfl

/-- What is written for a definition conforms, and so does its default. -/
theorem conforms_of_writtenGives {ds : List InputValue} (defaults : DefaultsConform schema asked ds)
    {d : InputValue} (hd : d ∈ ds) {written : Option Value} {value : Json}
    (h : writtenGives schema vars written d = some (some value))
    (conforms : ∀ literal, written = some literal →
      literalValue schema vars literal d.type = some value → Conforms schema asked d.type value) :
    Conforms schema asked d.type value := by
  unfold writtenGives at h
  split at h
  · rename_i literal provided
    obtain ⟨_, hv, same⟩ := Option.map_eq_some_iff.mp h
    cases same
    exact conforms literal (Option.filter_eq_some_iff.mp provided).1 hv
  · exact conforms_of_absentGives defaults hd h

theorem writtenGives_ne_none {written : Option Value} {d : InputValue}
    (h : d.type.isNonNull = true ∨ d.default.isSome = true ∨
      ∃ literal, written = some literal ∧ isProvided vars literal = true) :
    writtenGives schema vars written d ≠ some none := by
  unfold writtenGives
  split
  · simp
  · rename_i absent
    apply absentGives_ne_none
    rcases h with nonNull | default | ⟨literal, rfl, provided⟩
    · exact .inl nonNull
    · exact .inr default
    · simp [provided] at absent

/-- The value of a literal conforms to the type where it stands, if nothing is asked where null is
read at a non-null type. -/
theorem Reads.conforms_of_free (defaults : FieldDefaultsConform schema asked) {type : TypeRef}
    {literal : Value} {value : Json} (h : Reads schema vars type literal value)
    (free : ∀ wanted member, At schema type literal wanted member → wanted.isNonNull = true →
      Reads schema vars wanted member .null → asked.free wanted)
    (given : VariablesConform schema asked vars type literal) :
    Conforms schema asked type value := by
  induction h with
  | «variable» read => exact conforms_of_variableAt read fun v hv => given _ _ v .here hv
  | null nullable => exact .null nullable
  | @nonNull literal inner value null isVariable reads ih =>
    have conforms := ih
      (fun wanted member place => free wanted member (.nonNull null isVariable place))
      fun wanted v w place => given wanted v w (.nonNull null isVariable place)
    by_cases isNull : value = .null
    · subst isNull
      exact .free (free _ _ .here rfl (.nonNull null isVariable reads))
    · exact .nonNull isNull conforms
  | @list item values loc results length _ ih =>
    have each : List.Forall₂ (fun _ w => Conforms schema asked item w) values results :=
      List.forall₂_iff_zip.mpr ⟨length, fun {v w} hp => by
        have member := (List.of_mem_zip hp).1
        exact ih (v, w) hp (fun wanted inside place => free wanted inside (.item member place))
          fun wanted u x place => given wanted u x (.item member place)⟩
    apply Conforms.list
    intro w hw
    obtain ⟨-, -, conforms⟩ := exists_left_of_forall₂ each hw
    exact conforms
  | single null isVariable list _ ih =>
    apply Conforms.list
    rw [List.forall_mem_singleton]
    exact ih (fun wanted member place => free wanted member (.single null isVariable list place))
      fun wanted v w place => given wanted v w (.single null isVariable list place)
  | scalar _ _ ht ok => exact .scalar ht (isScalarValue_of_toScalar ok)
  | enum ht hv => exact .enum ht hv
  | @object name t fields loc out ht filled _ ih =>
    refine .of_fill ht filled ?_ ?_
    · intro d _ needed
      exact writtenGives_ne_none (needed.imp_right .inl)
    · intro d hd value gives
      refine conforms_of_writtenGives (defaults name t ht) hd gives ?_
      intro literal written read
      exact ih d hd literal written value read
        (fun wanted member place => free wanted member (.field ht hd written place))
        fun wanted v w place => given wanted v w (.field ht hd written place)

theorem Reads.conforms (defaults : FieldDefaultsConform schema asked)
    (free : ∀ type, IsCustom schema type → asked.free type) {type : TypeRef} {literal : Value}
    {value : Json} (h : Reads schema vars type literal value)
    (given : VariablesConform schema asked vars type literal) :
    Conforms schema asked type value :=
  h.conforms_of_free defaults
    (fun wanted _ _ nonNull read => free wanted (read.overflows_of_null nonNull).2) given

end

section

variable {schema : Schema} {asked : Demand} {vars m : Entries Json}
variable {definitions : List InputValue} {arguments : List Argument}

/-- The values of arguments are those of their definitions, in order: all that are written, with
a value if with a variable, all that have a default and all that are non-null. Each conforms to its
type. -/
theorem argumentValues_conform (fields : FieldDefaultsConform schema asked)
    (defaults : DefaultsConform schema asked definitions)
    (free : ∀ type, IsCustom schema type → asked.free type)
    (given : ∀ d ∈ definitions, ∀ literal, writtenArgument arguments d.name = some literal →
      VariablesConform schema asked vars d.type literal)
    (h : argumentValues schema definitions arguments vars = .ok m) :
    m.keys.Sublist (definitions.map (·.name)) ∧
      (∀ d ∈ definitions,
        (d.type.isNonNull = true ∨ d.default.isSome = true ∨
          ∃ literal, writtenArgument arguments d.name = some literal ∧
            isProvided vars literal = true) → d.name ∈ m.keys) ∧
      ∀ e ∈ m, ∃ d ∈ definitions, d.name = e.1 ∧ Conforms schema asked d.type e.2 := by
  have filled := argumentValues_eq_ok.mp h
  refine ⟨keys_sublist_of_fill filled, ?_, ?_⟩
  · intro d hd needed
    exact name_mem_of_fill filled hd (writtenGives_ne_none needed)
  · intro e he
    obtain ⟨d, hd, named, gives⟩ := exists_of_mem_fill filled he
    refine ⟨d, hd, named, conforms_of_writtenGives defaults hd gives ?_⟩
    intro literal written read
    exact (reads_of_literalValue literal _ _ read).conforms fields free (given d hd literal written)

end

namespace Filters

/-- `(first: Int! = 10, filter: Filter)` -/
def definitions : List InputValue :=
  [inputValue "first" (.nonNull (.named "Int")) (some (.int 10)),
    inputValue "filter" (.named "Filter") none]

/-- `{ within: $inner }` -/
def literal : Value :=
  .object [⟨⟨"within", none⟩, .variable ⟨⟨"inner", none⟩, none⟩, none⟩]

/-- `(filter: { within: $inner })` -/
def arguments : List Argument := [⟨⟨"filter", none⟩, literal, none⟩]

def inner : Json := .object [("limit", .ofInt 1)]

/-- `{"first": 10, "filter": {"limit": 10, "tags": ["all"], "within": {"limit": 1}}}` -/
def values : Entries Json :=
  [("first", .ofInt 10),
    ("filter", .object [("limit", .ofInt 10), ("tags", .array [.string "all"]),
      ("within", inner)])]

theorem definitions_conform (asked : Demand) : DefaultsConform schema asked definitions := by
  have first := int_conforms asked (show InInt32 10 by decide)
  intro d hd default hdefault
  simp only [definitions, inputValue, List.mem_cons, List.not_mem_nil, or_false] at hd
  rcases hd with rfl | rfl
  · cases hdefault
    exact first
  · cases hdefault

theorem inner_conforms : Conforms schema (.sufficient schema) (.named "Filter") inner := by
  have keys : Sufficient filter.fields ["limit"] := by
    constructor
    · decide
    · decide
  have limit := int_conforms (.sufficient schema) (show InInt32 1 by decide)
  refine .inputObject (fun _ => inputValue "limit" (.nonNull (.named "Int")) (some (.int 10)))
    rfl keys ?_ ?_
  · exact List.forall_mem_singleton.mpr ⟨List.mem_cons_self, rfl⟩
  · exact List.forall_mem_singleton.mpr limit

/-- The variable stands for a filter. -/
theorem variables_conform :
    VariablesConform schema (.sufficient schema) [("inner", inner)] (.named "Filter") literal := by
  intro wanted v value place found
  cases place with
  | @field _ t _ _ d _ member _ ht hd written place =>
    rw [eq_of_schemaOf ht] at hd
    simp only [filter, inputValue, List.mem_cons, List.not_mem_nil, or_false] at hd
    rcases hd with rfl | rfl | rfl | rfl | rfl
    case inr.inr.inr.inr =>
      cases written
      obtain ⟨rfl, same⟩ := place.of_variable
      cases same
      cases found
      exact inner_conforms
    all_goals cases written

end Filters

theorem filter_arguments_conform :
    argumentValues Filters.schema Filters.definitions Filters.arguments [("inner", Filters.inner)] =
        .ok Filters.values ∧
      Filters.values.keys.Sublist (Filters.definitions.map (·.name)) ∧
      ∀ e ∈ Filters.values, ∃ d ∈ Filters.definitions, d.name = e.1 ∧
        Conforms Filters.schema (.sufficient Filters.schema) d.type e.2 := by
  have ok : argumentValues Filters.schema Filters.definitions Filters.arguments
      [("inner", Filters.inner)] = .ok Filters.values := rfl
  have given : ∀ d ∈ Filters.definitions, ∀ literal,
      writtenArgument Filters.arguments d.name = some literal →
      VariablesConform Filters.schema (.sufficient Filters.schema) [("inner", Filters.inner)] d.type
        literal := by
    intro d hd literal written
    simp only [Filters.definitions, Filters.inputValue, List.mem_cons, List.not_mem_nil,
      or_false] at hd
    rcases hd with rfl | rfl
    · cases written
    · cases written
      exact Filters.variables_conform
  obtain ⟨keys, -, conform⟩ := argumentValues_conform (Filters.defaultsConform _)
    (Filters.definitions_conform _) (fun _ custom => custom) given ok
  exact ⟨ok, keys, conform⟩

end GraphQL.Input
