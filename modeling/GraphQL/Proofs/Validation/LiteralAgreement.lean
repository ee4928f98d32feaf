import GraphQL.Proofs.Schema.Possible
import GraphQL.Proofs.Visit.LiteralVisits
import GraphQL.Validation.Values

/-!
The rule on literals and the values of literals, literal by literal. Main statement: at every input
type a literal without variables that is accepted throughout has a value, unless an input object
type has a field twice with different types; and one with a value is accepted throughout, if its
object literals name defined fields, each once.
-/
namespace GraphQL.Validation

open Ast TypeSystem Visit

variable {schema : Schema}

/-- What is found at a literal itself. -/
def violationsAt (schema : Schema) (type : Option TypeRef) (literal : Value) : List Violation :=
  match literal with
  | .list _ _ =>
    (itemType schema type).elim [] fun _ => type.elim [] fun type => listViolations schema type literal
  | _ => type.elim [] fun type => literalViolations schema type none literal

def literalCheck : NodeCheck := fun context c n _ =>
  match n, c.inputType? with
  | .value literal, some type => literalViolations context.schema type c.parentInputType? literal
  | _, _ => []

theorem literalCheck_enter (context : ValidationContext) (c : TypeContext) (v : Value)
    (path : List PathSegment) :
    literalCheck context (c.enter context.schema (.value v)) (.value v) path =
      violationsAt context.schema c.inputType? v := by
  cases v with
  | list values loc =>
    have inside : (c.enter context.schema (.value (.list values loc))).inputType? =
        itemType context.schema c.inputType? := rfl
    have outer : (c.enter context.schema (.value (.list values loc))).parentInputType? =
        c.inputType? := rfl
    unfold literalCheck violationsAt
    dsimp only
    rw [inside, outer]
    cases itemType context.schema c.inputType? <;> rfl
  | enum name loc =>
    have here : (c.enter context.schema (.value (.enum name loc))).inputType? = c.inputType? := rfl
    unfold literalCheck violationsAt
    dsimp only
    rw [here]
    cases c.inputType? <;> rfl
  | _ =>
    unfold literalCheck violationsAt
    dsimp only [TypeContext.enter]
    cases c.inputType? <;> rfl

def Quiet (schema : Schema) (type : Option TypeRef) (v : Value) : Prop :=
  violationsAt schema type v = []

/-- An object literal for an input object type names defined fields, each once. -/
def NamesOnce (wanted : Option TypeDefinition) (v : Value) : Prop :=
  match v, wanted with
  | .object fields _, some (.inputObject t) =>
    (fields.map (·.name.value)).Nodup ∧ ∀ f ∈ fields, t.fields.any (·.name = f.name.value) = true
  | _, _ => True

instance (wanted : Option TypeDefinition) (v : Value) : Decidable (NamesOnce wanted v) := by
  unfold NamesOnce
  split <;> infer_instance

def Distinct (schema : Schema) (type : Option TypeRef) (v : Value) : Prop :=
  NamesOnce (type.bind schema.core?) v

def Constant (_ : Option TypeRef) (v : Value) : Prop := v.kind ≠ .variable

/-- What is relied on of input object types: they stand under their own names, and their fields have
input types. -/
structure ProperInputs (schema : Schema) : Prop where
  own : NamesOwn schema.types
  fields : ∀ name t, schema.type? name = some (.inputObject t) →
    ∀ d ∈ t.fields, InputType schema d.type

/-- No input object type has a field twice with different types. -/
def FieldsConsistent (schema : Schema) : Prop :=
  ∀ name t, schema.type? name = some (.inputObject t) →
    ∀ d ∈ t.fields, ∀ e ∈ t.fields, d.name = e.name → d.type = e.type

/-- At a type where the literal stands, having a value and being accepted by the rule come to the
same. -/
def Agrees (schema : Schema) (v : Value) : Prop :=
  ∀ type, InputType schema type → Throughout schema Constant (some type) v →
    (FieldsConsistent schema → Throughout schema (Quiet schema) (some type) v →
      (literalValue schema [] v type).isSome = true) ∧
    (Throughout schema (Distinct schema) (some type) v →
      (literalValue schema [] v type).isSome = true →
      Throughout schema (Quiet schema) (some type) v)

theorem toScalar_of_custom {name : String} (h : isCustomScalar name = true) (vars : Entries Json)
    (v : Value) : v.toScalar vars name = .ok (v.toJson vars) := by
  simp only [isCustomScalar, List.contains_cons, List.contains_nil, Bool.or_false, Bool.not_or,
    Bool.and_eq_true, Bool.not_eq_true', beq_eq_false_iff_ne] at h
  obtain ⟨int, float, string, boolean, id⟩ := h
  unfold Value.toScalar
  rw [if_neg int, if_neg float, if_neg string, if_neg boolean, if_neg id]

theorem scalarTakes_of_toScalar {name : String} (h : isCustomScalar name = false)
    {vars : Entries Json} {v : Value} {j : Json} (ok : v.toScalar vars name = .ok j) :
    scalarTakes name v = true := by
  simp only [isCustomScalar, List.contains_cons, List.contains_nil, Bool.or_false,
    Bool.not_eq_false', Bool.or_eq_true, beq_iff_eq] at h
  rcases h with rfl | rfl | rfl | rfl | rfl <;> cases v <;>
    first | rfl | (simp [Value.toScalar] at ok)

theorem scalarViolations_iff (name : String) (v : Value) :
    scalarViolations name v = [] ↔ (v.toScalar [] name).toOption.isSome = true := by
  unfold scalarViolations
  cases hc : isCustomScalar name with
  | true =>
    rw [toScalar_of_custom hc]
    simp [Except.toOption]
  | false =>
    rcases hv : v.toScalar [] name with e | j
    · cases scalarTakes name v <;> simp [Except.toOption]
    · simp [scalarTakes_of_toScalar hc hv, Except.toOption]

theorem leafViolations_iff {type : TypeRef} {t : TypeDefinition} (own : NamesOwn schema.types)
    (core : schema.core? type = some t) (input : t.isInput = true) {v : Value}
    (object : ∀ fields loc, v ≠ .object fields loc) :
    leafViolations t v = [] ↔ (literalNamed schema [] v [] type.coreName).isSome = true := by
  have name : t.name = type.coreName := Schema.name_of_type? own core
  have named : schema.type? type.coreName = some t := core
  unfold literalNamed
  rw [named]
  cases t with
  | scalar s =>
    change s.name = type.coreName at name
    rw [leafViolations, scalarViolations_iff, name]
  | enum e =>
    rw [leafViolations]
    unfold enumViolations
    cases v with
    | enum value loc => cases h : e.values.any (·.name = value) <;> simp [h]
    | _ => simp
  | inputObject o =>
    cases v with
    | object fields loc => exact absurd rfl (object fields loc)
    | _ => simp [leafViolations]
  | _ => cases input

/-- Nothing is known, or the type is a scalar that takes any literal. -/
def Free (schema : Schema) (type : Option TypeRef) : Prop :=
  ∀ t, type = some t → ∃ name s, t = .named name ∧ schema.type? name = some (.scalar s) ∧
    isCustomScalar s.name = true

theorem listViolations_of_custom {type : TypeRef} {s : ScalarType}
    (core : schema.core? type = some (.scalar s)) (custom : isCustomScalar s.name = true)
    (literal : Value) : listViolations schema type literal = [] := by
  unfold listViolations
  rw [core]
  simp [custom]

theorem itemType_of_input {type : TypeRef} (input : InputType schema type) :
    itemType schema (some type) = some type.itemType := by
  have known := input.itemType.known
  simp [itemType, TypeContext.inputTypeOf?, known]

theorem free_none (schema : Schema) : Free schema none := fun _ h => by cases h

theorem inputFieldType_of_not_inputObject {type : TypeRef} {t : TypeDefinition}
    (core : schema.core? type = some t) (other : ∀ o, t ≠ .inputObject o) (name : String) :
    inputFieldType schema (some type) name = none := by
  have none : t.inputField? name = none := by
    cases t with
    | inputObject o => exact absurd rfl (other o)
    | _ => rfl
  simp [inputFieldType, core, none]

theorem free_closed : Closed schema (Quiet schema) (Free schema) where
  here type v free := by
    unfold Quiet violationsAt
    cases type with
    | none =>
      cases v with
      | list => cases itemType schema none <;> rfl
      | _ => rfl
    | some type =>
      obtain ⟨name, s, rfl, core, custom⟩ := free type rfl
      have core : schema.core? (.named name) = some (.scalar s) := core
      cases v with
      | list values loc =>
        cases itemType schema (some (.named name)) with
        | none => rfl
        | some _ => exact listViolations_of_custom core custom _
      | null loc => rfl
      | «variable» v => rfl
      | object fields loc => simp [literalViolations, core, objectViolations, custom]
      | _ =>
        simp only [Option.elim_some, literalViolations, core, leafViolations,
          scalarViolations_iff, toScalar_of_custom custom]
        rfl
  item type free := by
    cases type with
    | none => exact free_none schema
    | some type =>
      obtain ⟨name, s, rfl, core, custom⟩ := free type rfl
      intro t ht
      obtain ⟨item, hi, ht⟩ := Option.bind_eq_some_iff.mp ht
      cases hi
      unfold TypeContext.inputTypeOf? at ht
      split at ht
      · cases ht
        exact ⟨name, s, rfl, core, custom⟩
      · cases ht
  field type name free := by
    cases type with
    | none => exact free_none schema
    | some type =>
      obtain ⟨typeName, s, rfl, core, custom⟩ := free type rfl
      have core : schema.core? (.named typeName) = some (.scalar s) := core
      rw [inputFieldType_of_not_inputObject core (by simp)]
      exact free_none schema

/-- Where neither a list nor an object literal has a value, the type is no custom scalar. -/
theorem literalNamed_of_custom {name : String} {s : ScalarType} (own : NamesOwn schema.types)
    (core : schema.type? name = some (.scalar s)) (custom : isCustomScalar s.name = true)
    (v : Value) (fields : Entries (Bool × TypedLiteral)) :
    (literalNamed schema [] v fields name).isSome = true := by
  have hname : s.name = name := Schema.name_of_type? own core
  unfold literalNamed
  rw [core]
  dsimp only
  rw [toScalar_of_custom (hname ▸ custom)]
  rfl

theorem literalNamed_scalar_list {name : String} {s : ScalarType} (own : NamesOwn schema.types)
    (core : schema.type? name = some (.scalar s)) (builtin : isCustomScalar s.name = false)
    {v : Value} (takes : scalarTakes name v = false) (fields : Entries (Bool × TypedLiteral)) :
    literalNamed schema [] v fields name = none := by
  have hname : s.name = name := Schema.name_of_type? own core
  unfold literalNamed
  rw [core]
  dsimp only
  rcases hv : v.toScalar [] name with e | j
  · rfl
  · rw [scalarTakes_of_toScalar (hname ▸ builtin) hv] at takes
    cases takes

theorem agrees_list {values : List Value} {loc : Option Location} (own : NamesOwn schema.types)
    (members : ∀ v ∈ values, Agrees schema v) : Agrees schema (.list values loc) := by
  intro type input constant
  have items := itemType_of_input input
  have quiet : Quiet schema (some type) (.list values loc) ↔
      listViolations schema type (.list values loc) = [] := by
    simp [Quiet, violationsAt, items]
  rw [Throughout, itemsThroughout_iff, items] at constant
  rw [Throughout, Throughout, itemsThroughout_iff, itemsThroughout_iff, items, quiet, literalValue]
  cases hn : type.nullable with
  | nonNull inner =>
    have := input.proper.isNonNull_nullable
    rw [hn] at this
    cases this
  | list item =>
    have hitem : type.itemType = item := by simp [TypeRef.itemType, hn]
    have accepted : listViolations schema type (.list values loc) = [] := by
      simp [listViolations, hn, TypeRef.isList]
    rw [literalAt_list hn, literalItems_eq_map, List.all_map, List.all_eq_true]
    have agree : ∀ v ∈ values, _ := fun v hv => members v hv type.itemType input.itemType
      (constant.2 v hv)
    rw [hitem] at agree ⊢
    exact ⟨fun consistent h v hv => (agree v hv).1 consistent (h.2 v hv),
      fun h some => ⟨accepted, fun v hv => (agree v hv).2 (h.2 v hv) (some v hv)⟩⟩
  | named name =>
    have hitem : type.itemType = .named name := by simp [TypeRef.itemType, hn]
    obtain ⟨t, core, isInput⟩ := input.core
    have hname : type.coreName = name := by
      rw [← type.coreName_nullable, hn]
      rfl
    have named : schema.type? name = some t := hname ▸ core
    have only : (∃ s, t = .scalar s ∧ isCustomScalar s.name = true) ∨
        (literalNamed schema [] (.list values loc) [] name = none ∧
          listViolations schema type (.list values loc) ≠ []) := by
      cases t with
      | scalar s =>
        cases custom : isCustomScalar s.name with
        | true => exact .inl ⟨s, rfl, custom⟩
        | false =>
          exact .inr ⟨literalNamed_scalar_list own named custom rfl [],
            by simp [listViolations, hn, TypeRef.isList, core, custom]⟩
      | enum e =>
        exact .inr ⟨by simp [literalNamed, named],
          by simp [listViolations, hn, TypeRef.isList, core]⟩
      | inputObject o =>
        exact .inr ⟨by simp [literalNamed, named],
          by simp [listViolations, hn, TypeRef.isList, core]⟩
      | _ => cases isInput
    rw [literalAt_list_named hn, hitem]
    rcases only with ⟨s, rfl, custom⟩ | ⟨none, refused⟩
    · have free : Free schema (some (.named name)) := by
        intro t ht
        cases ht
        exact ⟨name, s, rfl, named, custom⟩
      exact ⟨fun _ _ => literalNamed_of_custom own named custom _ _,
        fun _ _ => ⟨listViolations_of_custom core custom _,
          fun v _ => free_closed.throughout v _ free⟩⟩
    · rw [none]
      exact ⟨fun _ h => absurd h.1 refused, fun _ h => by cases h⟩

theorem objectViolations_iff (t : InputObjectType) (fields : List ObjectField) (literal : Value) :
    objectViolations (.inputObject t) fields literal = [] ↔
      (∀ d ∈ t.fields, d.isRequired = true → fields.any (·.name.value = d.name) = true) ∧
        ∀ f ∈ fields, t.fields.any (·.name = f.name.value) = true := by
  unfold objectViolations
  simp only [List.append_eq_nil_iff, List.map_eq_nil_iff, List.filter_eq_nil_iff, Bool.and_eq_true,
    Bool.not_eq_true', not_and, Bool.not_eq_false]

theorem inputFieldType_of_find {type : TypeRef} {t : InputObjectType}
    (core : schema.core? type = some (.inputObject t)) {name : String} {d : InputValue}
    (find : t.fields.find? (·.name = name) = some d) (input : InputType schema d.type) :
    inputFieldType schema (some type) name = some d.type := by
  simp [inputFieldType, core, TypeDefinition.inputField?, TypeDefinition.inputFields, find,
    TypeContext.inputTypeOf?, input.known]

theorem exists_definition {definitions : List InputValue} {name : String}
    (h : definitions.any (·.name = name) = true) :
    ∃ d ∈ definitions, definitions.find? (·.name = name) = some d ∧ d.name = name := by
  obtain ⟨d, hd⟩ : ∃ d, definitions.find? (·.name = name) = some d := by
    rwa [← Option.isSome_iff_exists, List.find?_isSome, ← List.any_eq_true]
  exact ⟨d, List.mem_of_find?_eq_some hd, hd, by simpa using List.find?_some hd⟩

theorem find?_objectField {fields : List ObjectField} (once : (fields.map (·.name.value)).Nodup)
    {f : ObjectField} (hf : f ∈ fields) :
    fields.find? (·.name.value = f.name.value) = some f := by
  obtain ⟨g, hg⟩ : ∃ g, fields.find? (·.name.value = f.name.value) = some g := by
    rw [← Option.isSome_iff_exists, List.find?_isSome]
    exact ⟨f, hf, by simp⟩
  have same : g.name.value = f.name.value := by simpa using List.find?_some hg
  rw [hg, List.inj_on_of_nodup_map once (List.mem_of_find?_eq_some hg) hf same]

/-- An object literal has a value at an input object type if each field of the type can be given
one, from the first literal of its name. -/
theorem literalNamed_inputObject {name : String} {t : InputObjectType}
    (core : schema.type? name = some (.inputObject t)) (fields : List ObjectField)
    (loc : Option Location) (constant : ∀ f ∈ fields, f.value.kind ≠ .variable) :
    (literalNamed schema [] (.object fields loc) (literalEntries schema [] fields) name).isSome =
        true ↔
      ∀ d ∈ t.fields, ((∀ f ∈ fields, f.name.value ≠ d.name) → d.isRequired = false) ∧
        ∀ f, fields.find? (·.name.value = d.name) = some f →
          (literalValue schema [] f.value d.type).isSome = true := by
  unfold literalNamed
  rw [core]
  dsimp only
  rw [Option.isSome_map, literalFields_isSome]
  refine forall₂_congr fun d hd => ?_
  rw [Supplied, get?_literalEntries]
  cases hf : fields.find? (·.name.value = d.name) with
  | none =>
    have absent : ∀ f ∈ fields, f.name.value ≠ d.name := by simpa using hf
    simp only [Option.map_none, reduceCtorEq, false_implies, implies_true, and_true]
    exact ⟨fun h _ => h, fun h => h absent⟩
  | some f =>
    have hmem := List.mem_of_find?_eq_some hf
    have same : f.name.value = d.name := by simpa using List.find?_some hf
    have provided : isProvided [] f.value = true := by
      have := constant f hmem
      cases hv : f.value with
      | «variable» v => exact absurd (by rw [hv]; rfl) this
      | _ => rfl
    simp only [Option.map_some, provided, Option.some.injEq, forall_eq']
    exact ⟨fun h => ⟨fun absent => absurd same (absent f hmem), h⟩, fun h => h.2⟩

theorem agrees_object {fields : List ObjectField} {loc : Option Location}
    (inputs : ProperInputs schema) (members : ∀ f ∈ fields, Agrees schema f.value) :
    Agrees schema (.object fields loc) := by
  intro type input constant
  obtain ⟨t, core, isInput⟩ := input.core
  have quiet : Quiet schema (some type) (.object fields loc) ↔
      objectViolations t fields (.object fields loc) = [] := by
    simp [Quiet, violationsAt, literalViolations, core]
  have some : (literalValue schema [] (.object fields loc) type).isSome =
      (literalNamed schema [] (.object fields loc) (literalEntries schema [] fields)
        type.coreName).isSome := by
    rw [literalValue]
    exact literalAt_single (by simp) (by simp) type
  rw [Throughout, fieldsThroughout_iff] at constant
  rw [Throughout, Throughout, fieldsThroughout_iff, fieldsThroughout_iff, quiet, some]
  have named : schema.type? type.coreName = Option.some t := core
  cases t with
  | scalar s =>
    cases custom : isCustomScalar s.name with
    | true =>
      refine ⟨fun _ _ => literalNamed_of_custom inputs.own named custom _ _, fun _ _ => ⟨?_, ?_⟩⟩
      · simp [objectViolations, custom]
      · intro f hf
        rw [inputFieldType_of_not_inputObject core (by simp)]
        exact free_closed.throughout _ _ (free_none schema)
    | false =>
      rw [literalNamed_scalar_list inputs.own named custom rfl]
      exact ⟨fun _ h => absurd h.1 (by simp [objectViolations, custom]), fun _ h => by cases h⟩
  | enum e =>
    have none : literalNamed schema [] (.object fields loc) (literalEntries schema [] fields)
        type.coreName = none := by simp [literalNamed, named]
    rw [none]
    exact ⟨fun _ h => absurd h.1 (by simp [objectViolations]), fun _ h => by cases h⟩
  | inputObject t =>
    have noVariable : ∀ f ∈ fields, f.value.kind ≠ .variable := fun f hf => (constant.2 f hf).here
    have wanted : ∀ f ∈ fields, ∀ d ∈ t.fields,
        t.fields.find? (·.name = f.name.value) = Option.some d →
        inputFieldType schema (Option.some type) f.name.value = Option.some d.type :=
      fun f _ d hd find => inputFieldType_of_find core find (inputs.fields _ _ named d hd)
    have agree : ∀ f ∈ fields, ∀ d ∈ t.fields,
        t.fields.find? (·.name = f.name.value) = Option.some d → _ :=
      fun f hf d hd find => members f hf d.type (inputs.fields _ _ named d hd)
        (by rw [← wanted f hf d hd find]; exact constant.2 f hf)
    rw [literalNamed_inputObject named fields loc noVariable, objectViolations_iff]
    constructor
    · rintro consistent ⟨⟨required, defined⟩, below⟩ d hd
      constructor
      · intro absent
        rw [← Bool.not_eq_true]
        intro req
        obtain ⟨f, hf, same⟩ := List.any_eq_true.mp (required d hd req)
        exact absent f hf (by simpa using same)
      · intro f found
        have hf := List.mem_of_find?_eq_some found
        have same : f.name.value = d.name := by simpa using List.find?_some found
        obtain ⟨e, he, find, first⟩ := exists_definition (defined f hf)
        rw [consistent _ t named d hd e he (by rw [first, same])]
        refine (agree f hf e he find).1 consistent ?_
        rw [← wanted f hf e he find]
        exact below f hf
    · rintro ⟨distinct, below⟩ supplied
      rw [Distinct, Option.bind_some, core] at distinct
      obtain ⟨once, defined⟩ := distinct
      refine ⟨⟨fun d hd req => ?_, defined⟩, fun f hf => ?_⟩
      · by_contra absent
        have : d.isRequired = false := (supplied d hd).1 fun f hf same =>
          absent (List.any_eq_true.mpr ⟨f, hf, by simpa using same⟩)
        rw [this] at req
        cases req
      · obtain ⟨d, hd, find, first⟩ := exists_definition (defined f hf)
        have found : fields.find? (·.name.value = d.name) = Option.some f :=
          first ▸ find?_objectField once hf
        have below := below f hf
        rw [wanted f hf d hd find] at below ⊢
        exact (agree f hf d hd find).2 below ((supplied d hd).2 f found)
  | _ => cases isInput

theorem agrees_null (schema : Schema) (loc : Option Location) : Agrees schema (.null loc) := by
  intro type input constant
  have quiet : Quiet schema (some type) (.null loc) ↔ type.isNonNull = false := by
    cases h : type.isNonNull <;> simp [Quiet, violationsAt, literalViolations, h]
  have value : (literalValue schema [] (.null loc) type).isSome = !type.isNonNull :=
    literalAt_null loc type
  rw [Throughout, Throughout, quiet, value, Bool.not_eq_true']
  exact ⟨fun _ h => h, fun _ h => h⟩

/-- A literal that has no members and is neither null nor a variable. -/
def IsLeaf : Value → Prop
  | .int _ _ | .float _ _ | .string _ | .boolean _ _ | .enum _ _ => True
  | _ => False

theorem agrees_leaf {v : Value} (own : NamesOwn schema.types) (leaf : IsLeaf v) :
    Agrees schema v := by
  intro type input constant
  obtain ⟨t, core, isInput⟩ := input.core
  have throughout : ∀ P, Throughout schema P (some type) v ↔ P (some type) v := by
    cases v <;> first | exact fun _ => Iff.rfl | exact leaf.elim
  have violations : violationsAt schema (some type) v = leafViolations t v := by
    have unfolded : violationsAt schema (some type) v =
        (schema.core? type).elim [] fun t => leafViolations t v := by
      cases v <;> first | rfl | exact leaf.elim
    rw [unfolded, core]
    rfl
  have value : (literalValue schema [] v type).isSome =
      (literalNamed schema [] v [] type.coreName).isSome := by
    have unfolded : literalValue schema [] v type = literalAt schema [] v [] [] type := by
      cases v <;> first | rfl | exact leaf.elim
    rw [unfolded]
    refine literalAt_single ?_ ?_ type
    · rintro loc rfl
      exact leaf
    · rintro values loc rfl
      exact leaf
  have object : ∀ fields loc, v ≠ .object fields loc := by
    rintro fields loc rfl
    exact leaf
  rw [throughout, throughout, Quiet, violations, leafViolations_iff own core isInput object, value]
  exact ⟨fun _ h => h, fun _ h => h⟩

mutual

theorem agrees (inputs : ProperInputs schema) : ∀ v : Value, Agrees schema v
  | .list values _ => agrees_list inputs.own (agrees_items inputs values)
  | .object fields _ => agrees_object inputs (agrees_fields inputs fields)
  | .variable _ => fun _ _ constant => absurd rfl constant.here
  | .null loc => agrees_null schema loc
  | .int _ _ => agrees_leaf inputs.own trivial
  | .float _ _ => agrees_leaf inputs.own trivial
  | .string _ => agrees_leaf inputs.own trivial
  | .boolean _ _ => agrees_leaf inputs.own trivial
  | .enum _ _ => agrees_leaf inputs.own trivial

theorem agrees_items (inputs : ProperInputs schema) : ∀ values : List Value,
    ∀ v ∈ values, Agrees schema v
  | [] => by simp
  | v :: rest => List.forall_mem_cons.mpr ⟨agrees inputs v, agrees_items inputs rest⟩

theorem agrees_fields (inputs : ProperInputs schema) : ∀ fields : List ObjectField,
    ∀ f ∈ fields, Agrees schema f.value
  | [] => by simp
  | ⟨_, value, _⟩ :: rest =>
    List.forall_mem_cons.mpr ⟨agrees inputs value, agrees_fields inputs rest⟩

end

end GraphQL.Validation
