import GraphQL.Proofs.Input.Conforming
import GraphQL.Proofs.Input.ConstantReading

/-!
A literal written in place, and the same one given as the value of a variable. Main statement: one
that has a value in place is accepted in a variable, and comes to the same but for integers at Float.
-/
namespace GraphQL.Input

open Ast TypeSystem

/-- `AsVariable schema type literal v w`: where the literal has the value `v` in place, it has `w` in
a variable. An integer at Float becomes a float, and all else is the same. -/
inductive AsVariable (schema : Schema) : TypeRef → Value → Json → Json → Prop where
  | null {type : TypeRef} {loc : Option Location} : AsVariable schema type (.null loc) .null .null
  | nonNull {inner : TypeRef} {literal : Value} {v w : Json} :
      AsVariable schema inner literal v w → AsVariable schema (.nonNull inner) literal v w
  | list {item : TypeRef} {values : List Value} {loc : Option Location} {vs ws : List Json} :
      values.length = vs.length → values.length = ws.length →
      (∀ p ∈ values.zip (vs.zip ws), AsVariable schema item p.1 p.2.1 p.2.2) →
      AsVariable schema (.list item) (.list values loc) (.array vs) (.array ws)
  | single {item : TypeRef} {literal : Value} {v w : Json} :
      literal.kind ≠ .listValue → AsVariable schema item literal v w →
      AsVariable schema (.list item) literal (.array [v]) (.array [w])
  | float {t : ScalarType} {text : String} {loc : Option Location} {n : JsonInteger}
      {x : Finite64} :
      schema.type? "Float" = some (.scalar t) → Binary64.ofInt n.val = .finite x →
      AsVariable schema (.named "Float") (.int text loc) (.integer n) (.float x)
  | leaf {name : String} {t : TypeDefinition} {literal : Value} {v : Json} :
      schema.type? name = some t → t.isLeaf = true →
      (name = "Float" → literal.kind ≠ .intValue) → AsVariable schema (.named name) literal v v
  /-- Under each key there is what its literal comes to, or the same default. -/
  | object {name : String} {t : InputObjectType} {fields : List ObjectField}
      {loc : Option Location} {vs ws : Entries Json} (field : String → InputValue) :
      schema.type? name = some (.inputObject t) → vs.keys = ws.keys →
      (∀ key ∈ vs.keys, field key ∈ t.fields ∧ (field key).name = key) →
      (∀ key v w, vs.get? key = some v → ws.get? key = some w → writtenField fields key = none →
        v = w) →
      (∀ key v w literal, vs.get? key = some v → ws.get? key = some w →
        writtenField fields key = some literal → AsVariable schema (field key).type literal v w) →
      AsVariable schema (.named name) (.object fields loc) (.object vs) (.object ws)

/-- A float is finite, and the fields of an object for an input object are declared. -/
def Deliverable (schema : Schema) (wanted : TypeRef) : Value → Prop
  | .float text _ => ∃ x, Binary64.ofText? text = some (.finite x)
  | .object fields _ => ∀ name t, wanted = .named name → schema.type? name = some (.inputObject t) →
      ∀ f ∈ fields, ∃ d ∈ t.fields, d.name = f.name.value
  | _ => True

section

variable {schema : Schema} {literal : Literal} {k : Nat}

theorem scalar_asVariable {name : String} {t : ScalarType}
    (ht : schema.type? name = some (.scalar t)) (fits : literal.Fits true k) {v : Json}
    (h : (Value.ofLiteral literal).toScalar [] name = .ok v) :
    ∃ w, coerceScalar name literal.toJson = .ok w ∧
      AsVariable schema (.named name) (.ofLiteral literal) v w := by
  cases readsScalar_of_toScalar fits h with
  | @int n range =>
    rw [Literal.toJson_int fits.int]
    exact ⟨_, coerceScalar_int.mpr ⟨n.val, rfl, range, (Json.ofInt_val n).symm⟩,
      .leaf ht rfl (by simp)⟩
  | @intAsFloat n =>
    obtain ⟨x, hx⟩ := Binary64.exists_finite n
    rw [Literal.toJson_int fits.int]
    exact ⟨_, coerceScalar_float.mpr ⟨x, congrArg some hx, rfl⟩, .float ht hx⟩
  | @float x =>
    refine ⟨_, coerceScalar_float.mpr ⟨x, rfl, rfl⟩, .leaf ht rfl ?_⟩
    simp [Value.ofLiteral, Value.kind]
  | string => exact ⟨_, coerceScalar_string.mpr ⟨_, rfl, rfl⟩, .leaf ht rfl (by simp)⟩
  | boolean => exact ⟨_, coerceScalar_boolean.mpr ⟨_, rfl, rfl⟩, .leaf ht rfl (by simp)⟩
  | id => exact ⟨_, coerceScalar_id.mpr (.inl ⟨_, rfl, rfl⟩), .leaf ht rfl (by simp)⟩
  | @intAsId n =>
    rw [Literal.toJson_int fits.int]
    exact ⟨_, coerceScalar_id.mpr (.inr ⟨n, rfl, rfl⟩), .leaf ht rfl (by simp)⟩
  | custom custom =>
    refine ⟨_, coerceScalar_custom custom _, .leaf ht rfl ?_⟩
    rintro rfl
    cases custom

theorem Deliverable.toJson_ne_null {wanted : TypeRef}
    (h : Deliverable schema wanted (.ofLiteral literal)) (fits : literal.Fits true k)
    (null : (Value.ofLiteral literal).kind ≠ .nullValue) : literal.toJson ≠ .null := by
  cases literal with
  | «variable» name => exact absurd rfl fits.kind_ne_variable
  | int n =>
    obtain ⟨m, rfl⟩ := JsonInteger.exists_of_inInt64 fits.int
    rw [Literal.toJson_int fits.int]
    simp
  | float x =>
    obtain ⟨y, read⟩ := h
    cases (Binary64.ofText?_floatText x).symm.trans read
    simp [Literal.toJson, Json.ofBinary64]
  | null => exact absurd rfl null
  | _ => simp [Literal.toJson]

/-- What comes of a literal as the value of a variable. -/
def Delivers (schema : Schema) (type : TypeRef) (literal : Literal) (v : Json) : Prop :=
  ∃ w, coerced? schema type literal.toJson = some w ∧
    AsVariable schema type (.ofLiteral literal) v w

theorem list_delivers {item : TypeRef} {items : List Literal} {vs : List Json}
    (h : List.Forall₂ (Delivers schema item) items vs) :
    Delivers schema (.list item) (.list items) (.array vs) := by
  have gathered : ∃ ws, items.mapM (fun literal => coerced? schema item literal.toJson) = some ws ∧
      items.length = ws.length ∧
      ∀ p ∈ items.zip (vs.zip ws), AsVariable schema item (.ofLiteral p.1) p.2.1 p.2.2 := by
    induction h with
    | nil => exact ⟨[], rfl, rfl, by simp⟩
    | @cons literal v items vs first _ ih =>
      obtain ⟨w, coerced, same⟩ := first
      obtain ⟨ws, rest, length, all⟩ := ih
      refine ⟨w :: ws, ?_, congrArg (· + 1) length, ?_⟩
      · rw [List.mapM_cons, coerced, rest]
        rfl
      · rw [List.zip_cons_cons, List.zip_cons_cons, List.forall_mem_cons]
        exact ⟨same, all⟩
  obtain ⟨ws, coerced, length, all⟩ := gathered
  refine ⟨.array ws, ?_, ?_⟩
  · rw [Literal.toJson, coerced?_list, Literal.itemsToJson_eq, List.mapM_map]
    exact congrArg (Option.map Json.array) coerced
  · rw [Value.ofLiteral, valuesOfLiterals_eq]
    refine .list ?_ ?_ ?_
    · rw [List.length_map, h.length_eq]
    · rw [List.length_map, length]
    · intro p hp
      rw [List.zip_map_left] at hp
      obtain ⟨q, hq, rfl⟩ := List.mem_map.mp hp
      exact all q hq

def AsWritten (schema : Schema) (type : TypeRef) (written : Option Value) (v w : Json) : Prop :=
  match written with
  | some literal => AsVariable schema type literal v w
  | none => v = w

/-- What is under a key in place and in a variable. -/
def FieldDelivers (schema : Schema) (ds : List InputValue) (fields : List ObjectField)
    (key : String) (v w : Json) : Prop :=
  ∃ d ∈ ds, d.name = key ∧ AsWritten schema d.type (writtenField fields key) v w

theorem object_delivers {name : String} {t : InputObjectType}
    (ht : schema.type? name = some (.inputObject t)) {fields : Entries Literal}
    (fits : (Literal.object fields).Fits true k)
    (declared : ∀ f ∈ fieldsOfLiterals fields, ∃ d ∈ t.fields, d.name = f.name.value)
    {out : Entries Json} (filled : fill (objectGives schema [] fields) [] t.fields = some out)
    (members : ∀ d ∈ t.fields, ∀ literal, fields.get? d.name = some literal → ∀ v,
      literalValue schema [] (.ofLiteral literal) d.type = some v →
        Delivers schema d.type literal v) :
    Delivers schema (.named name) (.object fields) (.object out) := by
  have gives : ∀ d ∈ t.fields, ∀ given, objectGives schema [] fields d = some given →
      ∃ given', inputGives (entryInputs schema (Literal.fieldsToJson fields)) d = some given' ∧
        Option.Rel (FieldDelivers schema t.fields (fieldsOfLiterals fields) d.name) given
          given' := by
    intro d hd given h
    rw [inputGives_entryInputs, Literal.get?_fieldsToJson]
    have delivers {v w : Json}
        (same : AsWritten schema d.type ((fields.get? d.name).map .ofLiteral) v w) :
        FieldDelivers schema t.fields (fieldsOfLiterals fields) d.name v w := by
      rw [← writtenField_fieldsOfLiterals] at same
      exact ⟨d, hd, rfl, same⟩
    cases found : fields.get? d.name with
    | none =>
      rw [objectGives_absent found] at h
      rw [found] at delivers
      refine ⟨given, h, ?_⟩
      cases given with
      | none => exact .none
      | some v => exact .some (delivers rfl)
    | some literal =>
      rw [objectGives_written fits found] at h
      rw [found] at delivers
      obtain ⟨v, read, rfl⟩ := Option.map_eq_some_iff.mp h
      obtain ⟨w, coerced, same⟩ := members d hd literal found v read
      exact ⟨some w, congrArg (Option.map some) coerced, .some (delivers same)⟩
  obtain ⟨out', filled', related⟩ := fill_related gives filled
  refine ⟨.object out', ?_, ?_⟩
  · rw [Literal.toJson, coerced?_inputObject_eq_some ht]
    refine ⟨fun key hk => ?_, out', filled', rfl⟩
    rw [Literal.keys_fieldsToJson] at hk
    obtain ⟨field, hf, rfl⟩ := List.mem_map.mp hk
    rw [fieldsOfLiterals_eq, List.forall_mem_map] at declared
    exact declared field hf
  · have source : ∀ key ∈ out.keys, ∃ d, (d ∈ t.fields ∧ d.name = key) ∧ ∀ v w,
        out.get? key = some v → out'.get? key = some w →
        AsWritten schema d.type (writtenField (fieldsOfLiterals fields) key) v w := by
      intro key hk
      obtain ⟨v, hv⟩ := Entries.exists_get?_of_mem hk
      obtain ⟨w, hw, d, hd, named, same⟩ := related.get? hv
      refine ⟨d, ⟨hd, named⟩, fun v' w' hv' hw' => ?_⟩
      cases hv.symm.trans hv'
      cases hw.symm.trans hw'
      exact same
    choose! field declared same using source
    refine .object field ht related.keys_eq declared ?_ ?_
    · intro key v w hv hw absent
      have := same key (Entries.mem_keys_of_get? hv) v w hv hw
      rw [absent] at this
      exact this
    · intro key v w literal hv hw written
      have := same key (Entries.mem_keys_of_get? hv) v w hv hw
      rw [written] at this
      exact this

/-- A literal that has a value is accepted as the value of a variable. -/
theorem Denotes.delivers {type : TypeRef} {v : Json} (h : Denotes schema type literal v)
    (deliverable : ∀ wanted inner, At schema type (.ofLiteral literal) wanted inner →
      Deliverable schema wanted inner) :
    Delivers schema type literal v := by
  induction h with
  | null nullable =>
    refine ⟨.null, ?_, .null⟩
    rw [Literal.toJson, coerced?_null, nullable]
    rfl
  | nonNull fits null _ ih =>
    have here := deliverable _ _ .here
    obtain ⟨w, coerced, same⟩ := ih fun wanted inner place =>
      deliverable wanted inner (.nonNull null fits.kind_ne_variable place)
    refine ⟨w, ?_, .nonNull same⟩
    rw [coerced?_nonNull (here.toJson_ne_null fits null)]
    exact coerced
  | list length _ ih =>
    apply list_delivers
    rw [List.forall₂_iff_zip]
    refine ⟨length, fun {literal v} hp => ih _ hp ?_⟩
    intro wanted inner place
    apply deliverable wanted inner
    rw [Value.ofLiteral, valuesOfLiterals_eq]
    exact .item (List.mem_map_of_mem (List.of_mem_zip hp).1) place
  | single fits null list _ ih =>
    have here := deliverable _ _ .here
    obtain ⟨w, coerced, same⟩ := ih fun wanted inner place =>
      deliverable wanted inner (.single null fits.kind_ne_variable list place)
    refine ⟨.array [w], ?_, .single list same⟩
    rw [coerced?_single (here.toJson_ne_null fits null) (fits.items?_toJson list), coerced]
    rfl
  | scalar ht fits null ok =>
    have here := deliverable _ _ .here
    obtain ⟨w, coerced, same⟩ := scalar_asVariable ht fits ok
    refine ⟨w, ?_, same⟩
    rw [coerced?_scalar ht (here.toJson_ne_null fits null), coerced]
    rfl
  | enum ht hv =>
    exact ⟨_, (coerced?_enum_eq_some ht (by simp [Literal.toJson])).mpr ⟨⟨_, hv, rfl⟩, rfl⟩,
      .leaf ht rfl (by simp [Value.ofLiteral, Value.kind])⟩
  | @object name t fields k out ht fits filled _ ih =>
    have declared := deliverable _ _ .here name t rfl ht
    apply object_delivers ht fits declared filled
    intro d hd literal found v read
    apply ih d hd literal found v read
    intro wanted inner place
    exact deliverable wanted inner (.field ht hd (writtenField_of_get? found) place)

/-- A literal that has a value in place is accepted as the value of a variable, and comes to the
same there but for integers at Float, if none of its floats is infinite and it names no field that is
not declared. -/
theorem literal_asVariable {type : TypeRef} {v : Json} (fits : literal.Fits true k)
    (deliverable : ∀ wanted inner, At schema type (.ofLiteral literal) wanted inner →
      Deliverable schema wanted inner)
    (h : literalValue schema [] (.ofLiteral literal) type = some v) :
    ∃ w, coerceInput schema ((Value.ofLiteral literal).toJson []) type = .ok w ∧
      AsVariable schema type (.ofLiteral literal) v w := by
  obtain ⟨w, coerced, same⟩ := (denotes_of_literalValue fits h).delivers deliverable
  refine ⟨w, ?_, same⟩
  rw [fits.toJson_ofLiteral (by simp)]
  exact toOption_eq_some.mp coerced

end

namespace Filters

/-- `{ ratio: 2, tags: "a" }` -/
def loose : Literal := .object [("ratio", .int 2), ("tags", .string "a")]

def looseValue : Json :=
  .object [("limit", .ofInt 10), ("tags", .array [.string "a"]),
    ("ratio", .ofInt 2)]

theorem loose_fits : loose.Fits true 1 := by
  constructor
  · have inOrder : "ratio" < "tags" := by decide
    exact List.pairwise_pair.mpr inOrder
  · have ratio : isName "ratio" = true ∧ (Literal.int 2).Fits true 0 :=
      ⟨by decide, show InInt64 2 by decide⟩
    have tags : isName "tags" = true ∧ (Literal.string "a").Fits true 0 := ⟨by decide, trivial⟩
    exact List.forall_mem_cons.mpr ⟨ratio, List.forall_mem_singleton.mpr tags⟩

theorem loose_deliverable (wanted : TypeRef) (inner : Value)
    (place : At schema (.named "Filter") (.ofLiteral loose) wanted inner) :
    Deliverable schema wanted inner := by
  cases place with
  | here =>
    intro name t same ht
    cases same
    rw [eq_of_schemaOf ht]
    decide
  | @field _ t _ _ d _ member _ ht hd written place =>
    rw [eq_of_schemaOf ht] at hd
    simp only [filter, inputValue, List.mem_cons, List.not_mem_nil, or_false] at hd
    rcases hd with rfl | rfl | rfl | rfl | rfl
    case inr.inl | inr.inr.inr.inl =>
      cases written
      have same := place.of_leaf (by simp [Value.ofLiteral, Value.kind])
        (by simp [Value.ofLiteral, Value.kind])
      rw [same]
      trivial
    all_goals cases written

end Filters

theorem filter_asVariable :
    Filters.loose.Fits true 1 ∧
      (∀ wanted inner, At Filters.schema (.named "Filter") (.ofLiteral Filters.loose) wanted inner →
        Deliverable Filters.schema wanted inner) ∧
      literalValue Filters.schema [] (.ofLiteral Filters.loose) (.named "Filter") =
        some Filters.looseValue ∧
      ∃ w,
        coerceInput Filters.schema ((Value.ofLiteral Filters.loose).toJson []) (.named "Filter") =
          .ok w ∧
        AsVariable Filters.schema (.named "Filter") (.ofLiteral Filters.loose) Filters.looseValue
          w := by
  have value : literalValue Filters.schema [] (.ofLiteral Filters.loose) (.named "Filter") =
    some Filters.looseValue := rfl
  exact ⟨Filters.loose_fits, Filters.loose_deliverable, value,
    literal_asVariable Filters.loose_fits Filters.loose_deliverable value⟩

end GraphQL.Input
