import GraphQL.Proofs.Input.ArgumentCoercion
import GraphQL.Proofs.Input.ConstantReading

/-!
Defaults of arguments and of fields of input objects. What is left out takes the value that its
default has without type information, and what is written takes the value at its type. Main statement:
the two are the same exactly where the default is spelled out as its type has it.
-/
namespace GraphQL

open Ast TypeSystem

/-- The same value: the order of the keys of objects does not matter. -/
inductive Json.Same : Json → Json → Prop where
  | leaf {v : Json} : v.items? = none → v.entries? = none → Same v v
  | array {vs ws : List Json} :
      vs.length = ws.length → (∀ p ∈ vs.zip ws, Same p.1 p.2) → Same (.array vs) (.array ws)
  | object {vs ws : Entries Json} :
      (∀ key, key ∈ vs.keys ↔ key ∈ ws.keys) →
      (∀ key v w, vs.get? key = some v → ws.get? key = some w → Same v w) →
      Same (.object vs) (.object ws)

namespace Json.Same

theorem refl (value : Json) : value.Same value := by
  induction value using Json.induction with
  | step value items entries =>
  cases value with
  | array values =>
    refine .array rfl fun p hp => ?_
    rw [List.zip_eq_zipWith, List.zipWith_self] at hp
    obtain ⟨v, hv, rfl⟩ := List.mem_map.mp hp
    exact items v hv
  | object fields =>
    refine .object (fun key => Iff.rfl) fun key v w hv hw => ?_
    cases hv.symm.trans hw
    exact entries (key, v) (Entries.mem_of_get? hv)
  | _ => exact .leaf rfl rfl

theorem array_iff {vs ws : List Json} :
    (Json.array vs).Same (.array ws) ↔ List.Forall₂ Json.Same vs ws := by
  rw [List.forall₂_iff_zip]
  constructor
  · intro h
    cases h with
    | leaf list => cases list
    | array length members => exact ⟨length, fun {v w} hp => members (v, w) hp⟩
  · rintro ⟨length, members⟩
    exact .array length fun p hp => members hp

theorem object_iff {vs ws : Entries Json} :
    (Json.object vs).Same (.object ws) ↔
      (∀ key, key ∈ vs.keys ↔ key ∈ ws.keys) ∧
        ∀ key v w, vs.get? key = some v → ws.get? key = some w → v.Same w := by
  constructor
  · intro h
    cases h with
    | leaf _ object => cases object
    | object keys members => exact ⟨keys, members⟩
  · rintro ⟨keys, members⟩
    exact .object keys members

theorem items?_eq {v w : Json} (h : v.Same w) (list : v.items? = none) : w.items? = none := by
  cases h with
  | leaf => exact list
  | array => cases list
  | object => rfl

end Json.Same

namespace Input

/-- The literal is written as its named type has it: not a number for an ID, and for an input object
an object of declared fields with all that have defaults. -/
def NamedSpelledOut (name : String) : Option TypeDefinition → Value → Prop
  | some (.scalar _), .int _ _ => name ≠ "ID"
  | some (.inputObject t), .object fields _ =>
    (∀ f ∈ fields, ∃ d ∈ t.fields, d.name = f.name.value) ∧
      ∀ d ∈ t.fields, d.default.isSome = true → ∃ f ∈ fields, f.name.value = d.name
  | _, _ => True

/-- The literal is written as its type has it: a list for a list, unless it is null. -/
def SpelledOut (schema : Schema) (wanted : TypeRef) (literal : Value) : Prop :=
  match wanted with
  | .list _ => literal.kind = .listValue ∨ literal.kind = .nullValue
  | .nonNull _ => True
  | .named name => NamedSpelledOut name (schema.type? name) literal

/-- What is read inside the literal is spelled out, as well as the literal itself. -/
def SpelledOutThroughout (schema : Schema) (type : TypeRef) (literal : Value) : Prop :=
  ∀ wanted inner, At schema type literal wanted inner → SpelledOut schema wanted inner

section

variable {schema : Schema} {literal : Value}

theorem spelledOutThroughout_null (type : TypeRef) (loc : Option Location) :
    SpelledOutThroughout schema type (.null loc) := by
  intro wanted inner place
  rw [place.of_leaf (by simp [Value.kind]) (by simp [Value.kind])]
  cases wanted with
  | named name =>
    change NamedSpelledOut name (schema.type? name) (.null loc)
    cases schema.type? name with
    | none => trivial
    | some t => cases t <;> trivial
  | list item => exact .inr rfl
  | nonNull inner => trivial

theorem spelledOutThroughout_nonNull (null : literal.kind ≠ .nullValue)
    (isVariable : literal.kind ≠ .variable) (inner : TypeRef) :
    SpelledOutThroughout schema (.nonNull inner) literal ↔
      SpelledOutThroughout schema inner literal := by
  constructor
  · intro h wanted deeper place
    exact h wanted deeper (.nonNull null isVariable place)
  · intro h wanted deeper place
    cases place with
    | here => trivial
    | nonNull _ _ place => exact h wanted deeper place

theorem spelledOutThroughout_list (values : List Value) (loc : Option Location) (item : TypeRef) :
    SpelledOutThroughout schema (.list item) (.list values loc) ↔
      ∀ v ∈ values, SpelledOutThroughout schema item v := by
  constructor
  · intro h v hv wanted deeper place
    exact h wanted deeper (.item hv place)
  · intro h wanted deeper place
    cases place with
    | here => exact .inl rfl
    | single _ _ list => exact absurd rfl list
    | item hv place => exact h _ hv wanted deeper place

theorem spelledOutThroughout_named {name : String}
    (object : ∀ t, schema.type? name ≠ some (.inputObject t)) :
    SpelledOutThroughout schema (.named name) literal ↔
      SpelledOut schema (.named name) literal := by
  constructor
  · intro h
    exact h _ _ .here
  · intro h wanted deeper place
    cases place with
    | here => exact h
    | field ht => exact absurd ht (object _)

theorem spelledOutThroughout_object {name : String} {t : InputObjectType}
    (ht : schema.type? name = some (.inputObject t)) (fields : List ObjectField)
    (loc : Option Location) :
    SpelledOutThroughout schema (.named name) (.object fields loc) ↔
      ((∀ f ∈ fields, ∃ d ∈ t.fields, d.name = f.name.value) ∧
        ∀ d ∈ t.fields, d.default.isSome = true → ∃ f ∈ fields, f.name.value = d.name) ∧
      ∀ d ∈ t.fields, ∀ member, writtenField fields d.name = some member →
        SpelledOutThroughout schema d.type member := by
  have here : SpelledOut schema (.named name) (.object fields loc) ↔
      (∀ f ∈ fields, ∃ d ∈ t.fields, d.name = f.name.value) ∧
        ∀ d ∈ t.fields, d.default.isSome = true → ∃ f ∈ fields, f.name.value = d.name := by
    simp only [SpelledOut, ht, NamedSpelledOut]
  rw [← here]
  constructor
  · intro h
    refine ⟨h _ _ .here, fun d hd member written wanted deeper place => ?_⟩
    exact h wanted deeper (.field ht hd written place)
  · rintro ⟨whole, members⟩ wanted deeper place
    cases place with
    | here => exact whole
    | @field _ t' _ _ d _ member _ ht' hd written place =>
      cases ht.symm.trans ht'
      exact members d hd member written wanted deeper place

end

section

variable {schema : Schema} {literal : Literal} {k : Nat}

theorem scalar_same_iff {name : String} {t : ScalarType}
    (ht : schema.type? name = some (.scalar t)) (fits : literal.Fits true k) {v : Json}
    (h : (Value.ofLiteral literal).toScalar [] name = .ok v) :
    literal.toJson.Same v ↔ SpelledOut schema (.named name) (.ofLiteral literal) := by
  simp only [SpelledOut, ht]
  have same (spelled : NamedSpelledOut name (some (.scalar t)) (.ofLiteral literal))
      (equal : literal.toJson = v) :
      literal.toJson.Same v ↔ NamedSpelledOut name (some (.scalar t)) (.ofLiteral literal) :=
    iff_of_true (equal ▸ .refl _) spelled
  have spelled (other : name ≠ "ID") :
      NamedSpelledOut name (some (.scalar t)) (.ofLiteral literal) := by
    cases literal <;> first | exact other | trivial
  cases readsScalar_of_toScalar fits h with
  | int => exact same (spelled (by decide)) (Literal.toJson_int fits.int)
  | intAsFloat => exact same (spelled (by decide)) (Literal.toJson_int fits.int)
  | float => exact same trivial rfl
  | string => exact same trivial rfl
  | boolean => exact same trivial rfl
  | id => exact same trivial rfl
  | intAsId =>
    rw [Literal.toJson_int fits.int]
    refine iff_of_false ?_ (fun other => other rfl)
    intro same
    cases same
  | custom custom =>
    refine same (spelled ?_) rfl
    rintro rfl
    cases custom

theorem list_same_iff {item : TypeRef} {items : List Literal} {vs : List Json}
    (h : List.Forall₂ (fun (literal : Literal) v =>
      literal.toJson.Same v ↔ SpelledOutThroughout schema item (.ofLiteral literal)) items vs) :
    (Literal.list items).toJson.Same (.array vs) ↔
      SpelledOutThroughout schema (.list item) (.ofLiteral (.list items)) := by
  rw [Literal.toJson, Literal.itemsToJson_eq, Json.Same.array_iff, List.forall₂_map_left_iff,
    Value.ofLiteral, spelledOutThroughout_list, valuesOfLiterals_eq, List.forall_mem_map]
  induction h with
  | nil => simp
  | cons first _ ih => rw [List.forall₂_cons, List.forall_mem_cons, first, ih]

section

variable {t : InputObjectType} {fields : Entries Literal} {out : Entries Json}

theorem keys_eq_iff (fits : (Literal.object fields).Fits true k)
    (filled : fill (objectGives schema [] fields) [] t.fields = some out) :
    (∀ key, key ∈ fields.keys ↔ key ∈ out.keys) ↔
      (∀ key ∈ fields.keys, ∃ d ∈ t.fields, d.name = key) ∧
        ∀ d ∈ t.fields, d.default.isSome = true → d.name ∈ fields.keys := by
  constructor
  · intro same
    refine ⟨fun key hk => ?_, fun d hd default => ?_⟩
    · exact List.mem_map.mp ((keys_sublist_of_fill filled).subset ((same key).mp hk))
    · refine (same d.name).mpr (name_mem_of_fill filled hd ?_)
      exact writtenGives_ne_none (.inr (.inl default))
  · rintro ⟨declared, defaulted⟩ key
    constructor
    · intro hk
      obtain ⟨d, hd, rfl⟩ := declared key hk
      obtain ⟨literal, found⟩ := Entries.exists_get?_of_mem hk
      refine name_mem_of_fill filled hd ?_
      rw [objectGives_written fits found]
      simp
    · intro hk
      obtain ⟨e, he, rfl⟩ := List.mem_map.mp hk
      obtain ⟨d, hd, named, gives⟩ := exists_of_mem_fill filled he
      rw [← named]
      cases found : fields.get? d.name with
      | some literal => exact Entries.mem_keys_of_get? found
      | none =>
        rw [objectGives_absent found, absentGives] at gives
        apply defaulted d hd
        cases default : d.default with
        | some literal => rfl
        | none => simp [default] at gives

theorem values_same_iff (consistent : Validation.FieldsConsistent schema) {name : String}
    (ht : schema.type? name = some (.inputObject t)) (fits : (Literal.object fields).Fits true k)
    (filled : fill (objectGives schema [] fields) [] t.fields = some out)
    (members : ∀ d ∈ t.fields, ∀ literal, fields.get? d.name = some literal → ∀ v,
      literalValue schema [] (.ofLiteral literal) d.type = some v →
        (literal.toJson.Same v ↔ SpelledOutThroughout schema d.type (.ofLiteral literal))) :
    (∀ key literal w, fields.get? key = some literal → out.get? key = some w →
        literal.toJson.Same w) ↔
      ∀ d ∈ t.fields, ∀ literal, fields.get? d.name = some literal →
        SpelledOutThroughout schema d.type (.ofLiteral literal) := by
  -- of several definitions of a name the one that the value is from has the same type
  have source {key : String} {literal : Literal} {w : Json} (found : fields.get? key = some literal)
      (hw : out.get? key = some w) :
      ∃ d ∈ t.fields, d.name = key ∧
        literalValue schema [] (.ofLiteral literal) d.type = some w := by
    obtain ⟨d, hd, named, gives⟩ := exists_of_mem_fill filled (Entries.mem_of_get? hw)
    dsimp only at named gives
    subst named
    rw [objectGives_written fits found] at gives
    obtain ⟨_, read, same⟩ := Option.map_eq_some_iff.mp gives
    cases same
    exact ⟨d, hd, rfl, read⟩
  constructor
  · intro same d hd literal found
    have present : d.name ∈ out.keys := by
      refine name_mem_of_fill filled hd ?_
      rw [objectGives_written fits found]
      simp
    obtain ⟨w, hw⟩ := Entries.exists_get?_of_mem present
    obtain ⟨e, he, named, read⟩ := source found hw
    rw [consistent name t ht e he d hd named] at read
    exact (members d hd literal found w read).mp (same _ literal w found hw)
  · intro spelled key literal w found hw
    obtain ⟨d, hd, rfl, read⟩ := source found hw
    exact (members d hd literal found w read).mpr (spelled d hd literal found)

theorem object_same_iff (consistent : Validation.FieldsConsistent schema) {name : String}
    (ht : schema.type? name = some (.inputObject t)) (fits : (Literal.object fields).Fits true k)
    (filled : fill (objectGives schema [] fields) [] t.fields = some out)
    (members : ∀ d ∈ t.fields, ∀ literal, fields.get? d.name = some literal → ∀ v,
      literalValue schema [] (.ofLiteral literal) d.type = some v →
        (literal.toJson.Same v ↔ SpelledOutThroughout schema d.type (.ofLiteral literal))) :
    (Literal.object fields).toJson.Same (.object out) ↔
      SpelledOutThroughout schema (.named name) (.ofLiteral (.object fields)) := by
  have keys := keys_eq_iff fits filled
  have values := values_same_iff consistent ht fits filled members
  rw [Literal.toJson, Json.Same.object_iff, Value.ofLiteral, spelledOutThroughout_object ht,
    Literal.keys_fieldsToJson, keys]
  have names (P : String → Prop) :
      (∀ f ∈ fieldsOfLiterals fields, P f.name.value) ↔ ∀ key ∈ fields.keys, P key := by
    rw [fieldsOfLiterals_eq, List.forall_mem_map, Entries.keys, List.forall_mem_map]
  have named (key : String) :
      (∃ f ∈ fieldsOfLiterals fields, f.name.value = key) ↔ key ∈ fields.keys := by
    rw [fieldsOfLiterals_eq, Entries.keys, List.mem_map]
    simp
  refine and_congr ?_ ?_
  · simp only [names (fun key => ∃ d ∈ t.fields, d.name = key), named]
  · simp only [Literal.get?_fieldsToJson, writtenField_fieldsOfLiterals, Option.map_eq_some_iff]
    constructor
    · rintro same d hd _ ⟨literal, found, rfl⟩
      exact values.mp (fun key literal w found hw => same key _ w ⟨literal, found, rfl⟩ hw) d hd
        literal found
    · rintro spelled key _ w ⟨literal, found, rfl⟩ hw
      have each (d : InputValue) (hd : d ∈ t.fields) (literal : Literal)
          (found : fields.get? d.name = some literal) :=
        spelled d hd _ ⟨literal, found, rfl⟩
      exact values.mpr each key literal w found hw

end

/-- A literal has the same value without types and at its type exactly if it is spelled out. -/
theorem Denotes.same_iff (consistent : Validation.FieldsConsistent schema) {type : TypeRef}
    {v : Json} (h : Denotes schema type literal v) :
    literal.toJson.Same v ↔ SpelledOutThroughout schema type (.ofLiteral literal) := by
  induction h with
  | null nullable => exact iff_of_true (.refl _) (spelledOutThroughout_null _ _)
  | nonNull fits null _ ih =>
    rw [spelledOutThroughout_nonNull null fits.kind_ne_variable]
    exact ih
  | list length _ ih =>
    apply list_same_iff
    exact List.forall₂_iff_zip.mpr ⟨length, fun hp => ih _ hp⟩
  | single fits null list _ ih =>
    apply iff_of_false
    · intro same
      cases same.items?_eq (fits.items?_toJson list)
    · intro spelled
      rcases spelled _ _ .here with isList | isNull
      · exact list isList
      · exact null isNull
  | scalar ht fits null ok =>
    rw [spelledOutThroughout_named (by simp [ht])]
    exact scalar_same_iff ht fits ok
  | enum ht hv =>
    rw [spelledOutThroughout_named (by simp [ht])]
    refine iff_of_true (.refl _) ?_
    simp only [SpelledOut, ht]
    trivial
  | object ht fits filled _ ih => exact object_same_iff consistent ht fits filled ih

end

/-- The same object but for one key. -/
structure Rebound (name : String) (u v : Json) (m m' : Entries Json) : Prop where
  keys : m.keys = m'.keys
  before : m.get? name = some u
  after : m'.get? name = some v
  others : ∀ key, key ≠ name → m.get? key = m'.get? key

theorem fill_rebound {give give' : InputValue → Option (Option Json)} {ds : List InputValue}
    {d : InputValue} {u v : Json} {m : Entries Json} (hd : d ∈ ds)
    (own : ∀ e ∈ ds, e.name = d.name → e = d) (before : give d = some (some u))
    (after : give' d = some (some v)) (others : ∀ e ∈ ds, e.name ≠ d.name → give e = give' e)
    (filled : fill give [] ds = some m) :
    ∃ m', fill give' [] ds = some m' ∧ Rebound d.name u v m m' := by
  have gives : ∀ e ∈ ds, ∀ given, give e = some given → ∃ given', give' e = some given' ∧
      Option.Rel (fun x y => (e.name = d.name → x = u ∧ y = v) ∧ (e.name ≠ d.name → x = y)) given
        given' := by
    intro e he given h
    by_cases same : e.name = d.name
    · cases own e he same
      cases before.symm.trans h
      exact ⟨some v, after, .some ⟨fun _ => ⟨rfl, rfl⟩, fun other => absurd rfl other⟩⟩
    · refine ⟨given, (others e he same).symm.trans h, ?_⟩
      cases given with
      | none => exact .none
      | some x => exact .some ⟨fun equal => absurd equal same, fun _ => rfl⟩
  obtain ⟨m', filled', related⟩ := fill_related
    (R := fun key x y => (key = d.name → x = u ∧ y = v) ∧ (key ≠ d.name → x = y)) gives filled
  have present : d.name ∈ m.keys := name_mem_of_fill filled hd (by rw [before]; simp)
  obtain ⟨x, hx⟩ := Entries.exists_get?_of_mem present
  obtain ⟨y, hy, here, -⟩ := related.get? hx
  obtain ⟨rfl, rfl⟩ := here rfl
  refine ⟨m', filled', related.keys_eq, hx, hy, fun key other => ?_⟩
  cases hk : m.get? key with
  | some x =>
    obtain ⟨y, hy, -, same⟩ := related.get? hk
    rw [hy, same other]
  | none =>
    cases hk' : m'.get? key with
    | none => rfl
    | some y =>
      have absent := Entries.mem_keys_of_get? hk'
      rw [← related.keys_eq] at absent
      obtain ⟨x, hx⟩ := Entries.exists_get?_of_mem absent
      cases hk.symm.trans hx

section

variable {schema : Schema} {vars : Entries Json} {d : InputValue} {literal : Literal} {k : Nat}
variable {v : Json}

theorem absentGives_default (default : d.default = some literal) :
    absentGives d = some (some literal.toJson) :=
  absentGives_eq_value.mpr ⟨literal, default, rfl⟩

/-- Where nothing is provided the default is taken without its type, and where it is written out it
is taken at its type. -/
theorem written_rebound {ds : List InputValue} (hd : d ∈ ds)
    (own : ∀ e ∈ ds, e.name = d.name → e = d) (default : d.default = some literal)
    (fits : literal.Fits true k)
    (read : literalValue schema [] (.ofLiteral literal) d.type = some v)
    {written written' : String → Option Value}
    (omitted : (written d.name).filter (isProvided vars) = none)
    (explicit : written' d.name = some (.ofLiteral literal))
    (others : ∀ name, name ≠ d.name → written' name = written name) {m : Entries Json}
    (filled : fill (fun e => writtenGives schema vars (written e.name) e) [] ds = some m) :
    ∃ m', fill (fun e => writtenGives schema vars (written' e.name) e) [] ds = some m' ∧
      Rebound d.name literal.toJson v m m' := by
  refine fill_rebound hd own ?_ ?_ ?_ filled
  · rw [writtenGives, omitted]
    exact absentGives_default default
  · rw [explicit, writtenGives, Option.filter_some_pos (fits.isProvided vars)]
    dsimp only
    rw [(denotes_of_literalValue fits read).literalValue_eq vars]
    rfl
  · intro e _ other
    rw [others e.name other]

/-- A definition that is left out is bound to the value of its default without types, in arguments,
in object literals and in runtime objects. Written out, the default is bound to its value at the type.
The two are the same exactly if the default is spelled out. -/
theorem omitted_rebound (consistent : Validation.FieldsConsistent schema)
    (default : d.default = some literal) (fits : literal.Fits true k)
    (read : literalValue schema [] (.ofLiteral literal) d.type = some v) {ds : List InputValue}
    (hd : d ∈ ds) (own : ∀ e ∈ ds, e.name = d.name → e = d) :
    (∀ arguments vars m, (writtenArgument arguments d.name).filter (isProvided vars) = none →
      argumentValues schema ds arguments vars = .ok m →
      ∃ m', argumentValues schema ds (argumentsOf [(d.name, literal)] ++ arguments) vars = .ok m' ∧
        Rebound d.name literal.toJson v m m') ∧
    (∀ name t, schema.type? name = some (.inputObject t) → t.fields = ds →
      (∀ fields loc vars m, (writtenField fields d.name).filter (isProvided vars) = none →
        literalValue schema vars (.object fields loc) (.named name) = some (.object m) →
        ∃ m', literalValue schema vars
            (.object (fieldsOfLiterals [(d.name, literal)] ++ fields) loc) (.named name) =
              some (.object m') ∧
          Rebound d.name literal.toJson v m m') ∧
      ∀ (entries m : Entries Json), entries.get? d.name = none →
        coerceInput schema (.object entries) (.named name) = .ok (.object m) →
        m.get? d.name = some literal.toJson) ∧
    (literal.toJson.Same v ↔ SpelledOutThroughout schema d.type (.ofLiteral literal)) := by
  refine ⟨?_, ?_, (denotes_of_literalValue fits read).same_iff consistent⟩
  · intro arguments vars m omitted h
    have others (name : String) (other : name ≠ d.name) :
        writtenArgument (argumentsOf [(d.name, literal)] ++ arguments) name =
          writtenArgument arguments name := by
      simp [writtenArgument, argumentsOf, other.symm]
    obtain ⟨m', filled, bound⟩ := written_rebound hd own default fits read omitted
      (by simp [writtenArgument, argumentsOf]) others (argumentValues_eq_ok.mp h)
    exact ⟨m', argumentValues_eq_ok.mpr filled, bound⟩
  · rintro name t ht rfl
    constructor
    · intro fields loc vars m omitted h
      have others (name : String) (other : name ≠ d.name) :
          writtenField (fieldsOfLiterals [(d.name, literal)] ++ fields) name =
            writtenField fields name := by
        simp [writtenField, fieldsOfLiterals, other.symm]
      rw [literalValue_inputObject ht] at h
      obtain ⟨_, filled, same⟩ := Option.map_eq_some_iff.mp h
      cases same
      obtain ⟨m', filled', bound⟩ := written_rebound hd own default fits read omitted
        (by simp [writtenField, fieldsOfLiterals]) others filled
      refine ⟨m', ?_, bound⟩
      rw [literalValue_inputObject ht, filled']
      rfl
    · intro entries m absent h
      obtain ⟨-, out, filled, same⟩ :=
        (coerced?_inputObject_eq_some ht entries).mp (toOption_eq_some.mpr h)
      cases same
      have given : inputGives (entryInputs schema entries) d = some (some literal.toJson) := by
        rw [inputGives_entryInputs, absent]
        exact absentGives_default default
      obtain ⟨m', -, bound⟩ := fill_rebound hd own given given (fun _ _ _ => rfl) filled
      exact bound.before

end

namespace Filters

def tags : InputValue := inputValue "tags" (.list (.named "String")) (some (.string "a"))

def tagged : Schema := schemaOf ⟨⟨1, 1⟩, none, "Tagged", [], [tags]⟩

theorem tagged_consistent : Validation.FieldsConsistent tagged := by
  intro name t h
  rw [eq_of_schemaOf h]
  decide

end Filters

/-- The default `"a"` of a list is bound to the text when it is left out, and to a list of the text
when it is written. -/
theorem tags_rebound :
    literalValue Filters.tagged [] (.ofLiteral (.string "a")) Filters.tags.type =
        some (.array [.string "a"]) ∧
      argumentValues Filters.tagged [Filters.tags] [] [] = .ok [("tags", .string "a")] ∧
      (∃ m', argumentValues Filters.tagged [Filters.tags] (argumentsOf [("tags", .string "a")]) [] =
          .ok m' ∧
        Rebound "tags" (.string "a") (.array [.string "a"]) [("tags", .string "a")] m') ∧
      ¬ (Json.string "a").Same (.array [.string "a"]) := by
  have read : literalValue Filters.tagged [] (.ofLiteral (.string "a")) Filters.tags.type =
    some (.array [.string "a"]) := rfl
  have ok : argumentValues Filters.tagged [Filters.tags] [] [] = .ok [("tags", .string "a")] := rfl
  obtain ⟨arguments, -, same⟩ := omitted_rebound (k := 0) Filters.tagged_consistent
    (show Filters.tags.default = some (.string "a") from rfl) trivial read
    (List.mem_singleton_self Filters.tags) (fun e he _ => List.mem_singleton.mp he)
  refine ⟨read, ok, arguments [] [] _ rfl ok, ?_⟩
  intro equal
  rcases same.mp equal _ _ .here with list | null
  · cases list
  · cases null

end Input

end GraphQL
