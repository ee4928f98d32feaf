import GraphQL.Proofs.Input.Filling
import GraphQL.Ast.Node
import GraphQL.Proofs.Input.LiteralCoercion

/-!
Values at types, type by type. Runtime values and literals are read alike: non-null wrappers let
everything pass but null, list types take lists item by item and other values as lists of
themselves, and input objects are filled from the fields that are given.
-/
namespace GraphQL

open Ast TypeSystem

theorem toOption_eq_some {α ε : Type} {result : Except ε α} {x : α} :
    result.toOption = some x ↔ result = .ok x := by
  cases result <;> simp [Except.toOption]

theorem mapM_eq_some {α β : Type} {f : α → Option β} {as : List α} {bs : List β} :
    as.mapM f = some bs ↔ List.Forall₂ (fun a b => f a = some b) as bs := by
  induction as generalizing bs with
  | nil => cases bs <;> simp
  | cons a as ih =>
    rw [List.mapM_cons]
    constructor
    · intro h
      obtain ⟨b, hb, h⟩ := Option.bind_eq_some_iff.mp h
      obtain ⟨rest, hrest, h⟩ := Option.bind_eq_some_iff.mp h
      cases h
      exact .cons hb (ih.mp hrest)
    · rintro (_ | ⟨hb, hrest⟩)
      rw [hb, ih.mpr hrest]
      rfl

section

variable {α β : Type} {R : α → β → Prop} {as : List α} {bs : List β}

theorem exists_right_of_forall₂ (h : List.Forall₂ R as bs) {a : α} (ha : a ∈ as) :
    ∃ b ∈ bs, R a b := by
  induction h with
  | nil => cases ha
  | @cons a b as bs hab _ ih =>
    rcases List.mem_cons.mp ha with rfl | ha
    · exact ⟨b, List.mem_cons_self, hab⟩
    · obtain ⟨c, hc, hac⟩ := ih ha
      exact ⟨c, List.mem_cons_of_mem _ hc, hac⟩

theorem exists_left_of_forall₂ (h : List.Forall₂ R as bs) {b : β} (hb : b ∈ bs) :
    ∃ a ∈ as, R a b :=
  exists_right_of_forall₂ h.flip hb

end

/-- The coerced value, if the value is accepted. -/
def coerced? (schema : Schema) (type : TypeRef) (value : Json) : Option Json :=
  (coerceInput schema value type).toOption

section

variable (schema : Schema)

theorem itemInputs_eq_map (values : List Json) :
    itemInputs schema values = values.map (coerceInput schema) := by
  induction values with
  | nil => rfl
  | cons v rest ih => rw [itemInputs, ih, List.map_cons]

theorem entryInputs_eq_map (entries : Entries Json) :
    entryInputs schema entries = entries.map fun e => (e.1, coerceInput schema e.2) := by
  induction entries with
  | nil => rfl
  | cons e rest ih => rw [entryInputs, ih, List.map_cons]

theorem keys_entryInputs (entries : Entries Json) :
    Entries.keys (entryInputs schema entries) = entries.keys := by
  rw [entryInputs_eq_map, Entries.keys, List.map_map]
  rfl

theorem get?_entryInputs (entries : Entries Json) (key : String) :
    Entries.get? (entryInputs schema entries) key =
      (entries.get? key).map (coerceInput schema) := by
  rw [entryInputs_eq_map, Entries.get?_map]

theorem inputGives_entryInputs (entries : Entries Json) (d : InputValue) :
    inputGives (entryInputs schema entries) d =
      match entries.get? d.name with
      | some value => (coerced? schema d.type value).map some
      | none => absentGives d := by
  unfold inputGives
  rw [get?_entryInputs]
  cases entries.get? d.name <;> rfl

theorem coerceInput_eq (value : Json) :
    coerceInput schema value =
      coerceAt schema value (itemInputs schema (value.items?.getD []))
        (entryInputs schema (value.entries?.getD [])) := by
  cases value <;> rfl

theorem coerceItems_toOption (item : TypeRef) (i : Nat) (inputs : List TypedInput) :
    (coerceItems item i inputs).toOption = inputs.mapM fun input => (input item).toOption := by
  induction inputs generalizing i with
  | nil => rfl
  | cons input rest ih =>
    rw [coerceItems, List.mapM_cons, ← ih (i + 1)]
    cases input item <;> cases coerceItems item (i + 1) rest <;> rfl

end

theorem Json.isNull_eq_false {value : Json} (h : value ≠ .null) : value.isNull = false := by
  cases value with
  | null => exact absurd rfl h
  | _ => rfl

section

variable {schema : Schema} {value : Json}

theorem coerceInput_null (type : TypeRef) :
    coerceInput schema .null type =
      if type.isNonNull then .error [⟨[], .null, .nullNotAllowed type⟩] else .ok .null := by
  cases type <;> rfl

theorem coerceInput_nonNull (h : value ≠ .null) (inner : TypeRef) :
    coerceInput schema value (.nonNull inner) = coerceInput schema value inner := by
  rw [coerceInput_eq, coerceAt, Json.isNull_eq_false h, if_neg Bool.false_ne_true]

theorem coerceInput_list (item : TypeRef) (values : List Json) :
    coerceInput schema (.array values) (.list item) =
      (coerceItems item 0 (values.map (coerceInput schema))).map .array := by
  rw [← itemInputs_eq_map]
  rfl

theorem coerceInput_single (null : value ≠ .null) (list : value.items? = none) (item : TypeRef) :
    coerceInput schema value (.list item) =
      (coerceInput schema value item).map fun v => .array [v] := by
  rw [coerceInput_eq, coerceAt.eq_def]
  dsimp only
  split
  · exact absurd rfl null
  · cases list
  · rfl

theorem coerceInput_named (h : value ≠ .null) (name : String) :
    coerceInput schema value (.named name) =
      coerceNamed schema value (entryInputs schema (value.entries?.getD [])) name := by
  rw [coerceInput_eq, coerceAt, Json.isNull_eq_false h, if_neg Bool.false_ne_true]

theorem coerced?_null (type : TypeRef) :
    coerced? schema type .null = if type.isNonNull then none else some .null := by
  cases type <;> rfl

theorem coerced?_nonNull (h : value ≠ .null) (inner : TypeRef) :
    coerced? schema (.nonNull inner) value = coerced? schema inner value :=
  congrArg Except.toOption (coerceInput_nonNull h inner)

theorem coerced?_list (item : TypeRef) (values : List Json) :
    coerced? schema (.list item) (.array values) =
      (values.mapM (coerced? schema item)).map .array := by
  have items : values.mapM (coerced? schema item) =
      (coerceItems item 0 (values.map (coerceInput schema))).toOption := by
    rw [coerceItems_toOption, List.mapM_map]
    rfl
  rw [items, coerced?, coerceInput_list]
  cases coerceItems item 0 (values.map (coerceInput schema)) <;> rfl

theorem coerced?_single (null : value ≠ .null) (list : value.items? = none) (item : TypeRef) :
    coerced? schema (.list item) value =
      (coerced? schema item value).map fun v => .array [v] := by
  unfold coerced?
  rw [coerceInput_single null list]
  cases coerceInput schema value item <;> rfl

theorem coerced?_named (h : value ≠ .null) (name : String) :
    coerced? schema (.named name) value =
      (coerceNamed schema value (entryInputs schema (value.entries?.getD [])) name).toOption :=
  congrArg Except.toOption (coerceInput_named h name)

variable {name : String}

theorem coerced?_scalar {t : ScalarType} (ht : schema.type? name = some (.scalar t))
    (h : value ≠ .null) :
    coerced? schema (.named name) value = (coerceScalar name value).toOption := by
  rw [coerced?_named h, coerceNamed, ht]
  dsimp only
  cases coerceScalar name value <;> rfl

theorem coerced?_enum_eq_some {t : EnumType} (ht : schema.type? name = some (.enum t))
    (h : value ≠ .null) {result : Json} :
    coerced? schema (.named name) value = some result ↔
      (∃ v ∈ t.values, value = .string v.name) ∧ result = value := by
  rw [coerced?_named h, coerceNamed, ht, toOption_eq_some]
  dsimp only
  unfold coerceEnum
  cases value with
  | string s =>
    have known : t.values.any (·.name = s) = true ↔
        ∃ v ∈ t.values, Json.string s = .string v.name := by
      rw [List.any_eq_true]
      constructor
      · rintro ⟨v, hv, name⟩
        exact ⟨v, hv, congrArg Json.string (of_decide_eq_true name).symm⟩
      · rintro ⟨v, hv, same⟩
        exact ⟨v, hv, decide_eq_true (Json.string.inj same).symm⟩
    dsimp only
    rw [← known]
    by_cases found : t.values.any (·.name = s) = true
    · rw [if_pos found, Except.ok.injEq, and_iff_right found]
      exact eq_comm
    · rw [if_neg found]
      constructor
      · intro h
        cases h
      · rintro ⟨h, -⟩
        exact absurd h found
  | _ => simp

theorem coerced?_inputObject_eq_some {t : InputObjectType}
    (ht : schema.type? name = some (.inputObject t)) (entries : Entries Json) {result : Json} :
    coerced? schema (.named name) (.object entries) = some result ↔
      (∀ key ∈ entries.keys, ∃ d ∈ t.fields, d.name = key) ∧
        ∃ out, fill (inputGives (entryInputs schema entries)) [] t.fields = some out ∧
          result = .object out := by
  have undefined : undefinedFields t (.object entries) entries.keys = [] ↔
      ∀ key ∈ entries.keys, ∃ d ∈ t.fields, d.name = key := by
    unfold undefinedFields
    rw [List.filterMap_eq_nil_iff]
    simp
  rw [coerced?_named (by simp), coerceNamed, ht, toOption_eq_some]
  dsimp only [Json.entries?, Option.getD_some]
  rw [← undefined, ← coerceFields_toOption (.object entries), coerceObject, keys_entryInputs]
  cases coerceFields (.object entries) (entryInputs schema entries) [] t.fields with
  | error es => simp [Except.toOption]
  | ok out =>
    cases undefinedFields t (.object entries) entries.keys <;>
      simp [Except.toOption, eq_comm]

theorem coerced?_inputObject_of_not_object {t : InputObjectType}
    (ht : schema.type? name = some (.inputObject t)) (null : value ≠ .null)
    (object : value.entries? = none) : coerced? schema (.named name) value = none := by
  rw [coerced?_named null, coerceNamed, ht]
  cases value with
  | object entries => cases object
  | _ => rfl

theorem coerced?_output (h : ∀ t, schema.type? name = some t → t.isInput = false)
    (null : value ≠ .null) : coerced? schema (.named name) value = none := by
  rw [coerced?_named null, coerceNamed]
  cases ht : schema.type? name with
  | none => rfl
  | some t =>
    have := h t ht
    cases t <;> first | rfl | cases this

end

section

variable {schema : Schema} {vars : Entries Json} {literal : Value}

theorem literalValue_null (loc : Option Location) (type : TypeRef) :
    literalValue schema vars (.null loc) type = if type.isNonNull then none else some .null := by
  cases type <;> rfl

section

variable (null : literal.kind ≠ .nullValue) (isVariable : literal.kind ≠ .variable)

include null isVariable

theorem literalValue_nonNull (inner : TypeRef) :
    literalValue schema vars literal (.nonNull inner) = literalValue schema vars literal inner := by
  cases literal with
  | null => exact absurd rfl null
  | «variable» => exact absurd rfl isVariable
  | _ => rfl

theorem literalValue_single (list : literal.kind ≠ .listValue) (item : TypeRef) :
    literalValue schema vars literal (.list item) =
      (literalValue schema vars literal item).map fun v => .array [v] := by
  cases literal with
  | null => exact absurd rfl null
  | «variable» => exact absurd rfl isVariable
  | list => exact absurd rfl list
  | _ => rfl

variable {name : String}

theorem literalValue_scalar {t : ScalarType} (ht : schema.type? name = some (.scalar t)) :
    literalValue schema vars literal (.named name) = (literal.toScalar vars name).toOption := by
  cases literal with
  | null => exact absurd rfl null
  | «variable» => exact absurd rfl isVariable
  | _ => simp [literalValue, literalAt, literalNamed, ht]

theorem literalValue_enum_eq_some {t : EnumType} (ht : schema.type? name = some (.enum t))
    {result : Json} :
    literalValue schema vars literal (.named name) = some result ↔
      ∃ v ∈ t.values, (∃ loc, literal = .enum v.name loc) ∧ result = .string v.name := by
  cases literal with
  | null => exact absurd rfl null
  | «variable» => exact absurd rfl isVariable
  | enum s loc =>
    simp only [literalValue, literalAt, literalNamed, ht]
    have known : t.values.any (·.name = s) = true ↔ ∃ v ∈ t.values, v.name = s := by simp
    constructor
    · intro h
      split_ifs at h with found
      obtain ⟨v, hv, rfl⟩ := known.mp found
      exact ⟨v, hv, ⟨loc, rfl⟩, (Option.some.inj h).symm⟩
    · rintro ⟨v, hv, ⟨_, he⟩, rfl⟩
      cases he
      rw [if_pos (known.mpr ⟨v, hv, rfl⟩)]
  | _ => simp [literalValue, literalAt, literalNamed, ht]

theorem literalValue_inputObject_of_not_object {t : InputObjectType}
    (ht : schema.type? name = some (.inputObject t)) (object : literal.kind ≠ .objectValue) :
    literalValue schema vars literal (.named name) = none := by
  cases literal with
  | null => exact absurd rfl null
  | «variable» => exact absurd rfl isVariable
  | object => exact absurd rfl object
  | _ => simp [literalValue, literalAt, literalNamed, ht]

theorem literalValue_output (h : ∀ t, schema.type? name = some t → t.isInput = false) :
    literalValue schema vars literal (.named name) = none := by
  have none (fields : Entries (Bool × TypedLiteral)) :
      literalNamed schema vars literal fields name = none := by
    unfold literalNamed
    cases ht : schema.type? name with
    | none => rfl
    | some t =>
      have := h t ht
      cases t <;> first | rfl | cases this
  cases literal with
  | null => exact absurd rfl null
  | «variable» => exact absurd rfl isVariable
  | object fields => exact none (literalEntries schema vars fields)
  | _ => exact none []

end

theorem literalValue_list (values : List Value) (loc : Option Location) (item : TypeRef) :
    literalValue schema vars (.list values loc) (.list item) =
      (values.mapM fun v => literalValue schema vars v item).map .array := by
  have items : (values.mapM fun v => literalValue schema vars v item) =
      (literalItems schema vars values).mapM fun (literal : TypedLiteral) => literal item := by
    rw [literalItems_eq_map, List.mapM_map]
    rfl
  rw [items]
  rfl

def writtenField (fields : List ObjectField) (name : String) : Option Value :=
  (fields.find? (·.name.value = name)).map (·.value)

/-- What a definition is given by what is written for it: a literal that is provided gives its
value. -/
def writtenGives (schema : Schema) (vars : Entries Json) (written : Option Value) (d : InputValue) :
    Option (Option Json) :=
  match written.filter (isProvided vars) with
  | some literal => (literalValue schema vars literal d.type).map some
  | none => absentGives d

theorem literalGives_literalEntries (fields : List ObjectField) (d : InputValue) :
    literalGives (literalEntries schema vars fields) d =
      writtenGives schema vars (writtenField fields d.name) d := by
  unfold literalGives writtenGives writtenField
  rw [get?_literalEntries]
  cases fields.find? (·.name.value = d.name) with
  | none => rfl
  | some f =>
    rw [Option.map_some, Option.map_some, Option.filter_some]
    cases isProvided vars f.value <;> rfl

theorem literalValue_inputObject {name : String} {t : InputObjectType}
    (ht : schema.type? name = some (.inputObject t)) (fields : List ObjectField)
    (loc : Option Location) :
    literalValue schema vars (.object fields loc) (.named name) =
      (fill (fun d => writtenGives schema vars (writtenField fields d.name) d) [] t.fields).map
        .object := by
  rw [← funext (literalGives_literalEntries fields), ← literalFields_eq_fill]
  simp [literalValue, literalAt, literalNamed, ht]

/-- Null has no value at a non-null type. -/
theorem literalValue_of_isNull {type : TypeRef} (null : literalIsNull vars literal = true)
    (nonNull : type.isNonNull = true) : literalValue schema vars literal type = none := by
  unfold literalIsNull at null
  split at null
  case h_1 => rw [literalValue_null, if_pos nonNull]
  case h_2 v =>
    rw [literalValue, variableAt.eq_def]
    cases hv : vars.get? v.name.value with
    | none => simp [nonNull]
    | some value =>
      rw [hv] at null
      cases value with
      | null => simp [nonNull]
      | _ => cases null
  case h_3 => cases null

theorem argumentGives_eq (arguments : List Argument) (d : InputValue) :
    argumentGives schema vars arguments d =
      writtenGives schema vars (writtenArgument arguments d.name) d := by
  unfold argumentGives argumentValue writtenGives absentGives
  cases (writtenArgument arguments d.name).filter (isProvided vars) with
  | some literal =>
    by_cases null : (literalIsNull vars literal && d.type.isNonNull) = true
    · have both := Bool.and_eq_true_iff.mp null
      simp only [null, if_true, literalValue_of_isNull both.1 both.2]
      rfl
    · simp only [null, Bool.false_eq_true, if_false]
      cases literalValue schema vars literal d.type <;> rfl
  | none =>
    cases d.default with
    | some default => rfl
    | none =>
      cases d.type.isNonNull with
      | false => rfl
      | true =>
        dsimp only
        rw [if_pos rfl, if_pos rfl]
        split <;> rfl

theorem argumentValues_eq_ok {ds : List InputValue} {arguments : List Argument} {m : Entries Json} :
    argumentValues schema ds arguments vars = .ok m ↔
      fill (fun d => writtenGives schema vars (writtenArgument arguments d.name) d) [] ds =
        some m := by
  rw [← funext (argumentGives_eq arguments), ← argumentValuesFrom_toOption, toOption_eq_some]
  rfl

end

end GraphQL
