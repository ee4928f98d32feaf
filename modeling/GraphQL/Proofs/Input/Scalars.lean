import GraphQL.Proofs.Number.Whole
import GraphQL.Proofs.Validation.LiteralAgreement

/-!
The built-in scalars, one by one: what runtime values and literals are accepted for each, and what
they become. Main statements: exactly the values of a scalar are coerced, and runtime values and
literals both become values of the scalar.
-/
namespace GraphQL

open Ast

/-- A number, in either form. -/
def Json.isNumber : Json → Bool
  | integer _ | float _ => true
  | _ => false

/-- A number literal whose number no JSON number stands for. -/
def Ast.Value.Overflows : Value → Prop
  | .int text _ => readInt64 text.toList = none
  | .float text _ => ∀ x, Binary64.ofText? text ≠ some (.finite x)
  | _ => False

namespace Input

open Validation (isCustomScalar)

/-- What is accepted for a scalar, by the name of the scalar. -/
def AcceptsScalar (name : String) (value : Json) : Prop :=
  match name with
  | "Int" => ∃ n, value.EqualsInt n ∧ InInt32 n
  | "Float" => value.isNumber = true
  | "String" => ∃ s, value = .string s
  | "Boolean" => ∃ b, value = .bool b
  | "ID" => (∃ s, value = .string s) ∨ ∃ n, value = .integer n
  | _ => True

/-- What values of a scalar look like, by the name of the scalar. -/
def IsScalarValue (name : String) (value : Json) : Prop :=
  match name with
  | "Int" => ∃ n, value = .integer n ∧ InInt32 n.val
  | "Float" => value.isNumber = true
  | "String" | "ID" => ∃ s, value = .string s
  | "Boolean" => ∃ b, value = .bool b
  | _ => True

theorem isCustomScalar_iff {name : String} :
    isCustomScalar name = true ↔
      name ≠ "Int" ∧ name ≠ "Float" ∧ name ≠ "String" ∧ name ≠ "Boolean" ∧ name ≠ "ID" := by
  simp [isCustomScalar]

theorem scalar_names (name : String) :
    name = "Int" ∨ name = "Float" ∨ name = "String" ∨ name = "Boolean" ∨ name = "ID" ∨
      isCustomScalar name = true := by
  rw [isCustomScalar_iff]
  tauto

theorem IsScalarValue.custom_of_null {name : String} (h : IsScalarValue name .null) :
    isCustomScalar name = true := by
  unfold IsScalarValue at h
  split at h
  case h_2 => cases h
  case h_6 int float string id boolean =>
    exact isCustomScalar_iff.mpr ⟨int, float, string, boolean, id⟩
  all_goals simp at h

section

variable {value result : Json}

theorem coerceScalar_int :
    coerceScalar "Int" value = .ok result ↔
      ∃ n, value.EqualsInt n ∧ InInt32 n ∧ result = Json.ofInt n := by
  unfold coerceScalar
  rw [if_pos rfl, intResult_wholeNumber?_eq_ok]

theorem coerceScalar_float :
    coerceScalar "Float" value = .ok result ↔
      ∃ x, value.binary64? = some (.finite x) ∧ result = .float x := by
  unfold coerceScalar
  rw [if_neg (by decide), if_pos rfl, floatResult_eq_ok]

theorem coerceScalar_string :
    coerceScalar "String" value = .ok result ↔ ∃ s, value = .string s ∧ result = .string s := by
  cases value <;> simp [coerceScalar, eq_comm]

theorem coerceScalar_boolean :
    coerceScalar "Boolean" value = .ok result ↔ ∃ b, value = .bool b ∧ result = .bool b := by
  cases value <;> simp [coerceScalar, eq_comm]

theorem coerceScalar_id :
    coerceScalar "ID" value = .ok result ↔
      (∃ s, value = .string s ∧ result = .string s) ∨
        ∃ n, value = .integer n ∧ result = .string (integerText n.val) := by
  cases value <;> simp [coerceScalar, eq_comm]

end

section

variable {name : String}

theorem coerceScalar_custom (h : isCustomScalar name = true) (value : Json) :
    coerceScalar name value = .ok value := by
  obtain ⟨int, float, string, boolean, id⟩ := isCustomScalar_iff.mp h
  unfold coerceScalar
  rw [if_neg int, if_neg float, if_neg string, if_neg boolean, if_neg id]

variable {value result : Json}

theorem isNumber_iff : value.isNumber = true ↔ ∃ x, value.binary64? = some (.finite x) := by
  cases value with
  | integer n =>
    obtain ⟨x, hx⟩ := Binary64.exists_finite n
    exact iff_of_true rfl ⟨x, congrArg some hx⟩
  | float x => exact iff_of_true rfl ⟨x, rfl⟩
  | _ => simp [Json.isNumber, Json.binary64?]

theorem coerceScalar_isOk :
    (∃ result, coerceScalar name value = .ok result) ↔ AcceptsScalar name value := by
  unfold AcceptsScalar
  split
  case h_1 =>
    simp only [coerceScalar_int]
    constructor
    · rintro ⟨-, n, equals, range, -⟩
      exact ⟨n, equals, range⟩
    · rintro ⟨n, equals, range⟩
      exact ⟨_, n, equals, range, rfl⟩
  case h_2 =>
    rw [isNumber_iff]
    simp only [coerceScalar_float]
    constructor
    · rintro ⟨-, x, hx, -⟩
      exact ⟨x, hx⟩
    · rintro ⟨x, hx⟩
      exact ⟨_, x, hx, rfl⟩
  case h_3 => simp [coerceScalar_string]
  case h_4 =>
    simp only [coerceScalar_boolean]
    exact ⟨fun ⟨_, b, hb, _⟩ => ⟨b, hb⟩, fun ⟨b, hb⟩ => ⟨_, b, hb, rfl⟩⟩
  case h_5 =>
    simp only [coerceScalar_id, exists_or]
    simp
  case h_6 int float string boolean id =>
    have custom := isCustomScalar_iff.mpr ⟨int, float, string, boolean, id⟩
    exact iff_of_true ⟨value, coerceScalar_custom custom value⟩ trivial

theorem isScalarValue_of_coerceScalar (h : coerceScalar name value = .ok result) :
    IsScalarValue name result := by
  unfold IsScalarValue
  split
  case h_1 =>
    obtain ⟨n, -, range, rfl⟩ := coerceScalar_int.mp h
    obtain ⟨m, rfl⟩ := JsonInteger.exists_of_inInt64 range.inInt64
    exact ⟨m, Json.ofInt_val m, range⟩
  case h_2 =>
    obtain ⟨x, -, rfl⟩ := coerceScalar_float.mp h
    rfl
  case h_3 =>
    obtain ⟨s, -, rfl⟩ := coerceScalar_string.mp h
    exact ⟨s, rfl⟩
  case h_4 =>
    rcases coerceScalar_id.mp h with ⟨s, -, rfl⟩ | ⟨n, -, rfl⟩
    · exact ⟨s, rfl⟩
    · exact ⟨_, rfl⟩
  case h_5 =>
    obtain ⟨b, -, rfl⟩ := coerceScalar_boolean.mp h
    exact ⟨b, rfl⟩
  case h_6 => trivial

/-- What a value becomes as a scalar stays as it is. -/
theorem coerceScalar_again (h : coerceScalar name value = .ok result) :
    coerceScalar name result = .ok result := by
  rcases scalar_names name with rfl | rfl | rfl | rfl | rfl | custom
  · obtain ⟨n, -, range, rfl⟩ := coerceScalar_int.mp h
    obtain ⟨m, rfl⟩ := JsonInteger.exists_of_inInt64 range.inInt64
    exact coerceScalar_int.mpr ⟨m.val, by rw [Json.ofInt_val]; rfl, range, rfl⟩
  · obtain ⟨x, -, rfl⟩ := coerceScalar_float.mp h
    exact coerceScalar_float.mpr ⟨x, rfl, rfl⟩
  · obtain ⟨s, -, rfl⟩ := coerceScalar_string.mp h
    exact coerceScalar_string.mpr ⟨s, rfl, rfl⟩
  · obtain ⟨b, -, rfl⟩ := coerceScalar_boolean.mp h
    exact coerceScalar_boolean.mpr ⟨b, rfl, rfl⟩
  · obtain ⟨s, rfl⟩ : ∃ s, result = .string s := by
      rcases coerceScalar_id.mp h with ⟨s, -, rfl⟩ | ⟨n, -, rfl⟩
      · exact ⟨s, rfl⟩
      · exact ⟨_, rfl⟩
    exact coerceScalar_id.mpr (.inl ⟨s, rfl, rfl⟩)
  · exact coerceScalar_custom custom result

theorem coerceScalar_ne_null (h : coerceScalar name value = .ok result) (null : value ≠ .null) :
    result ≠ .null := by
  rintro rfl
  rw [coerceScalar_custom (isScalarValue_of_coerceScalar h).custom_of_null] at h
  exact null (Except.ok.inj h)

end

section

variable {vars : Entries Json} {literal : Value} {result : Json}

theorem toScalar_int :
    literal.toScalar vars "Int" = .ok result ↔
      ∃ text loc n, literal = .int text loc ∧ readInt64 text.toList = some n ∧ InInt32 n ∧
        result = Json.ofInt n := by
  unfold Value.toScalar
  rw [if_pos rfl]
  cases literal with
  | int text loc =>
    cases hn : readInt64 text.toList with
    | none => simp [hn]
    | some n => by_cases range : InInt32 n <;> simp [hn, range, eq_comm]
  | _ => simp

theorem toScalar_float :
    literal.toScalar vars "Float" = .ok result ↔
      (∃ text loc n, literal = .int text loc ∧ readInt64 text.toList = some n ∧
        result = Json.ofInt n) ∨
      ∃ text loc x, literal = .float text loc ∧ Binary64.ofText? text = some (.finite x) ∧
        result = .float x := by
  unfold Value.toScalar
  rw [if_neg (by decide), if_pos rfl]
  cases literal with
  | int text loc => cases hn : readInt64 text.toList <;> simp [hn, eq_comm]
  | float text loc => simp [floatResult_eq_ok]
  | _ => simp

theorem toScalar_string :
    literal.toScalar vars "String" = .ok result ↔
      ∃ s, literal = .string s ∧ result = .string s.value := by
  cases literal <;> simp [Value.toScalar, eq_comm]

theorem toScalar_boolean :
    literal.toScalar vars "Boolean" = .ok result ↔
      ∃ b loc, literal = .boolean b loc ∧ result = .bool b := by
  cases literal <;> simp [Value.toScalar, eq_comm]

theorem toScalar_id :
    literal.toScalar vars "ID" = .ok result ↔
      (∃ s, literal = .string s ∧ result = .string s.value) ∨
        ∃ text loc, literal = .int text loc ∧ result = .string text := by
  cases literal <;> simp [Value.toScalar, eq_comm]

variable {name : String}

theorem isScalarValue_of_toScalar (h : literal.toScalar vars name = .ok result) :
    IsScalarValue name result := by
  unfold IsScalarValue
  split
  case h_1 =>
    obtain ⟨text, loc, n, -, -, range, rfl⟩ := toScalar_int.mp h
    obtain ⟨m, rfl⟩ := JsonInteger.exists_of_inInt64 range.inInt64
    exact ⟨m, Json.ofInt_val m, range⟩
  case h_2 =>
    rcases toScalar_float.mp h with ⟨text, loc, n, -, read, rfl⟩ | ⟨text, loc, x, -, -, rfl⟩
    · obtain ⟨m, rfl⟩ := JsonInteger.exists_of_inInt64 (inInt64_of_readInt64 read)
      rw [Json.ofInt_val]
      rfl
    · rfl
  case h_3 =>
    obtain ⟨s, -, rfl⟩ := toScalar_string.mp h
    exact ⟨_, rfl⟩
  case h_4 =>
    rcases toScalar_id.mp h with ⟨s, -, rfl⟩ | ⟨text, loc, -, rfl⟩
    · exact ⟨_, rfl⟩
    · exact ⟨_, rfl⟩
  case h_5 =>
    obtain ⟨b, loc, -, rfl⟩ := toScalar_boolean.mp h
    exact ⟨b, rfl⟩
  case h_6 => trivial

/-- Without type information only numbers are lost. -/
theorem toJson_eq_null_iff (null : literal.kind ≠ .nullValue)
    (isVariable : literal.kind ≠ .variable) : literal.toJson vars = .null ↔ literal.Overflows := by
  cases literal with
  | null => exact absurd rfl null
  | «variable» => exact absurd rfl isVariable
  | int text loc =>
    rw [Value.toJson, Value.Overflows]
    cases read : readInt64 text.toList with
    | none => exact iff_of_true rfl rfl
    | some n =>
      obtain ⟨m, rfl⟩ := JsonInteger.exists_of_inInt64 (inInt64_of_readInt64 read)
      rw [Option.map_some, Option.getD_some, Json.ofInt_val]
      simp
  | float text loc =>
    rw [Value.toJson, Value.Overflows]
    cases Binary64.ofText? text with
    | none => simp
    | some x => cases x <;> simp [Json.ofBinary64]
  | _ => simp [Value.toJson, Value.Overflows]

theorem toScalar_eq_null (null : literal.kind ≠ .nullValue)
    (isVariable : literal.kind ≠ .variable) :
    literal.toScalar vars name = .ok .null ↔ literal.Overflows ∧ isCustomScalar name = true := by
  constructor
  · intro ok
    have custom := (isScalarValue_of_toScalar ok).custom_of_null
    rw [Validation.toScalar_of_custom custom, Except.ok.injEq] at ok
    exact ⟨(toJson_eq_null_iff null isVariable).mp ok, custom⟩
  · rintro ⟨overflows, custom⟩
    rw [Validation.toScalar_of_custom custom, (toJson_eq_null_iff null isVariable).mpr overflows]

end

end Input

end GraphQL
