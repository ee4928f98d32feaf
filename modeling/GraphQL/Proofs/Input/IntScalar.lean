import GraphQL.Proofs.Input.Scalars
import GraphQL.Proofs.Number.IntegerText
import Mathlib.Algebra.Order.Field.Rat
import Mathlib.Tactic.NormNum

/-!
The scalar Int and the numbers that values stand for. Main statement: what is accepted for an Int
becomes the integer of 32 bits that it equals, and exactly the numbers that equal one are accepted.
-/
namespace GraphQL

open Ast

namespace Finite64

/-- The number itself. -/
def toRat (x : Finite64) : ℚ :=
  let magnitude : ℚ := x.units / unitsPerOne
  if x.negative then -magnitude else magnitude

theorem magnitude_eq (units : Nat) (n : Int) :
    (units / unitsPerOne : ℚ) = n ↔
      units % unitsPerOne = 0 ∧ ((units / unitsPerOne : Nat) : Int) = n := by
  have nonzero : (unitsPerOne : ℚ) ≠ 0 := Nat.cast_ne_zero.mpr unitsPerOne_pos.ne'
  have split := Nat.div_add_mod units unitsPerOne
  rw [div_eq_iff nonzero]
  constructor
  · intro equal
    have whole : (units : Int) = n * unitsPerOne := by exact_mod_cast equal
    have multiple : (unitsPerOne : Int) ∣ units := ⟨n, by rw [whole, Int.mul_comm]⟩
    refine ⟨Nat.mod_eq_zero_of_dvd (Int.natCast_dvd_natCast.mp multiple), ?_⟩
    rw [Int.natCast_div, whole,
      Int.mul_ediv_cancel _ (Int.natCast_ne_zero.mpr unitsPerOne_pos.ne')]
  · rintro ⟨multiple, rfl⟩
    rw [multiple, Nat.add_zero] at split
    exact_mod_cast (split.symm.trans (Nat.mul_comm _ _))

theorem toRat_eq {x : Finite64} {n : Int} :
    x.toRat = n ↔ x.isIntegral = true ∧ x.toInt = n := by
  unfold toRat toInt isIntegral
  rw [decide_eq_true_iff]
  cases x.negative with
  | false => exact magnitude_eq x.units n
  | true =>
    have negated := magnitude_eq x.units (-n)
    rw [Int.cast_neg, eq_neg_iff_add_eq_zero, ← neg_eq_iff_add_eq_zero] at negated
    simp only [↓reduceIte]
    rw [negated]
    omega

end Finite64

namespace Json

/-- The number that a number of JSON is, in whichever form. -/
def number? : Json → Option ℚ
  | integer n => some n.val
  | float x => some x.toRat
  | _ => none

theorem equalsInt_iff {value : Json} {n : Int} : value.EqualsInt n ↔ value.number? = some (n : ℚ) := by
  cases value with
  | integer m => simp [EqualsInt, number?]
  | float x => rw [EqualsInt, number?, Option.some.injEq, Finite64.toRat_eq]
  | _ => simp [EqualsInt, number?]

/-- The integer that a value stands for where an Int is sent: a truth value for 0 or 1, a text for the
integer that it spells, and a number for the integer that it equals. -/
def StandsFor (n : Int) : Json → Prop
  | bool b => n = if b then 1 else 0
  | string s => SpellsInt s.toList n
  | value => value.number? = some (n : ℚ)

end Json

/-- What becomes of a number as an Int. -/
inductive IntOutcome (q : ℚ) : Except ScalarError Json → Prop where
  | integer {n : JsonInteger} : q = n.val → InInt32 n.val → IntOutcome q (.ok (.integer n))
  | outOfRange {n : Int} : q = n → ¬ InInt32 n → IntOutcome q (.error .intOutOfRange)
  | fraction : (∀ n : Int, q ≠ n) → IntOutcome q (.error .notAnInteger)

namespace Input

/-- Of all numbers those with an integer of 32 bits are accepted, and the others are told apart by
whether they have a fraction. -/
theorem intOutcome {value : Json} {q : ℚ} (number : value.number? = some q) :
    IntOutcome q (intResult value.wholeNumber?) := by
  have equals (n : Int) : value.EqualsInt n ↔ q = n := by
    rw [Json.equalsInt_iff, number, Option.some.injEq]
  cases found : value.wholeNumber? with
  | none =>
    refine .fraction fun n equal => ?_
    have some := Json.wholeNumber?_isSome.mpr ⟨n, (equals n).mpr equal⟩
    rw [found] at some
    cases some
  | some n =>
    by_cases range : InInt32 n
    · obtain ⟨m, rfl⟩ := JsonInteger.exists_of_inInt64 range.inInt64
      rw [intResult_eq_ok.mpr ⟨m, rfl, range, rfl⟩]
      exact .integer ((equals _).mp ((Json.wholeNumber?_eq_some range).mp found)) range
    · -- clamping may have changed the integer, but not into one of 32 bits
      obtain ⟨m, equal⟩ := Json.wholeNumber?_isSome.mp (Option.isSome_of_eq_some found)
      have far : ¬ InInt32 m := by
        intro near
        cases found.symm.trans ((Json.wholeNumber?_eq_some near).mpr equal)
        exact range near
      unfold intResult
      dsimp only
      rw [if_neg range]
      exact .outOfRange ((equals m).mp equal) far

theorem serializeScalar_int {value : Json} (number : value.isNumber = true) :
    serializeScalar "Int" value = intResult value.wholeNumber? := by
  unfold serializeScalar
  rw [if_pos rfl]
  cases value with
  | integer | float => rfl
  | _ => cases number

theorem number?_isSome {value : Json} : value.number?.isSome = value.isNumber := by
  cases value <;> rfl

theorem wholeNumber?_eq {value : Json} {n : JsonInteger} :
    value.wholeNumber? = some n.val ∧ InInt32 n.val ↔
      value.number? = some (n.val : ℚ) ∧ InInt32 n.val :=
  and_congr_left fun range => (Json.wholeNumber?_eq_some range).trans Json.equalsInt_iff

theorem serializeScalar_int_ok {value result : Json} :
    serializeScalar "Int" value = .ok result ↔
      ∃ n : JsonInteger, value.StandsFor n.val ∧ InInt32 n.val ∧ result = .integer n := by
  unfold serializeScalar
  rw [if_pos rfl, intResult_eq_ok]
  refine exists_congr fun n => ?_
  rw [← and_assoc, ← and_assoc]
  refine and_congr_left fun _ => ?_
  cases value with
  | bool b => exact and_congr_left fun _ => by rw [Json.StandsFor, Option.some.injEq, eq_comm]
  | string s =>
    refine and_congr_left fun range => ?_
    rw [Json.StandsFor, readInt64_eq_some]
    exact and_iff_left range.inInt64
  | _ => exact wholeNumber?_eq

theorem coerceScalar_int_ok {value result : Json} :
    coerceScalar "Int" value = .ok result ↔
      ∃ n : JsonInteger, value.number? = some (n.val : ℚ) ∧ InInt32 n.val ∧ result = .integer n := by
  unfold coerceScalar
  rw [if_pos rfl, intResult_eq_ok]
  refine exists_congr fun n => ?_
  rw [← and_assoc, ← and_assoc, wholeNumber?_eq]

theorem toScalar_int_ok {vars : Entries Json} {literal : Value} {result : Json} :
    literal.toScalar vars "Int" = .ok result ↔
      ∃ n : JsonInteger, (∃ text loc, literal = .int text loc ∧ SpellsInt text.toList n.val) ∧
        InInt32 n.val ∧ result = .integer n := by
  rw [toScalar_int]
  constructor
  · rintro ⟨text, loc, n, written, read, range, rfl⟩
    obtain ⟨m, rfl⟩ := JsonInteger.exists_of_inInt64 range.inInt64
    exact ⟨m, ⟨text, loc, written, (readInt64_eq_some.mp read).1⟩, range, Json.ofInt_val m⟩
  · rintro ⟨n, ⟨text, loc, written, spells⟩, range, rfl⟩
    exact ⟨text, loc, n.val, written, readInt64_of_spellsInt spells range.inInt64, range,
      (Json.ofInt_val n).symm⟩

/-- Results, runtime values and literals that are accepted for an Int become the integer of 32 bits
that they stand for, are equal to and spell. Every number is accepted that equals such an integer,
in whichever form, and no other. -/
theorem int_conversions :
    (∀ value result, serializeScalar "Int" value = .ok result ↔
      ∃ n : JsonInteger, value.StandsFor n.val ∧ InInt32 n.val ∧ result = .integer n) ∧
    (∀ value result, coerceScalar "Int" value = .ok result ↔
      ∃ n : JsonInteger, value.number? = some (n.val : ℚ) ∧ InInt32 n.val ∧ result = .integer n) ∧
    (∀ vars literal result, Value.toScalar vars "Int" literal = .ok result ↔
      ∃ n : JsonInteger, (∃ text loc, literal = .int text loc ∧ SpellsInt text.toList n.val) ∧
        InInt32 n.val ∧ result = .integer n) ∧
    ∀ value q, Json.number? value = some q →
      IntOutcome q (serializeScalar "Int" value) ∧ IntOutcome q (coerceScalar "Int" value) := by
  refine ⟨fun _ _ => serializeScalar_int_ok, fun _ _ => coerceScalar_int_ok,
    fun _ _ _ => toScalar_int_ok, fun value q number => ?_⟩
  have outcome := intOutcome number
  have isNumber : value.isNumber = true := by rw [← number?_isSome, number]; rfl
  rw [serializeScalar_int isNumber]
  exact ⟨outcome, outcome⟩

/-- The first integer beyond the signed 64-bit range is no Int. -/
theorem int_conversions_wide :
    (Json.ofInt 9223372036854775808).number? = some 9223372036854775808 ∧
      serializeScalar "Int" (.ofInt 9223372036854775808) = .error .intOutOfRange ∧
      coerceScalar "Int" (.ofInt 9223372036854775808) = .error .intOutOfRange := by
  have number : (Json.ofInt 9223372036854775808).number? = some 9223372036854775808 := by
    simp [Json.ofInt, Json.number?]
  have refused {r : Except ScalarError Json} (h : IntOutcome 9223372036854775808 r) :
      r = .error .intOutOfRange := by
    cases h with
    | @integer n equal range =>
      have wide : n.val = 9223372036854775808 := by exact_mod_cast equal.symm
      unfold InInt32 at range
      omega
    | outOfRange => rfl
    | fraction none => exact absurd (by norm_num) (none 9223372036854775808)
  obtain ⟨-, -, -, outcomes⟩ := int_conversions
  obtain ⟨result, input⟩ := outcomes _ _ number
  exact ⟨number, refused result, refused input⟩

end Input

end GraphQL
