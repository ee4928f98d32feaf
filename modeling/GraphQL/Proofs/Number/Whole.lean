import GraphQL.Input.Scalar
import GraphQL.Proofs.Number.ReadBack

/-!
Integers among the numbers of JSON. Main statements: a 64-bit integer is finite as a float, and a
number is taken for an Int exactly if it equals an integer of 32 bits, in whichever form it is
given.
-/
namespace GraphQL

theorem le_roundQuotient (num den : Nat) : num / den ≤ roundQuotient num den := by
  unfold roundQuotient
  split_ifs <;> omega

theorem roundQuotient_mul_le {num den : Nat} (h : den ≤ num) :
    roundQuotient num den * den ≤ 2 * num := by
  have up := roundQuotient_le num den
  have down : num / den * den ≤ num := Nat.div_mul_le_self num den
  calc roundQuotient num den * den ≤ (num / den + 1) * den := Nat.mul_le_mul_right den up
    _ = num / den * den + den := by ring
    _ ≤ 2 * num := by omega

/-- Rounding to multiples of a power of two does not go below a larger one. -/
theorem pow_le_roundQuotient_mul {num s k : Nat} (hs : s ≤ k) (h : 2 ^ k ≤ num) :
    2 ^ k ≤ roundQuotient num (2 ^ s) * 2 ^ s := by
  have split : 2 ^ k = 2 ^ (k - s) * 2 ^ s := by
    rw [← Nat.pow_add, Nat.sub_add_cancel hs]
  have quotient : 2 ^ (k - s) ≤ num / 2 ^ s := by
    rw [Nat.le_div_iff_mul_le (Nat.two_pow_pos s), ← split]
    exact h
  calc 2 ^ k = 2 ^ (k - s) * 2 ^ s := split
    _ ≤ roundQuotient num (2 ^ s) * 2 ^ s :=
      Nat.mul_le_mul_right _ (quotient.trans (le_roundQuotient _ _))

theorem unitsPerOne_pos : 0 < unitsPerOne := twoTo_pos 1074

/-- The units that 53 bits leave of a number of units. -/
def roundedUnits (units : Nat) : Nat :=
  roundQuotient units (twoTo (roundingShift units 1)) * twoTo (roundingShift units 1)

theorem roundedUnits_le (units : Nat) : roundedUnits units ≤ 2 * units := by
  unfold roundedUnits
  by_cases zero : units = 0
  · rw [zero, roundQuotient, Nat.zero_mod, if_pos (twoTo_pos _), Nat.zero_div, Nat.zero_mul]
  · apply roundQuotient_mul_le
    unfold roundingShift
    rw [Nat.div_one]
    exact (Nat.pow_le_pow_right (by decide) (Nat.sub_le _ 52)).trans (Nat.log2_self_le zero)

theorem twoTo_le_roundedUnits {units k : Nat} (least : twoTo k ≤ units)
    (most : units < twoTo (k + 52)) : twoTo k ≤ roundedUnits units := by
  have nonzero : units ≠ 0 := (Nat.lt_of_lt_of_le (twoTo_pos k) least).ne'
  have shift : roundingShift units 1 ≤ k := by
    unfold roundingShift
    rw [Nat.div_one]
    have := (Nat.log2_lt nonzero).mpr most
    omega
  exact pow_le_roundQuotient_mul shift least

theorem twoTo_dvd_twoTo {k s : Nat} (h : k ≤ s) : twoTo k ∣ twoTo s := Nat.pow_dvd_pow 2 h

theorem unitsPerOne_dvd_roundedUnits (n : Nat) : unitsPerOne ∣ roundedUnits (n * unitsPerOne) := by
  unfold roundedUnits
  generalize roundingShift (n * unitsPerOne) 1 = s
  rcases Nat.le_total s 1074 with fine | coarse
  · obtain ⟨k, hk⟩ : ∃ k, 1074 = k + s := ⟨1074 - s, (Nat.sub_add_cancel fine).symm⟩
    have split : unitsPerOne = twoTo k * twoTo s := by
      rw [unitsPerOne, hk]
      exact Nat.pow_add ..
    have exact : n * unitsPerOne = n * twoTo k * twoTo s := by rw [split, Nat.mul_assoc]
    rw [exact, roundQuotient_mul_self _ (twoTo_pos s), ← exact]
    exact Nat.dvd_mul_left _ _
  · exact Nat.dvd_trans (twoTo_dvd_twoTo coarse) (Nat.dvd_mul_left _ _)

namespace Binary64

variable {n : Int}

/-- An integer of up to 64 bits as a float. -/
theorem ofInt_of_natAbs_le (h : n.natAbs ≤ 2 ^ 64) :
    ∃ x, ofInt n = .finite x ∧ x.negative = decide (n < 0) ∧
      x.units = roundedUnits (n.natAbs * unitsPerOne) := by
  have finite : roundedUnits (n.natAbs * unitsPerOne) < unitsLimit :=
    calc roundedUnits (n.natAbs * unitsPerOne) ≤ 2 * (n.natAbs * unitsPerOne) := roundedUnits_le _
      _ ≤ 2 * (2 ^ 64 * unitsPerOne) := Nat.mul_le_mul_left 2 (Nat.mul_le_mul_right _ h)
      _ < unitsLimit := by decide +kernel
  unfold roundedUnits at finite ⊢
  unfold ofInt ofRatio
  simp only [Nat.one_mul]
  rw [dif_pos finite]
  exact ⟨_, rfl, rfl, rfl⟩

theorem exists_finite (n : JsonInteger) : ∃ x, ofInt n.val = .finite x := by
  have range := n.inRange
  obtain ⟨x, hx, -⟩ := ofInt_of_natAbs_le (n := n.val) (by omega)
  exact ⟨x, hx⟩

/-- As a float an integer has no fraction. -/
theorem isIntegral_ofInt {x : Finite64} (bound : n.natAbs ≤ 2 ^ 64) (h : ofInt n = .finite x) :
    x.isIntegral = true := by
  obtain ⟨y, hy, -, units⟩ := ofInt_of_natAbs_le bound
  obtain rfl : y = x := Binary64.finite.inj (hy.symm.trans h)
  apply decide_eq_true
  rw [units]
  exact Nat.mod_eq_zero_of_dvd (unitsPerOne_dvd_roundedUnits _)

/-- An integer beyond the signed range is beyond it as a float, too. -/
theorem le_toInt_ofInt {x : Finite64} (large : 2 ^ 63 ≤ n) (bound : n.natAbs ≤ 2 ^ 64)
    (h : ofInt n = .finite x) : 2 ^ 63 ≤ x.toInt := by
  obtain ⟨y, hy, sign, units⟩ := ofInt_of_natAbs_le bound
  obtain rfl : y = x := Binary64.finite.inj (hy.symm.trans h)
  have positive : y.negative = false := by rw [sign, decide_eq_false (by omega)]
  have least : twoTo 1137 ≤ n.natAbs * unitsPerOne :=
    calc twoTo 1137 ≤ 2 ^ 63 * unitsPerOne := by decide +kernel
      _ ≤ n.natAbs * unitsPerOne := Nat.mul_le_mul_right _ (by omega)
  have most : n.natAbs * unitsPerOne < twoTo 1189 :=
    calc n.natAbs * unitsPerOne ≤ 2 ^ 64 * unitsPerOne := Nat.mul_le_mul_right _ bound
      _ < twoTo 1189 := by decide +kernel
  have whole : 2 ^ 63 ≤ y.units / unitsPerOne := by
    rw [Nat.le_div_iff_mul_le unitsPerOne_pos, units]
    calc 2 ^ 63 * unitsPerOne ≤ twoTo 1137 := by decide +kernel
      _ ≤ roundedUnits (n.natAbs * unitsPerOne) := twoTo_le_roundedUnits least most
  unfold Finite64.toInt
  rw [positive, if_neg Bool.false_ne_true]
  exact_mod_cast whole

end Binary64

namespace Finite64

variable {x : Finite64} {n : Int}

theorem toInt64_eq (h : InInt32 n) : x.toInt64 = n ↔ x.toInt = n := by
  unfold InInt32 at h
  unfold toInt64
  omega

theorem integral?_eq_some (h : InInt32 n) :
    x.integral? = some n ↔ x.isIntegral = true ∧ x.toInt = n := by
  unfold integral?
  cases x.isIntegral with
  | false => simp
  | true => simp [toInt64_eq h]

end Finite64

theorem JsonInteger.exists_of_inInt64 {n : Int} (h : InInt64 n) : ∃ m : JsonInteger, m.val = n := by
  unfold InInt64 at h
  exact ⟨⟨n, by omega⟩, rfl⟩

namespace Json

def EqualsInt (n : Int) : Json → Prop
  | integer m => m.val = n
  | float x => x.isIntegral = true ∧ x.toInt = n
  | _ => False

/-- A number is taken for an integer of 32 bits exactly if it equals it. -/
theorem wholeNumber?_eq_some {value : Json} {n : Int} (h : InInt32 n) :
    value.wholeNumber? = some n ↔ value.EqualsInt n := by
  cases value with
  | integer m =>
    unfold wholeNumber? EqualsInt
    dsimp only
    split
    · rw [Option.some.injEq]
    · -- the integer is not in the signed 64-bit range, so neither is it as a float
      rename_i wide
      have range := m.inRange
      have large : 2 ^ 63 ≤ m.val := by
        unfold InInt64 at wide
        omega
      obtain ⟨x, hx⟩ := Binary64.exists_finite m
      have far := Binary64.le_toInt_ofInt large (by omega) hx
      unfold InInt32 at h
      rw [hx, Binary64.finite?, Option.bind_some, Finite64.integral?_eq_some h]
      omega
  | float x => exact Finite64.integral?_eq_some h
  | _ => simp [wholeNumber?, EqualsInt]

/-- A number is taken for some integer exactly if it equals one. -/
theorem wholeNumber?_isSome {value : Json} :
    value.wholeNumber?.isSome = true ↔ ∃ n, value.EqualsInt n := by
  cases value with
  | integer m =>
    refine iff_of_true ?_ ⟨m.val, rfl⟩
    unfold wholeNumber?
    dsimp only
    split_ifs
    · rfl
    · have range := m.inRange
      obtain ⟨x, hx⟩ := Binary64.exists_finite m
      have whole := Binary64.isIntegral_ofInt (by omega) hx
      rw [hx, Binary64.finite?, Option.bind_some, Finite64.integral?, if_pos whole, Option.isSome_some]
  | float x => cases whole : x.isIntegral <;> simp [wholeNumber?, Finite64.integral?, EqualsInt, whole]
  | _ => simp [wholeNumber?, EqualsInt]

theorem ofInt_val (n : JsonInteger) : ofInt n.val = .integer n := dif_pos n.inRange

end Json

theorem InInt32.inInt64 {n : Int} (h : InInt32 n) : InInt64 n := by
  unfold InInt32 at h
  unfold InInt64
  omega

theorem intResult_eq_ok {found : Option Int} {result : Json} :
    intResult found = .ok result ↔
      ∃ n : JsonInteger, found = some n.val ∧ InInt32 n.val ∧ result = .integer n := by
  constructor
  · intro ok
    cases found with
    | none => cases ok
    | some n =>
      unfold intResult at ok
      dsimp only at ok
      split_ifs at ok with range
      obtain ⟨m, rfl⟩ := JsonInteger.exists_of_inInt64 range.inInt64
      rw [Json.ofInt_val] at ok
      exact ⟨m, rfl, range, (Except.ok.inj ok).symm⟩
  · rintro ⟨n, rfl, range, rfl⟩
    unfold intResult
    dsimp only
    rw [if_pos range, Json.ofInt_val]

theorem floatResult_eq_ok {x : Option Binary64} {result : Json} :
    floatResult x = .ok result ↔ ∃ y, x = some (.finite y) ∧ result = .float y := by
  rcases x with - | - | - | y
  case some.finite => simp [floatResult, Json.ofBinary64?, eq_comm]
  all_goals simp [floatResult, Json.ofBinary64?]

/-- What is taken for an Int, and what it becomes. -/
theorem intResult_wholeNumber?_eq_ok {value result : Json} :
    intResult value.wholeNumber? = .ok result ↔
      ∃ n, value.EqualsInt n ∧ InInt32 n ∧ result = Json.ofInt n := by
  rw [intResult_eq_ok]
  constructor
  · rintro ⟨n, found, range, rfl⟩
    exact ⟨n.val, (Json.wholeNumber?_eq_some range).mp found, range, (Json.ofInt_val n).symm⟩
  · rintro ⟨n, equals, range, rfl⟩
    obtain ⟨m, rfl⟩ := JsonInteger.exists_of_inInt64 range.inInt64
    exact ⟨m, (Json.wholeNumber?_eq_some range).mpr equals, range, Json.ofInt_val m⟩

end GraphQL
