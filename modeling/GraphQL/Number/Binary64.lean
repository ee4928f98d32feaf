import GraphQL.Number.Power

/-!
Exact binary64 numbers. A finite magnitude is a whole number of units of 2^-1074 that
53 significant bits can hold, so two finite values are equal exactly when their signs
and units are. Rounding is to the nearest value, a half going to the even neighbour.
-/
namespace GraphQL

/-- The quotient rounded to the nearest integer, a half to the even neighbour. -/
def roundQuotient (num den : Nat) : Nat :=
  if 2 * (num % den) < den then num / den
  else if den < 2 * (num % den) then num / den + 1
  else if num / den % 2 = 0 then num / den
  else num / den + 1

theorem roundQuotient_le (num den : Nat) : roundQuotient num den ≤ num / den + 1 := by
  unfold roundQuotient
  split
  · omega
  · split
    · omega
    · split <;> omega

/-- The units of 2^-1074 in one. -/
def unitsPerOne : Nat := twoTo 1074

def unitsLimit : Nat := twoTo 2098

/-- Units of 2^-1074 that binary64 can hold: 53 significant bits, below 2^1024. -/
def Representable (units : Nat) : Prop :=
  units < unitsLimit ∧ twoTo (units.log2 - 52) ∣ units

instance (units : Nat) : Decidable (Representable units) :=
  inferInstanceAs (Decidable (_ ∧ _))

/-- A finite binary64 number; zero has a sign. -/
structure Finite64 where
  negative : Bool
  units : Nat
  representable : Representable units
deriving DecidableEq

/-- A binary64 number, all not-a-number patterns taken as one. -/
inductive Binary64 where
  | finite (x : Finite64)
  | infinite (negative : Bool)
  | nan
deriving DecidableEq

/-- At most 53 bits, shifted left, have at most 53 significant bits. -/
theorem twoTo_log2_dvd_shift {r : Nat} (s : Nat) (h : r ≤ twoTo 53) :
    twoTo ((r * twoTo s).log2 - 52) ∣ r * twoTo s := by
  change r ≤ 2 ^ 53 at h
  change 2 ^ ((r * 2 ^ s).log2 - 52) ∣ r * 2 ^ s
  by_cases h0 : r = 0
  · subst h0; simp
  by_cases h1 : r = 2 ^ 53
  · subst h1
    rw [← Nat.pow_add, Nat.log2_two_pow]
    exact Nat.pow_dvd_pow 2 (by omega)
  · have hr : r < 2 ^ 53 := by omega
    have hne : r * 2 ^ s ≠ 0 := by
      have : 0 < r * 2 ^ s := Nat.mul_pos (by omega) (Nat.two_pow_pos s)
      omega
    have hlt : (r * 2 ^ s).log2 < 53 + s := by
      rw [Nat.log2_lt hne, Nat.pow_add]
      exact Nat.mul_lt_mul_of_pos_right hr (Nat.two_pow_pos s)
    exact Nat.dvd_trans (Nat.pow_dvd_pow 2 (by omega)) (Nat.dvd_mul_left _ _)

/-- The power of two that a quotient is rounded to so that 53 bits remain. -/
def roundingShift (num den : Nat) : Nat := (num / den).log2 - 52

theorem roundQuotient_shift_le (num den : Nat) :
    roundQuotient num (den * twoTo (roundingShift num den)) ≤ twoTo 53 := by
  change roundQuotient num (den * 2 ^ roundingShift num den) ≤ 2 ^ 53
  refine Nat.le_trans (roundQuotient_le _ _) ?_
  rw [← Nat.div_div_eq_div_mul]
  have h : num / den < 2 ^ 53 * 2 ^ roundingShift num den := by
    rw [← Nat.pow_add]
    by_cases h0 : num / den = 0
    · rw [h0]; exact Nat.two_pow_pos _
    · rw [← Nat.log2_lt h0]
      unfold roundingShift
      omega
  exact (Nat.div_lt_iff_lt_mul (Nat.two_pow_pos _)).2 h

namespace Binary64

/-- The number nearest to `num / den`; from 2^1024 - 2^970 on it is infinite. -/
def ofRatio (negative : Bool) (num den : Nat) : Binary64 :=
  let s := roundingShift (num * unitsPerOne) den
  let r := roundQuotient (num * unitsPerOne) (den * twoTo s)
  if h : r * twoTo s < unitsLimit then
    .finite ⟨negative, r * twoTo s, h, twoTo_log2_dvd_shift s (roundQuotient_shift_le _ _)⟩
  else .infinite negative

def ofInt (n : Int) : Binary64 := ofRatio (n < 0) n.natAbs 1

/-- The number nearest to `digits * 10 ^ exponent`. Magnitudes outside 10^-330 to 10^310
are settled by their order alone. -/
def ofDecimal (negative : Bool) (digits : Nat) (exponent : Int) : Binary64 :=
  let order := (Nat.toDigits 10 digits).length + exponent
  if digits = 0 then ofRatio negative 0 1
  else if 310 < order then .infinite negative
  else if order < -330 then ofRatio negative 0 1
  else if 0 ≤ exponent then ofRatio negative (digits * tenTo exponent.toNat) 1
  else ofRatio negative digits (tenTo (-exponent).toNat)

def isFinite : Binary64 → Bool
  | finite _ => true
  | _ => false

def finite? : Binary64 → Option Finite64
  | finite x => some x
  | _ => none

end Binary64

namespace Finite64

def isZero (x : Finite64) : Bool := x.units = 0

def isIntegral (x : Finite64) : Bool := x.units % unitsPerOne = 0

def toInt (x : Finite64) : Int :=
  if x.negative then -((x.units / unitsPerOne : Nat) : Int) else (x.units / unitsPerOne : Nat)

/-- The integer part, clamped to the signed 64-bit range. -/
def toInt64 (x : Finite64) : Int :=
  max (-9223372036854775808) (min 9223372036854775807 x.toInt)

end Finite64

end GraphQL
