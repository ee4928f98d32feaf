import GraphQL.Number.Decimal
import GraphQL.Proofs.Number.Digits
import Mathlib.Algebra.Order.Ring.Nat
import Mathlib.Tactic.NormNum

/-!
The digits that a finite number is written with read back as the number, with as many zeros after
them as there may be.
-/
namespace GraphQL

theorem twoTo_pos (n : Nat) : 0 < twoTo n := Nat.two_pow_pos n

theorem tenTo_pos (n : Nat) : 0 < tenTo n := Nat.pow_pos (by decide)

theorem roundQuotient_mul_right (num den : Nat) {c : Nat} (hc : 0 < c) :
    roundQuotient (num * c) (den * c) = roundQuotient num den := by
  have twice : 2 * (num % den * c) = 2 * (num % den) * c := (Nat.mul_assoc ..).symm
  unfold roundQuotient
  rw [Nat.mul_div_mul_right _ _ hc, Nat.mul_mod_mul_right, twice]
  simp only [Nat.mul_lt_mul_right hc]

theorem roundQuotient_mul_self (n : Nat) {den : Nat} (h : 0 < den) :
    roundQuotient (n * den) den = n := by
  unfold roundQuotient
  rw [Nat.mul_mod_left, Nat.mul_div_cancel _ h, if_pos (by omega)]

theorem representable_zero : Representable 0 := by
  refine ⟨?_, Nat.dvd_zero _⟩
  unfold unitsLimit
  exact twoTo_pos 2098

namespace Binary64

theorem ofRatio_mul_right (negative : Bool) (num den : Nat) {c : Nat} (hc : 0 < c) :
    ofRatio negative (num * c) (den * c) = ofRatio negative num den := by
  have units : num * c * unitsPerOne = num * unitsPerOne * c := Nat.mul_right_comm ..
  have shift : roundingShift (num * c * unitsPerOne) (den * c) =
      roundingShift (num * unitsPerOne) den := by
    unfold roundingShift
    rw [units, Nat.mul_div_mul_right _ _ hc]
  have quotient (s : Nat) : roundQuotient (num * c * unitsPerOne) (den * c * twoTo s) =
      roundQuotient (num * unitsPerOne) (den * twoTo s) := by
    rw [units, Nat.mul_right_comm den, roundQuotient_mul_right _ _ hc]
  unfold ofRatio
  simp only [shift, quotient]

theorem ofRatio_of_exact (negative : Bool) {num den units : Nat} (hd : 0 < den)
    (exact : num * unitsPerOne = units * den) (h : Representable units) :
    ofRatio negative num den = .finite ⟨negative, units, h⟩ := by
  have shift : roundingShift (num * unitsPerOne) den = units.log2 - 52 := by
    unfold roundingShift
    rw [exact, Nat.mul_div_cancel _ hd]
  obtain ⟨q, hq⟩ := h.2
  have power : 0 < twoTo (units.log2 - 52) := Nat.two_pow_pos _
  have rounded : roundQuotient (num * unitsPerOne) (den * twoTo (units.log2 - 52)) = q := by
    have whole : num * unitsPerOne = q * (den * twoTo (units.log2 - 52)) := by
      rw [exact]
      conv_lhs => rw [hq]
      ring
    rw [whole, roundQuotient_mul_self _ (Nat.mul_pos hd power)]
  have back : q * twoTo (units.log2 - 52) = units := by rw [Nat.mul_comm, ← hq]
  unfold ofRatio
  simp only [shift, rounded, back]
  rw [dif_pos h.1]

theorem ofDecimal_zero (negative : Bool) (exponent : Int) :
    ofDecimal negative 0 exponent = .finite ⟨negative, 0, representable_zero⟩ := by
  unfold ofDecimal
  simp only [if_true]
  exact ofRatio_of_exact negative Nat.one_pos (Nat.zero_mul _) representable_zero

theorem ofDecimal_mul_pow (negative : Bool) (digits k : Nat) (exponent : Int) :
    ofDecimal negative (digits * 10 ^ k) exponent = ofDecimal negative digits (exponent + k) := by
  rcases Nat.eq_zero_or_pos digits with rfl | hd
  · rw [Nat.zero_mul]
    rfl
  have nonzero : digits * 10 ^ k ≠ 0 := (Nat.mul_pos hd (Nat.pow_pos (by decide))).ne'
  have order : ((Nat.toDigits 10 (digits * 10 ^ k)).length : Int) + exponent =
      (Nat.toDigits 10 digits).length + (exponent + k) := by
    rw [toDigits_mul_pow hd, List.length_append, List.length_replicate]
    omega
  unfold ofDecimal
  simp only [order, if_neg nonzero, if_neg hd.ne']
  split
  · rfl
  split
  · rfl
  by_cases he : 0 ≤ exponent
  · have power : (exponent + k).toNat = k + exponent.toNat := by omega
    rw [if_pos he, if_pos (by omega : 0 ≤ exponent + k), power, Nat.mul_assoc]
    exact congrArg (fun n => ofRatio negative (digits * n) 1) (Nat.pow_add ..).symm
  · rw [if_neg he]
    split
    · -- the denominator divides the zeros
      obtain ⟨j, hj⟩ : ∃ j, k = j + (-exponent).toNat := ⟨_, (Nat.sub_add_cancel (by omega)).symm⟩
      have power : (exponent + k).toNat = j := by omega
      have split : digits * 10 ^ k = digits * tenTo j * tenTo (-exponent).toNat := by
        rw [hj, Nat.pow_add, ← Nat.mul_assoc]
        rfl
      have cancel := ofRatio_mul_right negative (digits * tenTo j) 1
        (c := tenTo (-exponent).toNat) (tenTo_pos _)
      rw [split, power, ← cancel, Nat.one_mul]
    · -- the zeros divide the denominator
      have power : (-exponent).toNat = (-(exponent + k)).toNat + k := by omega
      have split : tenTo (-exponent).toNat = tenTo (-(exponent + k)).toNat * 10 ^ k := by
        rw [power]
        exact Nat.pow_add ..
      rw [split, ofRatio_mul_right _ _ _ (Nat.pow_pos (by decide))]

theorem ofDecimal_neg (negative : Bool) {digits n : Nat} (hd : digits ≠ 0) (hn : 0 < n)
    (upper : (Nat.toDigits 10 digits).length ≤ 310 + n)
    (lower : n ≤ (Nat.toDigits 10 digits).length + 330) :
    ofDecimal negative digits (-n) = ofRatio negative digits (tenTo n) := by
  unfold ofDecimal
  simp only [if_neg hd]
  rw [if_neg (by omega), if_neg (by omega), if_neg (by omega), Int.neg_neg, Int.toNat_natCast]

end Binary64

namespace Finite64

variable {x : Finite64}

theorem onGrid?_readsBack {tieToEven : Bool} {g : Int} {digits : Nat}
    (h : x.onGrid? tieToEven g = some digits) : x.readsBack digits g = true := by
  unfold onGrid? at h
  dsimp only at h
  split at h
  · split at h
    · split at h
      · cases h
        assumption
      · cases h
        assumption
      · split at h <;> cases h <;> assumption
    · cases h
      assumption
  · split at h
    · cases h
      assumption
    · cases h

/-- All digits of the exact value read back. -/
theorem exact_readsBack (hx : x.units ≠ 0) :
    x.readsBack (x.units * Nat.pow 5 1074) (-1074) = true := by
  generalize hf : Nat.pow 5 1074 = f
  have least : 10 ^ 743 ≤ f := hf ▸ by decide +kernel
  have most : twoTo 2098 * f ≤ 10 ^ 1384 := hf ▸ by decide +kernel
  have ten : f * twoTo 1074 = tenTo 1074 := hf ▸ by decide +kernel
  have pos : 0 < f := Nat.lt_of_lt_of_le (Nat.pow_pos (by decide)) least
  have upper := length_toDigits_mul_le x.representable.1 pos most (by decide)
  have lower := lt_length_toDigits_mul hx least (by decide)
  have ratio : x.units * f * unitsPerOne = x.units * tenTo 1074 := by
    rw [Nat.mul_assoc]
    exact congrArg (x.units * ·) ten
  have exact := Binary64.ofRatio_of_exact x.negative (tenTo_pos 1074) ratio x.representable
  have fraction := Binary64.ofDecimal_neg x.negative (Nat.mul_ne_zero hx pos.ne')
    (n := 1074) (by decide) upper (Nat.add_le_add_right lower 330)
  exact decide_eq_true (fraction.trans exact)

theorem shortestFrom_readsBack (hx : x.units ≠ 0) (tieToEven : Bool) (g : Int) (n : Nat) :
    x.readsBack (x.shortestFrom tieToEven g n).1 (x.shortestFrom tieToEven g n).2 = true := by
  induction n generalizing g with
  | zero => exact exact_readsBack hx
  | succ n ih =>
    rw [shortestFrom]
    split
    · exact onGrid?_readsBack ‹_›
    · exact ih (g - 1)

end Finite64

end GraphQL
