import GraphQL.Number.Integer
import Mathlib.Data.List.Basic
import Mathlib.Tactic.Ring

/-!
Decimal digits: the digits of a number spell it, and zeros after them multiply it by powers of ten.
-/
namespace GraphQL

theorem digitsValue_toDigits (n : Nat) : digitsValue (Nat.toDigits 10 n) = n :=
  Nat.ofDigitChars_ten_toDigits

theorem digitsValue_append (cs ds : List Char) :
    digitsValue (cs ++ ds) = digitsValue cs * 10 ^ ds.length + digitsValue ds := by
  have h : digitsValue (cs ++ ds) = Nat.ofDigitChars 10 ds (digitsValue cs) :=
    Nat.ofDigitChars_append 0
  rw [h, Nat.ofDigitChars_eq_ofDigitChars_zero, Nat.mul_comm]
  rfl

theorem digitsValue_zeros (n : Nat) : digitsValue (List.replicate n '0') = 0 := by
  have h : digitsValue (List.replicate n '0') = 10 ^ n * 0 := Nat.ofDigitChars_replicate_zero
  rw [h, Nat.mul_zero]

theorem digitsValue_zeros_append (n : Nat) (ds : List Char) :
    digitsValue (List.replicate n '0' ++ ds) = digitsValue ds := by
  rw [digitsValue_append, digitsValue_zeros, Nat.zero_mul, Nat.zero_add]

theorem isAsciiDigit_iff {c : Char} : isAsciiDigit c = true ↔ c.isDigit = true := by
  simp [isAsciiDigit, Char.isDigit, Char.le_def]

theorem all_isAsciiDigit_toDigits (n : Nat) : (Nat.toDigits 10 n).all isAsciiDigit = true :=
  List.all_eq_true.mpr fun _ hc =>
    isAsciiDigit_iff.mpr (Nat.isDigit_of_mem_toDigits (by decide) (by decide) hc)

theorem toDigits_mul_ten {n : Nat} (hn : 0 < n) :
    Nat.toDigits 10 (10 * n) = Nat.toDigits 10 n ++ ['0'] := by
  rw [← Nat.add_zero (10 * n), ← Nat.toDigits_append_toDigits (by decide) hn (by decide),
    Nat.toDigits_zero]

theorem toDigits_mul_pow {n : Nat} (hn : 0 < n) (k : Nat) :
    Nat.toDigits 10 (n * 10 ^ k) = Nat.toDigits 10 n ++ List.replicate k '0' := by
  induction k with
  | zero => simp
  | succ k ih =>
    have step : n * 10 ^ (k + 1) = 10 * (n * 10 ^ k) := by ring
    rw [step, toDigits_mul_ten (Nat.mul_pos hn (Nat.pow_pos (by decide))), ih,
      List.replicate_succ', List.append_assoc]

theorem head?_toDigits {n : Nat} (hn : n ≠ 0) : (Nat.toDigits 10 n).head? ≠ some '0' := by
  induction n using Nat.strongRecOn with
  | ind n ih =>
    rw [Nat.toDigits_eq_if (by decide)]
    split
    · rw [List.head?_cons, ne_eq, Option.some.injEq, Nat.digitChar_eq_zero]
      exact hn
    · rw [List.head?_append_of_ne_nil _ Nat.toDigits_ne_nil]
      exact ih (n / 10) (by omega) (by omega)

theorem toDigits_eq_cons {n : Nat} (hn : n ≠ 0) :
    ∃ d rest, Nat.toDigits 10 n = d :: rest ∧ d ≠ '0' ∧ isAsciiDigit d = true ∧
      rest.all isAsciiDigit = true := by
  obtain ⟨d, rest, hd⟩ := List.exists_cons_of_ne_nil (Nat.toDigits_ne_nil (n := n) (b := 10))
  have digits := all_isAsciiDigit_toDigits n
  rw [hd, List.all_cons, Bool.and_eq_true] at digits
  have head := head?_toDigits hn
  rw [hd, List.head?_cons, ne_eq, Option.some.injEq] at head
  exact ⟨d, rest, hd, head, digits⟩

theorem length_toDigits_mul_le {m limit f n : Nat} (hm : m < limit) (hf : 0 < f)
    (h : limit * f ≤ 10 ^ n) (hn : 0 < n) : (Nat.toDigits 10 (m * f)).length ≤ n := by
  rw [Nat.length_toDigits_le_iff (by decide) hn]
  exact Nat.lt_of_lt_of_le (Nat.mul_lt_mul_of_pos_right hm hf) h

theorem lt_length_toDigits_mul {m f n : Nat} (hm : m ≠ 0) (h : 10 ^ n ≤ f) (hn : 0 < n) :
    n < (Nat.toDigits 10 (m * f)).length := by
  rw [← Nat.not_le, Nat.length_toDigits_le_iff (by decide) hn, Nat.not_lt]
  exact Nat.le_trans h (Nat.le_mul_of_pos_left f (Nat.pos_of_ne_zero hm))

theorem inInt64_of_readInt64 {cs : List Char} {n : Int} (h : readInt64 cs = some n) :
    InInt64 n := by
  unfold readInt64 at h
  split at h
  dsimp only at h
  split_ifs at h with malformed negative range range
  all_goals exact Option.some.inj h ▸ range

end GraphQL
