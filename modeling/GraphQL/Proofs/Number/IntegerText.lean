import GraphQL.Proofs.Number.Digits
import Mathlib.Data.List.Induction
import Mathlib.Data.Nat.Digits.Defs

/-!
Which texts are integers, and the numbers that they spell. Main statement: a text is read as an
integer of 64 bits exactly if it spells that integer in decimal digits, with or without a sign.
-/
namespace GraphQL

/-- One or more decimal digits. -/
structure IsDecimal (ds : List Char) : Prop where
  some : ds ≠ []
  all : ds.all isAsciiDigit = true

/-- The number with these digits, the first of the highest place. -/
def decimalNumber (ds : List Char) : Nat :=
  Nat.ofDigits 10 (ds.reverse.map fun c => c.toNat - '0'.toNat)

/-- The text is the integer in decimal digits, with or without a sign. -/
inductive SpellsInt : List Char → Int → Prop where
  | unsigned {ds : List Char} : IsDecimal ds → SpellsInt ds (decimalNumber ds)
  | plus {ds : List Char} : IsDecimal ds → SpellsInt ('+' :: ds) (decimalNumber ds)
  | minus {ds : List Char} : IsDecimal ds → SpellsInt ('-' :: ds) (-(decimalNumber ds : Int))

theorem digitsValue_eq (ds : List Char) : digitsValue ds = decimalNumber ds := by
  induction ds using List.reverseRecOn with
  | nil => rfl
  | append_singleton ds c ih =>
    have last : digitsValue [c] = c.toNat - '0'.toNat := Nat.zero_add _
    rw [digitsValue_append, ih, last, decimalNumber, decimalNumber, List.reverse_append,
      List.reverse_singleton, List.singleton_append, List.map_cons, Nat.ofDigits_cons,
      List.length_singleton, Nat.pow_one, Nat.add_comm, Nat.mul_comm]

theorem IsDecimal.head {d : Char} {ds : List Char} (h : IsDecimal (d :: ds)) :
    d ≠ '-' ∧ d ≠ '+' := by
  have digit : isAsciiDigit d = true := List.all_eq_true.mp h.all d List.mem_cons_self
  constructor <;>
    rintro rfl <;>
      cases digit

/-- What is read as an integer has a sign or none, and digits. -/
theorem spellsInt_of_readInt64 {cs : List Char} {n : Int} (h : readInt64 cs = some n) :
    SpellsInt cs n := by
  have decimal {ds : List Char} (ok : ¬ (ds.isEmpty || !ds.all isAsciiDigit) = true) :
      IsDecimal ds := by
    simp only [Bool.or_eq_true, Bool.not_eq_true', not_or, List.isEmpty_iff,
      Bool.not_eq_false] at ok
    exact ⟨ok.1, ok.2⟩
  unfold readInt64 at h
  split at h
  rename_i negative ds split
  split at split <;> cases split
  all_goals
    simp only [Bool.false_eq_true, ↓reduceIte] at h
    split_ifs at h with malformed range
    cases h
    rw [digitsValue_eq]
  · exact .minus (decimal malformed)
  · exact .plus (decimal malformed)
  · exact .unsigned (decimal malformed)

theorem readInt64_of_spellsInt {cs : List Char} {n : Int} (h : SpellsInt cs n)
    (range : InInt64 n) : readInt64 cs = some n := by
  cases h with
  | @unsigned ds decimal =>
    obtain ⟨d, ds, rfl⟩ := List.exists_cons_of_ne_nil decimal.some
    rw [← digitsValue_eq] at range ⊢
    simp [readInt64, decimal.head, decimal.all, range, -List.all_cons]
  | @plus ds decimal =>
    rw [← digitsValue_eq] at range ⊢
    simp [readInt64, decimal.some, decimal.all, range, -List.all_eq_true]
  | @minus ds decimal =>
    rw [← digitsValue_eq] at range ⊢
    simp [readInt64, decimal.some, decimal.all, range, -List.all_eq_true]

/-- Exactly the texts of integers are read, if the integers have 64 bits. -/
theorem readInt64_eq_some {cs : List Char} {n : Int} :
    readInt64 cs = some n ↔ SpellsInt cs n ∧ InInt64 n :=
  ⟨fun h => ⟨spellsInt_of_readInt64 h, inInt64_of_readInt64 h⟩,
    fun h => readInt64_of_spellsInt h.1 h.2⟩

theorem SpellsInt.unique {cs : List Char} {n m : Int} (h : SpellsInt cs n) (h' : SpellsInt cs m) :
    n = m := by
  cases h with
  | unsigned decimal =>
    cases h' with
    | unsigned => rfl
    | plus => exact absurd rfl decimal.head.2
    | minus => exact absurd rfl decimal.head.1
  | plus =>
    cases h' with
    | unsigned decimal => exact absurd rfl decimal.head.2
    | plus => rfl
  | minus =>
    cases h' with
    | unsigned decimal => exact absurd rfl decimal.head.1
    | minus => rfl

theorem spellsInt_integerText (n : Int) : SpellsInt (integerText n).toList n := by
  have decimal : IsDecimal (Nat.toDigits 10 n.natAbs) :=
    ⟨Nat.toDigits_ne_nil, all_isAsciiDigit_toDigits n.natAbs⟩
  have value : decimalNumber (Nat.toDigits 10 n.natAbs) = n.natAbs := by
    rw [← digitsValue_eq, digitsValue_toDigits]
  by_cases negative : n < 0
  · have abs : -(decimalNumber (Nat.toDigits 10 n.natAbs) : Int) = n := by omega
    have spelled := SpellsInt.minus decimal
    rw [abs] at spelled
    simp only [integerText, if_pos negative, String.toList_append, String.toList_ofList]
    exact spelled
  · have abs : (decimalNumber (Nat.toDigits 10 n.natAbs) : Int) = n := by omega
    have spelled := SpellsInt.unsigned decimal
    rw [abs] at spelled
    rw [integerText, if_neg negative, String.toList_ofList]
    exact spelled

theorem readInt64_integerText {n : Int} (h : InInt64 n) :
    readInt64 (integerText n).toList = some n :=
  readInt64_of_spellsInt (spellsInt_integerText n) h

theorem readInt64_integerText_eq_none {n : Int} (h : ¬ InInt64 n) :
    readInt64 (integerText n).toList = none := by
  cases read : readInt64 (integerText n).toList with
  | none => rfl
  | some m =>
    obtain ⟨spells, range⟩ := readInt64_eq_some.mp read
    exact absurd ((spellsInt_integerText n).unique spells ▸ range) h

end GraphQL
