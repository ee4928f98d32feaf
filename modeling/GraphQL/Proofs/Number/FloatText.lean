import GraphQL.Proofs.Number.ReadBack
import Mathlib.Data.List.TakeWhile

/-!
The text of finite numbers. Main statement: in every layout the text of a number reads back as the
number.
-/
namespace GraphQL

/-- Digits without leading zeros. -/
inductive IsWhole : List Char → Prop where
  | zero : IsWhole ['0']
  | digits {d : Char} {rest : List Char} :
      d ≠ '0' → (d :: rest).all isAsciiDigit = true → IsWhole (d :: rest)

def exponentText (layout : DecimalLayout) (power : Int) : List Char :=
  (if power < 0 then ['-'] else if layout.plusSign then ['+'] else []) ++
    Nat.toDigits 10 power.natAbs

def fractionText (fraction : List Char) : List Char :=
  if fraction = [] then [] else '.' :: fraction

/-- The text denotes `digits * 10 ^ exponent`. -/
inductive DecimalText (layout : DecimalLayout) : List Char → Nat → Int → Prop where
  | positional {whole fraction : List Char} :
      IsWhole whole → fraction ≠ [] → fraction.all isAsciiDigit = true →
      DecimalText layout (whole ++ '.' :: fraction) (digitsValue (whole ++ fraction))
        (-fraction.length)
  | scientific {d : Char} {fraction : List Char} {power : Int} :
      d ≠ '0' → (d :: fraction).all isAsciiDigit = true →
      ¬ (layout.positionalFrom ≤ power ∧ power < layout.positionalBelow) →
      DecimalText layout (d :: (fractionText fraction ++ 'e' :: exponentText layout power))
        (digitsValue (d :: fraction)) (power - fraction.length)

theorem IsWhole.exists_cons {whole : List Char} (h : IsWhole whole) :
    ∃ d rest, whole = d :: rest ∧ isAsciiDigit d = true ∧ rest.all isAsciiDigit = true := by
  cases h with
  | zero => exact ⟨'0', [], rfl, rfl, rfl⟩
  | digits _ h =>
    rw [List.all_cons, Bool.and_eq_true] at h
    exact ⟨_, _, rfl, h⟩

theorem IsWhole.all {whole : List Char} (h : IsWhole whole) : whole.all isAsciiDigit = true := by
  cases h with
  | zero => rfl
  | digits _ h => exact h

theorem IsWhole.of_head {whole : List Char} (nonempty : whole ≠ [])
    (first : whole.head? ≠ some '0') (all : whole.all isAsciiDigit = true) : IsWhole whole := by
  obtain ⟨d, rest, rfl⟩ := List.exists_cons_of_ne_nil nonempty
  exact .digits (by simpa using first) all

theorem takeWhile_digits {cs : List Char} (h : cs.all isAsciiDigit = true) (rest : List Char)
    (stop : ∀ c ∈ rest.head?, isAsciiDigit c = false) :
    (cs ++ rest).takeWhile isAsciiDigit = cs ∧ (cs ++ rest).dropWhile isAsciiDigit = rest := by
  have all : ∀ c ∈ cs, isAsciiDigit c = true := by simpa using h
  rw [List.takeWhile_append_of_pos all, List.dropWhile_append_of_pos all]
  cases rest with
  | nil => simp
  | cons c rest =>
    have digit := stop c rfl
    simp [digit]

theorem splitSign_of_digit {d : Char} (h : isAsciiDigit d = true) (rest : List Char) :
    splitSign (d :: rest) = (false, d :: rest) := by
  unfold splitSign
  split
  · rename_i he
    cases he
    cases h
  · rename_i he
    cases he
    cases h
  · rfl

theorem toLower_of_digit {d : Char} (h : isAsciiDigit d = true) : d.toLower = d := by
  have small : ¬ 'A'.val ≤ d.val := by
    simp only [isAsciiDigit, decide_eq_true_eq, Char.le_def, UInt32.le_iff_toNat_le] at h ⊢
    have nine : '9'.val.toNat < 'A'.val.toNat := by decide
    omega
  exact dif_neg fun upper => small upper.1

theorem splitSign_digits {cs : List Char} (h : cs.all isAsciiDigit = true) :
    splitSign cs = (false, cs) := by
  cases cs with
  | nil => rfl
  | cons d rest =>
    rw [List.all_cons, Bool.and_eq_true] at h
    exact splitSign_of_digit h.1 rest

theorem readExponent_exponentText (layout : DecimalLayout) (power : Int) :
    readExponent ('e' :: exponentText layout power) = some power := by
  have digits := all_isAsciiDigit_toDigits power.natAbs
  have value := digitsValue_toDigits power.natAbs
  have some := Nat.toDigits_ne_nil (n := power.natAbs) (b := 10)
  generalize hds : Nat.toDigits 10 power.natAbs = ds at digits value some
  have nonempty : ds.isEmpty = false := by simpa using some
  unfold readExponent exponentText
  rw [hds]
  by_cases hp : power < 0
  · have abs : -(digitsValue ds : Int) = power := by omega
    simp [hp, splitSign, digits, nonempty, abs, -List.all_eq_true]
  · have abs : (digitsValue ds : Int) = power := by omega
    cases layout.plusSign
    · simp [hp, splitSign_digits digits, digits, nonempty, abs, -List.all_eq_true]
    · simp [hp, splitSign, digits, nonempty, abs, -List.all_eq_true]

theorem DecimalText.read {layout : DecimalLayout} {cs : List Char} {digits : Nat} {exponent : Int}
    (h : DecimalText layout cs digits exponent) :
    readUnsignedDecimal cs = some (digits, exponent) := by
  cases h with
  | @positional whole fraction hw hne hf =>
    obtain ⟨take, drop⟩ := takeWhile_digits hw.all ('.' :: fraction) (by simp [isAsciiDigit])
    obtain ⟨takef, dropf⟩ := takeWhile_digits hf [] (by simp)
    rw [List.append_nil] at takef dropf
    have whole_ne : whole.isEmpty = false := by
      cases hw <;> rfl
    unfold readUnsignedDecimal
    rw [take, drop]
    simp [takef, dropf, whole_ne, readExponent]
  | @scientific d fraction power hd hf _ =>
    rw [List.all_cons, Bool.and_eq_true] at hf
    have single : [d].all isAsciiDigit = true := by simp [hf.1]
    obtain ⟨take, drop⟩ := takeWhile_digits single
      (fractionText fraction ++ 'e' :: exponentText layout power) (by
        unfold fractionText
        split <;> simp [isAsciiDigit])
    obtain ⟨takef, dropf⟩ := takeWhile_digits hf.2 ('e' :: exponentText layout power)
      (by simp [isAsciiDigit])
    rw [List.singleton_append] at take drop
    unfold readUnsignedDecimal
    rw [take, drop]
    unfold fractionText
    by_cases hn : fraction = []
    · simp [hn, readExponent_exponentText]
    · simp [hn, takef, dropf, readExponent_exponentText]

theorem DecimalText.exists_cons {layout : DecimalLayout} {cs : List Char} {digits : Nat}
    {exponent : Int} (h : DecimalText layout cs digits exponent) :
    ∃ d rest, cs = d :: rest ∧ isAsciiDigit d = true := by
  cases h with
  | positional hw =>
    obtain ⟨d, rest, rfl, hd, -⟩ := hw.exists_cons
    exact ⟨d, _, rfl, hd⟩
  | scientific _ hf =>
    rw [List.all_cons, Bool.and_eq_true] at hf
    exact ⟨_, _, rfl, hf.1⟩

namespace Finite64

theorem stripZeros_spec (digits : List Char) (exponent : Int) :
    ∃ kept k, stripZeros digits exponent = (kept, exponent + (k : Nat)) ∧
      digits = kept ++ List.replicate k '0' := by
  have zeros : digits.reverse.takeWhile (· = '0') =
      List.replicate (digits.reverse.takeWhile (· = '0')).length '0' :=
    List.eq_replicate_of_mem fun c hc => by simpa using List.mem_takeWhile_imp hc
  have split := congrArg List.reverse
    (List.takeWhile_append_dropWhile (l := digits.reverse) (p := (· = '0')))
  rw [List.reverse_append, List.reverse_reverse, zeros, List.reverse_replicate] at split
  refine ⟨_, _, ?_, split.symm⟩
  have length := congrArg List.length split
  rw [List.length_append, List.length_replicate] at length
  unfold stripZeros
  dsimp only
  rw [← length, Nat.add_sub_cancel_left]

end Finite64

def DecimalText.Denotes (layout : DecimalLayout) (cs : List Char) (x : Finite64) : Prop :=
  ∃ digits exponent, DecimalText layout cs digits exponent ∧
    Binary64.ofDecimal x.negative digits exponent = .finite x

namespace DecimalLayout

variable {x : Finite64} {layout : DecimalLayout}

variable {digits : List Char} {exponent : Int} (first : digits.head? ≠ some '0')
  (nonempty : digits ≠ []) (all : digits.all isAsciiDigit = true)
  (value : Binary64.ofDecimal x.negative (digitsValue digits) exponent = .finite x)

include first nonempty all value

/-- A decimal point among the digits of a number, or zeros between them and the point. -/
theorem denotes_positional :
    DecimalText.Denotes layout (positional digits (digits.length + exponent)) x := by
  have zeros (n : Nat) : (List.replicate n '0').all isAsciiDigit = true := by
    rw [List.all_replicate]
    simp [isAsciiDigit]
  unfold positional
  split
  · -- zeros before the digits
    generalize hm : (-(digits.length + exponent)).toNat = m
    refine ⟨_, _, @DecimalText.positional _ _ (List.replicate m '0' ++ digits) .zero ?_ ?_, ?_⟩
    · simp [nonempty]
    · rw [List.all_append, zeros, all, Bool.and_true]
    · have same : ['0'] ++ (List.replicate m '0' ++ digits) =
          List.replicate (m + 1) '0' ++ digits := rfl
      have length : -((List.replicate m '0' ++ digits).length : Int) = exponent := by
        rw [List.length_append, List.length_replicate]
        omega
      rw [same, digitsValue_zeros_append, length, value]
  · split
    · -- zeros behind the digits
      generalize hj : (digits.length + exponent).toNat - digits.length = j
      have whole : IsWhole (digits ++ List.replicate j '0') := by
        refine .of_head (by simp [nonempty]) ?_ ?_
        · rwa [List.head?_append_of_ne_nil _ nonempty]
        · rw [List.all_append, zeros, all, Bool.and_true]
      refine ⟨_, _, @DecimalText.positional _ _ ['0'] whole (by simp) rfl, ?_⟩
      have shifted : digitsValue (digits ++ List.replicate j '0' ++ ['0']) =
          digitsValue digits * 10 ^ (j + 1) := by
        have same : digits ++ List.replicate j '0' ++ ['0'] =
            digits ++ List.replicate (j + 1) '0' := by
          rw [List.append_assoc, ← List.replicate_succ']
        rw [same, digitsValue_append, digitsValue_zeros, List.length_replicate, Nat.add_zero]
      have power : -((['0'].length : Nat) : Int) + ((j + 1 : Nat) : Int) = exponent := by
        simp only [List.length_singleton]
        omega
      rw [shifted, Binary64.ofDecimal_mul_pow, power, value]
    · -- the point among the digits
      generalize hn : (digits.length + exponent).toNat = n
      have whole : IsWhole (digits.take n) := by
        refine .of_head ?_ ?_ ?_
        · exact List.ne_nil_of_length_pos (by rw [List.length_take]; omega)
        · rwa [List.head?_take, if_neg (by omega)]
        · exact List.all_eq_true.mpr fun c hc =>
            List.all_eq_true.mp all c (List.mem_of_mem_take hc)
      refine ⟨_, _, .positional whole ?_ ?_, ?_⟩
      · exact List.ne_nil_of_length_pos (by rw [List.length_drop]; omega)
      · exact List.all_eq_true.mpr fun c hc =>
          List.all_eq_true.mp all c (List.mem_of_mem_drop hc)
      · have length : -((digits.drop n).length : Int) = exponent := by
          rw [List.length_drop]
          omega
        rw [List.take_append_drop, length, value]

/-- One digit before the point and an exponent after the others. -/
theorem denotes_scientific
    (far : ¬ (layout.positionalFrom ≤ digits.length + exponent - 1 ∧
      digits.length + exponent - 1 < layout.positionalBelow)) :
    DecimalText.Denotes layout (layout.scientific digits (digits.length + exponent - 1)) x := by
  obtain ⟨d, fraction, rfl⟩ := List.exists_cons_of_ne_nil nonempty
  have text : layout.scientific (d :: fraction) ((d :: fraction).length + exponent - 1) =
      d :: (fractionText fraction ++
        'e' :: exponentText layout ((d :: fraction).length + exponent - 1)) := by
    cases fraction <;> simp [scientific, fractionText, exponentText]
  rw [text]
  refine ⟨_, _, .scientific (by simpa using first) all far, ?_⟩
  have power : ((d :: fraction).length : Int) + exponent - 1 - fraction.length = exponent := by
    rw [List.length_cons]
    omega
  rw [power, value]

omit first nonempty all value

theorem denotes_magnitude (layout : DecimalLayout) (x : Finite64) :
    DecimalText.Denotes layout (layout.magnitude x) x := by
  unfold magnitude
  split
  · have zero : x.units = 0 := of_decide_eq_true ‹_›
    refine ⟨0, -1, @DecimalText.positional _ ['0'] ['0'] .zero (by simp) rfl, ?_⟩
    obtain ⟨negative, units, _⟩ := x
    subst zero
    exact Binary64.ofDecimal_zero negative (-1)
  have nonzero : x.units ≠ 0 := of_decide_eq_false (Bool.not_eq_true _ ▸ ‹¬ x.isZero = true›)
  have reads := Finite64.shortestFrom_readsBack nonzero layout.tieToEven
    (Finite64.order x.units - 1) 17
  change x.readsBack (x.shortest layout.tieToEven).1 (x.shortest layout.tieToEven).2 = true at reads
  generalize x.shortest layout.tieToEven = shortest at reads
  obtain ⟨n, e⟩ := shortest
  replace reads : Binary64.ofDecimal x.negative n e = .finite x := of_decide_eq_true reads
  have hn : n ≠ 0 := by
    rintro rfl
    rw [Binary64.ofDecimal_zero] at reads
    exact nonzero (congrArg Finite64.units (Binary64.finite.inj reads)).symm
  obtain ⟨kept, k, strip, split⟩ := Finite64.stripZeros_spec (Nat.toDigits 10 n) e
  have head := head?_toDigits hn
  have all := all_isAsciiDigit_toDigits n
  have value := digitsValue_toDigits n
  rw [split] at head all value
  have some : kept ≠ [] := by
    rintro rfl
    cases k with
    | zero => exact Nat.toDigits_ne_nil split
    | succ k => exact head rfl
  rw [List.head?_append_of_ne_nil _ some] at head
  rw [List.all_append, Bool.and_eq_true] at all
  rw [digitsValue_append, digitsValue_zeros, List.length_replicate, Nat.add_zero] at value
  rw [← value, Binary64.ofDecimal_mul_pow] at reads
  dsimp only
  rw [strip]
  dsimp only
  split
  · exact denotes_positional head some all.1 reads
  · exact denotes_scientific head some all.1 reads ‹_›

theorem ofText?_text (layout : DecimalLayout) (x : Finite64) :
    Binary64.ofText? (layout.text x) = some (.finite x) := by
  obtain ⟨digits, exponent, text, value⟩ := denotes_magnitude layout x
  obtain ⟨d, rest, hd, digit⟩ := text.exists_cons
  have sign : splitSign (layout.text x).toList = (x.negative, layout.magnitude x) := by
    unfold DecimalLayout.text
    rw [String.toList_ofList, hd]
    cases x.negative with
    | true => rfl
    | false => exact splitSign_of_digit digit rest
  have word (c : Char) (cs : List Char) (hc : c.isDigit = false) :
      String.ofList ((layout.magnitude x).map Char.toLower) ≠ String.ofList (c :: cs) := by
    rw [hd, List.map_cons, ne_eq, String.ofList_inj, List.cons.injEq]
    rintro ⟨rfl, -⟩
    rw [toLower_of_digit digit, ← Bool.not_eq_true, ← isAsciiDigit_iff] at hc
    exact hc digit
  unfold Binary64.ofText?
  rw [sign]
  dsimp only
  rw [if_neg, if_neg, text.read, Option.map_some, value]
  · exact word 'n' ['a', 'n'] rfl
  · exact not_or.mpr ⟨word 'i' _ rfl, word 'i' _ rfl⟩

end DecimalLayout

end GraphQL
