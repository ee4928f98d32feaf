import GraphQL.Ast.Located
import GraphQL.Json.Text
import GraphQL.Proofs.Number.FloatText
import GraphQL.Proofs.Source.Spelling
import GraphQL.Source.StringLiteral
import Mathlib.Tactic.FinCases
import Mathlib.Tactic.IntervalCases

/-!
The texts of single tokens: names, integers, floats and quoted strings. Main statements: the text of
a float that is no unsigned exponent starting with nine is a float token, and a string in quotes
reads back unless it holds the one character whose escape stands for another.
-/
namespace GraphQL

open Ast (floatLayout)

/-- Characters that start a token other than a name or a number. -/
def markChars : List Char :=
  ['.', '"', '!', '$', ':', '=', '@', '|', '&', '(', ')', '[', ']', '\x7b', '\x7d']

theorem Punctuator.ofChar?_eq_none {c : Char} (h : c ∉ markChars) :
    Punctuator.ofChar? c = none := by
  simp only [markChars, List.mem_cons, not_or] at h
  unfold ofChar?
  split <;> simp_all

theorem scanToken?_word {c : Char} (h : c ∉ markChars) (rest : List Char) :
    scanToken? (c :: rest) =
      if isNameStart c then
        some (.name (String.ofList (c :: rest.takeWhile isNameChar)),
          (rest.takeWhile isNameChar).length + 1)
      else if c = '-' ∨ isAsciiDigit c then
        (numberToken? c (rest.takeWhile (!endsNumber ·))).map fun token =>
          (token, (rest.takeWhile (!endsNumber ·)).length + 1)
      else none := by
  have dot : c ≠ '.' := fun hc => h (hc ▸ List.mem_cons_self)
  have quote : c ≠ '"' := fun hc => h (hc ▸ List.mem_cons_of_mem _ List.mem_cons_self)
  rw [scanToken?.eq_def]
  split
  · contradiction
  · simp_all
  · simp_all
  · simp_all
  · rename_i h'
    cases h'
    rw [Punctuator.ofChar?_eq_none h]

/-- What is read as long as a property holds ends where the text stops. -/
theorem takeWhile_stops {p : Char → Bool} (ends : ∀ c, endsNumber c = true → p c = false)
    {cs rest : List Char} (all : ∀ c ∈ cs, p c = true) (stops : Stops rest) :
    (cs ++ rest).takeWhile p = cs := by
  rw [List.takeWhile_append_of_pos all]
  cases rest with
  | nil => simp
  | cons c rest => simp [ends c (stops c rfl)]

theorem endsNumber_iff (c : Char) : endsNumber c = true ↔ c ∈ [' ', '\n', '\r', '\t', ',', '#', '!',
    '$', ':', '=', '@', '|', '&', '(', ')', '[', ']', '\x7b', '\x7d'] := by
  simp [endsNumber]

theorem not_isNameChar_of_ends (c : Char) (h : endsNumber c = true) : isNameChar c = false := by
  rw [endsNumber_iff] at h
  fin_cases h <;> rfl

theorem isNameStart_of_isAsciiDigit {c : Char} (h : isAsciiDigit c = true) :
    isNameStart c = false := by
  simp only [isAsciiDigit, isNameStart, decide_eq_true_eq, Bool.or_eq_false_iff,
    Bool.and_eq_false_iff, decide_eq_false_iff_not, Char.le_def, UInt32.le_iff_toNat_le] at h ⊢
  have nine : '9'.val.toNat = 57 := rfl
  have capital : 'A'.val.toNat = 65 := rfl
  have small : 'a'.val.toNat = 97 := rfl
  refine ⟨⟨?_, .inl (by omega)⟩, .inl (by omega)⟩
  rintro rfl
  revert h
  decide

theorem ne_empty_of_isName {text : String} (h : isName text = true) : text ≠ "" := by
  rintro rfl
  cases h

/-- A run of characters that do not end numbers, whether it is a number or not. -/
theorem scanToken?_number {c : Char} {cs : List Char} (start : c = '-' ∨ isAsciiDigit c = true)
    (all : ∀ d ∈ c :: cs, endsNumber d = false) {rest : List Char} (stops : Stops rest) :
    scanToken? (c :: (cs ++ rest)) =
      (numberToken? c cs).map fun token => (token, cs.length + 1) := by
  have mark : c ∉ markChars := by
    intro hc
    fin_cases hc <;> simp [isAsciiDigit] at start
  have word : isNameStart c = false := by
    rcases start with rfl | digit
    · rfl
    · exact isNameStart_of_isAsciiDigit digit
  obtain ⟨-, all'⟩ := List.forall_mem_cons.mp all
  have run : (cs ++ rest).takeWhile (!endsNumber ·) = cs :=
    takeWhile_stops (by simp) (fun d hd => by rw [all' d hd]; rfl) stops
  rw [scanToken?_word mark, word, if_neg Bool.false_ne_true, if_pos start, run]

namespace HasText

theorem name {text : String} (h : isName text = true) : HasText (.name text) text.toList := by
  unfold isName at h
  cases hcs : text.toList with
  | nil =>
    rw [hcs] at h
    cases h
  | cons c cs =>
    rw [hcs, Bool.and_eq_true, List.all_eq_true] at h
    obtain ⟨start, all⟩ := h
    have mark : c ∉ markChars := by
      intro hc
      fin_cases hc <;> cases start
    constructor
    · intro rest stops
      rw [List.cons_append, scanToken?_word mark, if_pos start,
        takeWhile_stops not_isNameChar_of_ends all stops, ← hcs, String.ofList_toList, hcs]
      rfl
    · intro d hd
      have char : isNameChar d = true := by
        rcases List.mem_cons.mp hd with rfl | hd
        · rw [isNameChar, start, Bool.true_or]
        · exact all d hd
      constructor <;> (rintro rfl; cases char)

theorem number {t : Token} {c : Char} {cs : List Char} (start : c = '-' ∨ isAsciiDigit c = true)
    (all : ∀ d ∈ c :: cs, endsNumber d = false) (token : numberToken? c cs = some t) :
    HasText t (c :: cs) := by
  constructor
  · intro rest stops
    rw [List.cons_append, scanToken?_number start all stops, token]
    rfl
  · intro d hd
    have ends := all d hd
    constructor <;> (rintro rfl; cases ends)

end HasText

theorem splitLast_eq_none {p : Char → Bool} {cs : List Char} (h : ∀ c ∈ cs, p c = false) :
    splitLast p cs = none := by
  induction cs with
  | nil => rfl
  | cons c cs ih =>
    obtain ⟨hc, h⟩ := List.forall_mem_cons.mp h
    rw [splitLast, ih h]
    simp [hc]

theorem splitLast_append {p : Char → Bool} {c : Char} (hc : p c = true) (before : List Char)
    {after : List Char} (h : ∀ d ∈ after, p d = false) :
    splitLast p (before ++ c :: after) = some (before, after) := by
  induction before with
  | nil => simp [splitLast, splitLast_eq_none h, hc]
  | cons d before ih => rw [List.cons_append, splitLast, ih]

def digitChars : List Char := ['0', '1', '2', '3', '4', '5', '6', '7', '8', '9']

def NoDigit (p : Char → Bool) : Prop := ∀ c ∈ digitChars, p c = false

instance (p : Char → Bool) : Decidable (NoDigit p) := List.decidableBAll _ _

theorem isAsciiDigit_mem {c : Char} (h : isAsciiDigit c = true) : c ∈ digitChars := by
  have bounds : 48 ≤ c.toNat ∧ c.toNat ≤ 57 := by
    simpa [isAsciiDigit, Char.le_def, UInt32.le_iff_toNat_le] using h
  rw [← c.ofNat_toNat]
  generalize c.toNat = n at bounds
  obtain ⟨low, high⟩ := bounds
  interval_cases n <;> decide

theorem NoDigit.digits {p : Char → Bool} (h : NoDigit p) {cs : List Char}
    (all : cs.all isAsciiDigit = true) : ∀ c ∈ cs, p c = false :=
  fun c hc => h c (isAsciiDigit_mem (List.all_eq_true.mp all c hc))

theorem NoDigit.digitsAnd {p : Char → Bool} (h : NoDigit p) {extra : Char} (he : p extra = false)
    {cs : List Char} (all : ∀ c ∈ cs, c = extra ∨ isAsciiDigit c = true) :
    ∀ c ∈ cs, p c = false := by
  intro c hc
  rcases all c hc with rfl | digit
  · exact he
  · exact h c (isAsciiDigit_mem digit)

/-- A whole number with or without a minus is an integer part. -/
theorem IsWhole.signed {whole : List Char} (h : IsWhole whole) {sign : List Char}
    (hs : sign = [] ∨ sign = ['-']) :
    ∃ first rest, sign ++ whole = first :: rest ∧ (first = '-' ∨ isAsciiDigit first = true) ∧
      rest.all isAsciiDigit = true ∧ isWholePart (first :: rest) = true := by
  obtain ⟨d, rest, rfl, digit, all⟩ := h.exists_cons
  rcases hs with rfl | rfl
  · refine ⟨d, rest, rfl, .inr digit, all, ?_⟩
    have minus : d ≠ '-' := by
      rintro rfl
      cases digit
    cases h with
    | zero => rfl
    | digits hd => simpa [isWholePart, hd, minus] using all
  · refine ⟨'-', d :: rest, rfl, .inl rfl, h.all, ?_⟩
    have digits := h.all
    cases h with
    | zero => rfl
    | digits hd => simpa [isWholePart, hd] using digits

theorem isWhole_toDigits (n : Nat) : IsWhole (Nat.toDigits 10 n) := by
  by_cases hn : n = 0
  · subst hn
    exact .zero
  · exact .of_head Nat.toDigits_ne_nil (head?_toDigits hn) (all_isAsciiDigit_toDigits n)

theorem integerText_toList (n : Int) :
    ∃ sign, (sign = [] ∨ sign = ['-']) ∧
      (integerText n).toList = sign ++ Nat.toDigits 10 n.natAbs := by
  unfold integerText
  split
  · refine ⟨['-'], .inr rfl, ?_⟩
    simp only [String.toList_append, String.toList_ofList]
    rfl
  · exact ⟨[], .inl rfl, String.toList_ofList⟩

/-- No character of the text ends a number if none of its parts has one. -/
theorem notEnds_cons {first : Char} (h : first = '-' ∨ isAsciiDigit first = true)
    {rest : List Char} (hr : ∀ c ∈ rest, endsNumber c = false) :
    ∀ c ∈ first :: rest, endsNumber c = false := by
  refine List.forall_mem_cons.mpr ⟨?_, hr⟩
  rcases h with rfl | digit
  · rfl
  · exact (by decide : NoDigit endsNumber) first (isAsciiDigit_mem digit)

/-- A text that is read as one number is the text of that number wherever it stands. -/
theorem HasText.number_of_scan {text cs : List Char} {t : Token}
    (number : t = .int cs ∨ t = .float cs) (scan : scanToken? text = some (t, text.length)) :
    HasText t text := by
  have other {u : Token} {n m : Nat} (same : (u, n) = (t, m)) : u = .int cs ∨ u = .float cs :=
    (Prod.mk.inj same).1 ▸ number
  rw [scanToken?.eq_def] at scan
  split at scan
  · cases scan
  · split_ifs at scan
    rcases other (Option.some.inj scan) with h | h <;> cases h
  · obtain ⟨raw, -, same⟩ := Option.map_eq_some_iff.mp scan
    rcases other same with h | h <;> cases h
  · obtain ⟨raw, -, same⟩ := Option.map_eq_some_iff.mp scan
    rcases other same with h | h <;> cases h
  · rename_i c rest _ _ _
    split at scan
    · rcases other (Option.some.inj scan) with h | h <;> cases h
    · split_ifs at scan with word start
      · rcases other (Option.some.inj scan) with h | h <;> cases h
      · obtain ⟨token, found, same⟩ := Option.map_eq_some_iff.mp scan
        obtain ⟨rfl, length⟩ := Prod.mk.inj same
        have whole : rest.takeWhile (!endsNumber ·) = rest :=
          (List.takeWhile_prefix _).eq_of_length (by simpa using length)
        rw [whole] at found
        refine .number start (notEnds_cons start fun d hd => ?_) found
        rw [← whole] at hd
        simpa using List.all_eq_true.mp List.all_takeWhile d hd

theorem HasText.int (n : Int) : HasText (.int (integerText n).toList) (integerText n).toList := by
  obtain ⟨sign, hs, text⟩ := integerText_toList n
  obtain ⟨first, rest, split, start, digits, whole⟩ := (isWhole_toDigits n.natAbs).signed hs
  rw [text, split]
  refine .number start (notEnds_cons start (NoDigit.digits (by decide) digits)) ?_
  have noPoint : '.' ∉ rest := fun h => by
    have digit := List.all_eq_true.mp digits _ h
    cases digit
  have mantissa : isMantissa first rest = true := by
    rw [isMantissa, splitLast_eq_none (NoDigit.digits (by decide) digits), whole]
  rw [numberToken?, splitLast_eq_none (NoDigit.digits (by decide) digits)]
  simp [mantissa, noPoint]

theorem isMantissa_fractionText {first : Char} {rest fraction : List Char}
    (digits : rest.all isAsciiDigit = true) (whole : isWholePart (first :: rest) = true)
    (hf : fraction.all isAsciiDigit = true) :
    isMantissa first (rest ++ fractionText fraction) = true := by
  unfold fractionText isMantissa
  split_ifs with none
  · rw [List.append_nil, splitLast_eq_none (NoDigit.digits (by decide) digits), whole]
  · rw [splitLast_append rfl _ (NoDigit.digits (by decide) hf)]
    simp [whole, isDigits, none, hf, -List.all_eq_true]

/-- The exponent of a float out of the positional range, unless it is unsigned and starts with
nine. -/
theorem isExponentPart_exponentText {power : Int} (hp : power ≠ 0)
    (nine : (exponentText floatLayout power).head? ≠ some '9') :
    isExponentPart (exponentText floatLayout power) = true := by
  have digits := all_isAsciiDigit_toDigits power.natAbs
  obtain ⟨d, rest, hd, zero, digit, all⟩ := toDigits_eq_cons (Int.natAbs_ne_zero.mpr hp)
  unfold exponentText at nine ⊢
  rw [hd] at nine digits ⊢
  by_cases negative : power < 0
  · rw [if_pos negative]
    simp [isExponentPart, isDigits, digits, -List.all_eq_true, -List.all_cons]
  · rw [if_neg negative] at nine ⊢
    replace nine : d ≠ '9' := by simpa [floatLayout] using nine
    have range : ('1' ≤ d ∧ d ≤ '8') ∧ d ≠ '+' ∧ d ≠ '-' := by
      have mem := isAsciiDigit_mem digit
      fin_cases mem
      case «0» => exact absurd rfl zero
      case «9» => exact absurd rfl nine
      all_goals decide
    simp [floatLayout, isExponentPart, range, all, -List.all_eq_true]

theorem exponentText_chars (power : Int) :
    ∀ c ∈ exponentText floatLayout power, c = '-' ∨ isAsciiDigit c = true := by
  intro c hc
  unfold exponentText at hc
  rcases List.mem_append.mp hc with hc | hc
  · split_ifs at hc with negative plus
    · exact .inl (List.mem_singleton.mp hc)
    · cases plus
    · cases hc
  · exact .inr (List.all_eq_true.mp (all_isAsciiDigit_toDigits _) c hc)

/-- Of an exponent without a letter, the first digit alone follows the letter before it. -/
theorem infix_exponent_iff {before exponent : List Char} (hb : 'e' ∉ before) (he : 'e' ∉ exponent) :
    ['e', '9'] <:+: before ++ 'e' :: exponent ↔ exponent.head? = some '9' := by
  constructor
  · rintro ⟨s, t, split⟩
    have same : before ++ 'e' :: exponent = s ++ 'e' :: ('9' :: t) := by
      rw [← split, List.append_assoc]
      rfl
    obtain ⟨-, -, rfl⟩ := (List.append_cons_inj_of_notMem hb he).mp same
    rfl
  · intro h
    obtain ⟨tail, rfl⟩ := List.head?_eq_some_iff.mp h
    exact ⟨before, tail, by simp⟩

/-- The text of a finite float is a number of the grammar, unless it has an unsigned exponent that
starts with nine. -/
theorem numberToken?_floatText (x : Finite64) :
    ∃ first rest, (floatLayout.text x).toList = first :: rest ∧
      (first = '-' ∨ isAsciiDigit first = true) ∧
      (∀ c ∈ first :: rest, endsNumber c = false) ∧
      (['e', '9'] <:+: first :: rest → numberToken? first rest = none) ∧
      (¬ ['e', '9'] <:+: first :: rest →
        numberToken? first rest = some (.float (first :: rest))) := by
  obtain ⟨value, exponent, text, -⟩ := DecimalLayout.denotes_magnitude floatLayout x
  obtain ⟨sign, hs, split⟩ : ∃ sign, (sign = [] ∨ sign = ['-']) ∧
      (floatLayout.text x).toList = sign ++ floatLayout.magnitude x := by
    unfold DecimalLayout.text
    rw [String.toList_ofList]
    split_ifs
    · exact ⟨['-'], .inr rfl, rfl⟩
    · exact ⟨[], .inl rfl, rfl⟩
  rw [split]
  revert text
  generalize floatLayout.magnitude x = magnitude
  rintro (⟨hw, some, hf⟩ | ⟨hd, hf, far⟩)
  case positional whole fraction =>
    obtain ⟨first, rest, head, start, digits, isWhole⟩ := hw.signed hs
    have mantissa := isMantissa_fractionText digits isWhole hf
    rw [fractionText, if_neg some] at mantissa
    have chars : ∀ c ∈ rest ++ '.' :: fraction, c = '.' ∨ isAsciiDigit c = true := by
      simp only [List.mem_append, List.mem_cons]
      rintro c (hc | rfl | hc)
      · exact .inr (List.all_eq_true.mp digits c hc)
      · exact .inl rfl
      · exact .inr (List.all_eq_true.mp hf c hc)
    have noLetter : ¬ ['e', '9'] <:+: first :: (rest ++ '.' :: fraction) := by
      intro letter
      rcases List.mem_cons.mp (letter.mem List.mem_cons_self) with rfl | he
      · rcases start with start | start <;> cases start
      · rcases chars _ he with he | he <;> cases he
    refine ⟨first, rest ++ '.' :: fraction, ?_, start, ?_, fun nine => absurd nine noLetter,
      fun _ => ?_⟩
    · rw [← List.append_assoc, head, List.cons_append]
    · exact notEnds_cons start (NoDigit.digitsAnd (by decide) rfl chars)
    · rw [numberToken?, splitLast_eq_none (NoDigit.digitsAnd (by decide) rfl chars)]
      simp [mantissa]
  case scientific d fraction power =>
    rw [List.all_cons, Bool.and_eq_true] at hf
    have whole : IsWhole [d] := .digits hd (by simp [hf.1])
    obtain ⟨first, rest, head, start, digits, isWhole⟩ := whole.signed hs
    have mantissa := isMantissa_fractionText digits isWhole hf.2
    have fractionChars : ∀ c ∈ rest ++ fractionText fraction, c = '.' ∨ isAsciiDigit c = true := by
      intro c hc
      rcases List.mem_append.mp hc with hc | hc
      · exact .inr (List.all_eq_true.mp digits c hc)
      · unfold fractionText at hc
        split_ifs at hc
        · cases hc
        · exact (List.mem_cons.mp hc).imp_right (List.all_eq_true.mp hf.2 c)
    have nine : ['e', '9'] <:+: first :: (rest ++ fractionText fraction) ++
        'e' :: exponentText floatLayout power ↔
        (exponentText floatLayout power).head? = some '9' := by
      refine infix_exponent_iff (fun he => ?_) fun he => ?_
      · rcases List.mem_cons.mp he with rfl | he
        · rcases start with start | start <;> cases start
        · rcases fractionChars _ he with he | he <;> cases he
      · rcases exponentText_chars power _ he with he | he <;> cases he
    have token : numberToken? first (rest ++ fractionText fraction ++
        'e' :: exponentText floatLayout power) =
        if isExponentPart (exponentText floatLayout power) then some (.float (first ::
          (rest ++ fractionText fraction ++ 'e' :: exponentText floatLayout power))) else none := by
      rw [numberToken?, splitLast_append rfl _
        (NoDigit.digitsAnd (by decide) rfl (exponentText_chars power))]
      dsimp only
      rw [mantissa, Bool.true_and]
    refine ⟨first, (rest ++ fractionText fraction) ++ 'e' :: exponentText floatLayout power,
      ?_, start, notEnds_cons start fun c hc => ?_, fun infixed => ?_, fun notInfixed => ?_⟩
    · rw [List.append_cons, head, List.cons_append, List.append_assoc]
    · simp only [List.mem_append, List.mem_cons] at hc
      rcases hc with hc | rfl | hc
      · exact NoDigit.digitsAnd (by decide) rfl fractionChars c (List.mem_append.mpr hc)
      · rfl
      · exact NoDigit.digitsAnd (by decide) rfl (exponentText_chars power) c hc
    · obtain ⟨tail, ht⟩ := List.head?_eq_some_iff.mp (nine.mp infixed)
      rw [token, ht]
      rfl
    · have exponent : isExponentPart (exponentText floatLayout power) = true := by
        refine isExponentPart_exponentText ?_ (mt nine.mpr notInfixed)
        rintro rfl
        exact far (by decide)
      rw [token, if_pos exponent]

theorem HasText.float {x : Finite64}
    (nine : ¬ ['e', '9'] <:+: (floatLayout.text x).toList) :
    HasText (.float (floatLayout.text x).toList) (floatLayout.text x).toList := by
  obtain ⟨first, rest, text, start, all, -, token⟩ := numberToken?_floatText x
  rw [text] at nine ⊢
  exact .number start all (token nine)

/-- Characters as the escapes see them: control characters, the quote, the backslash, others. -/
theorem escapeChar_cases {P : Char → Prop} (control : ∀ n < 32, P (Char.ofNat n)) (quote : P '"')
    (backslash : P '\\')
    (plain : ∀ c, escapeChar c = [c] → c ≠ '"' → c ≠ '\\' → 32 ≤ c.toNat → P c) (c : Char) :
    P c := by
  by_cases small : c.toNat < 32
  · rw [← c.ofNat_toNat]
    exact control _ small
  by_cases hq : c = '"'
  · exact hq ▸ quote
  by_cases hb : c = '\\'
  · exact hb ▸ backslash
  have numbers : c.toNat ≠ 8 ∧ c.toNat ≠ 9 ∧ c.toNat ≠ 10 ∧ c.toNat ≠ 12 ∧ c.toNat ≠ 13 := by omega
  exact plain c (by simp [escapeChar, hq, hb, small, numbers]) hq hb (Nat.le_of_not_lt small)

theorem stringBody?_escapeChar (c : Char) (rest : List Char) :
    stringBody? false (escapeChar c ++ rest) =
      (stringBody? false rest).map (escapeChar c ++ ·) := by
  induction c using escapeChar_cases with
  | control n hn =>
    cases h : stringBody? false rest <;> interval_cases n <;>
      simp [escapeChar, stringBody?, h, hexDigit]
  | quote => cases h : stringBody? false rest <;> simp [escapeChar, stringBody?, h]
  | backslash => cases h : stringBody? false rest <;> simp [escapeChar, stringBody?, h]
  | plain c escape quote backslash size =>
    have newline : c ≠ '\n' := by
      rintro rfl
      revert size
      decide
    rw [escape]
    simp [stringBody?, quote, newline, backslash]

theorem stringBody?_escaped (cs rest : List Char) :
    stringBody? false (cs.flatMap escapeChar ++ '"' :: rest) = some (cs.flatMap escapeChar) := by
  induction cs with
  | nil => rfl
  | cons c cs ih => rw [List.flatMap_cons, List.append_assoc, stringBody?_escapeChar, ih]; rfl

def readChar (c : Char) : Char := if c = '\x08' then '\x10' else c

/-- The escapes of all characters but U+0008 stand for the characters. -/
theorem unescape?_escapeChar (c : Char) (rest : List Char) :
    unescape? (escapeChar c ++ rest) = (unescape? rest).map (readChar c :: ·) := by
  induction c using escapeChar_cases with
  | control n hn => interval_cases n <;> rfl
  | quote => rfl
  | backslash => rfl
  | plain c escape quote backslash size =>
    have control : c ≠ '\x08' := by
      rintro rfl
      revert size
      decide
    rw [escape, List.singleton_append, readChar, if_neg control]
    simp [unescape?, backslash]

theorem unescape?_flatMap (cs : List Char) :
    unescape? (cs.flatMap escapeChar) = some (cs.map readChar) := by
  induction cs with
  | nil => rfl
  | cons c cs ih =>
    rw [List.flatMap_cons, unescape?_escapeChar, ih]
    rfl

theorem map_readChar_eq_iff {cs : List Char} : cs.map readChar = cs ↔ '\x08' ∉ cs := by
  induction cs with
  | nil => simp
  | cons c cs ih =>
    have here : readChar c = c ↔ c ≠ '\x08' := by
      unfold readChar
      split_ifs with h
      · exact iff_of_false (h ▸ by decide) (not_not_intro h)
      · exact iff_of_true rfl h
    rw [List.map_cons, List.cons.injEq, ih, here, List.mem_cons, not_or, ne_comm]

theorem escapeChar_oneLine (c : Char) : ∀ d ∈ escapeChar c, d ≠ '\n' ∧ d ≠ '\r' := by
  induction c using escapeChar_cases with
  | control n hn => interval_cases n <;> simp [escapeChar, hexDigit]
  | quote => simp [escapeChar]
  | backslash => simp [escapeChar]
  | plain c escape quote backslash size =>
    rw [escape]
    intro d hd
    rw [List.mem_singleton.mp hd]
    constructor <;> (rintro rfl; revert size; decide)

theorem head?_escapeChar (c : Char) : ∃ d ds, escapeChar c = d :: ds ∧ d ≠ '"' := by
  induction c using escapeChar_cases with
  | control n hn => interval_cases n <;> exact ⟨_, _, rfl, by decide⟩
  | quote => exact ⟨_, _, rfl, by decide⟩
  | backslash => exact ⟨_, _, rfl, by decide⟩
  | plain c escape quote => exact ⟨c, [], escape, quote⟩

theorem scanToken?_string {cs body : List Char} (single : ['"', '"'].isPrefixOf cs = false)
    (h : stringBody? false cs = some body) :
    scanToken? ('"' :: cs) = some (.string body, body.length + 2) := by
  rw [scanToken?.eq_def]
  split
  · contradiction
  · rename_i h'
    cases h'
  · rename_i h'
    cases h'
    cases single
  · rename_i h'
    cases h'
    rw [h]
    rfl
  · rename_i quote h'
    cases h'
    exact absurd rfl quote

theorem HasText.quoted (text : String) :
    HasText (.string (text.toList.flatMap escapeChar)) (quoted text).toList := by
  rw [GraphQL.quoted, String.toList_ofList]
  generalize text.toList = cs
  constructor
  · intro rest stops
    have single : ['"', '"'].isPrefixOf (cs.flatMap escapeChar ++ '"' :: rest) = false := by
      cases cs with
      | nil =>
        cases rest with
        | nil => rfl
        | cons c rest =>
          have quote : c ≠ '"' := by
            rintro rfl
            cases stops '"' rfl
          simp [List.isPrefixOf, Ne.symm quote]
      | cons c cs =>
        obtain ⟨d, ds, hd, quote⟩ := head?_escapeChar c
        simp [hd, List.isPrefixOf, Ne.symm quote]
    have scan := scanToken?_string single (stringBody?_escaped cs rest)
    simpa using scan
  · simp only [List.cons_append, List.mem_cons, List.mem_append, List.mem_flatMap,
      List.not_mem_nil, or_false]
    rintro c (rfl | ⟨d, -, hc⟩ | rfl)
    · decide
    · exact escapeChar_oneLine d c hc
    · decide

end GraphQL
