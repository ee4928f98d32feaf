import GraphQL.Ast.Checked
import GraphQL.Ast.Printer
import GraphQL.Proofs.Number.FloatText

/-!
Which texts make float literals. Main statement: of the float literals of the language those with a
finite value are accepted; the other texts that are accepted have superfluous leading zeros, no
digits before the point or none behind it.
-/
namespace GraphQL

/-- The mark of an exponent, its sign if there is one, and its digits. -/
structure Exponent where
  mark : Char
  sign : List Char
  digits : List Char
  marked : mark = 'e' ∨ mark = 'E'
  signed : sign = [] ∨ sign = ['+'] ∨ sign = ['-']
  some : digits ≠ []
  all : digits.all isAsciiDigit = true

/-- An optional minus, digits, an optional point with digits behind it, and an optional exponent. -/
structure Decimal where
  minus : Bool
  whole : List Char
  fraction : Option (List Char)
  exponent : Option Exponent
  wholeAll : whole.all isAsciiDigit = true
  fractionAll : (fraction.getD []).all isAsciiDigit = true

namespace Exponent

def text (x : Exponent) : List Char := x.mark :: (x.sign ++ x.digits)

def power (x : Exponent) : Int :=
  if x.sign = ['-'] then -(digitsValue x.digits : Int) else digitsValue x.digits

end Exponent

namespace Decimal

variable (d : Decimal)

def tail : List Char := (d.exponent.map Exponent.text).getD []

def rest : List Char :=
  match d.fraction with
  | some fraction => '.' :: (fraction ++ d.tail)
  | none => d.tail

def body : List Char := d.whole ++ d.rest

def text : List Char := if d.minus then '-' :: d.body else d.body

def value : Binary64 :=
  .ofDecimal d.minus (digitsValue (d.whole ++ d.fraction.getD []))
    ((d.exponent.map Exponent.power).getD 0 - (d.fraction.getD []).length)

/-- A point or an exponent tells it from an integer. -/
def Marked : Prop := d.fraction.isSome = true ∨ d.exponent.isSome = true

/-- A float literal of the language. -/
structure IsFloat : Prop where
  marked : d.Marked
  whole : IsWhole d.whole
  fraction : d.fraction ≠ some []

/-- Digits stand on at least one side of the point, and the text does not start with the point. -/
structure IsAccepted : Prop where
  marked : d.Marked
  digits : d.whole ≠ [] ∨ d.fraction.getD [] ≠ []
  first : d.minus = true ∨ d.whole ≠ []

/-- Unlike in a float literal, the digits before the point are missing or start with a superfluous
zero, or those behind it are missing. -/
def Loose : Prop := ¬IsWhole d.whole ∨ d.fraction = some []

end Decimal

theorem digit_ne {c : Char} (h : isAsciiDigit c = true) :
    c ≠ '.' ∧ c ≠ 'e' ∧ c ≠ 'E' ∧ c ≠ '+' ∧ c ≠ '-' := by
  refine ⟨?_, ?_, ?_, ?_, ?_⟩ <;>
    rintro rfl <;>
      cases h

theorem splitSign_eq {cs ds : List Char} {negative : Bool} (h : splitSign cs = (negative, ds)) :
    ∃ sign, cs = sign ++ ds ∧ (sign = ['-'] ∧ negative = true ∨
      (sign = [] ∨ sign = ['+']) ∧ negative = false) := by
  unfold splitSign at h
  split at h <;> cases h
  · exact ⟨['-'], rfl, .inl ⟨rfl, rfl⟩⟩
  · exact ⟨['+'], rfl, .inr ⟨.inr rfl, rfl⟩⟩
  · exact ⟨[], rfl, .inr ⟨.inl rfl, rfl⟩⟩

namespace Exponent

theorem head_text (x : Exponent) {c : Char} (hc : c ∈ x.text.head?) : c = 'e' ∨ c = 'E' := by
  cases hc
  exact x.marked

theorem splitSign_signed (x : Exponent) :
    splitSign (x.sign ++ x.digits) = (decide (x.sign = ['-']), x.digits) := by
  rcases x.signed with h | h | h <;> rw [h]
  · exact splitSign_digits x.all
  · rfl
  · rfl

theorem read (x : Exponent) : readExponent x.text = .some x.power := by
  have nonempty : x.digits.isEmpty = false := by simpa using x.some
  unfold readExponent text power
  dsimp only
  rw [if_pos x.marked, x.splitSign_signed]
  by_cases h : x.sign = ['-'] <;> simp [h, nonempty, x.all, -List.all_eq_true]

end Exponent

theorem readExponent_eq_some {cs : List Char} {e : Int} (h : readExponent cs = some e) :
    ∃ x : Option Exponent, cs = (x.map Exponent.text).getD [] ∧
      e = (x.map Exponent.power).getD 0 := by
  unfold readExponent at h
  split at h
  · cases h
    exact ⟨none, rfl, rfl⟩
  · rename_i mark rest
    split_ifs at h with marked
    cases hs : splitSign rest with
    | mk negative digits =>
    obtain ⟨sign, rfl, signed⟩ := splitSign_eq hs
    rw [hs] at h
    dsimp only at h
    split_ifs at h with bad minus <;> cases h
    all_goals
      rw [Bool.or_eq_true, not_or, Bool.not_eq_true, Bool.not_eq_true, Bool.not_eq_false'] at bad
      have some : digits ≠ [] := by simpa using bad.1
    · obtain ⟨rfl, -⟩ := signed.resolve_right fun plus => by simp [minus] at plus
      exact ⟨.some ⟨mark, ['-'], digits, marked, .inr (.inr rfl), some, bad.2⟩, rfl, rfl⟩
    · obtain ⟨plus, -⟩ := signed.resolve_left fun signed => minus signed.2
      have other : sign ≠ ['-'] := by rcases plus with rfl | rfl <;> decide
      refine ⟨.some ⟨mark, sign, digits, marked, ?_, some, bad.2⟩, rfl, (if_neg other).symm⟩
      rcases plus with plus | plus
      · exact .inl plus
      · exact .inr (.inl plus)

/-- The digits after a point, if the text starts with one, and the rest. -/
def splitPoint : List Char → List Char × List Char
  | '.' :: rest => (rest.takeWhile isAsciiDigit, rest.dropWhile isAsciiDigit)
  | rest => ([], rest)

theorem readUnsignedDecimal_eq (cs : List Char) :
    readUnsignedDecimal cs =
      let whole := cs.takeWhile isAsciiDigit
      let (fraction, rest) := splitPoint (cs.dropWhile isAsciiDigit)
      if whole.isEmpty && fraction.isEmpty then none
      else (readExponent rest).map fun e =>
        (digitsValue (whole ++ fraction), e - fraction.length) :=
  rfl

namespace Decimal

variable (d : Decimal)

theorem head_tail {c : Char} (hc : c ∈ d.tail.head?) : c = 'e' ∨ c = 'E' := by
  unfold tail at hc
  cases hx : d.exponent with
  | none =>
    rw [hx] at hc
    cases hc
  | some x =>
    rw [hx] at hc
    exact x.head_text hc

theorem head_rest {c : Char} (hc : c ∈ d.rest.head?) : c = '.' ∨ c = 'e' ∨ c = 'E' := by
  unfold rest at hc
  split at hc
  · cases hc
    exact .inl rfl
  · exact .inr (d.head_tail hc)

theorem take_whole :
    d.body.takeWhile isAsciiDigit = d.whole ∧ d.body.dropWhile isAsciiDigit = d.rest := by
  refine takeWhile_digits d.wholeAll _ fun c hc => ?_
  rcases d.head_rest hc with rfl | rfl | rfl <;> rfl

theorem take_fraction {fraction : List Char} (h : d.fraction = some fraction) :
    (fraction ++ d.tail).takeWhile isAsciiDigit = fraction ∧
      (fraction ++ d.tail).dropWhile isAsciiDigit = d.tail := by
  have all := d.fractionAll
  rw [h] at all
  refine takeWhile_digits all _ fun c hc => ?_
  rcases d.head_tail hc with rfl | rfl <;> rfl

theorem read_tail :
    readExponent d.tail = some ((d.exponent.map Exponent.power).getD 0) := by
  unfold tail
  cases d.exponent with
  | none => rfl
  | some x => exact x.read

theorem splitPoint_rest : splitPoint d.rest = (d.fraction.getD [], d.tail) := by
  unfold rest splitPoint
  cases hf : d.fraction with
  | none =>
    dsimp only
    split
    · rename_i rest ht
      have head : '.' = 'e' ∨ '.' = 'E' := d.head_tail (by rw [ht]; rfl)
      exact absurd head (by decide)
    · rfl
  | some fraction =>
    obtain ⟨take, drop⟩ := d.take_fraction hf
    exact congrArg₂ Prod.mk take drop

theorem read (h : d.whole ≠ [] ∨ d.fraction.getD [] ≠ []) :
    readUnsignedDecimal d.body = some (digitsValue (d.whole ++ d.fraction.getD []),
      (d.exponent.map Exponent.power).getD 0 - (d.fraction.getD []).length) := by
  have digits : ¬(d.whole.isEmpty && (d.fraction.getD []).isEmpty) = true := by
    rw [Bool.and_eq_true, List.isEmpty_iff, List.isEmpty_iff]
    exact not_and_or.mpr h
  rw [readUnsignedDecimal_eq, d.take_whole.1, d.take_whole.2, d.splitPoint_rest]
  dsimp only
  rw [if_neg digits, d.read_tail]
  rfl

end Decimal

theorem all_takeWhile (cs : List Char) : (cs.takeWhile isAsciiDigit).all isAsciiDigit = true :=
  List.all_eq_true.mpr fun _ hc => List.mem_takeWhile_imp hc

/-- Whatever is read has the form of a decimal text. -/
theorem readUnsignedDecimal_eq_some {cs : List Char} {n : Nat} {e : Int}
    (h : readUnsignedDecimal cs = some (n, e)) (minus : Bool) :
    ∃ d : Decimal, d.minus = minus ∧ d.body = cs ∧ (d.whole ≠ [] ∨ d.fraction.getD [] ≠ []) ∧
      n = digitsValue (d.whole ++ d.fraction.getD []) ∧
      e = (d.exponent.map Exponent.power).getD 0 - (d.fraction.getD []).length := by
  have whole : cs.takeWhile isAsciiDigit ++ cs.dropWhile isAsciiDigit = cs :=
    List.takeWhile_append_dropWhile
  rw [readUnsignedDecimal_eq] at h
  cases split : splitPoint (cs.dropWhile isAsciiDigit) with
  | mk fraction rest =>
  rw [split] at h
  dsimp only at h
  split_ifs at h with digits
  rw [Bool.and_eq_true, List.isEmpty_iff, List.isEmpty_iff, not_and_or] at digits
  obtain ⟨power, read, value⟩ := Option.map_eq_some_iff.mp h
  cases value
  obtain ⟨x, rfl, rfl⟩ := readExponent_eq_some read
  unfold splitPoint at split
  split at split
  · rename_i behind point
    obtain ⟨rfl, tail⟩ := Prod.mk.inj split
    refine ⟨⟨minus, _, some (behind.takeWhile isAsciiDigit), x, all_takeWhile cs,
      all_takeWhile behind⟩, rfl, ?_, digits, rfl, rfl⟩
    have parts : behind.takeWhile isAsciiDigit ++ behind.dropWhile isAsciiDigit = behind :=
      List.takeWhile_append_dropWhile
    rw [tail] at parts
    show cs.takeWhile isAsciiDigit ++ '.' :: (behind.takeWhile isAsciiDigit ++
      (x.map Exponent.text).getD []) = cs
    rw [parts, ← point, whole]
  · obtain ⟨rfl, tail⟩ := Prod.mk.inj split
    refine ⟨⟨minus, _, none, x, all_takeWhile cs, rfl⟩, rfl, ?_, digits, rfl, rfl⟩
    show cs.takeWhile isAsciiDigit ++ (x.map Exponent.text).getD [] = cs
    rw [← tail, whole]

namespace Decimal

variable (d : Decimal)

theorem head_body {c : Char} (hc : c ∈ d.body.head?) :
    isAsciiDigit c = true ∨ c = '.' ∨ c = 'e' ∨ c = 'E' := by
  unfold body at hc
  cases hw : d.whole with
  | nil =>
    rw [hw] at hc
    exact .inr (d.head_rest hc)
  | cons first whole =>
    have all := d.wholeAll
    rw [hw, List.all_cons, Bool.and_eq_true] at all
    rw [hw] at hc
    cases hc
    exact .inl all.1

theorem splitSign_text : splitSign d.text = (d.minus, d.body) := by
  unfold text
  cases d.minus with
  | true => rfl
  | false =>
    show splitSign d.body = (false, d.body)
    unfold splitSign
    split
    · rename_i rest hb
      have head := @head_body d '-' (by rw [hb]; rfl)
      exact absurd head (by decide)
    · rename_i rest hb
      have head := @head_body d '+' (by rw [hb]; rfl)
      exact absurd head (by decide)
    · rfl

/-- No decimal text is one of the words that are numbers. -/
theorem lower_body_ne {c : Char} (hc : c = 'i' ∨ c = 'n') (cs : List Char) :
    String.ofList (d.body.map Char.toLower) ≠ String.ofList (c :: cs) := by
  rw [ne_eq, String.ofList_inj, List.map_eq_cons_iff]
  rintro ⟨first, rest, hb, lower, -⟩
  have head := @head_body d first (by rw [hb]; rfl)
  rcases head with digit | rfl | rfl | rfl
  · rw [toLower_of_digit digit] at lower
    subst lower
    rcases hc with rfl | rfl <;> cases digit
  all_goals
    subst lower
    revert hc
    decide

theorem ofText?_eq {text : String} (ht : text.toList = d.text)
    (h : d.whole ≠ [] ∨ d.fraction.getD [] ≠ []) : Binary64.ofText? text = some d.value := by
  unfold Binary64.ofText?
  rw [ht, d.splitSign_text]
  dsimp only
  rw [if_neg, if_neg, d.read h]
  · rfl
  · exact d.lower_body_ne (.inr rfl) ['a', 'n']
  · exact not_or.mpr ⟨d.lower_body_ne (.inl rfl) _, d.lower_body_ne (.inl rfl) _⟩

theorem head_text {c : Char} (hc : c ∈ d.text.head?) :
    d.minus = true ∧ c = '-' ∨ d.minus = false ∧ c ∈ d.body.head? := by
  unfold text at hc
  cases hm : d.minus with
  | true =>
    rw [hm] at hc
    cases hc
    exact .inl ⟨rfl, rfl⟩
  | false =>
    rw [hm] at hc
    exact .inr ⟨rfl, hc⟩

theorem head_text_ne_plus : d.text.head? ≠ some '+' := by
  intro plus
  rcases d.head_text plus with ⟨-, minus⟩ | ⟨-, hb⟩
  · exact absurd minus (by decide)
  · exact absurd (d.head_body hb) (by decide)

theorem head_text_eq_point (h : d.whole ≠ [] ∨ d.fraction.getD [] ≠ []) :
    d.text.head? = some '.' ↔ d.minus = false ∧ d.whole = [] := by
  constructor
  · intro point
    rcases d.head_text point with ⟨-, minus⟩ | ⟨plain, hb⟩
    · exact absurd minus (by decide)
    · refine ⟨plain, ?_⟩
      by_contra some
      obtain ⟨first, whole, hw⟩ := List.exists_cons_of_ne_nil some
      have all := d.wholeAll
      rw [hw, List.all_cons, Bool.and_eq_true] at all
      rw [body, hw] at hb
      cases hb
      cases all.1
  · rintro ⟨plain, none⟩
    have digits := h.resolve_left (not_not.mpr none)
    unfold text body rest
    rw [plain, none]
    cases hf : d.fraction with
    | none =>
      rw [hf] at digits
      exact absurd rfl digits
    | some fraction => rfl

/-- Points and the marks of exponents. -/
def isMark (c : Char) : Bool := c = '.' || c = 'e' || c = 'E'

theorem any_isMark_text : d.text.any isMark = true ↔ d.Marked := by
  have digits {cs : List Char} (h : cs.all isAsciiDigit = true) : cs.any isMark = false := by
    rw [List.any_eq_false]
    intro c hc
    obtain ⟨point, small, large, -, -⟩ := digit_ne (List.all_eq_true.mp h c hc)
    simp [isMark, point, small, large]
  have tail : d.tail.any isMark = d.exponent.isSome := by
    unfold tail
    cases d.exponent with
    | none => rfl
    | some x =>
      rcases x.marked with h | h <;> simp [Exponent.text, h, isMark]
  have body : d.text.any isMark = d.body.any isMark := by
    unfold text
    cases d.minus <;> rfl
  rw [body, Decimal.body, List.any_append, digits d.wholeAll, Bool.false_or, rest, Marked, ← tail]
  cases d.fraction with
  | none => simp
  | some fraction => simp [isMark]

end Decimal

theorem exists_decimal {text : String} {x : Binary64} (h : Binary64.ofText? text = some x)
    (finite : x.isFinite = true) (plus : text.toList.head? ≠ some '+') :
    ∃ d : Decimal, text.toList = d.text ∧ (d.whole ≠ [] ∨ d.fraction.getD [] ≠ []) ∧
      x = d.value := by
  unfold Binary64.ofText? at h
  cases hs : splitSign text.toList with
  | mk minus body =>
  rw [hs] at h
  dsimp only at h
  split_ifs at h
  · cases h
    cases finite
  · cases h
    cases finite
  · obtain ⟨⟨n, e⟩, read, rfl⟩ := Option.map_eq_some_iff.mp h
    obtain ⟨d, rfl, rfl, digits, rfl, rfl⟩ := readUnsignedDecimal_eq_some read minus
    refine ⟨d, ?_, digits, rfl⟩
    obtain ⟨sign, ht, signed⟩ := splitSign_eq hs
    rw [ht, Decimal.text]
    rcases signed with ⟨rfl, minus⟩ | ⟨rfl | rfl, plain⟩
    · rw [minus]
      rfl
    · rw [plain]
      rfl
    · rw [ht] at plus
      exact absurd rfl plus

namespace Ast

theorem isFloatLiteral_iff {text : String} : isFloatLiteral text = true ↔
    ∃ d : Decimal, text.toList = d.text ∧ d.IsAccepted ∧ d.value.isFinite = true := by
  unfold isFloatLiteral
  simp only [Bool.and_eq_true, bne_iff_ne, ne_eq]
  constructor
  · rintro ⟨⟨⟨finite, marked⟩, point⟩, plus⟩
    split at finite
    · rename_i x read
      obtain ⟨d, ht, digits, rfl⟩ := exists_decimal read finite plus
      refine ⟨d, ht, ⟨?_, digits, ?_⟩, finite⟩
      · rw [ht] at marked
        exact d.any_isMark_text.mp marked
      · rw [ht, d.head_text_eq_point digits, not_and_or, Bool.not_eq_false] at point
        exact point
    · cases finite
  · rintro ⟨d, ht, ⟨marked, digits, first⟩, finite⟩
    rw [d.ofText?_eq ht digits, ht]
    refine ⟨⟨⟨finite, d.any_isMark_text.mpr marked⟩, ?_⟩, d.head_text_ne_plus⟩
    rw [d.head_text_eq_point digits, not_and_or, Bool.not_eq_false]
    exact first

end Ast

namespace Exponent

theorem text_inj {x y : Exponent} (h : x.text = y.text) : x = y := by
  obtain ⟨mark, signed⟩ := List.cons.inj h
  have digits : x.digits = y.digits := by
    have split := congrArg splitSign signed
    rw [x.splitSign_signed, y.splitSign_signed] at split
    exact (Prod.mk.inj split).2
  have sign : x.sign = y.sign := List.append_cancel_right (digits ▸ signed)
  cases x
  cases y
  simp_all

end Exponent

namespace Decimal

theorem exponent_eq_of_tail {c d : Decimal} (h : c.tail = d.tail) : c.exponent = d.exponent := by
  unfold tail at h
  cases hc : c.exponent with
  | none =>
    cases hd : d.exponent with
    | none => rfl
    | some y =>
      rw [hc, hd] at h
      cases h
  | some x =>
    cases hd : d.exponent with
    | none =>
      rw [hc, hd] at h
      cases h
    | some y =>
      rw [hc, hd] at h
      rw [Exponent.text_inj h]

/-- A decimal text has its parts in one way only. -/
theorem text_inj {c d : Decimal} (h : c.text = d.text) : c = d := by
  have signs : (c.minus, c.body) = (d.minus, d.body) := by
    rw [← c.splitSign_text, ← d.splitSign_text, h]
  obtain ⟨minus, body⟩ := Prod.mk.inj signs
  have whole : c.whole = d.whole := by rw [← c.take_whole.1, ← d.take_whole.1, body]
  have rest : c.rest = d.rest := by rw [← c.take_whole.2, ← d.take_whole.2, body]
  have parts : (c.fraction.getD [], c.tail) = (d.fraction.getD [], d.tail) := by
    rw [← c.splitPoint_rest, ← d.splitPoint_rest, rest]
  obtain ⟨digits, tail⟩ := Prod.mk.inj parts
  have exponent := exponent_eq_of_tail tail
  -- A point without digits behind it is told from no point by the length of the rest.
  have fraction : c.fraction = d.fraction := by
    have length := congrArg List.length rest
    unfold Decimal.rest at length
    rw [tail] at length
    cases hc : c.fraction with
    | none =>
      cases hd : d.fraction with
      | none => rfl
      | some y =>
        rw [hc, hd] at length
        simp at length
        omega
    | some x =>
      cases hd : d.fraction with
      | none =>
        rw [hc, hd] at length
        simp at length
        omega
      | some y =>
        rw [hc, hd] at digits
        rw [show x = y from digits]
  cases c
  cases d
  simp_all

end Decimal

namespace Decimal

theorem IsFloat.accepted {d : Decimal} (h : d.IsFloat) : d.IsAccepted := by
  obtain ⟨first, rest, hw, -, -⟩ := h.whole.exists_cons
  have some : d.whole ≠ [] := by simp [hw]
  exact ⟨h.marked, .inl some, .inr some⟩

theorem isFloat_iff {d : Decimal} (h : d.IsAccepted) : d.IsFloat ↔ ¬d.Loose := by
  constructor
  · rintro float (whole | fraction)
    · exact whole float.whole
    · exact float.fraction fraction
  · intro strict
    obtain ⟨whole, fraction⟩ := not_or.mp strict
    exact ⟨h.marked, not_not.mp whole, fraction⟩

end Decimal

namespace Ast

/-- A float literal is made of the texts of decimals with a point or an exponent, digits and a
finite value, unless they start with a plus or the point; of all others comes an error. The float
literals of the language that are finite are those texts that are not loose. -/
theorem Value.ofFloatText?_accepts (text : String) :
    (ofFloatText? text = .ok (.float text none) ∨ ofFloatText? text = .error (.invalidFloat text)) ∧
      (∀ v, ofFloatText? text = .ok v ↔ v = .float text none ∧
        ∃ d : Decimal, text.toList = d.text ∧ d.IsAccepted ∧ d.value.isFinite = true) ∧
      ((∃ d : Decimal, text.toList = d.text ∧ d.IsFloat ∧ d.value.isFinite = true) ↔
        (∃ v, ofFloatText? text = .ok v ∧ v.print = text) ∧
          ¬∃ d : Decimal, text.toList = d.text ∧ d.Loose) := by
  have accepts (v : Value) : ofFloatText? text = .ok v ↔ v = .float text none ∧
      ∃ d : Decimal, text.toList = d.text ∧ d.IsAccepted ∧ d.value.isFinite = true := by
    rw [← isFloatLiteral_iff]
    unfold ofFloatText?
    split_ifs with valid <;> simp [valid, eq_comm]
  refine ⟨?_, accepts, ?_⟩
  · unfold ofFloatText?
    split_ifs
    · exact .inl rfl
    · exact .inr rfl
  simp only [accepts]
  constructor
  · rintro ⟨d, ht, float, finite⟩
    refine ⟨⟨_, ⟨rfl, d, ht, float.accepted, finite⟩, rfl⟩, fun ⟨c, hc, loose⟩ => ?_⟩
    obtain rfl := Decimal.text_inj (ht.symm.trans hc)
    exact (Decimal.isFloat_iff float.accepted).mp float loose
  · rintro ⟨⟨_, ⟨rfl, d, ht, accepted, finite⟩, -⟩, strict⟩
    exact ⟨d, ht, (Decimal.isFloat_iff accepted).mpr fun loose => strict ⟨d, ht, loose⟩, finite⟩

/-- A leading zero, a point without digits behind it, and one without digits before it. -/
theorem Value.ofFloatText?_loose (text : String) (h : text ∈ ["01.5", "1.", "-.5"]) :
    ofFloatText? text = .ok (.float text none) ∧
      ¬∃ d : Decimal, text.toList = d.text ∧ d.IsFloat := by
  have other {d : Decimal} (ht : text.toList = d.text) (loose : d.Loose) :
      ¬∃ d : Decimal, text.toList = d.text ∧ d.IsFloat := by
    rintro ⟨c, hc, float⟩
    obtain rfl := Decimal.text_inj (ht.symm.trans hc)
    exact (Decimal.isFloat_iff float.accepted).mp float loose
  simp only [List.mem_cons, List.not_mem_nil, or_false] at h
  rcases h with rfl | rfl | rfl
  · refine ⟨if_pos (by decide +kernel), ?_⟩
    refine @other ⟨false, ['0', '1'], some ['5'], none, rfl, rfl⟩ rfl (.inl ?_)
    rintro (_ | ⟨zero, -⟩)
    exact zero rfl
  · refine ⟨if_pos (by decide +kernel), ?_⟩
    exact @other ⟨false, ['1'], some [], none, rfl, rfl⟩ rfl (.inr rfl)
  · refine ⟨if_pos (by decide +kernel), ?_⟩
    refine @other ⟨true, [], some ['5'], none, rfl, rfl⟩ rfl (.inl ?_)
    rintro ⟨⟩

end Ast

end GraphQL
