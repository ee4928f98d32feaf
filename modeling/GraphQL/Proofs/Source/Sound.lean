import GraphQL.Proofs.Source.Reading
import GraphQL.Proofs.Source.Spelling
import GraphQL.Proofs.Source.WellFormed

/-!
What parsers give on the tokens of a source text: its names are names, and its brackets nest within
some levels. The rules are those of partial correctness, with the levels before and after.
-/
namespace GraphQL.Parser

variable {α β : Type}

def ValidToken (t : Token) : Prop := ∀ text, t = .name text → isName text = true

/-- Lexemes as they are in source text, from a place on that has some levels left. -/
structure Good (left : Nat) (lexemes : List Lexeme) : Prop where
  valid : ∀ lexeme ∈ lexemes, ValidToken lexeme.token
  nests : levelsAfter? left (lexemes.map (·.token)) ≠ none

/-- Where the parser succeeds on lexemes of source text, it gives such a result and stops at a place
with some levels left. -/
def Ensures (left : Nat) (parser : Parser α) (result : α → Prop) (after : Nat) : Prop :=
  ∀ lexemes x rest, Good left lexemes → parser lexemes = .ok (x, rest) →
    result x ∧ Good after rest

def EnsuresAt (left : Nat) (t : Token) (parser : Parser α) (result : α → Prop) (after : Nat) :
    Prop :=
  ∀ lexemes x rest, Good left lexemes → lexemes.head?.map (·.token) = some t →
    parser lexemes = .ok (x, rest) → result x ∧ Good after rest

variable {k j i : Nat} {t : Token} {parser yes no : Parser α} {result : α → Prop}

theorem Good.cons {lexeme : Lexeme} {rest : List Lexeme} (valid : ValidToken lexeme.token)
    (level : nestingAfter? k lexeme.token = some j) (h : Good j rest) :
    Good k (lexeme :: rest) := by
  refine ⟨List.forall_mem_cons.mpr ⟨valid, h.valid⟩, ?_⟩
  rw [List.map_cons, levelsAfter?, List.foldlM_cons, level]
  exact h.nests

theorem Good.tail {lexeme : Lexeme} {rest : List Lexeme} (h : Good k (lexeme :: rest)) :
    ValidToken lexeme.token ∧ ∃ j, nestingAfter? k lexeme.token = some j ∧ Good j rest := by
  obtain ⟨valid, nests⟩ := h
  obtain ⟨first, valid⟩ := List.forall_mem_cons.mp valid
  rw [List.map_cons, levelsAfter?, List.foldlM_cons] at nests
  obtain ⟨j, hj⟩ : ∃ j, nestingAfter? k lexeme.token = some j :=
    Option.ne_none_iff_exists'.mp fun none => nests (by rw [none]; rfl)
  rw [hj] at nests
  exact ⟨first, j, hj, valid, nests⟩

namespace Ensures

theorem pure {x : α} (h : result x) : Ensures k (pure x) result k := by
  rintro lexemes _ _ good ⟨⟩
  exact ⟨h, good⟩

theorem fail : Ensures k (Parser.fail : Parser α) result j := by
  intro lexemes x rest good run
  cases run

theorem bind {f : α → Parser β} {final : β → Prop} (first : Ensures k parser result j)
    (next : ∀ x, result x → Ensures j (f x) final i) : Ensures k (parser >>= f) final i := by
  intro lexemes y rest good run
  change (parser lexemes >>= fun s => f s.1 s.2) = _ at run
  cases hp : parser lexemes with
  | error p =>
    rw [hp] at run
    cases run
  | ok s =>
    obtain ⟨x, middle⟩ := s
    rw [hp] at run
    obtain ⟨hx, good⟩ := first lexemes x middle good hp
    exact next x hx middle y rest good run

theorem mono {weaker : α → Prop} (h : Ensures k parser result j)
    (imp : ∀ x, result x → weaker x) : Ensures k parser weaker j :=
  fun lexemes x rest good run => (h lexemes x rest good run).imp_left (imp x)

theorem map {g : α → β} {final : β → Prop} (h : Ensures k parser result j)
    (imp : ∀ x, result x → final (g x)) :
    Ensures k (parser >>= fun x => Pure.pure (g x)) final j :=
  bind h fun x hx => pure (imp x hx)

theorem here (h : Ensures k parser result j) : EnsuresAt k t parser result j :=
  fun lexemes x rest good _ run => h lexemes x rest good run

theorem position : Ensures k position (fun _ => True) k := by
  intro lexemes p rest good run
  cases lexemes with
  | nil => cases run
  | cons lexeme lexemes =>
    cases run
    exact ⟨trivial, good⟩

theorem get {f : List Lexeme → Parser β} {final : β → Prop}
    (h : ∀ lexemes, Ensures k (f lexemes) final j) : Ensures k (get >>= f) final j :=
  fun lexemes x rest good run => h lexemes lexemes x rest good run

theorem head {test : Parser Bool} {f : Bool → Parser β} {final : β → Prop} (ht : Tests test t)
    (hy : EnsuresAt k t (f true) final j) (hn : Ensures k (f false) final j) :
    Ensures k (test >>= f) final j := by
  intro lexemes x rest good run
  change (test lexemes >>= fun s => f s.1 s.2) = _ at run
  rw [ht] at run
  change f (decide _) lexemes = _ at run
  cases next : decide (lexemes.head?.map (·.token) = some t) with
  | true =>
    rw [next] at run
    exact hy lexemes x rest good (of_decide_eq_true next) run
  | false =>
    rw [next] at run
    exact hn lexemes x rest good run

theorem ifHead {test : Parser Bool} (ht : Tests test t) (hy : EnsuresAt k t yes result j)
    (hn : Ensures k no result j) :
    Ensures k (test >>= fun b => if b = true then yes else no) result j :=
  head ht hy hn

theorem ifNext {q : Punctuator} (hy : EnsuresAt k (.punctuator q) yes result j)
    (hn : Ensures k no result j) :
    Ensures k (nextIs q >>= fun b => if b = true then yes else no) result j :=
  ifHead (tests_nextIs q) hy hn

theorem ifNextName {word : String} (hy : EnsuresAt k (.name word) yes result j)
    (hn : Ensures k no result j) :
    Ensures k (nextIsName word >>= fun b => if b = true then yes else no) result j :=
  ifHead (tests_nextIsName word) hy hn

theorem peek {f : Option Token → Parser β} {final : β → Prop}
    (some : ∀ t, EnsuresAt k t (f (some t)) final j) (none : Ensures k (f none) final j) :
    Ensures k (peek >>= f) final j := by
  intro lexemes x rest good run
  change f (lexemes.head?.map (·.token)) lexemes = _ at run
  cases next : lexemes.head?.map (·.token) with
  | none =>
    rw [next] at run
    exact none lexemes x rest good run
  | some t =>
    rw [next] at run
    exact some t lexemes x rest good next run

end Ensures

namespace EnsuresAt

theorem position {f : Position → Parser β} {final : β → Prop}
    (h : ∀ p, EnsuresAt k t (f p) final j) : EnsuresAt k t (position >>= f) final j := by
  intro lexemes x rest good next run
  cases lexemes with
  | nil => cases next
  | cons lexeme lexemes => exact h lexeme.position _ x rest good next run

theorem advance {f : Unit → Parser β} {final : β → Prop}
    (h : ∀ i, nestingAfter? k t = some i → ValidToken t → Ensures i (f ()) final j) :
    EnsuresAt k t (advance >>= f) final j := by
  intro lexemes x rest good next run
  cases lexemes with
  | nil => cases next
  | cons lexeme lexemes =>
    cases next
    obtain ⟨valid, i, level, good⟩ := good.tail
    exact h i level valid lexemes x rest good run

theorem advance_flat {f : Unit → Parser β} {final : β → Prop}
    (flat : nestingAfter? k t = some k) (h : ValidToken t → Ensures k (f ()) final j) :
    EnsuresAt k t (Parser.advance >>= f) final j := by
  refine advance fun i level valid => ?_
  rw [flat] at level
  cases level
  exact h valid

end EnsuresAt

theorem nestingAfter?_flat {q : Punctuator} (flat : (q.isOpening || q.isClosing) = false)
    (k : Nat) : nestingAfter? k (.punctuator q) = some k := by
  rw [Bool.or_eq_false_iff] at flat
  simp [nestingAfter?, flat]

theorem nestingAfter?_opening {q : Punctuator} (opens : q.isOpening = true) {k j : Nat}
    (h : nestingAfter? k (.punctuator q) = some j) : k = j + 1 := by
  simp only [nestingAfter?, opens, if_true] at h
  split at h
  · cases h
  · cases h
    omega

theorem nestingAfter?_closing {q : Punctuator} (opens : q.isOpening = false)
    (closes : q.isClosing = true) (k : Nat) :
    nestingAfter? k (.punctuator q) = some (k + 1) := by
  simp [nestingAfter?, opens, closes]

namespace Ensures

theorem expected {test : Parser Bool} {final : Unit → Prop} (ht : Tests test t)
    (h : ∀ i, nestingAfter? k t = some i → final () ∧ i = j) :
    Ensures k (test >>= fun b => if b = true then advance else Parser.fail) final j := by
  refine ifHead ht ?_ fail
  rw [← bind_pure advance]
  refine .advance fun i level _ => ?_
  obtain ⟨hf, rfl⟩ := h i level
  exact pure hf

theorem punctuator {q : Punctuator} {final : Unit → Prop}
    (h : ∀ i, nestingAfter? k (.punctuator q) = some i → final () ∧ i = j) :
    Ensures k (punctuator q) final j :=
  expected (tests_nextIs q) h

theorem flat {q : Punctuator} (hq : (q.isOpening || q.isClosing) = false) :
    Ensures k (Parser.punctuator q) (fun _ => True) k := by
  refine punctuator fun i level => ?_
  rw [nestingAfter?_flat hq] at level
  exact ⟨trivial, (Option.some.inj level).symm⟩

theorem opening {q : Punctuator} (opens : q.isOpening = true) :
    Ensures k (Parser.punctuator q) (fun _ => ∃ i, k = i + 1) (k - 1) := by
  refine punctuator fun i level => ?_
  have taken := nestingAfter?_opening opens level
  exact ⟨⟨i, taken⟩, by omega⟩

theorem closing {q : Punctuator} (opens : q.isOpening = false) (closes : q.isClosing = true) :
    Ensures k (Parser.punctuator q) (fun _ => True) (k + 1) := by
  refine punctuator fun i level => ?_
  rw [nestingAfter?_closing opens closes] at level
  exact ⟨trivial, (Option.some.inj level).symm⟩

theorem name : Ensures k name (fun text => isName text = true) k := by
  refine peek (fun t => ?_) fail
  cases t with
  | name text => exact .advance_flat rfl fun valid => pure (valid text rfl)
  | _ => exact fail.here

theorem keyword (word : String) : Ensures k (keyword word) (fun _ => True) k :=
  expected (tests_nextIsName word) fun _ level => ⟨trivial, (Option.some.inj level).symm⟩

end Ensures

section Items

variable {item : Parser α} {fits : Nat → α → Prop} {opening closing announcing : Punctuator}
  {budget : Nat}

namespace Ensures

theorem itemsUntil (h : Ensures k item result k) (opens : closing.isOpening = false)
    (closes : closing.isClosing = true) :
    Ensures k (itemsUntil closing item budget) (fun r => ∀ x ∈ r.1, result x) (k + 1) := by
  induction budget with
  | zero => exact fail
  | succ budget ih =>
    refine ifNext (.position fun p => .advance fun i level _ => ?_) (bind h fun x hx => ?_)
    · rw [nestingAfter?_closing opens closes] at level
      cases level
      exact pure (by simp)
    · exact map ih fun r hr => List.forall_mem_cons.mpr ⟨hx, hr⟩

theorem enclosed (h : ∀ i, Ensures i item (fits i) i) (opening_opens : opening.isOpening = true)
    (opens : closing.isOpening = false) (closes : closing.isClosing = true) :
    Ensures k (enclosed opening closing item budget)
      (fun r => ∃ i, k = i + 1 ∧ r.1 ≠ [] ∧ ∀ x ∈ r.1, fits i x) k := by
  refine bind (Ensures.opening opening_opens) fun _ taken => ?_
  obtain ⟨k, rfl⟩ := taken
  refine bind (h k) fun x hx => map (itemsUntil (h k) opens closes) fun r hr => ?_
  exact ⟨k, rfl, by simp, List.forall_mem_cons.mpr ⟨hx, hr⟩⟩

theorem optionalEnclosed (h : ∀ i, Ensures i item (fits i) i)
    (opening_opens : opening.isOpening = true) (opens : closing.isOpening = false)
    (closes : closing.isClosing = true) :
    Ensures k (optionalEnclosed opening closing item budget) (Bracketed fits k) k := by
  refine ifNext (here (map (enclosed h opening_opens opens closes) ?_)) (pure ?_)
  · rintro r ⟨i, rfl, -, hr⟩
    exact hr
  · cases k <;> simp [Bracketed]

theorem itemsWhile (h : Ensures k item result k) :
    Ensures k (itemsWhile announcing item budget) (fun xs => ∀ x ∈ xs, result x) k := by
  induction budget with
  | zero => exact pure (by simp)
  | succ budget ih =>
    refine ifNext (here (bind h fun x hx => ?_)) (pure (by simp))
    exact map ih fun xs hxs => List.forall_mem_cons.mpr ⟨hx, hxs⟩

theorem definitions (h : Ensures k item result k) :
    Ensures k (definitions item budget) (fun xs => xs ≠ [] ∧ ∀ x ∈ xs, result x) k := by
  induction budget with
  | zero => exact fail
  | succ budget ih =>
    refine bind h fun x hx => get fun lexemes => ?_
    split
    · exact pure ⟨by simp, by simpa using hx⟩
    · exact map ih fun xs hxs => ⟨by simp, List.forall_mem_cons.mpr ⟨hx, hxs.2⟩⟩

end Ensures

end Items

end GraphQL.Parser
