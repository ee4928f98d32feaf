import GraphQL.Proofs.Source.Places
import GraphQL.Proofs.Source.Reading

/-!
How parsers go through the tokens of a text: where they start, where they stop, and what they give
by these offsets. The rules are those of partial correctness, one for each way parsers are put
together; offsets are known to be in order only where positions are exact.
-/
namespace GraphQL.Parser

variable {α β : Type} {lines : Lines} {exact : Prop}

/-- From lexemes that start at the offset the parser moves on, and gives such a result where it
stops. -/
def Moves (lines : Lines) (exact : Prop) (i : Nat) (parser : Parser α)
    (P : α → Nat → Prop) : Prop :=
  ∀ lexemes x rest, (exact → Ordered lines lexemes) → nextOffset lines lexemes = i →
    parser lexemes = .ok (x, rest) →
    (exact → Ordered lines rest ∧ i ≤ nextOffset lines rest) ∧ P x (nextOffset lines rest)

/-- The same for lexemes that start with a token. -/
def MovesAt (lines : Lines) (exact : Prop) (i : Nat) (t : Token) (parser : Parser α)
    (P : α → Nat → Prop) : Prop :=
  ∀ lexemes x rest, (exact → Ordered lines lexemes) → nextOffset lines lexemes = i →
    lexemes.head?.map (·.token) = some t → parser lexemes = .ok (x, rest) →
    (exact → Ordered lines rest ∧ i ≤ nextOffset lines rest) ∧ P x (nextOffset lines rest)

variable {i : Nat} {t : Token} {parser yes no : Parser α} {P : α → Nat → Prop}

namespace Moves

theorem pure {x : α} (h : P x i) : Moves lines exact i (pure x) P := by
  rintro lexemes _ _ ordered rfl ⟨⟩
  exact ⟨fun e => ⟨ordered e, Nat.le_refl _⟩, h⟩

theorem fail : Moves lines exact i (Parser.fail : Parser α) P := by
  intro lexemes x rest _ _ run
  cases run

theorem bind {Q : α → Nat → Prop} {f : α → Parser β} {final : β → Nat → Prop}
    (first : Moves lines exact i parser Q)
    (next : ∀ x j, (exact → i ≤ j) → Q x j → Moves lines exact j (f x) final) :
    Moves lines exact i (parser >>= f) final := by
  intro lexemes y rest ordered start run
  change (parser lexemes >>= fun s => f s.1 s.2) = _ at run
  cases hp : parser lexemes with
  | error p =>
    rw [hp] at run
    cases run
  | ok s =>
    obtain ⟨x, middle⟩ := s
    rw [hp] at run
    obtain ⟨moved, hx⟩ := first lexemes x middle ordered start hp
    obtain ⟨further, hy⟩ := next x _ (fun e => (moved e).2) hx middle y rest
      (fun e => (moved e).1) rfl run
    exact ⟨fun e => ⟨(further e).1, Nat.le_trans (moved e).2 (further e).2⟩, hy⟩

theorem mono {weaker : α → Nat → Prop} (h : Moves lines exact i parser P)
    (imp : ∀ x j, (exact → i ≤ j) → P x j → weaker x j) : Moves lines exact i parser weaker := by
  intro lexemes x rest ordered start run
  obtain ⟨moved, hx⟩ := h lexemes x rest ordered start run
  exact ⟨moved, imp x _ (fun e => (moved e).2) hx⟩

theorem map {g : α → β} {final : β → Nat → Prop} (h : Moves lines exact i parser P)
    (imp : ∀ x j, (exact → i ≤ j) → P x j → final (g x) j) :
    Moves lines exact i (parser >>= fun x => Pure.pure (g x)) final :=
  bind h fun x j le hx => pure (imp x j le hx)

theorem here (h : Moves lines exact i parser P) : MovesAt lines exact i t parser P :=
  fun lexemes x rest ordered start _ run => h lexemes x rest ordered start run

theorem position {f : Position → Parser β} {final : β → Nat → Prop}
    (h : ∀ p, lines.offset p = i → Moves lines exact i (f p) final) :
    Moves lines exact i (position >>= f) final := by
  intro lexemes x rest ordered start run
  cases lexemes with
  | nil => cases run
  | cons lexeme lexemes => exact h lexeme.position start _ x rest ordered start run

theorem get {f : List Lexeme → Parser β} {final : β → Nat → Prop}
    (h : ∀ lexemes, Moves lines exact i (f lexemes) final) :
    Moves lines exact i (get >>= f) final :=
  fun lexemes x rest ordered start run => h lexemes lexemes x rest ordered start run

theorem ifHead {test : Parser Bool} (ht : Tests test t) (hy : MovesAt lines exact i t yes P)
    (hn : Moves lines exact i no P) :
    Moves lines exact i (test >>= fun b => if b = true then yes else no) P := by
  intro lexemes x rest ordered start run
  change (test lexemes >>= fun s => (if s.1 = true then yes else no) s.2) = _ at run
  rw [ht] at run
  change (if decide _ = true then yes else no) lexemes = _ at run
  split at run
  · exact hy lexemes x rest ordered start (of_decide_eq_true ‹_›) run
  · exact hn lexemes x rest ordered start run

theorem ifNext {q : Punctuator} (hy : MovesAt lines exact i (.punctuator q) yes P)
    (hn : Moves lines exact i no P) :
    Moves lines exact i (nextIs q >>= fun b => if b = true then yes else no) P :=
  ifHead (tests_nextIs q) hy hn

theorem ifNextName {word : String} (hy : MovesAt lines exact i (.name word) yes P)
    (hn : Moves lines exact i no P) :
    Moves lines exact i (nextIsName word >>= fun b => if b = true then yes else no) P :=
  ifHead (tests_nextIsName word) hy hn

theorem peek {f : Option Token → Parser β} {final : β → Nat → Prop}
    (some : ∀ t, MovesAt lines exact i t (f (some t)) final)
    (none : Moves lines exact i (f none) final) : Moves lines exact i (peek >>= f) final := by
  intro lexemes x rest ordered start run
  change f (lexemes.head?.map (·.token)) lexemes = _ at run
  cases next : lexemes.head?.map (·.token) with
  | none =>
    rw [next] at run
    exact none lexemes x rest ordered start run
  | some t =>
    rw [next] at run
    exact some t lexemes x rest ordered start next run

end Moves

namespace MovesAt

theorem position {f : Position → Parser β} {final : β → Nat → Prop}
    (h : ∀ p, lines.offset p = i → MovesAt lines exact i t (f p) final) :
    MovesAt lines exact i t (Parser.position >>= f) final := by
  intro lexemes x rest ordered start next run
  cases lexemes with
  | nil => cases next
  | cons lexeme lexemes => exact h lexeme.position start _ x rest ordered start next run

theorem advance {f : Unit → Parser β} {final : β → Nat → Prop}
    (h : ∀ j, (exact → i < j ∧ j ≤ lines.size) → Moves lines exact j (f ()) final) :
    MovesAt lines exact i t (advance >>= f) final := by
  intro lexemes x rest ordered start next run
  cases lexemes with
  | nil => cases next
  | cons lexeme lexemes =>
    have less : exact → i < nextOffset lines lexemes ∧ nextOffset lines lexemes ≤ lines.size :=
      fun e => ⟨start ▸ (ordered e).tail.2, (ordered e).tail.1.nextOffset_le_size⟩
    obtain ⟨further, hx⟩ := h _ less lexemes x rest (fun e => (ordered e).tail.1) rfl run
    exact ⟨fun e => ⟨(further e).1, Nat.le_trans (Nat.le_of_lt (less e).1) (further e).2⟩, hx⟩

/-- Passing over three dots, to a token before which dots are found between the two. -/
theorem spread {f : Position → Parser β} {final : β → Nat → Prop}
    (h : ∀ p j, lines.offset p = j → (exact → i < j ∧ i ≤ lines.offset (lines.spreadStart p) ∧
      lines.offset (lines.spreadStart p) ≤ j) → Moves lines exact j (f p) final) :
    MovesAt lines exact i (.punctuator .spread)
      (Parser.advance >>= fun _ => Parser.position >>= f) final := by
  intro lexemes x rest ordered start next run
  rcases lexemes with - | ⟨dots, - | ⟨lexeme, lexemes⟩⟩
  · cases next
  · cases run
  · have between : exact → i < lines.offset lexeme.position ∧
        i ≤ lines.offset (lines.spreadStart lexeme.position) ∧
        lines.offset (lines.spreadStart lexeme.position) ≤ lines.offset lexeme.position := by
      intro e
      cases ordered e with
      | cons less found _ => exact ⟨start ▸ less, start ▸ found (Option.some.inj next) lexeme rfl⟩
    obtain ⟨further, hx⟩ := h lexeme.position _ rfl between (lexeme :: lexemes) x rest
      (fun e => (ordered e).tail.1) rfl run
    exact ⟨fun e => ⟨(further e).1, Nat.le_trans (Nat.le_of_lt (between e).1) (further e).2⟩, hx⟩

end MovesAt

/-- The parser moves on, whatever it gives. -/
abbrev Passes (lines : Lines) (exact : Prop) (parser : Parser α) : Prop :=
  ∀ i, Moves lines exact i parser fun _ _ => True

namespace Moves

theorem next {f : α → Parser β} {final : β → Nat → Prop} (first : Passes lines exact parser)
    (h : ∀ x j, (exact → i ≤ j) → Moves lines exact j (f x) final) :
    Moves lines exact i (parser >>= f) final :=
  bind (first i) fun x j le _ => h x j le

end Moves

section Items

variable {item : Parser α} {fits : Nat → Nat → α → Prop} {opening closing announcing : Punctuator}
  {budget : Nat}

def Widens (exact : Prop) (fits : Nat → Nat → α → Prop) : Prop :=
  ∀ ⦃i j i' j' x⦄, fits i j x → (exact → i' ≤ i ∧ j ≤ j') → fits i' j' x

namespace Passes

theorem expected {test : Parser Bool} (ht : Tests test t) :
    Passes lines exact (test >>= fun b => if b = true then advance else Parser.fail) := by
  intro i
  refine .ifHead ht ?_ .fail
  rw [← bind_pure advance]
  exact .advance fun j _ => .pure trivial

theorem punctuator (q : Punctuator) : Passes lines exact (punctuator q) :=
  expected (tests_nextIs q)

theorem keyword (word : String) : Passes lines exact (keyword word) :=
  expected (tests_nextIsName word)

theorem name : Passes lines exact name := by
  refine fun i => .peek (fun t => ?_) .fail
  cases t with
  | name text => exact .advance fun j _ => .pure trivial
  | _ => exact Moves.fail.here

end Passes

namespace Moves

/-- The closing punctuator stands after all items, and before where the parser stops. -/
theorem itemsUntil (widens : Widens exact fits)
    (h : ∀ i, Moves lines exact i item fun x j => fits i j x) :
    Moves lines exact i (itemsUntil closing item budget) fun r j =>
      (∀ x ∈ r.1, fits i (lines.offset r.2) x) ∧
        (exact → i ≤ lines.offset r.2 ∧ lines.offset r.2 < j ∧ j ≤ lines.size) := by
  induction budget generalizing i with
  | zero => exact fail
  | succ budget ih =>
    refine ifNext (.position fun p hp => .advance fun j less => pure ?_)
      (bind (h i) fun x j le hx => ?_)
    · exact ⟨by simp, fun e => ⟨Nat.le_of_eq hp.symm, hp ▸ less e⟩⟩
    · refine map ih fun r k _ hr => ⟨List.forall_mem_cons.mpr ⟨?_, fun y hy => ?_⟩, fun e => ?_⟩
      · exact widens hx fun e => ⟨Nat.le_refl _, (hr.2 e).1⟩
      · exact widens (hr.1 y hy) fun e => ⟨le e, Nat.le_refl _⟩
      · exact ⟨Nat.le_trans (le e) (hr.2 e).1, (hr.2 e).2⟩

theorem enclosed (widens : Widens exact fits)
    (h : ∀ i, Moves lines exact i item fun x j => fits i j x) :
    Moves lines exact i (enclosed opening closing item budget) fun r j =>
      (∀ x ∈ r.1, fits i (lines.offset r.2) x) ∧
        (exact → i ≤ lines.offset r.2 ∧ lines.offset r.2 < j ∧ j ≤ lines.size) := by
  refine next (.punctuator opening) fun _ j le => bind (h j) fun x k le' hx => ?_
  refine map (itemsUntil widens h) fun r l _ hr =>
    ⟨List.forall_mem_cons.mpr ⟨?_, fun y hy => ?_⟩, fun e => ?_⟩
  · exact widens hx fun e => ⟨le e, (hr.2 e).1⟩
  · exact widens (hr.1 y hy) fun e => ⟨Nat.le_trans (le e) (le' e), Nat.le_refl _⟩
  · exact ⟨Nat.le_trans (Nat.le_trans (le e) (le' e)) (hr.2 e).1, (hr.2 e).2⟩

theorem optionalEnclosed (widens : Widens exact fits)
    (h : ∀ i, Moves lines exact i item fun x j => fits i j x) :
    Moves lines exact i (optionalEnclosed opening closing item budget) fun items j =>
      ∀ x ∈ items, fits i j x := by
  refine ifNext (Moves.here (map (enclosed widens h) fun r j _ hr x hx => ?_)) (pure (by simp))
  exact widens (hr.1 x hx) fun e => ⟨Nat.le_refl _, Nat.le_of_lt (hr.2 e).2.1⟩

theorem itemsWhile (widens : Widens exact fits)
    (h : ∀ i, Moves lines exact i item fun x j => fits i j x) :
    Moves lines exact i (itemsWhile announcing item budget) fun items j =>
      ∀ x ∈ items, fits i j x := by
  induction budget generalizing i with
  | zero => exact pure (by simp)
  | succ budget ih =>
    refine ifNext (Moves.here (bind (h i) fun x j le hx => ?_)) (pure (by simp))
    refine map ih fun items k le' hi => List.forall_mem_cons.mpr ⟨?_, fun y hy => ?_⟩
    · exact widens hx fun e => ⟨Nat.le_refl _, le' e⟩
    · exact widens (hi y hy) fun e => ⟨le e, Nat.le_refl _⟩

theorem definitions (widens : Widens exact fits)
    (h : ∀ i, Moves lines exact i item fun x j => fits i j x) :
    Moves lines exact i (definitions item budget) fun items j => ∀ x ∈ items, fits i j x := by
  induction budget generalizing i with
  | zero => exact fail
  | succ budget ih =>
    refine bind (h i) fun x j le hx => get fun lexemes => ?_
    split
    · exact pure (by simpa using hx)
    · refine map ih fun items k le' hi => List.forall_mem_cons.mpr ⟨?_, fun y hy => ?_⟩
      · exact widens hx fun e => ⟨Nat.le_refl _, le' e⟩
      · exact widens (hi y hy) fun e => ⟨le e, Nat.le_refl _⟩

end Moves

theorem widens_true : Widens exact fun _ _ (_ : α) => True :=
  fun _ _ _ _ _ _ _ => trivial

end Items

namespace Passes

theorem string : Passes lines exact string := by
  refine fun i => .peek (fun t => ?_) .fail
  cases t with
  | string raw =>
    dsimp only
    split
    · exact .advance fun j _ => .pure trivial
    · exact Moves.fail.here
  | blockString raw => exact .advance fun j _ => .pure trivial
  | _ => exact Moves.fail.here

theorem value (constant : Bool) (budget : Nat) : Passes lines exact (value constant budget) := by
  induction budget with
  | zero => exact fun i => .fail
  | succ budget ih =>
    have field : Passes lines exact (do
        let key ← Parser.name
        Parser.punctuator .colon
        return (key, ← Parser.value constant budget)) :=
      fun i => .next name fun _ _ _ => .next (punctuator _) fun _ _ _ =>
        .map (ih _) fun _ _ _ _ => trivial
    refine fun i => .peek (fun t => ?_) .fail
    cases t with
    | name text => exact .advance fun j _ => .pure trivial
    | int text =>
      dsimp only
      split
      · exact .advance fun j _ => .pure trivial
      · exact Moves.fail.here
    | float text =>
      dsimp only
      split
      · exact .advance fun j _ => .pure trivial
      · exact Moves.fail.here
    | string raw => exact Moves.here (.map (string i) fun _ _ _ _ => trivial)
    | blockString raw => exact Moves.here (.map (string i) fun _ _ _ _ => trivial)
    | punctuator p =>
      cases p with
      | dollar =>
        dsimp only
        split_ifs
        · exact Moves.fail.here
        · exact .advance fun j _ => .map (name j) fun _ _ _ _ => trivial
      | bracketLeft =>
        exact .advance fun j _ => .map (.itemsUntil widens_true ih) fun _ _ _ _ => trivial
      | braceLeft =>
        exact .advance fun j _ => .map (.itemsUntil widens_true field) fun _ _ _ _ => trivial
      | _ => exact Moves.fail.here

theorem arguments (constant : Bool) (budget : Nat) :
    Passes lines exact (arguments constant budget) := by
  have argument : Passes lines exact (argument constant budget) :=
    fun i => .next name fun _ _ _ => .next (punctuator _) fun _ _ _ =>
      .map (value constant budget _) fun _ _ _ _ => trivial
  exact fun i => .mono (.optionalEnclosed widens_true argument) fun _ _ _ _ => trivial

theorem typeRef (budget : Nat) : Passes lines exact (typeRef budget) := by
  induction budget with
  | zero => exact fun i => .fail
  | succ budget ih =>
    have core : Passes lines exact (typeCore (Parser.typeRef budget)) := by
      refine fun i => .ifNext (.advance fun j _ => ?_) (.map (name i) fun _ _ _ _ => trivial)
      exact .next ih fun _ _ _ => .next (punctuator _) fun _ _ _ => .pure trivial
    exact fun i => .next core fun _ _ _ =>
      .ifNext (.advance fun j _ => .pure trivial) (.pure trivial)

theorem default (budget : Nat) : Passes lines exact (default budget) :=
  fun _ => .ifNext (.advance fun j _ => .map (value true budget j) fun _ _ _ _ => trivial)
    (.pure trivial)

end Passes

end GraphQL.Parser
