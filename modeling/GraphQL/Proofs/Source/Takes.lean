import GraphQL.Proofs.Source.Reading

/-!
What parsers take off the front of the lexemes. Main statements: a rule for each way parsers are put
together, and that the parsers of values, types and arguments take lexemes with matching brackets.
-/
namespace GraphQL

/-- The punctuator that closes what this one opens. -/
def Punctuator.closing? : Punctuator → Option Punctuator
  | parenLeft => some parenRight
  | bracketLeft => some bracketRight
  | braceLeft => some braceRight
  | _ => none

/-- Opens or closes a level of nesting. -/
def Token.isBracket : Token → Bool
  | .punctuator p => p.isOpening || p.isClosing
  | _ => false

/-- Every bracket has the one that it matches. -/
inductive Balanced : List Lexeme → Prop where
  | nil : Balanced []
  | cons {lexeme : Lexeme} {rest : List Lexeme} :
      lexeme.token.isBracket = false → Balanced rest → Balanced (lexeme :: rest)
  | enclosed {opening closing : Lexeme} {p q : Punctuator} {inner rest : List Lexeme} :
      opening.token = .punctuator p → closing.token = .punctuator q → p.closing? = some q →
      Balanced inner → Balanced rest → Balanced (opening :: inner ++ closing :: rest)

namespace Balanced

variable {xs ys : List Lexeme}

theorem append (h : Balanced xs) (h' : Balanced ys) : Balanced (xs ++ ys) := by
  induction h with
  | nil => exact h'
  | cons plain _ ih => exact .cons plain ih
  | enclosed opens closes pair inner _ _ ih =>
    rw [List.append_assoc]
    exact .enclosed opens closes pair inner ih

theorem token {lexeme : Lexeme} {t : Token} (ht : lexeme.token = t) (plain : t.isBracket = false)
    (h : Balanced xs) : Balanced (lexeme :: xs) :=
  .cons (ht ▸ plain) h

end Balanced

namespace Parser

variable {α β : Type} {lexemes : List Lexeme} {parser : Parser α} {P Q : α → List Lexeme → Prop}

/-- Of the lexemes the parser takes some off the front, and gives such a result for these. -/
def Takes (lexemes : List Lexeme) (parser : Parser α) (P : α → List Lexeme → Prop) : Prop :=
  ∀ x rest, parser lexemes = .ok (x, rest) → ∃ used, lexemes = used ++ rest ∧ P x used

namespace Takes

theorem pure {x : α} (h : P x []) : Takes lexemes (pure x) P := by
  rintro _ _ ⟨⟩
  exact ⟨[], rfl, h⟩

theorem fail : Takes lexemes (Parser.fail : Parser α) P := by
  intro x rest run
  cases run

theorem mono (h : Takes lexemes parser Q) (imp : ∀ x used, Q x used → P x used) :
    Takes lexemes parser P := by
  intro x rest run
  obtain ⟨used, split, hx⟩ := h x rest run
  exact ⟨used, split, imp x used hx⟩

theorem front (h : Takes lexemes parser P) :
    Takes lexemes parser fun x used => P x used ∧ used <+: lexemes := by
  intro x rest run
  obtain ⟨used, split, hx⟩ := h x rest run
  exact ⟨used, split, hx, rest, split.symm⟩

theorem bind {f : α → Parser β} {final : β → List Lexeme → Prop} (first : Takes lexemes parser Q)
    (next : ∀ x used rest, Q x used → Takes rest (f x) fun y more => final y (used ++ more)) :
    Takes lexemes (parser >>= f) final := by
  intro y rest run
  change (parser lexemes >>= fun s => f s.1 s.2) = _ at run
  cases hp : parser lexemes with
  | error p =>
    rw [hp] at run
    cases run
  | ok s =>
    rw [hp] at run
    obtain ⟨used, split, hx⟩ := first s.1 s.2 hp
    obtain ⟨more, further, hy⟩ := next s.1 used s.2 hx y rest run
    exact ⟨used ++ more, by rw [split, further, List.append_assoc], hy⟩

theorem map {g : α → β} {final : β → List Lexeme → Prop} (h : Takes lexemes parser Q)
    (imp : ∀ x used, Q x used → final (g x) used) :
    Takes lexemes (parser >>= fun x => Pure.pure (g x)) final :=
  bind h fun x used rest hx => pure (by rw [List.append_nil]; exact imp x used hx)

theorem position {f : Position → Parser β} {final : β → List Lexeme → Prop}
    (h : ∀ first later, lexemes = first :: later →
      Takes (first :: later) (f first.position) final) :
    Takes lexemes (position >>= f) final := by
  intro x rest run
  cases lexemes with
  | nil => cases run
  | cons first later => exact h first later rfl x rest run

theorem get {f : List Lexeme → Parser β} {final : β → List Lexeme → Prop}
    (h : Takes lexemes (f lexemes) final) : Takes lexemes (get >>= f) final :=
  fun x rest run => h x rest run

theorem advance {first : Lexeme} {later : List Lexeme} {f : Unit → Parser β}
    {final : β → List Lexeme → Prop}
    (h : Takes later (f ()) fun y more => final y (first :: more)) :
    Takes (first :: later) (advance >>= f) final := by
  intro x rest run
  obtain ⟨used, split, hx⟩ := h x rest run
  exact ⟨first :: used, by rw [split, List.cons_append], hx⟩

theorem ifHead {t : Token} {test : Parser Bool} {yes no : Parser α} (ht : Tests test t)
    (hy : ∀ first later, lexemes = first :: later → first.token = t →
      Takes (first :: later) yes P) (hn : Takes lexemes no P) :
    Takes lexemes (test >>= fun b => if b = true then yes else no) P := by
  intro x rest run
  change (test lexemes >>= fun s => (if s.1 = true then yes else no) s.2) = _ at run
  rw [ht] at run
  change (if decide _ = true then yes else no) lexemes = _ at run
  split at run
  · rename_i next
    cases lexemes with
    | nil => cases of_decide_eq_true next
    | cons first later =>
      exact hy first later rfl (Option.some.inj (of_decide_eq_true next)) x rest run
  · exact hn x rest run

theorem ifNext {q : Punctuator} {yes no : Parser α}
    (hy : ∀ first later, lexemes = first :: later → first.token = .punctuator q →
      Takes (first :: later) yes P) (hn : Takes lexemes no P) :
    Takes lexemes (nextIs q >>= fun b => if b = true then yes else no) P :=
  ifHead (tests_nextIs q) hy hn

theorem ifNextName {word : String} {yes no : Parser α}
    (hy : ∀ first later, lexemes = first :: later → first.token = .name word →
      Takes (first :: later) yes P) (hn : Takes lexemes no P) :
    Takes lexemes (nextIsName word >>= fun b => if b = true then yes else no) P :=
  ifHead (tests_nextIsName word) hy hn

theorem peek {f : Option Token → Parser β} {final : β → List Lexeme → Prop}
    (some : ∀ t first later, lexemes = first :: later → first.token = t →
      Takes (first :: later) (f (some t)) final)
    (none : Takes lexemes (f none) final) : Takes lexemes (peek >>= f) final := by
  intro x rest run
  cases lexemes with
  | nil => exact none x rest run
  | cons first later => exact some first.token first later rfl rfl x rest run

section Expected

variable {f : Unit → Parser β} {final : β → List Lexeme → Prop}

theorem expected {t : Token} {test : Parser Bool} (ht : Tests test t)
    (h : ∀ first later, lexemes = first :: later → first.token = t →
      Takes later (f ()) fun y more => final y (first :: more)) :
    Takes lexemes ((test >>= fun b => if b = true then Parser.advance else Parser.fail) >>= f)
      final := by
  have steps : ((test >>= fun b => if b = true then Parser.advance else Parser.fail) >>= f) =
      test >>= fun b => if b = true then Parser.advance >>= f else Parser.fail := by
    rw [bind_assoc]
    congr 1
    funext b
    cases b <;> rfl
  rw [steps]
  exact ifHead ht (fun first later split token => advance (h first later split token)) fail

theorem punctuator {q : Punctuator} (h : ∀ first later, lexemes = first :: later →
      first.token = .punctuator q → Takes later (f ()) fun y more => final y (first :: more)) :
    Takes lexemes (punctuator q >>= f) final :=
  expected (tests_nextIs q) h

theorem keyword {word : String} (h : ∀ first later, lexemes = first :: later →
      first.token = .name word → Takes later (f ()) fun y more => final y (first :: more)) :
    Takes lexemes (keyword word >>= f) final :=
  expected (tests_nextIsName word) h

theorem name {f : String → Parser β} (h : ∀ text first later, lexemes = first :: later →
      first.token = .name text → Takes later (f text) fun y more => final y (first :: more)) :
    Takes lexemes (name >>= f) final := by
  intro y rest run
  rcases lexemes with - | ⟨⟨p, t⟩, later⟩
  · cases run
  · cases t with
    | name text => exact advance (f := fun _ => f text) (h text _ later rfl rfl) y rest run
    | _ => cases run

end Expected

end Takes

/-- Items one after another, each given for its lexemes. -/
inductive Series (P : α → List Lexeme → Prop) : List α → List Lexeme → Prop where
  | nil : Series P [] []
  | cons {x : α} {xs : List α} {used more : List Lexeme} :
      P x used → Series P xs more → Series P (x :: xs) (used ++ more)

theorem Series.balanced {xs : List α} {used : List Lexeme}
    (h : Series P xs used) (each : ∀ x used, P x used → Balanced used) : Balanced used := by
  induction h with
  | nil => exact .nil
  | cons first _ ih => exact (each _ _ first).append ih

/-- The lexemes are items between an opening and a closing bracket. -/
structure Enclosed (P : α → List Lexeme → Prop) (p q : Punctuator) (opening : Lexeme)
    (inner : List Lexeme) (closing : Lexeme) (items : List α) : Prop where
  opens : opening.token = .punctuator p
  closes : closing.token = .punctuator q
  items : Series P items inner

section Items

variable {item : Parser α} {p q announcing : Punctuator} {budget : Nat}

namespace Takes

theorem itemsUntil (h : ∀ lexemes, Takes lexemes item P) :
    Takes lexemes (itemsUntil q item budget) fun r used => ∃ inner closing,
      used = inner ++ [closing] ∧ Series P r.1 inner ∧ closing.token = .punctuator q ∧
        closing.position = r.2 := by
  induction budget generalizing lexemes with
  | zero => exact fail
  | succ budget ih =>
    refine ifNext ?_ (bind (h _) fun x used rest hx => map ih ?_)
    · rintro first later rfl token
      refine position ?_
      rintro _ _ ⟨⟩
      exact advance (pure ⟨[], first, rfl, .nil, token, rfl⟩)
    · rintro r _ ⟨inner, closing, rfl, items, closes, stop⟩
      exact ⟨used ++ inner, closing, by rw [List.append_assoc], .cons hx items, closes, stop⟩

theorem enclosed (h : ∀ lexemes, Takes lexemes item P) :
    Takes lexemes (enclosed p q item budget) fun r used => ∃ opening inner closing,
      lexemes.head? = some opening ∧ used = opening :: inner ++ [closing] ∧
        Enclosed P p q opening inner closing r.1 ∧ closing.position = r.2 := by
  refine punctuator ?_
  rintro opening later rfl opens
  refine bind (h _) fun x used rest hx => map (itemsUntil h) ?_
  rintro r _ ⟨inner, closing, rfl, items, closes, stop⟩
  exact ⟨opening, used ++ inner, closing, rfl, by simp, ⟨opens, closes, .cons hx items⟩, stop⟩

theorem optionalEnclosed (h : ∀ lexemes, Takes lexemes item P) :
    Takes lexemes (optionalEnclosed p q item budget) fun items used =>
      items = [] ∧ used = [] ∨ ∃ opening inner closing,
        used = opening :: inner ++ [closing] ∧ Enclosed P p q opening inner closing items := by
  refine ifNext (fun _ _ _ _ => map (enclosed h) ?_) (pure (.inl ⟨rfl, rfl⟩))
  rintro r _ ⟨opening, inner, closing, -, rfl, items, -⟩
  exact .inr ⟨opening, inner, closing, rfl, items⟩

theorem itemsWhile (h : ∀ lexemes, Takes lexemes item P) :
    Takes lexemes (itemsWhile announcing item budget) (Series P) := by
  induction budget generalizing lexemes with
  | zero => exact pure .nil
  | succ budget ih =>
    exact ifNext (fun _ _ _ _ => bind (h _) fun x used rest hx =>
      map ih fun xs more items => .cons hx items) (pure .nil)

theorem definitions (h : ∀ lexemes, Takes lexemes item P) :
    Takes lexemes (definitions item budget) (Series P) := by
  induction budget generalizing lexemes with
  | zero => exact fail
  | succ budget ih =>
    refine bind (h _) fun x used rest hx => get ?_
    split
    · exact pure (.cons hx .nil)
    · exact map ih fun xs more items => .cons hx items

end Takes

end Items

theorem Enclosed.balanced {p q : Punctuator} {opening closing : Lexeme} {inner : List Lexeme}
    {items : List α} (h : Enclosed P p q opening inner closing items) (pair : p.closing? = some q)
    (each : ∀ x used, P x used → Balanced used) : Balanced (opening :: inner ++ [closing]) :=
  .enclosed h.opens h.closes pair (h.items.balanced each) .nil

/-- The parser takes lexemes whose brackets match. -/
abbrev Balances (parser : Parser α) : Prop :=
  ∀ lexemes, Takes lexemes parser fun _ used => Balanced used

namespace Balances

theorem name : Balances name := by
  intro lexemes
  rw [← bind_pure Parser.name]
  exact .name fun text first later _ token => .pure (.token token rfl .nil)

theorem keyword (word : String) : Balances (keyword word) := by
  intro lexemes
  rw [← bind_pure (Parser.keyword word)]
  exact .keyword fun first later _ token => .pure (.token token rfl .nil)

theorem optionalEnclosed {item : Parser α} {p q : Punctuator} {budget : Nat} (h : Balances item)
    (pair : p.closing? = some q) : Balances (optionalEnclosed p q item budget) := by
  refine fun lexemes => .mono (.optionalEnclosed h) ?_
  rintro items _ (⟨-, rfl⟩ | ⟨opening, inner, closing, rfl, items⟩)
  · exact .nil
  · exact items.balanced pair fun _ _ h => h

theorem string : Balances string := by
  intro lexemes
  refine .peek ?_ .fail
  rintro t first later rfl token
  cases t with
  | string raw =>
    dsimp only
    split
    · exact .advance (.pure (.token token rfl .nil))
    · exact .fail
  | blockString raw => exact .advance (.pure (.token token rfl .nil))
  | _ => exact .fail

theorem items {item : Parser α} {p q : Punctuator} {budget : Nat} (h : Balances item)
    (pair : p.closing? = some q) {opening : Lexeme} (opens : opening.token = .punctuator p)
    {g : List α × Position → β} :
    Takes lexemes (itemsUntil q item budget >>= fun r => Pure.pure (g r)) fun _ more =>
      Balanced (opening :: more) := by
  refine .map (.itemsUntil h) ?_
  rintro r _ ⟨inner, closing, rfl, items, closes, -⟩
  exact .enclosed opens closes pair (items.balanced fun _ _ h => h) .nil

theorem value (constant : Bool) (budget : Nat) : Balances (value constant budget) := by
  induction budget with
  | zero => exact fun _ => .fail
  | succ budget ih =>
    have field : Balances (do
        let key ← Parser.name
        Parser.punctuator .colon
        return (key, ← Parser.value constant budget)) :=
      fun _ => .name fun _ _ _ _ hkey => .punctuator fun _ _ _ hcolon =>
        .map (ih _) fun _ _ balanced => .token hkey rfl (.token hcolon rfl balanced)
    intro lexemes
    refine .peek ?_ .fail
    rintro t first later rfl token
    cases t with
    | name text => exact .advance (.pure (.token token rfl .nil))
    | int text =>
      dsimp only
      split
      · exact .advance (.pure (.token token rfl .nil))
      · exact .fail
    | float text =>
      dsimp only
      split
      · exact .advance (.pure (.token token rfl .nil))
      · exact .fail
    | string raw => exact .map (string _) fun _ _ balanced => balanced
    | blockString raw => exact .map (string _) fun _ _ balanced => balanced
    | punctuator q =>
      cases q with
      | dollar =>
        dsimp only
        split_ifs
        · exact .fail
        · exact .advance (.map (name _) fun _ _ balanced => .token token rfl balanced)
      | bracketLeft => exact .advance (items ih rfl token)
      | braceLeft => exact .advance (items field rfl token)
      | _ => exact .fail

theorem arguments (constant : Bool) (budget : Nat) : Balances (arguments constant budget) :=
  optionalEnclosed (fun _ => .name fun _ _ _ _ hkey => .punctuator fun _ _ _ hcolon =>
    .map (value constant budget _) fun _ _ balanced =>
      .token hkey rfl (.token hcolon rfl balanced)) rfl

theorem typeRef (budget : Nat) : Balances (typeRef budget) := by
  induction budget with
  | zero => exact fun _ => .fail
  | succ budget ih =>
    have core : Balances (typeCore (Parser.typeRef budget)) := by
      refine fun lexemes => .ifNext ?_ (.map (name _) fun _ _ balanced => balanced)
      rintro opening later rfl opens
      refine .advance (.bind (ih _) fun item inner rest balanced => ?_)
      refine .punctuator fun closing _ _ closes => .pure ?_
      exact .enclosed opens closes rfl balanced .nil
    refine fun lexemes => .bind (core _) fun type used rest balanced => .ifNext ?_ (.pure ?_)
    · rintro bang later rfl token
      exact .advance (.pure (balanced.append (.token token rfl .nil)))
    · rwa [List.append_nil]

theorem default (budget : Nat) : Balances (default budget) := by
  refine fun lexemes => .ifNext ?_ (.pure .nil)
  rintro equals later rfl token
  exact .advance (.map (value true budget _) fun _ _ balanced => .token token rfl balanced)

end Balances

end Parser

end GraphQL
