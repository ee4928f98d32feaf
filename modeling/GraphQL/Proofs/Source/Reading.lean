import GraphQL.Source.TypeSystem
import Mathlib.Data.List.Forall2

/-!
Parsers on tokens that they are meant for: which tokens a parser passes over, and with which result,
whatever follows unless it is one of some punctuators. The rules are those of total correctness,
one for each way parsers are put together.
-/
namespace GraphQL.Parser

variable {α β : Type}

/-- The next token is none of the punctuators. -/
def NotNext (ps : List Punctuator) (ts : List Token) : Prop :=
  ∀ p ∈ ps, ts.head? ≠ some (.punctuator p)

/-- On lexemes of these tokens, followed by such others, the parser passes over exactly these tokens
and gives such a result. -/
def ReadsBefore (parser : Parser α) (ts : List Token) (result : α → Prop)
    (follow : List Token → Prop) : Prop :=
  ∀ lexemes us, lexemes.map (·.token) = ts ++ us → follow us →
    ∃ x rest, parser lexemes = .ok (x, rest) ∧ result x ∧ rest.map (·.token) = us

/-- The parser reads these tokens if none of the punctuators follows. -/
def Reads (parser : Parser α) (ts : List Token) (result : α → Prop) (stops : List Punctuator) :
    Prop :=
  ReadsBefore parser ts result (NotNext stops)

theorem NotNext.cons {ps : List Punctuator} {t : Token} (h : ∀ p ∈ ps, t ≠ .punctuator p)
    (ts : List Token) : NotNext ps (t :: ts) := by
  simpa [NotNext] using h

theorem NotNext.mono {ps qs : List Punctuator} {ts : List Token} (h : NotNext qs ts)
    (sub : ps ⊆ qs) : NotNext ps ts :=
  fun p hp => h p (sub hp)

/-- The parser says whether the next token is this one. -/
def Tests (test : Parser Bool) (t : Token) : Prop :=
  ∀ lexemes, test lexemes = .ok (decide (lexemes.head?.map (·.token) = some t), lexemes)

theorem tests_nextIs (q : Punctuator) : Tests (nextIs q) (.punctuator q) := fun _ => rfl

theorem tests_nextIsName (word : String) : Tests (nextIsName word) (.name word) := fun _ => rfl

theorem peek_run (f : Option Token → Parser α) (lexemes : List Lexeme) :
    (peek >>= f) lexemes = f (lexemes.head?.map (·.token)) lexemes := rfl

/-- What is parsed from a text was given by the parser, on all tokens of the text. -/
theorem run_eq_ok {source : String} {document : Nat → Parser α} {x : α} :
    run source document = .ok x ↔ (lex source.toList).complete = true ∧
      document ((lex source.toList).lexemes.length + 1) (lex source.toList).lexemes =
        .ok (x, []) := by
  unfold run
  dsimp only
  split
  · rename_i failed
    rw [failed]
    exact ⟨nofun, nofun⟩
  · rename_i y rest parsed
    rw [parsed]
    cases rest with
    | nil => by_cases complete : (lex source.toList).complete = true <;> simp [complete]
    | cons => simp

theorem run_ok {source : String} {document : Nat → Parser α} {x : α}
    (h : run source document = .ok x) :
    ∃ budget, document budget (lex source.toList).lexemes = .ok (x, []) :=
  ⟨_, (run_eq_ok.mp h).2⟩

namespace ReadsBefore

variable {parser : Parser α} {ts us : List Token} {result : α → Prop} {follow : List Token → Prop}
  {t : Token}

theorem pure {x : α} (h : result x) : ReadsBefore (pure x) [] result follow :=
  fun lexemes _ tokens _ => ⟨x, lexemes, rfl, h, tokens⟩

theorem bind {f : α → Parser β} {final : β → Prop} {follow' : List Token → Prop}
    (first : ReadsBefore parser ts result follow')
    (next : ∀ x, result x → ReadsBefore (f x) us final follow)
    (follows : ∀ vs, follow vs → follow' (us ++ vs)) :
    ReadsBefore (parser >>= f) (ts ++ us) final follow := by
  intro lexemes vs tokens followed
  rw [List.append_assoc] at tokens
  obtain ⟨x, middle, run, hx, tokens'⟩ := first lexemes (us ++ vs) tokens (follows vs followed)
  obtain ⟨y, rest, run', hy, tokens''⟩ := next x hx middle vs tokens' followed
  refine ⟨y, rest, ?_, hy, tokens''⟩
  change (parser lexemes >>= fun s => f s.1 s.2) = _
  rw [run]
  exact run'

theorem mono {weaker : α → Prop} (h : ReadsBefore parser ts result follow)
    (imp : ∀ x, result x → weaker x) : ReadsBefore parser ts weaker follow := by
  intro lexemes us tokens followed
  obtain ⟨x, rest, run, hx, tokens⟩ := h lexemes us tokens followed
  exact ⟨x, rest, run, imp x hx, tokens⟩

theorem before_mono {follow' : List Token → Prop} (h : ReadsBefore parser ts result follow')
    (imp : ∀ us, follow us → follow' us) : ReadsBefore parser ts result follow :=
  fun lexemes us tokens follows => h lexemes us tokens (imp us follows)

theorem peek {f : Option Token → Parser β} {final : β → Prop}
    (h : ReadsBefore (f (some t)) (t :: ts) final follow) :
    ReadsBefore (peek >>= f) (t :: ts) final follow := by
  intro lexemes us tokens followed
  obtain ⟨lexeme, rest, rfl, rfl, tokens'⟩ := List.map_eq_cons_iff.mp tokens
  exact h _ us tokens followed

theorem position {f : Position → Parser β} {final : β → Prop}
    (h : ∀ p, ReadsBefore (f p) (t :: ts) final follow) :
    ReadsBefore (position >>= f) (t :: ts) final follow := by
  intro lexemes us tokens followed
  obtain ⟨lexeme, rest, rfl, rfl, tokens'⟩ := List.map_eq_cons_iff.mp tokens
  exact h lexeme.position _ us tokens followed

theorem advance {f : Unit → Parser β} {final : β → Prop} (h : ReadsBefore (f ()) ts final follow) :
    ReadsBefore (advance >>= f) (t :: ts) final follow := by
  intro lexemes us tokens followed
  obtain ⟨lexeme, rest, rfl, rfl, tokens'⟩ := List.map_eq_cons_iff.mp tokens
  exact h rest us tokens' followed

section Tests

variable {test : Parser Bool} {yes no : Parser α}

theorem head {f : Bool → Parser β} {final : β → Prop} (ht : Tests test t)
    (h : ReadsBefore (f true) (t :: ts) final follow) :
    ReadsBefore (test >>= f) (t :: ts) final follow := by
  intro lexemes us tokens followed
  have next : decide (lexemes.head?.map (·.token) = some t) = true := by
    rw [← List.head?_map, tokens]
    simp
  obtain ⟨x, rest, run, found⟩ := h lexemes us tokens followed
  refine ⟨x, rest, ?_, found⟩
  change (test lexemes >>= fun s => f s.1 s.2) = _
  rw [ht, next]
  exact run

theorem notHead {f : Bool → Parser β} {final : β → Prop} (ht : Tests test t)
    (other : ∀ us, follow us → (ts ++ us).head? ≠ some t)
    (h : ReadsBefore (f false) ts final follow) : ReadsBefore (test >>= f) ts final follow := by
  intro lexemes us tokens followed
  have next : decide (lexemes.head?.map (·.token) = some t) = false := by
    rw [← List.head?_map, tokens]
    exact decide_eq_false (other us followed)
  obtain ⟨x, rest, run, found⟩ := h lexemes us tokens followed
  refine ⟨x, rest, ?_, found⟩
  change (test lexemes >>= fun s => f s.1 s.2) = _
  rw [ht, next]
  exact run

theorem ifHead (ht : Tests test t) (h : ReadsBefore yes (t :: ts) result follow) :
    ReadsBefore (test >>= fun b => if b = true then yes else no) (t :: ts) result follow :=
  head ht h

theorem ifNotHead (ht : Tests test t)
    (other : ∀ us, follow us → (ts ++ us).head? ≠ some t) (h : ReadsBefore no ts result follow) :
    ReadsBefore (test >>= fun b => if b = true then yes else no) ts result follow :=
  notHead ht other h

theorem ifNext {q : Punctuator} (h : ReadsBefore yes (.punctuator q :: ts) result follow) :
    ReadsBefore (nextIs q >>= fun b => if b = true then yes else no) (.punctuator q :: ts) result
      follow :=
  ifHead (tests_nextIs q) h

theorem ifNotNext {q : Punctuator} (other : ∀ us, follow us → NotNext [q] (ts ++ us))
    (h : ReadsBefore no ts result follow) :
    ReadsBefore (nextIs q >>= fun b => if b = true then yes else no) ts result follow :=
  ifNotHead (tests_nextIs q) (fun us followed => other us followed q List.mem_cons_self) h

theorem ifNextName {word : String} (h : ReadsBefore yes (.name word :: ts) result follow) :
    ReadsBefore (nextIsName word >>= fun b => if b = true then yes else no) (.name word :: ts)
      result follow :=
  ifHead (tests_nextIsName word) h

theorem ifNotNextName {word : String} (other : t ≠ .name word)
    (h : ReadsBefore no (t :: ts) result follow) :
    ReadsBefore (nextIsName word >>= fun b => if b = true then yes else no) (t :: ts) result
      follow :=
  ifNotHead (tests_nextIsName word) (fun us _ => by simpa using other) h

theorem expected {f : Unit → Parser β} {final : β → Prop} (ht : Tests test t)
    (h : ReadsBefore (f ()) ts final follow) :
    ReadsBefore ((test >>= fun b => if b = true then Parser.advance else fail) >>= f) (t :: ts)
      final follow := by
  intro lexemes us tokens followed
  obtain ⟨lexeme, rest, rfl, rfl, tokens'⟩ := List.map_eq_cons_iff.mp tokens
  have run : (test >>= fun b => if b = true then Parser.advance else fail) (lexeme :: rest) =
      .ok ((), rest) := by
    change (test _ >>= fun s => (if s.1 = true then Parser.advance else fail) s.2) = _
    rw [ht, List.head?_cons, Option.map_some, decide_eq_true rfl]
    rfl
  change ∃ x rest', ((test >>= fun b => if b = true then Parser.advance else fail) _ >>=
    fun s => f s.1 s.2) = _ ∧ _
  rw [run]
  exact h rest us tokens' followed

theorem punctuator {q : Punctuator} {f : Unit → Parser β} {final : β → Prop}
    (h : ReadsBefore (f ()) ts final follow) :
    ReadsBefore (punctuator q >>= f) (.punctuator q :: ts) final follow :=
  expected (tests_nextIs q) h

theorem keyword {word : String} {f : Unit → Parser β} {final : β → Prop}
    (h : ReadsBefore (f ()) ts final follow) :
    ReadsBefore (keyword word >>= f) (.name word :: ts) final follow :=
  expected (tests_nextIsName word) h

end Tests

theorem name {text : String} {f : String → Parser β} {final : β → Prop}
    (h : ReadsBefore (f text) ts final follow) :
    ReadsBefore (name >>= f) (.name text :: ts) final follow := by
  intro lexemes us tokens followed
  obtain ⟨⟨p, _⟩, rest, rfl, rfl, tokens'⟩ := List.map_eq_cons_iff.mp tokens
  exact h rest us tokens' followed

theorem peek_bind {γ : Type} {g : Option Token → Parser β} {f : β → Parser γ} {final : γ → Prop}
    (h : ReadsBefore (g (some t) >>= f) (t :: ts) final follow) :
    ReadsBefore ((Parser.peek >>= g) >>= f) (t :: ts) final follow := by
  intro lexemes us tokens followed
  obtain ⟨lexeme, rest, rfl, rfl, tokens'⟩ := List.map_eq_cons_iff.mp tokens
  exact h _ us tokens followed

theorem advance_bind {γ : Type} {g : Unit → Parser β} {f : β → Parser γ} {final : γ → Prop}
    (h : ReadsBefore (g () >>= f) ts final follow) :
    ReadsBefore ((Parser.advance >>= g) >>= f) (t :: ts) final follow := by
  intro lexemes us tokens followed
  obtain ⟨lexeme, rest, rfl, rfl, tokens'⟩ := List.map_eq_cons_iff.mp tokens
  exact h rest us tokens' followed

/-- One parser after another that may be followed by anything. -/
theorem andThen {f : α → Parser β} {final : β → Prop} (first : Reads parser ts result [])
    (next : ∀ x, result x → ReadsBefore (f x) us final follow) :
    ReadsBefore (parser >>= f) (ts ++ us) final follow :=
  bind first next fun _ _ _ hp => absurd hp List.not_mem_nil

theorem map {g : α → β} {final : β → Prop} (h : ReadsBefore parser ts result follow)
    (imp : ∀ x, result x → final (g x)) :
    ReadsBefore (parser >>= fun x => Pure.pure (g x)) ts final follow := by
  rw [← List.append_nil ts]
  exact bind h (fun x hx => pure (imp x hx)) fun _ followed => followed

end ReadsBefore

theorem Reads.stops_mono {parser : Parser α} {ts : List Token} {result : α → Prop}
    {stops stops' : List Punctuator} (h : Reads parser ts result stops) (sub : stops ⊆ stops') :
    Reads parser ts result stops' :=
  h.before_mono fun _ notNext => notNext.mono sub

/-- The first token is such a one. -/
def StartsWith (heads : Token → Prop) (ts : List Token) : Prop := ∃ t ∈ ts.head?, heads t

def Apart (heads : Token → Prop) (ps : List Punctuator) : Prop :=
  ∀ t, heads t → ∀ p ∈ ps, t ≠ .punctuator p

theorem StartsWith.notNext {heads : Token → Prop} {ps : List Punctuator} {ts : List Token}
    (h : StartsWith heads ts) (apart : Apart heads ps) (us : List Token) :
    NotNext ps (ts ++ us) := by
  obtain ⟨t, ht, hh⟩ := h
  obtain ⟨rest, rfl⟩ := List.head?_eq_some_iff.mp ht
  exact .cons (apart t hh) _

theorem StartsWith.ne_nil {heads : Token → Prop} {ts : List Token} (h : StartsWith heads ts) :
    ts ≠ [] := by
  rintro rfl
  obtain ⟨t, ⟨⟩, -⟩ := h

def Opens (q : Punctuator) (ts : List Token) : Prop := ∀ t ∈ ts.head?, t = .punctuator q

theorem Opens.nil (q : Punctuator) : Opens q [] := by simp [Opens]

theorem Opens.cons (q : Punctuator) (ts : List Token) : Opens q (.punctuator q :: ts) := by
  simp [Opens]

theorem Opens.notNext {q : Punctuator} {ps : List Punctuator} {ts us : List Token}
    (h : Opens q ts) (hq : q ∉ ps) (hu : NotNext ps us) : NotNext ps (ts ++ us) := by
  cases ts with
  | nil => exact hu
  | cons t ts =>
    obtain rfl := h t rfl
    refine .cons ?_ _
    rintro p hp ⟨⟩
    exact hq hp

theorem StartsWith.exists_cons {q : Punctuator} {ts : List Token}
    (h : StartsWith (· = .punctuator q) ts) : ∃ r rest, ts = .punctuator r :: rest := by
  obtain ⟨_, head, rfl⟩ := h
  obtain ⟨rest, rfl⟩ := List.head?_eq_some_iff.mp head
  exact ⟨q, rest, rfl⟩

/-- Before tokens that start with a punctuator there may be others that do. -/
theorem Opens.exists_cons {q : Punctuator} {ts us : List Token} (h : Opens q ts)
    (hu : ∃ r rest, us = .punctuator r :: rest) : ∃ r rest, ts ++ us = .punctuator r :: rest := by
  cases ts with
  | nil => exact hu
  | cons t ts =>
    obtain rfl := h t rfl
    exact ⟨q, ts ++ us, rfl⟩

/-- Each of the values is read from its tokens. -/
def Each (parser : Parser α) (results : β → α → Prop) (heads : Token → Prop)
    (stops : List Punctuator) (values : List β) (tss : List (List Token)) : Prop :=
  List.Forall₂ (fun value ts => StartsWith heads ts ∧ Reads parser ts (results value) stops)
    values tss

section Items

variable {item : Parser α} {results : β → α → Prop} {heads : Token → Prop}
  {follow : List Token → Prop} {itemStops : List Punctuator} {values : List β}
  {tss : List (List Token)} {opening closing announcing : Punctuator} {budget : Nat}

/-- After one of the items comes another or what comes after all of them. -/
theorem Each.follows (h : Each item results heads itemStops values tss)
    (apart : Apart heads itemStops) {us : List Token} (notNext : NotNext itemStops us) :
    NotNext itemStops (tss.flatten ++ us) := by
  cases h with
  | nil => exact notNext
  | cons first =>
    rw [List.flatten_cons, List.append_assoc]
    exact first.1.notNext apart _

theorem Each.follows_closing (h : Each item results heads itemStops values tss)
    (apart : Apart heads itemStops) (last : closing ∉ itemStops) (us : List Token) :
    NotNext itemStops ((tss.flatten ++ [.punctuator closing]) ++ us) := by
  rw [List.append_assoc]
  refine h.follows apart (.cons ?_ _)
  rintro q hq ⟨⟩
  exact last hq

theorem Each.opens (h : Each item results (· = .punctuator opening) itemStops values tss) :
    Opens opening tss.flatten := by
  cases h with
  | nil => exact .nil _
  | cons first =>
    obtain ⟨⟨_, head, rfl⟩, -⟩ := first
    obtain ⟨ts, rfl⟩ := List.head?_eq_some_iff.mp head
    exact .cons _ _

namespace ReadsBefore

theorem itemsUntil (h : Each item results heads itemStops values tss)
    (apart : Apart heads (closing :: itemStops)) (last : closing ∉ itemStops)
    (budgeted : values.length < budget) :
    ReadsBefore (itemsUntil closing item budget) (tss.flatten ++ [.punctuator closing])
      (fun r => List.Forall₂ results values r.1) follow := by
  induction h generalizing budget with
  | nil =>
    obtain ⟨budget, rfl⟩ : ∃ b, budget = b + 1 := ⟨budget - 1, by simp at budgeted; omega⟩
    exact ifNext (position fun p => advance (pure .nil))
  | @cons value ts values tss first rest ih =>
    obtain ⟨budget, rfl⟩ : ∃ b, budget = b + 1 := ⟨budget - 1, by simp at budgeted; omega⟩
    rw [List.flatten_cons, List.append_assoc]
    refine ifNotNext (fun us _ => ?_) (bind first.2 (fun x hx => ?_) fun us _ => ?_)
    · rw [List.append_assoc]
      exact (first.1.notNext apart _).mono (by simp)
    · exact map (ih (by simpa using budgeted)) fun r hr => .cons hx hr
    · exact Each.follows_closing rest (fun t ht p hp => apart t ht p (List.mem_cons_of_mem _ hp))
        last us

theorem enclosed (h : Each item results heads itemStops values tss)
    (apart : Apart heads (closing :: itemStops)) (last : closing ∉ itemStops) (some : values ≠ [])
    (budgeted : values.length ≤ budget) :
    ReadsBefore (enclosed opening closing item budget)
      (.punctuator opening :: (tss.flatten ++ [.punctuator closing]))
      (fun r => List.Forall₂ results values r.1) follow := by
  cases h with
  | nil => exact absurd rfl some
  | @cons value ts values tss first rest =>
    rw [List.flatten_cons, List.append_assoc]
    refine punctuator (bind first.2 (fun x hx => ?_) fun us _ => ?_)
    · exact map (itemsUntil rest apart last budgeted) fun r hr => .cons hx hr
    · exact Each.follows_closing rest (fun t ht p hp => apart t ht p (List.mem_cons_of_mem _ hp))
        last us

end ReadsBefore

theorem Reads.itemsWhile (h : Each item results (· = .punctuator announcing) itemStops values tss)
    (first : announcing ∉ itemStops) (budgeted : values.length ≤ budget) :
    Reads (itemsWhile announcing item budget) tss.flatten (List.Forall₂ results values)
      (announcing :: itemStops) := by
  induction h generalizing budget with
  | nil =>
    cases budget with
    | zero => exact .pure .nil
    | succ budget => exact .ifNotNext (fun us notNext => notNext.mono (by simp)) (.pure .nil)
  | @cons value ts values tss hv rest ih =>
    obtain ⟨budget, rfl⟩ : ∃ b, budget = b + 1 := ⟨budget - 1, by simp at budgeted; omega⟩
    obtain ⟨⟨_, head, rfl⟩, reads⟩ := hv
    obtain ⟨ts, rfl⟩ := List.head?_eq_some_iff.mp head
    refine .ifNext (.bind reads (fun x hx => ?_) fun us notNext => ?_)
    · exact .map (ih (by simpa using budgeted)) fun xs hxs => .cons hx hxs
    · refine Each.follows rest ?_ (notNext.mono (List.subset_cons_self _ _))
      rintro _ rfl p hp ⟨⟩
      exact first hp

end Items

/-- A type but for the mark of those that are not null. -/
def typeCore (item : Parser TypeRef) : Parser TypeRef := do
  if ← nextIs .bracketLeft then
    advance
    let item ← item
    punctuator .bracketRight
    return .list item
  else return .named (← name)

theorem typeRef_succ (budget : Nat) :
    typeRef (budget + 1) = typeCore (typeRef budget) >>= fun type => do
      if ← nextIs .bang then
        advance
        return .nonNull type
      return type := rfl

/-- An entry of a schema block. -/
def rootEntry : Parser (String × String) := do
  let operation ← name
  punctuator .colon
  return (operation, ← name)

/-- The places of a directive; there may be none. -/
def directivePlaces (budget : Nat) : Parser (List String) := do
  match ← peek with
  | some (.name _) | some (.punctuator .pipe) => separated .pipe directiveLocation budget
  | _ => return []

end GraphQL.Parser
