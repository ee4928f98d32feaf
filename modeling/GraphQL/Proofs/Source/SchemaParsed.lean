import GraphQL.Proofs.Source.Parsed
import GraphQL.Proofs.Source.Yields

/-!
What source text of a type system is parsed to. Main statement: a document that is parsed without
spans is one that source text can stand for.
-/
namespace GraphQL

open Ast

variable {k : Nat}

theorem Bracketed.map {α β : Type} {fits : Nat → β → Prop} {make : α → β} {items : List α}
    (h : Bracketed (fun i x => fits i (make x)) k items) : Bracketed fits k (items.map make) := by
  cases k with
  | zero =>
    obtain rfl : items = [] := h
    rfl
  | succ k => exact List.forall_mem_map.mpr h

namespace Parser.Ensures

theorem description : Ensures k Parser.description (fun _ => True) k := by
  refine peek (fun t => ?_) (pure trivial)
  cases t with
  | string raw => exact here (map string fun _ _ => trivial)
  | blockString raw => exact here (map string fun _ _ => trivial)
  | _ => exact here (pure trivial)

theorem optional {q : Punctuator} (flat : (q.isOpening || q.isClosing) = false) :
    Ensures k (Parser.optional q) (fun _ => True) k := by
  refine ifNext ?_ (pure trivial)
  rw [← bind_pure advance]
  exact .advance_flat (nestingAfter?_flat flat k) fun _ => pure trivial

theorem separated {q : Punctuator} {item : Parser String} {result : String → Prop}
    (flat : (q.isOpening || q.isClosing) = false) (h : Ensures k item result k) (budget : Nat) :
    Ensures k (Parser.separated q item budget) (fun xs => ∀ x ∈ xs, result x) k := by
  refine bind (optional flat) fun _ _ => bind h fun x hx => ?_
  have next : Ensures k (do Parser.punctuator q; item) result k :=
    bind (Ensures.flat flat) fun _ _ => h
  exact map (itemsWhile next) fun xs hxs => List.forall_mem_cons.mpr ⟨hx, hxs⟩

theorem inputValue (budget : Nat) :
    Ensures k (inputValue budget) (fun v => (InputValueDefinition.located none v).Fits k) k :=
  bind position fun _ _ => bind description fun _ _ => bind name fun _ hn =>
    bind (flat rfl) fun _ _ => bind (typeRef budget) fun _ ht => bind (default budget) fun _ hd =>
      map (directives budget) fun _ hds => .intro hn ht hd hds

theorem argumentDefinitions (budget : Nat) :
    Ensures k (argumentDefinitions budget)
      (fun as => Bracketed InputValueDefinition.Fits k (as.map (.located none))) k :=
  (optionalEnclosed (fun _ => inputValue budget) rfl rfl rfl).mono fun _ => Bracketed.map

theorem fieldDefinition (budget : Nat) :
    Ensures k (fieldDefinition budget) (fun f => (FieldDefinition.located none f).Fits k) k :=
  bind position fun _ _ => bind description fun _ _ => bind name fun _ hn =>
    bind (argumentDefinitions budget) fun _ ha => bind (flat rfl) fun _ _ =>
      bind (typeRef budget) fun _ ht => map (directives budget) fun _ hds => .intro hn ha ht hds

theorem enumValueDefinition (budget : Nat) :
    Ensures k (enumValueDefinition budget)
      (fun v => (EnumValueDefinition.located none v).Fits k) k :=
  bind position fun _ _ => bind description fun _ _ => bind name fun _ hn =>
    map (directives budget) fun _ hds => .intro hn hds

theorem block {α β : Type} {item : Parser α} {fits : Nat → β → Prop} {make : α → β}
    (h : ∀ i, Ensures i item (fun x => fits i (make x)) i) (budget : Nat) :
    Ensures k (Parser.optionalEnclosed .braceLeft .braceRight item budget)
      (fun xs => Bracketed fits k (xs.map make)) k :=
  (optionalEnclosed h rfl rfl rfl).mono fun _ => Bracketed.map

theorem interfaces (budget : Nat) :
    Ensures k (interfaces budget) (fun names => ∀ text ∈ names, isName text = true) k :=
  ifNextName (.advance_flat rfl fun _ => separated rfl name budget) (pure (by simp))

theorem unionMembers (budget : Nat) :
    Ensures k (unionMembers budget) (fun names => ∀ text ∈ names, isName text = true) k :=
  ifNext (.advance_flat rfl fun _ => separated rfl name budget) (pure (by simp))

theorem typeDefinition (budget : Nat) (description : Option String) :
    Ensures k (typeDefinition budget description) (fun t => (Definition.ofType none t).Declares k)
      k := by
  refine bind position fun p _ => peek (fun t => ?_) fail
  cases t with
  | name text =>
    split
    · exact .advance_flat rfl fun _ => bind name fun _ hn => map (directives budget) fun _ hds =>
        .scalar hn hds
    · exact .advance_flat rfl fun _ => bind name fun _ hn => bind (interfaces budget) fun _ hi =>
        bind (directives budget) fun _ hds => map (block (fun _ => fieldDefinition budget) budget)
          fun _ hf => .object hn hi hds hf
    · exact .advance_flat rfl fun _ => bind name fun _ hn => bind (interfaces budget) fun _ hi =>
        bind (directives budget) fun _ hds => map (block (fun _ => fieldDefinition budget) budget)
          fun _ hf => .interface hn hi hds hf
    · exact .advance_flat rfl fun _ => bind name fun _ hn => bind (directives budget) fun _ hds =>
        map (unionMembers budget) fun _ ht => .union hn hds ht
    · exact .advance_flat rfl fun _ => bind name fun _ hn => bind (directives budget) fun _ hds =>
        map (block (fun _ => enumValueDefinition budget) budget) fun _ hv => .enum hn hds hv
    · exact .advance_flat rfl fun _ => bind name fun _ hn => bind (directives budget) fun _ hds =>
        map (block (fun _ => inputValue budget) budget) fun _ hf => .inputObject hn hds hf
    · exact fail.here
  | _ => exact fail.here

theorem directiveLocation :
    Ensures k directiveLocation (fun text => text ∈ directiveLocations) k := by
  refine peek (fun t => ?_) fail
  cases t with
  | name text =>
    dsimp only
    split_ifs with h
    · exact .advance_flat rfl fun _ => pure h
    · exact fail.here
  | _ => exact fail.here

theorem directiveDefinition (budget : Nat) (description : Option String) :
    Ensures k (directiveDefinition budget description)
      (fun d => (Definition.directive (.located none d)).Declares k) k := by
  refine bind position fun p _ => bind (keyword _) fun _ _ => bind (flat rfl) fun _ _ =>
    bind name fun _ hn => bind (argumentDefinitions budget) fun _ ha => ?_
  have places : Ensures k (directivePlaces budget)
      (fun ls => ∀ text ∈ ls, text ∈ directiveLocations) k := by
    have some := separated (q := .pipe) (k := k) rfl directiveLocation budget
    refine peek (fun t => ?_) (pure (by simp))
    split
    · exact some.here
    · exact some.here
    · exact here (pure (by simp))
  refine head (tests_nextIsName _) (.advance_flat rfl fun _ => ?_) ?_
  all_goals exact bind (keyword _) fun _ _ => map places fun _ hl => .directive hn ha hl

theorem schemaDefinition (budget : Nat) :
    Ensures k (schemaDefinition budget) (fun d => (Definition.schema (.located none d)).Declares k)
      k := by
  refine bind position fun p _ => bind (keyword _) fun _ _ => bind (directives budget) fun _ hds =>
    bind (Ensures.opening rfl) fun _ taken => ?_
  obtain ⟨k, rfl⟩ := taken
  have entry : Ensures k rootEntry (fun e => isName e.2 = true) k :=
    bind name fun _ _ => bind (flat rfl) fun _ _ => map name fun _ hn => hn
  refine bind (itemsUntil entry rfl rfl) fun r hr => ?_
  dsimp only
  split_ifs
  · have named (word text : String) (found : r.1.lookup word = some text) : isName text = true := by
      obtain ⟨before, after, all, -⟩ := List.lookup_eq_some_iff.mp found
      exact hr (word, text) (all ▸ List.mem_append_right _ List.mem_cons_self)
    refine pure (.schema hds fun root hroot => ?_)
    simp only [rootTypes, List.mem_append, Option.mem_toList, Option.map_eq_some_iff]
      at hroot
    rcases hroot with (⟨text, found, rfl⟩ | ⟨text, found, rfl⟩) | ⟨text, found, rfl⟩
    all_goals exact named _ text found
  · intro lexemes x rest good run
    cases run

theorem typeSystemDefinition (budget : Nat) :
    Ensures k (typeSystemDefinition budget)
      (fun x => ∀ d, Definition.ofTypeSystem none x = .ok d → d.Declares k) k := by
  refine ifNextName (here (map (schemaDefinition budget) ?_)) (ifNextName
    (.advance_flat rfl fun _ => ?_) (bind description fun _ _ => ifNextName
      (here (map (directiveDefinition budget _) ?_)) (map (typeDefinition budget _) ?_)))
  · rintro x hx _ ⟨⟩
    exact hx
  · refine bind position fun p _ => bind (typeDefinition budget none) fun t _ => ?_
    split_ifs
    · exact pure (by rintro _ ⟨⟩)
    · intro lexemes x rest good run
      cases run
  · rintro x hx _ ⟨⟩
    exact hx
  · rintro x hx _ ⟨⟩
    exact hx

end Parser.Ensures

namespace Parser

variable {α β : Type} {parser : Parser α} {P Q : α → Option Token → Prop}

/-- Where the parser succeeds, its result and the token after it are so related. -/
def Leaves (parser : Parser α) (P : α → Option Token → Prop) : Prop :=
  ∀ lexemes x rest, parser lexemes = .ok (x, rest) → P x (rest.head?.map (·.token))

namespace Leaves

theorem pure {x : α} (h : ∀ t, P x t) : Leaves (pure x) P := by
  rintro lexemes _ rest ⟨⟩
  exact h _

theorem fail : Leaves (Parser.fail : Parser α) P := by
  intro lexemes x rest run
  cases run

theorem next {f : α → Parser β} {final : β → Option Token → Prop}
    (h : ∀ x, Leaves (f x) final) : Leaves (parser >>= f) final := by
  intro lexemes y rest run
  change (parser lexemes >>= fun s => f s.1 s.2) = _ at run
  cases hp : parser lexemes with
  | error p =>
    rw [hp] at run
    cases run
  | ok s =>
    rw [hp] at run
    exact h s.1 s.2 y rest run

theorem map {g : α → β} {final : β → Option Token → Prop} (h : Leaves parser P)
    (imp : ∀ x t, P x t → final (g x) t) :
    Leaves (parser >>= fun x => Pure.pure (g x)) final := by
  intro lexemes y rest run
  change (parser lexemes >>= fun s => .ok (g s.1, s.2)) = _ at run
  cases hp : parser lexemes with
  | error p =>
    rw [hp] at run
    cases run
  | ok s =>
    rw [hp] at run
    cases run
    exact imp _ _ (h lexemes s.1 s.2 hp)

end Leaves

theorem separated_ne_nil (q : Punctuator) (item : Parser α) (budget : Nat) :
    Yields (separated q item budget) (· ≠ []) :=
  .next fun _ => .next fun _ => .next fun _ => .pure (List.cons_ne_nil _ _)

/-- Where no location is read there is no name. -/
theorem directivePlaces_leaves (budget : Nat) :
    Leaves (directivePlaces budget) fun places t =>
      places = [] → ∀ word, t ≠ some (.name word) := by
  rintro lexemes places rest run rfl word
  rw [directivePlaces, peek_run] at run
  generalize next : lexemes.head?.map (·.token) = t at run
  split at run
  · exact absurd rfl (separated_ne_nil _ _ _ _ _ _ run)
  · exact absurd rfl (separated_ne_nil _ _ _ _ _ _ run)
  · rename_i other _
    cases run
    rw [next]
    exact other word

theorem directiveDefinition_leaves (budget : Nat) (description : Option String) :
    Leaves (directiveDefinition budget description) fun d t =>
      d.locations = [] → ∀ word, t ≠ some (.name word) := by
  refine .next fun p => .next fun _ => .next fun _ => .next fun _ => .next fun _ =>
    .next fun repeatable => ?_
  cases repeatable with
  | true => exact .next fun _ => .next fun _ => .map (directivePlaces_leaves budget) fun _ _ h => h
  | false => exact .next fun _ => .map (directivePlaces_leaves budget) fun _ _ h => h

/-- After a directive without locations there is no name. -/
theorem typeSystemDefinition_leaves (budget : Nat) :
    Leaves (typeSystemDefinition budget) fun x t => ∀ d, Definition.ofTypeSystem none x = .ok d →
      d.IsPlaceless → ∀ word, t ≠ some (.name word) := by
  refine .next fun isSchema => ?_
  split_ifs
  · exact .next fun _ => .pure (by rintro t _ ⟨⟩ ⟨⟩)
  refine .next fun isExtension => ?_
  split_ifs
  · refine .next fun _ => .next fun p => .next fun t => ?_
    split_ifs
    · exact .pure (by rintro t _ ⟨⟩)
    · intro lexemes x rest run
      cases run
  refine .next fun description => .next fun isDirective => ?_
  split_ifs
  · refine .map (directiveDefinition_leaves budget description) ?_
    rintro x t h _ ⟨⟩ placeless
    exact h (List.map_eq_nil_iff.mp placeless)
  · refine .next fun t => .pure ?_
    rintro _ _ ⟨⟩ placeless
    cases t <;> cases placeless

theorem directiveDefinition_describes (budget : Nat) (description : Option String) :
    Yields (directiveDefinition budget description) (·.description = description) := by
  refine .next fun p => .next fun _ => .next fun _ => .next fun _ => .next fun _ =>
    .next fun repeatable => ?_
  cases repeatable with
  | true => exact .next fun _ => .next fun _ => .next fun _ => .pure rfl
  | false => exact .next fun _ => .next fun _ => .pure rfl

theorem typeDefinition_describes (budget : Nat) (description : Option String) :
    Yields (typeDefinition budget description) fun t =>
      (Definition.ofType none t).description? = descriptionOf description := by
  refine .next fun p => .next fun t => ?_
  split
  · exact .next fun _ => .next fun _ => .next fun _ => .pure rfl
  · exact .next fun _ => .next fun _ => .next fun _ => .next fun _ => .next fun _ => .pure rfl
  · exact .next fun _ => .next fun _ => .next fun _ => .next fun _ => .next fun _ => .pure rfl
  · exact .next fun _ => .next fun _ => .next fun _ => .next fun _ => .pure rfl
  · exact .next fun _ => .next fun _ => .next fun _ => .next fun _ => .pure rfl
  · exact .next fun _ => .next fun _ => .next fun _ => .next fun _ => .pure rfl
  · exact .fail

/-- The definition after a description, if this is no schema block. -/
theorem definition_describes (budget : Nat) (description : Option String) :
    Yields (do
        if ← nextIsName "directive" then
          return .directive (← directiveDefinition budget description)
        return .type (← typeDefinition budget description))
      fun x => ∀ d, Definition.ofTypeSystem none x = .ok d →
        d.description? = descriptionOf description := by
  refine .ifNext (.map (directiveDefinition_describes budget description) ?_)
    (.map (typeDefinition_describes budget description) ?_)
  · rintro x same _ ⟨⟩
    exact congrArg descriptionOf same
  · rintro x same _ ⟨⟩
    exact same

theorem description_none {lexemes rest : List Lexeme}
    (run : Parser.description lexemes = .ok (none, rest)) : rest = lexemes := by
  rw [Parser.description, peek_run] at run
  have some : Yields (do return some (← string) : Parser (Option String)) (· ≠ none) :=
    .next fun _ => .pure (by simp)
  generalize lexemes.head?.map (·.token) = t at run
  split at run
  · exact absurd rfl (some _ _ _ run)
  · exact absurd rfl (some _ _ _ run)
  · cases run
    rfl

theorem typeDefinition_named {budget : Nat} {description : Option String}
    {lexemes rest : List Lexeme} {t : TypeSystem.TypeDefinition}
    (run : typeDefinition budget description lexemes = .ok (t, rest)) :
    ∃ word, lexemes.head?.map (·.token) = some (.name word) := by
  rcases lexemes with _ | ⟨⟨p, token⟩, later⟩
  · cases run
  · cases token with
    | name word => exact ⟨word, rfl⟩
    | _ => cases run

theorem run_notNextName {lexemes : List Lexeme}
    (unnamed : ∀ word, lexemes.head?.map (·.token) ≠ some (.name word)) (word : String)
    (f : Bool → Parser β) : (nextIsName word >>= f) lexemes = f false lexemes := by
  change (nextIsName word lexemes >>= fun s => f s.1 s.2) = _
  rw [tests_nextIsName, decide_eq_false (unnamed word)]
  rfl

theorem described_of_unnamed {budget : Nat} {lexemes rest : List Lexeme}
    {x : TypeSystem.Definition} (run : typeSystemDefinition budget lexemes = .ok (x, rest))
    (unnamed : ∀ word, lexemes.head?.map (·.token) ≠ some (.name word)) {d : Definition}
    (hd : Definition.ofTypeSystem none x = .ok d) : d.description?.isSome = true := by
  unfold typeSystemDefinition at run
  rw [run_notNextName unnamed, if_neg Bool.false_ne_true, run_notNextName unnamed,
    if_neg Bool.false_ne_true] at run
  change (Parser.description lexemes >>= fun s => _) = _ at run
  cases described : Parser.description lexemes with
  | error p =>
    rw [described] at run
    cases run
  | ok s =>
    obtain ⟨description, later⟩ := s
    rw [described] at run
    replace run : (do
        if ← nextIsName "directive" then
          return .directive (← directiveDefinition budget description)
        return .type (← typeDefinition budget description) : Parser TypeSystem.Definition) later =
          .ok (x, rest) := run
    cases description with
    | some text => rw [definition_describes budget (some text) _ _ _ run d hd, descriptionOf,
        Option.isSome_map, Option.isSome_some]
    | none =>
      obtain rfl := description_none described
      rw [run_notNextName unnamed, if_neg Bool.false_ne_true] at run
      change (typeDefinition budget none later >>= fun s =>
        .ok (TypeSystem.Definition.type s.1, s.2)) = _ at run
      cases typed : typeDefinition budget none later with
      | error p =>
        rw [typed] at run
        cases run
      | ok s =>
        obtain ⟨word, named⟩ := typeDefinition_named typed
        exact absurd named (unnamed word)

/-- Where no name follows a definition of some kind and only such definitions of another kind start
without one, the one is followed by the other. -/
theorem chain_of_definitions {item : Parser α} {R : α → α → Prop} {P : α → Option Token → Prop}
    (leaves : Leaves item P)
    (starts : ∀ lexemes y rest, item lexemes = .ok (y, rest) →
      ∀ x, P x (lexemes.head?.map (·.token)) → R x y) {budget : Nat} {lexemes rest : List Lexeme}
    {xs : List α} (run : definitions item budget lexemes = .ok (xs, rest)) :
    xs.IsChain R ∧ ∀ y ∈ xs.head?, ∀ x, P x (lexemes.head?.map (·.token)) → R x y := by
  induction budget generalizing lexemes xs with
  | zero => cases run
  | succ budget ih =>
    change (item lexemes >>= fun s => (do
      if (← get).isEmpty then return [s.1]
      return s.1 :: (← definitions item budget) : Parser (List α)) s.2) = _ at run
    cases first : item lexemes with
    | error p =>
      rw [first] at run
      cases run
    | ok s =>
      obtain ⟨x, later⟩ := s
      rw [first] at run
      change (if later.isEmpty then pure [x] else do
        return x :: (← definitions item budget) : Parser (List α)) later = _ at run
      split_ifs at run
      · cases run
        refine ⟨.singleton x, ?_⟩
        rintro _ ⟨⟩
        exact starts _ _ _ first
      · change (definitions item budget later >>= fun s => .ok (x :: s.1, s.2)) = _ at run
        cases others : definitions item budget later with
        | error p =>
          rw [others] at run
          cases run
        | ok s =>
          obtain ⟨xs, end_⟩ := s
          rw [others] at run
          cases run
          obtain ⟨chain, follows⟩ := ih others
          refine ⟨?_, ?_⟩
          · cases xs with
            | nil => exact .singleton x
            | cons y ys => exact .cons_cons (follows y rfl x (leaves _ _ _ first)) chain
          · rintro _ ⟨⟩
            exact starts _ _ _ first

end Parser

theorem forall_of_forall₂ {α β : Type} {R : α → β → Prop} {P : α → Prop} {as : List α}
    {bs : List β} (h : List.Forall₂ R as bs) (imp : ∀ a, ∀ b ∈ bs, R a b → P a) :
    ∀ a ∈ as, P a := by
  induction h with
  | nil => exact nofun
  | cons first _ ih =>
    exact List.forall_mem_cons.mpr ⟨imp _ _ List.mem_cons_self first,
      ih fun a b hb => imp a b (List.mem_cons_of_mem _ hb)⟩

theorem isChain_of_forall₂ {α β : Type} {R : α → β → Prop} {S : β → β → Prop} {T : α → α → Prop}
    {as : List α} {bs : List β} (h : List.Forall₂ R as bs) (chain : bs.IsChain S)
    (imp : ∀ a b a' b', R a b → R a' b' → S b b' → T a a') : as.IsChain T := by
  induction h with
  | nil => exact .nil
  | cons first rest ih =>
    cases rest with
    | nil => exact .singleton _
    | cons second rest => exact .cons_cons (imp _ _ _ _ first second chain.rel) (ih chain.tail)

/-- A parsed document of a type system fits into source text. -/
theorem declares_of_parseSchema {source : String} {d : Document}
    (h : parseSchema source false = .ok d) : d.Declares := by
  obtain ⟨xs, run, made⟩ := parseSchema_eq_ok.mp h
  obtain ⟨loc, found⟩ := Document.ofTypeSystem_eq_ok.mp made
  obtain ⟨budget, parsed⟩ := Parser.run_ok run
  obtain ⟨⟨some, fits⟩, -⟩ := Parser.Ensures.definitions (Parser.Ensures.typeSystemDefinition _) _ _ _
    (good_lexFrom nestingLimit _ _ _) parsed
  obtain ⟨chain, -⟩ := Parser.chain_of_definitions
    (R := fun x y => ∀ d e, Definition.ofTypeSystem none x = .ok d →
      Definition.ofTypeSystem none y = .ok e → d.IsPlaceless → e.description?.isSome = true)
    (Parser.typeSystemDefinition_leaves _)
    (fun _ _ _ run _ unnamed d e hd he placeless =>
      Parser.described_of_unnamed run (unnamed d hd placeless) he) parsed
  refine ⟨?_, fun d hd => ?_, isChain_of_forall₂ found chain fun d x e y hd he apart =>
    apart d e hd he, loc⟩
  · intro none
    rw [none, List.forall₂_nil_left_iff] at found
    exact some found
  · exact forall_of_forall₂ found (fun d x hx stands => fits x hx d stands) d hd

end GraphQL
