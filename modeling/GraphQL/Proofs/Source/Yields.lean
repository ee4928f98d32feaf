import GraphQL.Document
import GraphQL.Proofs.Input.LiteralCoercion
import GraphQL.Proofs.Source.Parsed

/-!
What a parser gives, whatever the tokens are. Main statement: in a parsed document, with or without
spans, the variables of operations have types as types are written, and defaults without variables.
-/
namespace GraphQL

open Ast

/-- There are no variables at any depth. -/
inductive Literal.Constant : Literal → Prop where
  | int (n : Int) : Constant (.int n)
  | float (x : Binary64) : Constant (.float x)
  | string (text : String) : Constant (.string text)
  | boolean (b : Bool) : Constant (.boolean b)
  | null : Constant .null
  | enum (name : String) : Constant (.enum name)
  | list {items : List Literal} : (∀ item ∈ items, Constant item) → Constant (.list items)
  | object {fields : List (String × Literal)} :
      (∀ field ∈ fields, Constant field.2) → Constant (.object fields)

/-- The type is as types are written, and the default has no variables. -/
structure Ast.VariableDefinition.Regular (d : VariableDefinition) : Prop where
  proper : d.type.toTypeRef.Proper
  default : ∀ v, d.defaultValue = some v →
    ∃ literal, Literal.Constant literal ∧ v = .ofLiteral literal

/-- Made of literals with the property, as the grammar makes one. -/
inductive Literal.Composed (constant : Bool) (P : Literal → Prop) : Literal → Prop where
  | variable {name : String} : constant = false → Composed constant P (.variable name)
  | int {n : Int} : InInt64 n → Composed constant P (.int n)
  | float (x : Binary64) : Composed constant P (.float x)
  | string (text : String) : Composed constant P (.string text)
  | boolean (b : Bool) : Composed constant P (.boolean b)
  | null : Composed constant P .null
  | enum (name : String) : Composed constant P (.enum name)
  | list {items : List Literal} : (∀ item ∈ items, P item) → Composed constant P (.list items)
  | object {fields : List (String × Literal)} : fields.Pairwise (·.1 < ·.1) →
      (∀ field ∈ fields, P field.2) → Composed constant P (.object fields)

namespace Parser

variable {α β : Type}

/-- On whatever tokens the parser succeeds, its result has the property. -/
def Yields (parser : Parser α) (P : α → Prop) : Prop :=
  ∀ lexemes x rest, parser lexemes = .ok (x, rest) → P x

namespace Yields

variable {parser : Parser α} {P Q : α → Prop}

theorem pure {x : α} (h : P x) : Yields (pure x) P := by
  rintro lexemes _ _ ⟨⟩
  exact h

theorem fail : Yields (Parser.fail : Parser α) P := by
  intro lexemes x rest run
  cases run

theorem mono (h : Yields parser P) (imp : ∀ x, P x → Q x) : Yields parser Q :=
  fun lexemes x rest run => imp x (h lexemes x rest run)

theorem both (h : Yields parser P) (h' : Yields parser Q) : Yields parser fun x => P x ∧ Q x :=
  fun lexemes x rest run => ⟨h lexemes x rest run, h' lexemes x rest run⟩

theorem bind {f : α → Parser β} {final : β → Prop} (first : Yields parser Q)
    (next : ∀ x, Q x → Yields (f x) final) : Yields (parser >>= f) final := by
  intro lexemes y rest run
  change (parser lexemes >>= fun s => f s.1 s.2) = _ at run
  cases hp : parser lexemes with
  | error p =>
    rw [hp] at run
    cases run
  | ok s =>
    rw [hp] at run
    exact next s.1 (first lexemes s.1 s.2 hp) s.2 y rest run

theorem next {f : α → Parser β} {final : β → Prop} (h : ∀ x, Yields (f x) final) :
    Yields (parser >>= f) final :=
  bind (Q := fun _ => True) (fun _ _ _ _ => trivial) fun x _ => h x

theorem map {g : α → β} {final : β → Prop} (h : Yields parser Q) (imp : ∀ x, Q x → final (g x)) :
    Yields (parser >>= fun x => Pure.pure (g x)) final :=
  bind h fun x hx => pure (imp x hx)

theorem ifNext {test : Parser Bool} {yes no : Parser α} (hy : Yields yes P) (hn : Yields no P) :
    Yields (test >>= fun b => if b = true then yes else no) P := by
  refine next fun b => ?_
  split_ifs
  · exact hy
  · exact hn

section Items

variable {closing opening : Punctuator} {budget : Nat}

theorem itemsUntil (h : Yields parser P) :
    Yields (itemsUntil closing parser budget) fun r => ∀ x ∈ r.1, P x := by
  induction budget with
  | zero => exact fail
  | succ budget ih =>
    refine ifNext (next fun _ => next fun _ => pure (by simp)) (bind h fun x hx => ?_)
    exact map ih fun r hr => List.forall_mem_cons.mpr ⟨hx, hr⟩

theorem optionalEnclosed (h : Yields parser P) :
    Yields (optionalEnclosed opening closing parser budget) fun items => ∀ x ∈ items, P x := by
  refine ifNext (map (Q := fun r => ∀ x ∈ r.1, P x) ?_ fun _ hr => hr) (pure (by simp))
  refine next fun _ => bind h fun x hx => ?_
  exact map (itemsUntil h) fun r hr => List.forall_mem_cons.mpr ⟨hx, hr⟩

theorem definitions (h : Yields parser P) :
    Yields (definitions parser budget) fun items => ∀ x ∈ items, P x := by
  induction budget with
  | zero => exact fail
  | succ budget ih =>
    refine bind h fun x hx => next fun rest => ?_
    split_ifs
    · exact pure (by simpa using hx)
    · exact map ih fun items hi => List.forall_mem_cons.mpr ⟨hx, hi⟩

end Items

/-- What the parser of literals gives, from what it gives with less budget. -/
theorem value_composed {constant : Bool} {budget : Nat} {P : Literal → Prop}
    (h : Yields (value constant budget) P) :
    Yields (value constant (budget + 1)) (Literal.Composed constant P) := by
  refine next fun t => ?_
  split
  · refine next fun _ => pure ?_
    split_ifs <;> constructor
  · split
    · rename_i read
      exact next fun _ => pure (.int (inInt64_of_readInt64 read))
    · exact fail
  · split
    · exact next fun _ => pure (.float _)
    · exact fail
  · exact next fun _ => pure (.string _)
  · exact next fun _ => pure (.string _)
  · split_ifs with isConstant
    · exact fail
    · exact next fun _ => next fun _ => pure (.variable (Bool.not_eq_true _ ▸ isConstant))
  · exact next fun _ => map (itemsUntil h) fun r hr => .list hr
  · have field : Yields (do
          let key ← Parser.name
          Parser.punctuator .colon
          return (key, ← Parser.value constant budget)) fun field => P field.2 :=
      next fun _ => next fun _ => map h fun literal h => h
    refine next fun _ => map (itemsUntil field) fun r hr => ?_
    obtain ⟨sorted, same, order, source⟩ := Literal.ofFields_spec r.1
    rw [same]
    exact .object order fun field hf => hr field (source field hf)
  · exact fail

theorem value (budget : Nat) : Yields (value true budget) Literal.Constant := by
  induction budget with
  | zero => exact fail
  | succ budget ih =>
    refine (value_composed ih).mono fun literal composed => ?_
    cases composed with
    | «variable» isOpen => cases isOpen
    | list items => exact .list items
    | object _ fields => exact .object fields
    | _ => constructor

theorem default {budget : Nat} {Q : Literal → Prop} (h : Yields (Parser.value true budget) Q) :
    Yields (default budget) fun found => ∀ literal, found = some literal → Q literal := by
  refine ifNext (next fun _ => map h ?_) (pure (by simp))
  rintro literal h _ ⟨⟩
  exact h

theorem typeRef (budget : Nat) : Yields (typeRef budget) TypeRef.Proper := by
  induction budget with
  | zero => exact fail
  | succ budget ih =>
    have core : Yields (typeCore (Parser.typeRef budget))
        fun type => type.isNonNull = false ∧ type.Proper := by
      refine ifNext (next fun _ => bind ih fun item h => next fun _ => pure ⟨rfl, h⟩) ?_
      exact next fun _ => pure ⟨rfl, trivial⟩
    exact bind core fun type h => ifNext (next fun _ => pure h) (pure h.2)

variable (lines : Option Lines)

/-- Types are as types are written, and defaults as literals are read. -/
theorem variableDefinition_of_value {budget : Nat} {Q : Literal → Prop}
    (h : Yields (Parser.value true budget) Q) :
    Yields (variableDefinition lines budget) fun d =>
      d.type.toTypeRef.Proper ∧
        ∀ v, d.defaultValue = some v → ∃ literal, Q literal ∧ v = .ofLiteral literal := by
  refine next fun p => next fun _ => next fun name => next fun _ =>
    bind (typeRef budget) fun type ht => map (default h) fun found hd => ⟨?_, ?_⟩
  · rwa [TypeNode.toTypeRef_ofTypeRef]
  · intro v hv
    obtain ⟨literal, rfl, rfl⟩ := Option.map_eq_some_iff.mp hv
    exact ⟨literal, hd literal rfl, rfl⟩

theorem variableDefinition (budget : Nat) :
    Yields (variableDefinition lines budget) VariableDefinition.Regular :=
  (variableDefinition_of_value lines (value budget)).mono fun _ h => ⟨h.1, h.2⟩

def OfVariables (P : VariableDefinition → Prop) (d : Definition) : Prop :=
  ∀ operation, d = .operation operation → ∀ v ∈ operation.variableDefinitions, P v

variable {lines} {budget : Nat} {V : VariableDefinition → Prop}

theorem operation (h : Yields (Parser.variableDefinition lines budget) V) (p : Position)
    (type : OperationType) :
    Yields (operation lines budget p type) fun d => ∀ v ∈ d.variableDefinitions, V v :=
  next fun _ => bind (optionalEnclosed h) fun _ hv => next fun _ => next fun _ => pure hv

theorem executableDefinition (h : Yields (Parser.variableDefinition lines budget) V) :
    Yields (executableDefinition lines budget) (OfVariables V) := by
  refine ifNext (next fun set => pure ?_) (next fun p => ifNext ?_ (next fun t => ?_))
  · rintro _ ⟨⟩ v hv
    cases hv
  · refine next fun _ => next fun fragment => pure ?_
    rintro _ ⟨⟩
  · split
    · split
      · refine next fun _ => map (operation h p _) fun d hd => ?_
        rintro _ ⟨⟩
        exact hd
      · exact fail
    · exact fail

end Yields

end Parser

theorem parseQuery_ok {source : String} {located : Bool} {document : Document}
    (h : parseQuery source located = .ok document) :
    ∃ lines budget, document.loc = documentSpan lines ∧
      (located = true → lines = some (Lines.ofText source.toList)) ∧
      Parser.definitions (Parser.executableDefinition lines budget) budget
        (lex source.toList).lexemes = .ok (document.definitions, []) := by
  unfold parseQuery parseExecutable at h
  dsimp only at h
  generalize hl : (if located = true then some (Lines.ofText source.toList) else none) = lines at h
  cases hr : Parser.run source fun budget =>
      Parser.definitions (Parser.executableDefinition lines budget) budget with
  | error p =>
    rw [hr] at h
    cases h
  | ok definitions =>
    rw [hr] at h
    cases h
    obtain ⟨budget, parsed⟩ := Parser.run_ok hr
    exact ⟨lines, budget, rfl, fun yes => by rw [← hl, if_pos yes], parsed⟩

/-- What holds of each variable that is parsed holds of the variables of parsed operations. -/
theorem variables_of_parseQuery {V : VariableDefinition → Prop}
    (each : ∀ lines budget, Parser.Yields (Parser.variableDefinition lines budget) V)
    {source : String} {located : Bool} {document : Document}
    (h : parseQuery source located = .ok document) {operation : OperationDefinition}
    (ho : operation ∈ document.operations) : ∀ d ∈ operation.variableDefinitions, V d := by
  obtain ⟨lines, budget, -, -, parsed⟩ := parseQuery_ok h
  obtain ⟨definition, hmem, he⟩ := List.mem_filterMap.mp ho
  cases definition <;> cases he
  exact Parser.Yields.definitions (Parser.Yields.executableDefinition (each lines budget)) _ _ _
    parsed _ hmem operation rfl

theorem regular_of_parseQuery {source : String} {located : Bool} {document : Document}
    (h : parseQuery source located = .ok document) {operation : OperationDefinition}
    (ho : operation ∈ document.operations) : ∀ d ∈ operation.variableDefinitions, d.Regular :=
  variables_of_parseQuery Parser.Yields.variableDefinition h ho

end GraphQL
