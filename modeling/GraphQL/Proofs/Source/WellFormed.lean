import GraphQL.Document
import Mathlib.Data.List.Chain
import Mathlib.Data.List.Forall2

/-!
Nodes that source text can stand for: names are names, integers have 64 bits, object fields are in
name order, and brackets nest within some levels. No node has a span.
-/
namespace GraphQL

/-- The literal nests within the levels; a constant one has no variables. -/
def Literal.Fits (constant : Bool) : Nat → Literal → Prop
  | _, .variable name => constant = false ∧ isName name = true
  | _, .int n => InInt64 n
  | _, .enum name => isName name = true ∧ name ≠ "true" ∧ name ≠ "false" ∧ name ≠ "null"
  | 0, .list _ => False
  | k + 1, .list items => ∀ item ∈ items, item.Fits constant k
  | 0, .object _ => False
  | k + 1, .object fields =>
    fields.Pairwise (·.1 < ·.1) ∧ ∀ field ∈ fields, isName field.1 = true ∧ field.2.Fits constant k
  | _, .float _ => True
  | _, .string _ => True
  | _, .boolean _ => True
  | _, .null => True

def TypeRef.Fits : Nat → TypeRef → Prop
  | _, .named name => isName name = true
  | 0, .list _ => False
  | k + 1, .list item => item.Fits k
  | k, .nonNull inner => inner.isNonNull = false ∧ inner.Fits k

/-- Brackets around items take a level; without items there are none. -/
def Bracketed {α : Type} (fits : Nat → α → Prop) : Nat → List α → Prop
  | 0, items => items = []
  | k + 1, items => ∀ item ∈ items, fits k item

namespace Ast

inductive Argument.Fits (k : Nat) : Argument → Prop where
  | intro {name : String} {literal : Literal} :
      isName name = true → literal.Fits false k →
      Argument.Fits k ⟨⟨name, none⟩, .ofLiteral literal, none⟩

inductive Directive.Fits (k : Nat) : Directive → Prop where
  | intro {name : String} {arguments : List Argument} :
      isName name = true → Bracketed Argument.Fits k arguments →
      Directive.Fits k ⟨⟨name, none⟩, arguments, none⟩

/-- The selection nests within the levels if its own selection set fits. -/
inductive Selection.Fits (inner : SelectionSet → Prop) (k : Nat) : Selection → Prop where
  | field {aliasName : Option String} {name : String} {arguments : List Argument}
      {directives : List Directive} {selectionSet : Option SelectionSet} :
      (∀ text ∈ aliasName, isName text = true) → isName name = true →
      Bracketed Argument.Fits k arguments → (∀ d ∈ directives, Directive.Fits k d) →
      (∀ set ∈ selectionSet, inner set) →
      Selection.Fits inner k (.field ⟨aliasName.map (⟨·, none⟩), ⟨name, none⟩, arguments,
        directives, selectionSet, none⟩)
  | spread {name : String} {directives : List Directive} :
      isName name = true → name ≠ "on" → (∀ d ∈ directives, Directive.Fits k d) →
      Selection.Fits inner k (.spread ⟨⟨name, none⟩, directives, none⟩)
  | inlineFragment {condition : Option String} {directives : List Directive}
      {selectionSet : SelectionSet} :
      (∀ text ∈ condition, isName text = true) → (∀ d ∈ directives, Directive.Fits k d) →
      inner selectionSet →
      Selection.Fits inner k (.inlineFragment ⟨condition.map (⟨⟨·, none⟩, none⟩), directives,
        selectionSet, none⟩)

/-- At least one selection in braces. -/
def SelectionSet.Fits : Nat → SelectionSet → Prop
  | 0, _ => False
  | k + 1, set =>
    set.loc = none ∧ set.selections ≠ [] ∧
      ∀ selection ∈ set.selections, Selection.Fits (SelectionSet.Fits k) k selection

theorem SelectionSet.Fits.loc {k : Nat} {set : SelectionSet} (fits : set.Fits k) :
    set.loc = none := by
  cases k with
  | zero => cases fits
  | succ k => exact fits.1

inductive VariableDefinition.Fits (k : Nat) : VariableDefinition → Prop where
  | intro {name : String} {type : TypeRef} {default : Option Literal} :
      isName name = true → type.Fits k → (∀ literal ∈ default, literal.Fits true k) →
      VariableDefinition.Fits k
        ⟨⟨⟨name, none⟩, none⟩, .ofTypeRef type, default.map .ofLiteral, [], none⟩

inductive Definition.Fits (k : Nat) : Definition → Prop where
  | operation {type : OperationType} {name : Option String}
      {vars : List VariableDefinition} {directives : List Directive}
      {selectionSet : SelectionSet} :
      (∀ text ∈ name, isName text = true) → Bracketed VariableDefinition.Fits k vars →
      (∀ d ∈ directives, Directive.Fits k d) → selectionSet.Fits k →
      Definition.Fits k (.operation ⟨type, name.map (⟨·, none⟩), vars, directives,
        selectionSet, none⟩)
  | fragment {name condition : String} {directives : List Directive}
      {selectionSet : SelectionSet} :
      isName name = true → isName condition = true → (∀ d ∈ directives, Directive.Fits k d) →
      selectionSet.Fits k →
      Definition.Fits k (.fragment ⟨⟨name, none⟩, ⟨⟨condition, none⟩, none⟩, directives,
        selectionSet, none⟩)

inductive InputValueDefinition.Fits (k : Nat) : InputValueDefinition → Prop where
  | intro {description : Option String} {name : String} {type : TypeRef}
      {default : Option Literal} {directives : List Directive} :
      isName name = true → type.Fits k → (∀ literal ∈ default, literal.Fits true k) →
      (∀ d ∈ directives, Directive.Fits k d) →
      InputValueDefinition.Fits k ⟨descriptionOf description, ⟨name, none⟩, .ofTypeRef type,
        default.map .ofLiteral, directives, none⟩

inductive FieldDefinition.Fits (k : Nat) : FieldDefinition → Prop where
  | intro {description : Option String} {name : String} {arguments : List InputValueDefinition}
      {type : TypeRef} {directives : List Directive} :
      isName name = true → Bracketed InputValueDefinition.Fits k arguments → type.Fits k →
      (∀ d ∈ directives, Directive.Fits k d) →
      FieldDefinition.Fits k ⟨descriptionOf description, ⟨name, none⟩, arguments,
        .ofTypeRef type, directives, none⟩

inductive EnumValueDefinition.Fits (k : Nat) : EnumValueDefinition → Prop where
  | intro {description : Option String} {name : String} {directives : List Directive} :
      isName name = true → (∀ d ∈ directives, Directive.Fits k d) →
      EnumValueDefinition.Fits k ⟨descriptionOf description, ⟨name, none⟩, directives, none⟩

def rootTypes (query mutation subscription : Option String) : List OperationTypeDefinition :=
  (query.map (.ofName .query)).toList ++ (mutation.map (.ofName .mutation)).toList ++
    (subscription.map (.ofName .subscription)).toList

inductive Definition.Declares (k : Nat) : Definition → Prop where
  | schema {directives : List Directive} {query mutation subscription : Option String} :
      (∀ d ∈ directives, Directive.Fits k d) →
      Bracketed (fun _ root => isName root.type.name.value = true) k
        (rootTypes query mutation subscription) →
      Definition.Declares k (.schema ⟨directives, rootTypes query mutation subscription, none⟩)
  | scalar {description : Option String} {name : String} {directives : List Directive} :
      isName name = true → (∀ d ∈ directives, Directive.Fits k d) →
      Definition.Declares k (.scalar ⟨descriptionOf description, ⟨name, none⟩, directives, none⟩)
  | object {description : Option String} {name : String} {interfaces : List String}
      {directives : List Directive} {fields : List FieldDefinition} :
      isName name = true → (∀ text ∈ interfaces, isName text = true) →
      (∀ d ∈ directives, Directive.Fits k d) → Bracketed FieldDefinition.Fits k fields →
      Definition.Declares k (.object ⟨descriptionOf description, ⟨name, none⟩,
        namedTypes interfaces, directives, fields, none⟩)
  | interface {description : Option String} {name : String} {interfaces : List String}
      {directives : List Directive} {fields : List FieldDefinition} :
      isName name = true → (∀ text ∈ interfaces, isName text = true) →
      (∀ d ∈ directives, Directive.Fits k d) → Bracketed FieldDefinition.Fits k fields →
      Definition.Declares k (.interface ⟨descriptionOf description, ⟨name, none⟩,
        namedTypes interfaces, directives, fields, none⟩)
  | union {description : Option String} {name : String} {directives : List Directive}
      {types : List String} :
      isName name = true → (∀ d ∈ directives, Directive.Fits k d) →
      (∀ text ∈ types, isName text = true) →
      Definition.Declares k (.union ⟨descriptionOf description, ⟨name, none⟩, directives,
        namedTypes types, none⟩)
  | enum {description : Option String} {name : String} {directives : List Directive}
      {values : List EnumValueDefinition} :
      isName name = true → (∀ d ∈ directives, Directive.Fits k d) →
      Bracketed EnumValueDefinition.Fits k values →
      Definition.Declares k (.enum ⟨descriptionOf description, ⟨name, none⟩, directives, values,
        none⟩)
  | inputObject {description : Option String} {name : String} {directives : List Directive}
      {fields : List InputValueDefinition} :
      isName name = true → (∀ d ∈ directives, Directive.Fits k d) →
      Bracketed InputValueDefinition.Fits k fields →
      Definition.Declares k (.inputObject ⟨descriptionOf description, ⟨name, none⟩, directives,
        fields, none⟩)
  | directive {description : Option String} {name : String}
      {arguments : List InputValueDefinition} {repeatable : Bool} {locations : List String} :
      isName name = true → Bracketed InputValueDefinition.Fits k arguments →
      (∀ text ∈ locations, text ∈ Parser.directiveLocations) →
      Definition.Declares k (.directive ⟨descriptionOf description, ⟨name, none⟩, arguments,
        repeatable, locations.map (⟨·, none⟩), none⟩)

def Definition.description? : Definition → Option StringValue
  | scalar d => d.description
  | object d => d.description
  | interface d => d.description
  | union d => d.description
  | enum d => d.description
  | inputObject d => d.description
  | directive d => d.description
  | operation _ | fragment _ | schema _ => none

/-- A directive without locations: its text ends before the first of them. -/
def Definition.IsPlaceless : Definition → Prop
  | directive d => d.locations = []
  | _ => False

/-- Operations and fragments that nest as deeply as source text may. -/
structure Document.Fits (document : Document) : Prop where
  some : document.definitions ≠ []
  definitions : ∀ d ∈ document.definitions, Definition.Fits nestingLimit d
  loc : document.loc = none

/-- Definitions of a type system that nest as deeply as source text may. After a directive without
locations only a description shows where the next definition starts. -/
structure Document.Declares (document : Document) : Prop where
  some : document.definitions ≠ []
  definitions : ∀ d ∈ document.definitions, Definition.Declares nestingLimit d
  apart : document.definitions.IsChain fun d e => d.IsPlaceless → e.description?.isSome = true
  loc : document.loc = none

end Ast

open Ast GraphQL.Parser in
/-- Without spans the lines of the source do not matter. -/
theorem parseQuery_unlocated (source : String) :
    parseQuery source false =
      ((Parser.run source fun budget =>
        definitions (executableDefinition none budget) budget).map fun definitions =>
          (⟨definitions, none⟩ : Document)).mapError fun p => .parse (parseFailure "query" p) := rfl

theorem mapM_eq_ok {α β ε : Type} {f : α → Except ε β} {xs : List α} {ys : List β} :
    xs.mapM f = .ok ys ↔ List.Forall₂ (fun y x => f x = .ok y) ys xs := by
  induction xs generalizing ys with
  | nil =>
    rw [List.mapM_nil, List.forall₂_nil_right_iff]
    constructor
    · rintro ⟨⟩
      rfl
    · rintro rfl
      rfl
  | cons x xs ih =>
    rw [List.mapM_cons]
    constructor
    · intro h
      cases hx : f x with
      | error e =>
        rw [hx] at h
        cases h
      | ok y =>
        cases hxs : xs.mapM f with
        | error e =>
          rw [hx, hxs] at h
          cases h
        | ok rest =>
          rw [hx, hxs] at h
          cases h
          exact .cons hx (ih.mp hxs)
    · rintro (_ | ⟨hx, hxs⟩)
      rw [hx, ih.mpr hxs]
      rfl

theorem mapError_eq_ok {α ε δ : Type} {result : Except ε α} {f : ε → δ} {x : α} :
    result.mapError f = .ok x ↔ result = .ok x := by
  cases result <;> simp [Except.mapError]

theorem Ast.Document.ofTypeSystem_eq_ok {xs : List TypeSystem.Definition} {d : Document} :
    Document.ofTypeSystem none xs = .ok d ↔ d.loc = none ∧
      List.Forall₂ (fun d x => Definition.ofTypeSystem none x = .ok d) d.definitions xs := by
  obtain ⟨ds, loc⟩ := d
  rw [← mapM_eq_ok, Document.ofTypeSystem]
  cases xs.mapM (Definition.ofTypeSystem none) with
  | error e => exact ⟨nofun, nofun⟩
  | ok made =>
    constructor
    · rintro ⟨⟩
      exact ⟨rfl, rfl⟩
    · rintro ⟨rfl, ⟨⟩⟩
      rfl

open Ast GraphQL.Parser in
/-- Without spans the lines of the source do not matter. -/
theorem parseSchema_eq_ok {source : String} {d : Document} :
    parseSchema source false = .ok d ↔ ∃ xs,
      (Parser.run source fun budget => definitions (typeSystemDefinition budget) budget) = .ok xs ∧
      Document.ofTypeSystem none xs = .ok d := by
  unfold parseSchema parseTypeSystem
  cases Parser.run source fun budget => definitions (typeSystemDefinition budget) budget with
  | error p => exact ⟨nofun, nofun⟩
  | ok xs =>
    change (Document.ofTypeSystem none xs).mapError SyntaxError.node = .ok d ↔ _
    rw [mapError_eq_ok]
    simp

end GraphQL
