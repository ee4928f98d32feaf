import GraphQL.Error
import GraphQL.Execution.Work
import GraphQL.Ast.Basic
import GraphQL.Schema.Basic

/-!
Resolvers: what a program that serves a schema provides for its fields and abstract types.
-/
namespace GraphQL

open TypeSystem

structure ResolveInfo where
  source : Json
  /-- The coerced arguments, defaults applied. -/
  arguments : Entries Json
  parent : ObjectType
  field : Field
  path : List PathElement
  /-- The field nodes of the response key. -/
  nodes : List Ast.Field
  schema : Schema
  operation : Ast.OperationDefinition
  vars : Entries Json
  rootValue : Json

inductive Outcome where
  | value (v : Json)
  | failed (e : FieldError)
  /-- It broke off; the message is known if it is text. -/
  | panicked (message : Option String)

/-- A resolver is called and does its first turn at once. -/
abbrev Resolver (σ : Type) := ResolveInfo → Work σ Empty Outcome

/-- Names the object type of a value of an abstract type, if it can tell. -/
abbrev TypeResolver (σ : Type) := Json → σ → Option String × σ

/-- Resolvers by type and field, one for all other fields, and those of abstract types. -/
structure Resolvers (σ : Type) where
  fields : List ((String × String) × Resolver σ) := []
  fallback : Option (Resolver σ) := none
  types : Entries (TypeResolver σ) := []

namespace Resolvers

variable {σ : Type}

def register (resolvers : Resolvers σ) (type field : String) (resolver : Resolver σ) :
    Resolvers σ :=
  { resolvers with fields := ((type, field), resolver) :: resolvers.fields }

def registerType (resolvers : Resolvers σ) (type : String) (resolver : TypeResolver σ) :
    Resolvers σ :=
  { resolvers with types := resolvers.types.insert type resolver }

/-- The resolver of a field; without one its value is the property of its name. -/
def resolver? (resolvers : Resolvers σ) (type field : String) : Option (Resolver σ) :=
  match resolvers.fields.find? (·.1 = (type, field)) with
  | some (_, resolver) => some resolver
  | none => resolvers.fallback

end Resolvers

end GraphQL
