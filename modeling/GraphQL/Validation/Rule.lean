import GraphQL.Execution.Collection
import GraphQL.Validation.Violation
import GraphQL.Visit.TypeContext

/-!
Validation rules, and the validation of a document by a plan of rules.
-/
namespace GraphQL

open Ast Visit

structure ValidationContext where
  schema : Schema
  document : Document

/-- Fragments by name, of which the first counts. -/
def ValidationContext.fragment? (context : ValidationContext) (name : String) :
    Option FragmentDefinition :=
  (fragmentTable context.document).get? name

structure ValidationError where
  locations : List Position
  message : String
  code : String

def ValidationError.toGraphQLError (e : ValidationError) : GraphQLError :=
  ({ message := e.message, locations := e.locations } : GraphQLError).withCode e.code

structure ValidationRule where
  code : String
  check : ValidationContext → List ValidationError

/-- The errors of all rules, in the order of the plan. -/
def validate (schema : Schema) (document : Document) (plan : List ValidationRule) :
    List ValidationError :=
  plan.flatMap (·.check ⟨schema, document⟩)

namespace Validation

structure Finding where
  locations : List Position
  violation : Violation

def ruleOf (code : String) (find : ValidationContext → List Finding) : ValidationRule where
  code
  check context := (find context).map fun f => ⟨f.locations, f.violation.message, code⟩

/-- The location of a node, or of its closest located ancestor. -/
def nearestLocation (n : Node) (path : List PathSegment) : List Position :=
  startOf (n.loc.or (path.reverse.findSome? (·.parent.loc)))

/-- The violations of one node, from what is known there and from its ancestors. -/
abbrev NodeCheck := ValidationContext → TypeContext → Node → List PathSegment → List Violation

/-- Collects the violations of every node as it is entered. -/
def NodeCheck.visitor (check : NodeCheck) (context : ValidationContext) :
    TypedVisitor (List Finding) Empty where
  enter c n path found :=
    (.ok .proceed,
      found ++ (check context c n path).map fun v => ⟨nearestLocation n path, v⟩)

def NodeCheck.findings (check : NodeCheck) (context : ValidationContext) : List Finding :=
  (walk ((check.visitor context).toVisitor context.schema) (.document context.document)
    ({}, [])).2.2

def NodeCheck.rule (code : String) (check : NodeCheck) : ValidationRule :=
  ruleOf code check.findings

end Validation

end GraphQL
