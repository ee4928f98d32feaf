import GraphQL.Proofs.Execution.Simulation

/-!
Executions with other resolvers under another scheduler. Main statement: a relation between works
that putting works together keeps, and that holds between the works of all invocations, holds
between the works of the two executions.
-/
namespace GraphQL

open Ast TypeSystem

variable {σ τ : Type}

def Request.with (request : Request σ) (r : Resolvers τ) : Request τ :=
  ⟨request.schema, r, request.rootValue, request.vars, request.operationName⟩

/-- The execution with other resolvers under another scheduler. -/
def Execution.with (x : Execution σ) (r : Resolvers τ)
    (scheduler : Scheduler τ RecordedError Completion) : Execution τ :=
  ⟨x.schema, x.fragments, x.operation, x.vars, x.rootValue, r, scheduler⟩

theorem Request.prepare_with (request : Request σ) (r : Resolvers τ) (document : Document)
    (first : Scheduler σ RecordedError Completion)
    (second : Scheduler τ RecordedError Completion) :
    (request.with r).prepare document second =
      (request.prepare document first).map fun p => (p.1.with r second, p.2) := by
  unfold Request.prepare Request.with
  simp only
  cases (selectOperation document request.operationName).mapError fun e => [e.toGraphQLError] with
  | error e => rfl
  | ok operation =>
    simp only [bind, Except.bind]
    cases (variableValues request.schema operation request.vars).mapError
      (·.map CoercionError.toGraphQLError) with
    | error e => rfl
    | ok vars =>
      cases request.schema.root? operation.operation <;> rfl

theorem Request.prepare_with_ok {request : Request σ} {document : Document} {x : Execution σ}
    {root : ObjectType} {first : Scheduler σ RecordedError Completion}
    (h : request.prepare document first = .ok (x, root)) (r : Resolvers τ)
    (second : Scheduler τ RecordedError Completion) :
    (request.with r).prepare document second = .ok (x.with r second, root) := by
  rw [request.prepare_with r document first second, h]
  rfl

structure Resolvers.Relate
    (R : (α : Type) → Work σ RecordedError α → Work τ RecordedError α → Prop)
    (first : Resolvers σ) (second : Resolvers τ) : Prop where
  field : ∀ info, R Outcome (first.invoke info).lift (second.invoke info).lift
  type : ∀ abstract value,
    R (Option String) (first.nameType abstract value).lift (second.nameType abstract value).lift

namespace Execution

variable {x : Execution σ} {r : Resolvers τ} {scheduler : Scheduler τ RecordedError Completion}

theorem fieldWorks_with (other : ObjectCompleter τ) (type : ObjectType) (source : Json)
    (sets : List SelectionSet) (path : ResponsePath) :
    (x.with r scheduler).fieldWorks other type source (x.collect type sets) path =
      (x.selected type sets).map fun s =>
        (s.key, (x.with r scheduler).executeField other s.field (s.place path).path source) :=
  (x.with r scheduler).fieldWorks_eq other type source sets path

theorem objectType_with (abstract : TypeDefinition) (field : FieldRef) (name : Option String) :
    (x.with r scheduler).objectType abstract field name = x.objectType abstract field name := by
  cases name <;> rfl

variable {R : (α : Type) → Work σ RecordedError α → Work τ RecordedError α → Prop}
  (congruence : Congruence R x.scheduler scheduler) (relate : x.resolvers.Relate R r)

include congruence relate

theorem simulation_with : Simulation R Eq x (x.instead x.fragments x.operation r scheduler) where
  parent h := h ▸ rfl
  definition h := h ▸ rfl
  arguments h := h ▸ rfl
  selected {_ _} h type := by
    subst h
    exact List.forall₂_same.mpr fun s _ => ⟨rfl, rfl, rfl⟩
  fail {f _} h path p q message extensions := by
    subst h
    have same : f.error path q = f.error path p := by
      rw [FieldRef.error, FieldRef.error, message, extensions]
    unfold FieldRef.fail
    rw [same]
    exact congruence.record ..
  invoke {_ _} h source arguments path := by
    subst h
    exact relate.field _
  nameType := relate.type

theorem executeField_congr {object : ObjectCompleter σ} {other : ObjectCompleter τ}
    (objects : ∀ type field path value,
      R Completion (object type field path value) (other type field path value))
    (field : FieldRef) (path : ResponsePath) (source : Json) :
    R Completion (x.executeField object field path source)
      ((x.with r scheduler).executeField other field path source) := by
  refine (simulation_with congruence relate).executeField congruence ?_ rfl path source
  rintro f _ rfl
  exact fun type path value => objects type f path value

theorem completeObject_congr (depth : Nat) (type : ObjectType) (field : FieldRef)
    (path : ResponsePath) (value : Json) :
    R Completion (x.completeObject depth type field path value)
      ((x.with r scheduler).completeObject depth type field path value) :=
  (simulation_with congruence relate).completeObject congruence depth rfl type path value

theorem completeRoot_congr (depth : Nat) (root : ObjectType) :
    R Completion (x.completeRoot depth root) ((x.with r scheduler).completeRoot depth root) :=
  (simulation_with congruence relate).completeRoot congruence rfl root
    (List.forall₂_same.mpr fun _ _ => ⟨rfl, rfl, rfl⟩) depth

end Execution

end GraphQL
