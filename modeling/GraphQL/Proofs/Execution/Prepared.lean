import GraphQL.Execution.Response

/-!
What an execution is made of: the parts of its request and an operation of its document.
-/
namespace GraphQL

open Ast TypeSystem

variable {σ : Type}

/-- The execution of an operation of the document for the request. -/
structure Request.IsPrepared (request : Request σ) (document : Document) (x : Execution σ)
    (root : ObjectType) : Prop where
  schema : x.schema = request.schema
  fragments : x.fragments = fragmentTable document
  resolvers : x.resolvers = request.resolvers
  operation : x.operation ∈ document.operations
  root : request.schema.root? x.operation.operation = some root

theorem mem_operations_of_selectOperation {document : Document} {name : Option String}
    {operation : OperationDefinition} (h : selectOperation document name = .ok operation) :
    operation ∈ document.operations := by
  unfold selectOperation at h
  split at h
  · split at h
    · cases h
      exact List.mem_of_find?_eq_some ‹_›
    · cases h
  · rcases ho : document.operations with - | ⟨o, - | ⟨p, rest⟩⟩ <;> rw [ho] at h
    · cases h
    · cases h
      exact List.mem_singleton_self _
    · cases h

private theorem exists_of_bind {ε α β : Type} {v : Except ε α} {rest : α → Except ε β} {b : β}
    (h : v >>= rest = .ok b) : ∃ a, v = .ok a ∧ rest a = .ok b := by
  cases v with
  | error e => cases h
  | ok a => exact ⟨a, rfl, h⟩

private theorem ok_of_mapError {ε δ α : Type} {v : Except ε α} {f : ε → δ} {a : α}
    (h : v.mapError f = .ok a) : v = .ok a := by
  cases v with
  | error e => cases h
  | ok b =>
    cases h
    rfl

theorem Request.isPrepared {request : Request σ} {document : Document} {x : Execution σ}
    {root : ObjectType} {scheduler : Scheduler σ RecordedError Completion}
    (h : request.prepare document scheduler = .ok (x, root)) :
    request.IsPrepared document x root := by
  unfold prepare at h
  obtain ⟨operation, ho, h⟩ := exists_of_bind h
  obtain ⟨vars, -, h⟩ := exists_of_bind h
  split at h
  · cases h
  · rename_i root' hr
    cases h
    exact ⟨rfl, rfl, rfl, mem_operations_of_selectOperation (ok_of_mapError ho), hr⟩

theorem Request.scheduler_of_prepare {request : Request σ} {document : Document} {x : Execution σ}
    {root : ObjectType} {scheduler : Scheduler σ RecordedError Completion}
    (h : request.prepare document scheduler = .ok (x, root)) : x.scheduler = scheduler := by
  unfold prepare at h
  obtain ⟨operation, -, h⟩ := exists_of_bind h
  obtain ⟨vars, -, h⟩ := exists_of_bind h
  split at h
  · cases h
  · cases h
    rfl

theorem Request.rootValue_of_prepare {request : Request σ} {document : Document}
    {x : Execution σ} {root : ObjectType} {scheduler : Scheduler σ RecordedError Completion}
    (h : request.prepare document scheduler = .ok (x, root)) : x.rootValue = request.rootValue := by
  unfold prepare at h
  obtain ⟨operation, -, h⟩ := exists_of_bind h
  obtain ⟨vars, -, h⟩ := exists_of_bind h
  split at h
  · cases h
  · cases h
    rfl

theorem Request.operation_of_prepare {request : Request σ} {document : Document}
    {x : Execution σ} {root : ObjectType} {scheduler : Scheduler σ RecordedError Completion}
    (h : request.prepare document scheduler = .ok (x, root)) :
    selectOperation document request.operationName = .ok x.operation := by
  unfold prepare at h
  obtain ⟨operation, ho, h⟩ := exists_of_bind h
  obtain ⟨vars, -, h⟩ := exists_of_bind h
  split at h
  · cases h
  · cases h
    exact ok_of_mapError ho

end GraphQL
