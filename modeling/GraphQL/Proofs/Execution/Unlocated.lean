import GraphQL.Proofs.Execution.Simulation
import GraphQL.Proofs.Input.BareInputs

/-!
Executions that are the same but for the locations of errors. Main statement: works that are the
same but for these end in responses that are the same but for these.
-/
namespace GraphQL

open Ast TypeSystem

def GraphQLError.unlocated (e : GraphQLError) : GraphQLError := { e with locations := [] }

def RecordedError.unlocated (e : RecordedError) : RecordedError := ⟨e.ordinals, e.error.unlocated⟩

def Response.unlocated (r : Response) : Response := ⟨r.data, r.errors.map GraphQLError.unlocated⟩

/-- The order of errors does not depend on their locations. -/
theorem inResponseOrder_unlocated (errors : List RecordedError) :
    inResponseOrder (errors.map RecordedError.unlocated) =
      (inResponseOrder errors).map GraphQLError.unlocated := by
  unfold inResponseOrder
  rw [← List.map_mergeSort (f := RecordedError.unlocated)
    (r := fun e f => ordinalsLe e.ordinals f.ordinals) fun _ _ _ _ => rfl, List.map_map,
    List.map_map]
  rfl

namespace Work

variable {σ ε δ α β : Type}

def mapErrors (f : ε → δ) : Work σ ε α → Work σ δ α
  | done a => done a
  | read next => read fun s => (next s).mapErrors f
  | write s next => write s (next.mapErrors f)
  | record e next => record (f e) (next.mapErrors f)
  | pause next => pause (next.mapErrors f)
  | stop => stop

variable (f : ε → δ)

theorem mapErrors_map (w : Work σ ε α) (g : α → β) :
    (w.map g).mapErrors f = (w.mapErrors f).map g := by
  induction w with
  | done a => rfl
  | read next ih => simp only [map, mapErrors, ih]
  | write s next ih => simp only [map, mapErrors, ih]
  | record e next ih => simp only [map, mapErrors, ih]
  | pause next ih => simp only [map, mapErrors, ih]
  | stop => rfl

theorem mapErrors_bind (w : Work σ ε α) (g : α → Work σ ε β) :
    (w.bind g).mapErrors f = (w.mapErrors f).bind fun a => (g a).mapErrors f := by
  induction w with
  | done a => rfl
  | read next ih => simp only [bind, mapErrors, ih]
  | write s next ih => simp only [bind, mapErrors, ih]
  | record e next ih => simp only [bind, mapErrors, ih]
  | pause next ih => simp only [bind, mapErrors, ih]
  | stop => rfl

theorem mapErrors_afterPause (first : Work σ ε α)
    {round : Work σ ε β → Work σ ε (α × β)} {round' : Work σ δ β → Work σ δ (α × β)}
    (each : ∀ w, (round w).mapErrors f = round' (w.mapErrors f)) (second : Work σ ε β) :
    (afterPause first round second).mapErrors f =
      afterPause (first.mapErrors f) round' (second.mapErrors f) := by
  induction second with
  | done b => simp only [afterPause, mapErrors, mapErrors_map]
  | read next ih => simp only [afterPause, mapErrors, ih]
  | write s next ih => simp only [afterPause, mapErrors, ih]
  | record e next ih => simp only [afterPause, mapErrors, ih]
  | pause next => simp only [afterPause, mapErrors, each]
  | stop => rfl

theorem mapErrors_both (first : Work σ ε α) (second : Work σ ε β) :
    (both first second).mapErrors f = both (first.mapErrors f) (second.mapErrors f) := by
  induction first generalizing second with
  | done a => simp only [both, mapErrors, mapErrors_map]
  | read next ih => simp only [both, mapErrors, ih]
  | write s next ih => simp only [both, mapErrors, ih]
  | record e next ih => simp only [both, mapErrors, ih]
  | pause next ih => exact mapErrors_afterPause f next ih second
  | stop => rfl

theorem mapErrors_all (works : List (Work σ ε α)) :
    (all works).mapErrors f = all (works.map (mapErrors f)) := by
  induction works with
  | nil => rfl
  | cons w rest ih => rw [all, mapErrors_map, mapErrors_both, ih, List.map_cons, all]

theorem run_mapErrors (w : Work σ ε α) (s : σ) :
    (w.mapErrors f).run s = (w.run s).map fun r => (r.1, r.2.1.map f, r.2.2) := by
  induction w generalizing s with
  | done a => rfl
  | read next ih => exact ih s s
  | write t next ih => exact ih t
  | record e next ih =>
    rw [mapErrors, run, run, ih, Option.map_map, Option.map_map]
    rfl
  | pause next ih => exact ih s
  | stop => rfl

/-- The same work but for the locations of the errors that it records. -/
def Relocated (w v : Work σ RecordedError α) : Prop :=
  w.mapErrors RecordedError.unlocated = v.mapErrors RecordedError.unlocated

end Work

variable {σ : Type}

/-- A scheduler to which the locations of errors make no difference. -/
def Scheduler.Blind (scheduler : Scheduler σ RecordedError Completion) : Prop :=
  ∀ works others, List.Forall₂ Work.Relocated works others →
    (scheduler.join works).Relocated (scheduler.join others)

theorem Scheduler.Blind.rounds :
    (Scheduler.rounds : Scheduler σ RecordedError Completion).Blind := by
  intro works others h
  have same : works.map (Work.mapErrors RecordedError.unlocated) =
      others.map (Work.mapErrors RecordedError.unlocated) :=
    (map_eq_of_forall₂ (fun _ _ h => h.symm) h).symm
  unfold Scheduler.rounds Work.Relocated
  dsimp only
  rw [Work.mapErrors_all, Work.mapErrors_all, same]

theorem Scheduler.Blind.congruence {scheduler : Scheduler σ RecordedError Completion}
    (blind : scheduler.Blind) : Congruence (fun _ => Work.Relocated) scheduler scheduler where
  done _ := rfl
  stop := rfl
  record _ _ := rfl
  map h f := by
    unfold Work.Relocated at h ⊢
    rw [Work.mapErrors_map, Work.mapErrors_map, h]
  bind h each := by
    unfold Work.Relocated at h ⊢
    rw [Work.mapErrors_bind, Work.mapErrors_bind, h, funext each]
  join h := blind _ _ h

def Resolvers.NodeBlind (r : Resolvers σ) : Prop :=
  ∀ info nodes operation, r.invoke { info with nodes, operation } = r.invoke info

theorem FieldRef.fail_relocated (f g : FieldRef) (path : ResponsePath) {p q : FieldProblem}
    (message : q.message = p.message) (extensions : q.extensions = p.extensions) :
    (f.fail path p : Work σ RecordedError Completion).Relocated (g.fail path q) := by
  unfold Work.Relocated fail error
  rw [message, extensions]
  rfl

/-- An operation that runs in the place of another: of the same kind and name, with the same values
of its variables. -/
structure Ast.OperationDefinition.Counterpart (schema : Schema) (o p : OperationDefinition) :
    Prop where
  kind : p.operation = o.operation
  name : p.name.map (·.value) = o.name.map (·.value)
  values : ∀ given, (variableValues schema p given).mapError (·.map CoercionError.unlocated) =
    (variableValues schema o given).mapError (·.map CoercionError.unlocated)

section

variable {schema : Schema} {K : OperationDefinition → OperationDefinition → Prop}
  (counterpart : ∀ o p, K o p → o.Counterpart schema p)

include counterpart

theorem find?_counterpart {os ps : List OperationDefinition} (h : List.Forall₂ K os ps) (name : String) :
    Option.Rel K (os.find? fun o => o.name.any (·.value = name))
      (ps.find? fun o => o.name.any (·.value = name)) := by
  have any (o : OperationDefinition) : o.name.any (·.value = name) =
      (o.name.map (·.value)).any (· = name) := by cases o.name <;> rfl
  induction h with
  | nil => exact .none
  | @cons o p os ps hk _ ih =>
    have same : p.name.any (·.value = name) = o.name.any (·.value = name) := by
      rw [any, any, (counterpart o p hk).name]
    rw [List.find?_cons, List.find?_cons, same]
    split
    · exact .some hk
    · exact ih

theorem selectOperation_counterpart {document other : Document}
    (h : List.Forall₂ K document.operations other.operations) (name : Option String) :
    (∃ e, selectOperation document name = .error e ∧ selectOperation other name = .error e) ∨
      ∃ o p, K o p ∧ selectOperation document name = .ok o ∧
        selectOperation other name = .ok p := by
  unfold selectOperation
  cases name with
  | some name =>
    have found := find?_counterpart counterpart h name
    dsimp only
    generalize document.operations.find? _ = first at found ⊢
    generalize other.operations.find? _ = second at found ⊢
    cases found with
    | some hk => exact .inr ⟨_, _, hk, rfl, rfl⟩
    | none => exact .inl ⟨_, rfl, rfl⟩
  | none =>
    dsimp only
    generalize document.operations = os at h ⊢
    generalize other.operations = ps at h ⊢
    cases h with
    | nil => exact .inl ⟨_, rfl, rfl⟩
    | cons hk rest =>
      cases rest with
      | nil => exact .inr ⟨_, _, hk, rfl, rfl⟩
      | cons => exact .inl ⟨_, rfl, rfl⟩

end

def unlocatedResult (result : Option (Response × σ)) : Option (Response × σ) :=
  result.map fun r => (r.1.unlocated, r.2)

theorem unlocatedResult_run {x y : Execution σ} {root : ObjectType} {depth : Nat}
    (h : (x.completeRoot depth root).Relocated (y.completeRoot depth root)) (s : σ) :
    unlocatedResult (((x.completeRoot depth root).run s).map fun (data, errors, s) =>
        (⟨data, inResponseOrder errors⟩, s)) =
      unlocatedResult (((y.completeRoot depth root).run s).map fun (data, errors, s) =>
        (⟨data, inResponseOrder errors⟩, s)) := by
  have shape (w : Work σ RecordedError Completion) :
      unlocatedResult ((w.run s).map fun (data, errors, s) =>
          (⟨data, inResponseOrder errors⟩, s)) =
        ((w.mapErrors RecordedError.unlocated).run s).map fun (data, errors, s) =>
          (⟨data, inResponseOrder errors⟩, s) := by
    unfold unlocatedResult Response.unlocated
    rw [Work.run_mapErrors, Option.map_map, Option.map_map]
    simp only [Function.comp_def, inResponseOrder_unlocated]
  rw [shape, shape, h]

/-- The execution of an operation, its variables having these values. -/
def Request.executionOf (request : Request σ) (document : Document)
    (operation : OperationDefinition) (vars : Entries Json)
    (scheduler : Scheduler σ RecordedError Completion) : Execution σ :=
  ⟨request.schema, fragmentTable document, operation, vars, request.rootValue, request.resolvers,
    scheduler⟩

/-- Where the executions of counterparts are the same but for the locations of errors, so are their
responses. -/
theorem execute_relocated {request : Request σ} {document other : Document} {depth : Nat}
    {scheduler : Scheduler σ RecordedError Completion}
    {K : OperationDefinition → OperationDefinition → Prop}
    (counterpart : ∀ o p, K o p → o.Counterpart request.schema p)
    (operations : List.Forall₂ K document.operations other.operations)
    (roots : ∀ o p vars root, K o p →
      ((request.executionOf document o vars scheduler).completeRoot depth root).Relocated
        ((request.executionOf other p vars scheduler).completeRoot depth root)) (s : σ) :
    unlocatedResult (execute request document depth s scheduler) =
      unlocatedResult (execute request other depth s scheduler) := by
  have kept {ε δ α : Type} (f : ε → δ) (a : α) : (Except.ok a).mapError f = .ok a := rfl
  have failed {ε δ α : Type} (f : ε → δ) (e : ε) :
      (Except.error e : Except ε α).mapError f = .error (f e) := rfl
  unfold execute Request.prepare
  rcases selectOperation_counterpart counterpart operations request.operationName with
    ⟨e, first, second⟩ | ⟨o, p, hk, first, second⟩
  · rw [first, second]
    rfl
  rw [first, second]
  have same := (counterpart o p hk).values request.vars
  simp only [kept, bind, Except.bind]
  cases hf : variableValues request.schema o request.vars <;>
    cases hg : variableValues request.schema p request.vars <;> rw [hf, hg] at same
  case error.error es fs =>
    have errors : fs.map CoercionError.unlocated = es.map CoercionError.unlocated :=
      Except.error.inj same
    have located (es : List CoercionError) :
        (es.map CoercionError.toGraphQLError).map GraphQLError.unlocated =
          (es.map CoercionError.unlocated).map CoercionError.toGraphQLError := by
      rw [List.map_map, List.map_map]
      rfl
    simp only [failed, unlocatedResult, Option.map_some, Response.ofErrors, Response.unlocated,
      located, errors]
  case error.ok => cases same
  case ok.error => cases same
  case ok.ok vars vars' =>
    obtain rfl : vars' = vars := Except.ok.inj same
    simp only [kept, (counterpart o p hk).kind]
    cases request.schema.root? o.operation with
    | none => rfl
    | some root => exact unlocatedResult_run (roots o p vars' root hk) s

end GraphQL
