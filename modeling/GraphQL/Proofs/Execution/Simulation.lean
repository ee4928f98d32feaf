import GraphQL.Execution.Response
import GraphQL.Proofs.Execution.CourseOfRun

/-!
Two executions side by side. Main statement: a relation between works that putting works together
keeps, and that holds where fields fail and where resolvers are invoked, holds between the works of
the two executions, if what is selected on one goes with what is selected on the other.
-/
namespace GraphQL

open Ast TypeSystem

variable {σ τ : Type}

namespace Resolvers

def invoke (r : Resolvers σ) (info : ResolveInfo) : Work σ Empty Outcome :=
  match r.resolver? info.parent.name info.field.name with
  | some resolver => resolver info
  | none => .done (.value ((info.source.property? info.field.name).getD .null))

/-- The work of naming the type of a value; nothing is named without a type resolver. -/
def nameType (r : Resolvers σ) (abstract : String) (value : Json) :
    Work σ Empty (Option String) :=
  match r.types.get? abstract with
  | some resolve => .update (resolve value)
  | none => .done none

end Resolvers

/-- A relation between works that holds between equal ends and is kept when works are put together,
by these schedulers where they are put side by side. -/
structure Congruence (R : (α : Type) → Work σ RecordedError α → Work τ RecordedError α → Prop)
    (first : Scheduler σ RecordedError Completion)
    (second : Scheduler τ RecordedError Completion) : Prop where
  done : ∀ {α : Type} (a : α), R α (.done a) (.done a)
  stop : ∀ {α : Type}, R α .stop .stop
  record : ∀ {α : Type} (e : RecordedError) (a : α),
    R α (.record e (.done a)) (.record e (.done a))
  map : ∀ {α β : Type} {w : Work σ RecordedError α} {v : Work τ RecordedError α},
    R α w v → ∀ f : α → β, R β (w.map f) (v.map f)
  bind : ∀ {α β : Type} {w : Work σ RecordedError α} {v : Work τ RecordedError α}
    {f : α → Work σ RecordedError β} {g : α → Work τ RecordedError β},
    R α w v → (∀ a, R β (f a) (g a)) → R β (w.bind f) (v.bind g)
  join : ∀ {works : List (Work σ RecordedError Completion)}
    {others : List (Work τ RecordedError Completion)},
    List.Forall₂ (R Completion) works others →
      R (List Completion) (first.join works) (second.join others)

namespace Execution

/-- What the resolver of a field is invoked with. -/
def info (x : Execution σ) (field : FieldRef) (source : Json) (arguments : Entries Json)
    (path : List PathElement) : ResolveInfo :=
  ⟨source, arguments, field.parent, field.definition, path, field.nodes, x.schema, x.operation,
    x.vars, x.rootValue⟩

def argumentsOf (x : Execution σ) (field : FieldRef) : Except ArgumentError (Entries Json) :=
  argumentValues x.schema field.definition.arguments
    ((field.nodes.head?.map (·.arguments)).getD []) x.vars

/-- The execution of another operation with other fragments and resolvers, under another
scheduler. -/
def instead (x : Execution σ) (fragments : Entries FragmentDefinition)
    (operation : OperationDefinition) (r : Resolvers τ)
    (scheduler : Scheduler τ RecordedError Completion) : Execution τ :=
  ⟨x.schema, fragments, operation, x.vars, x.rootValue, r, scheduler⟩

theorem runtimeTypeName_eq (x : Execution σ) (abstract : TypeDefinition) (value : Json) :
    x.runtimeTypeName abstract value = ((x.resolvers.nameType abstract.name value).lift).map
      (·.or ((value.property? "__typename").bind Json.string?)) := by
  unfold runtimeTypeName Resolvers.nameType
  cases x.resolvers.types.get? abstract.name <;> rfl

theorem resolveField_eq (x : Execution σ) (field : FieldRef) (path : ResponsePath)
    (source : Json) :
    x.resolveField field path source =
      if field.definition.name = "__typename" then .done (.ok (.string field.parent.name))
      else match argumentValues x.schema field.definition.arguments
          ((field.nodes.head?.map (·.arguments)).getD []) x.vars with
        | .error e => .done (.error (.argument e))
        | .ok arguments =>
          (x.resolvers.invoke ⟨source, arguments, field.parent, field.definition, path.elements,
            field.nodes, x.schema, x.operation, x.vars, x.rootValue⟩).lift.map
              Outcome.toExcept := by
  unfold resolveField Resolvers.invoke
  dsimp only
  split
  · rfl
  · cases argumentValues x.schema field.definition.arguments
      ((field.nodes.head?.map (·.arguments)).getD []) x.vars with
    | error e => rfl
    | ok arguments =>
      cases x.resolvers.resolver? field.parent.name field.definition.name <;> rfl

end Execution

/-- Selected fields that stand at one place, for fields that go together. -/
structure SelectedField.Paired (S : FieldRef → FieldRef → Prop) (s t : SelectedField) : Prop where
  ordinal : t.ordinal = s.ordinal
  key : t.key = s.key
  field : S s.field t.field

/-- How the fields of two executions go together: they have the same definitions and arguments, what
is selected on them goes together in turn, and their works are related where they fail for the same
reason and where their resolvers are invoked. -/
structure Simulation (R : (α : Type) → Work σ RecordedError α → Work τ RecordedError α → Prop)
    (S : FieldRef → FieldRef → Prop) (x : Execution σ) (y : Execution τ) : Prop where
  parent : ∀ {f g}, S f g → g.parent = f.parent
  definition : ∀ {f g}, S f g → g.definition = f.definition
  arguments : ∀ {f g}, S f g →
    (y.argumentsOf g).mapError ArgumentError.message =
      (x.argumentsOf f).mapError ArgumentError.message
  selected : ∀ {f g}, S f g → ∀ type,
    List.Forall₂ (SelectedField.Paired S) (x.selected type f.sets) (y.selected type g.sets)
  fail : ∀ {f g}, S f g → ∀ path {p q : FieldProblem}, q.message = p.message →
    q.extensions = p.extensions → R Completion (f.fail path p) (g.fail path q)
  invoke : ∀ {f g}, S f g → ∀ source arguments path,
    R Outcome (x.resolvers.invoke (x.info f source arguments path)).lift
      (y.resolvers.invoke { x.info f source arguments path with
        nodes := g.nodes, operation := y.operation }).lift
  nameType : ∀ abstract value,
    R (Option String) (x.resolvers.nameType abstract value).lift
      (y.resolvers.nameType abstract value).lift

namespace Simulation

variable {R : (α : Type) → Work σ RecordedError α → Work τ RecordedError α → Prop}
  {S : FieldRef → FieldRef → Prop} {x : Execution σ} {fragments : Entries FragmentDefinition}
  {operation : OperationDefinition} {r : Resolvers τ}
  {scheduler : Scheduler τ RecordedError Completion}
  (sim : Simulation R S x (x.instead fragments operation r scheduler))

include sim

theorem coordinate {f g : FieldRef} (h : S f g) : g.coordinate = f.coordinate := by
  rw [FieldRef.coordinate, FieldRef.coordinate, sim.parent h, sim.definition h]

theorem objectType {f g : FieldRef} (h : S f g) (abstract : TypeDefinition)
    (name : Option String) :
    (x.instead fragments operation r scheduler).objectType abstract g name =
      x.objectType abstract f name := by
  unfold Execution.objectType
  rw [sim.coordinate h]
  rfl

variable (congruence : Congruence R x.scheduler scheduler)

include congruence

theorem runtimeTypeName (abstract : TypeDefinition) (value : Json) :
    R (Option String) (x.runtimeTypeName abstract value)
      ((x.instead fragments operation r scheduler).runtimeTypeName abstract value) := by
  rw [Execution.runtimeTypeName_eq, Execution.runtimeTypeName_eq]
  exact congruence.map (sim.nameType ..) _

omit congruence in
theorem failure {f g : FieldRef} (h : S f g) (path : ResponsePath) (problem : FieldProblem) :
    R Completion (f.fail path problem) (g.fail path problem) := sim.fail h path rfl rfl

section Objects

variable {object : Execution.ObjectCompleter σ} {other : Execution.ObjectCompleter τ}
  (objects : ∀ {f g}, S f g → ∀ type path value,
    R Completion (object type f path value) (other type g path value))

include objects

theorem completeNamed {f g : FieldRef} (h : S f g) (path : ResponsePath) (name : String)
    (value : Json) :
    R Completion (x.completeNamed object f path name value)
      ((x.instead fragments operation r scheduler).completeNamed other g path name value) := by
  unfold Execution.completeNamed
  simp only [sim.objectType h]
  dsimp only [Execution.instead]
  split
  · split
    · exact congruence.done _
    · exact sim.failure h ..
  · split
    · exact congruence.done _
    · exact sim.failure h ..
  · exact objects h ..
  · exact sim.failure h ..
  · exact sim.failure h ..
  · refine congruence.bind (sim.runtimeTypeName congruence _ value) fun name => ?_
    split
    · exact objects h ..
    · exact sim.failure h ..

theorem completeValue {f g : FieldRef} (h : S f g) (type : TypeRef) (path : ResponsePath)
    (value : Json) :
    R Completion (x.completeValue object f type path value)
      ((x.instead fragments operation r scheduler).completeValue other g type path value) := by
  induction type generalizing path value with
  | named name =>
    rw [Execution.completeValue, Execution.completeValue]
    split
    · exact congruence.done _
    · exact sim.completeNamed congruence objects h ..
  | list item ih =>
    have notIterable : R Completion (f.fail path (.notIterable f.coordinate))
        (g.fail path (.notIterable g.coordinate)) := sim.coordinate h ▸ sim.failure h ..
    cases value
    case null => exact congruence.done _
    case array items =>
      rw [Execution.completeValue, Execution.completeValue]
      rw [List.mapIdx_eq_zipIdx_map, List.mapIdx_eq_zipIdx_map]
      refine congruence.map (congruence.join ?_) _
      rw [List.forall₂_map_left_iff, List.forall₂_map_right_iff, List.forall₂_same]
      exact fun k _ => congruence.map (ih _ _) _
    all_goals exact notIterable
  | nonNull inner ih =>
    rw [Execution.completeValue, Execution.completeValue]
    refine congruence.bind (ih path value) fun c => ?_
    split
    · rw [sim.coordinate h]
      exact sim.failure h ..
    · exact congruence.done _

theorem executeField {f g : FieldRef} (h : S f g) (path : ResponsePath) (source : Json) :
    R Completion (x.executeField object f path source)
      ((x.instead fragments operation r scheduler).executeField other g path source) := by
  have complete (value : Json) :=
    sim.completeValue congruence objects h f.definition.type path value
  have arguments := sim.arguments h
  unfold Execution.executeField
  rw [Execution.resolveField_eq, Execution.resolveField_eq, ← Execution.argumentsOf,
    ← Execution.argumentsOf, sim.definition h, sim.parent h]
  refine congruence.map ?_ _
  split
  · exact complete _
  cases hf : x.argumentsOf f <;>
    cases hg : (x.instead fragments operation r scheduler).argumentsOf g <;>
    rw [hf, hg] at arguments
  case error.error e e' =>
    exact sim.fail h path (Except.error.inj arguments) rfl
  case error.ok => cases arguments
  case ok.error => cases arguments
  case ok.ok values values' =>
    obtain rfl : values' = values := Except.ok.inj arguments
    refine congruence.bind (congruence.map (sim.invoke h ..) _) fun resolved => ?_
    cases resolved with
    | ok value => exact complete value
    | error problem => exact sim.failure h ..

theorem fieldWorks {fields others : List SelectedField}
    (h : List.Forall₂ (SelectedField.Paired S) fields others) (path : ResponsePath)
    (source : Json) :
    List.Forall₂ (fun p q => q.1 = p.1 ∧ R Completion p.2 q.2)
      (fields.map fun s => (s.key, x.executeField object s.field (s.place path).path source))
      (others.map fun s => (s.key, (x.instead fragments operation r scheduler).executeField other
        s.field (s.place path).path source)) := by
  rw [List.forall₂_map_left_iff, List.forall₂_map_right_iff]
  refine h.imp fun s t paired => ⟨paired.key, ?_⟩
  have place : (t.place path).path = (s.place path).path := by
    unfold SelectedField.place
    rw [paired.ordinal, paired.key]
    rfl
  rw [place]
  exact sim.executeField congruence objects paired.field ..

end Objects

omit sim in
theorem joined {works : List (String × Work σ RecordedError Completion)}
    {others : List (String × Work τ RecordedError Completion)}
    (h : List.Forall₂ (fun p q => q.1 = p.1 ∧ R Completion p.2 q.2) works others) :
    R Completion (x.joined works) ((x.instead fragments operation r scheduler).joined others) := by
  have keys : others.map (·.1) = works.map (·.1) := map_eq_of_forall₂ (fun _ _ h => h.1) h
  unfold Execution.joined
  rw [keys]
  refine congruence.map (congruence.join ?_) _
  rw [List.forall₂_map_left_iff, List.forall₂_map_right_iff]
  exact h.imp fun _ _ h => h.2

omit sim in
theorem oneByOne {works : List (String × Work σ RecordedError Completion)}
    {others : List (String × Work τ RecordedError Completion)}
    (h : List.Forall₂ (fun p q => q.1 = p.1 ∧ R Completion p.2 q.2) works others)
    (built : Entries Json) :
    R Completion (Execution.oneByOne works built) (Execution.oneByOne others built) := by
  induction h generalizing built with
  | nil => exact congruence.done _
  | cons h _ ih =>
    rw [Execution.oneByOne, Execution.oneByOne, h.1]
    refine congruence.bind h.2 fun c => ?_
    cases c with
    | none => exact congruence.done _
    | some value => exact ih _

theorem completeObject (depth : Nat) {f g : FieldRef} (h : S f g) (type : ObjectType)
    (path : ResponsePath) (value : Json) :
    R Completion (x.completeObject depth type f path value)
      ((x.instead fragments operation r scheduler).completeObject depth type g path value) := by
  induction depth generalizing f g type path value with
  | zero => exact congruence.stop
  | succ depth ih =>
    rw [Execution.completeObject, Execution.completeObject, Execution.fieldWorks_eq,
      Execution.fieldWorks_eq]
    exact joined congruence (sim.fieldWorks congruence ih (sim.selected h type) path value)

theorem completeRoot (kind : operation.operation = x.operation.operation) (root : ObjectType)
    (selected : List.Forall₂ (SelectedField.Paired S)
      (x.selected root [x.operation.selectionSet])
      ((x.instead fragments operation r scheduler).selected root [operation.selectionSet]))
    (depth : Nat) :
    R Completion (x.completeRoot depth root)
      ((x.instead fragments operation r scheduler).completeRoot depth root) := by
  have works := sim.fieldWorks congruence (sim.completeObject congruence depth) selected {}
    x.rootValue
  rw [← Execution.fieldWorks_eq, ← Execution.fieldWorks_eq] at works
  unfold Execution.completeRoot
  dsimp only [Execution.instead] at works ⊢
  rw [kind]
  cases x.operation.operation with
  | query => exact joined congruence works
  | mutation => exact oneByOne congruence works []
  | subscription => exact joined congruence works

end Simulation

end GraphQL
