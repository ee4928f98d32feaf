import GraphQL.Proofs.Execution.Collected
import GraphQL.Proofs.Execution.Unlocated
import GraphQL.Proofs.Input.Filling

/-!
Executing a document without spans. Main statement: where nodes stand changes nothing but the
locations of errors, unless a resolver looks.
-/
namespace GraphQL

open Ast TypeSystem

theorem directiveCondition_bare (directives : List Ast.Directive) (vars : Entries Json)
    (name : String) : directiveCondition (directives.map Directive.bare) vars name =
      directiveCondition directives vars name := by
  have directive : (directives.map Directive.bare).find? (·.name.value = name) =
      (directives.find? (·.name.value = name)).map Directive.bare := by
    rw [List.find?_map]
    rfl
  have argument (d : Ast.Directive) : d.bare.arguments.find? (·.name.value = "if") =
      (d.arguments.find? (·.name.value = "if")).map Argument.bare := by
    rw [Directive.bare, List.find?_map]
    rfl
  unfold directiveCondition
  rw [directive]
  cases directives.find? (·.name.value = name) with
  | none => rfl
  | some d =>
    simp only [Option.map_some, Option.bind_eq_bind, Option.bind_some, argument]
    cases d.arguments.find? (·.name.value = "if") with
    | none => rfl
    | some a =>
      simp only [Option.map_some, Option.bind_some, Argument.bare]
      cases a.value <;> simp only [Value.bare, Variable.bare, Name.bare]

theorem isIncluded_bare (directives : List Ast.Directive) (vars : Entries Json) :
    isIncluded (directives.map Directive.bare) vars = isIncluded directives vars := by
  unfold isIncluded
  rw [directiveCondition_bare, directiveCondition_bare]

theorem fragmentTable_bare (document : Document) :
    fragmentTable document.bare =
      (fragmentTable document).map fun e => (e.1, e.2.bare) := by
  unfold fragmentTable
  rw [document.bare_fragments, List.map_map, List.map_map]
  rfl

def Collected.bare (c : Collected) : Collected :=
  ⟨c.fields.map fun e => (e.1, e.2.map Field.bare), c.visited⟩

theorem Collected.addField_bare (c : Collected) (f : Ast.Field) :
    c.bare.addField f.bare = (c.addField f).bare := by
  unfold addField bare
  dsimp only
  rw [f.bare_responseKey, Entries.map_modify (List.map Field.bare) List.map_nil]
  exact fun nodes => List.map_append

def SelectionScope.bare (scope : SelectionScope) : SelectionScope :=
  { scope with fragments := scope.fragments.map fun e => (e.1, e.2.bare) }

variable {scope : SelectionScope} {follow other : FragmentDefinition → Collected → Collected}

/-- Fragments without spans are followed by the second as fragments are by the first. -/
def FollowsBare (follow other : FragmentDefinition → Collected → Collected) : Prop :=
  ∀ f c, other f.bare c.bare = (follow f c).bare

theorem collectSpread_bare (follows : FollowsBare follow other) (s : FragmentSpread)
    (c : Collected) :
    collectSpread scope.bare other s.bare c.bare = (collectSpread scope follow s c).bare := by
  have found : scope.bare.fragments.get? s.name.value =
      (scope.fragments.get? s.name.value).map FragmentDefinition.bare :=
    Entries.get?_map scope.fragments FragmentDefinition.bare s.name.value
  have included : isIncluded (s.directives.map Directive.bare) scope.bare.vars =
      isIncluded s.directives scope.vars := isIncluded_bare s.directives scope.vars
  have visited : c.bare.visited = c.visited := rfl
  unfold collectSpread
  simp only [FragmentSpread.bare, Name.bare, included, found, visited]
  split
  · rfl
  cases scope.fragments.get? s.name.value with
  | none => rfl
  | some f =>
    have applies : scope.bare.applies f.bare.typeCondition = scope.applies f.typeCondition := rfl
    dsimp only [Option.map_some]
    rw [applies]
    split
    · exact follows f ⟨c.fields, s.name.value :: c.visited⟩
    · rfl

mutual

theorem collectSet_bare (follows : FollowsBare follow other) :
    ∀ (set : SelectionSet) (c : Collected),
    collectSet scope.bare other set.bare c.bare = (collectSet scope follow set c).bare
  | ⟨selections, _⟩, c => by
    rw [SelectionSet.bare, collectSet, collectSet]
    exact collectSelections_bare follows selections c

theorem collectSelections_bare (follows : FollowsBare follow other) :
    ∀ (selections : List Selection) (c : Collected),
    collectSelections scope.bare other (bareSelections selections) c.bare =
      (collectSelections scope follow selections c).bare
  | [], c => by rw [bareSelections, collectSelections, collectSelections]
  | s :: rest, c => by
    rw [bareSelections, collectSelections, collectSelections, collectSelection_bare follows s,
      collectSelections_bare follows rest]

theorem collectSelection_bare (follows : FollowsBare follow other) :
    ∀ (s : Selection) (c : Collected),
    collectSelection scope.bare other s.bare c.bare = (collectSelection scope follow s c).bare
  | .field f, c => by
    rw [Selection.bare, collectSelection, collectSelection, f.bare_directives]
    change (if isIncluded _ scope.vars then _ else _) = _
    rw [isIncluded_bare, c.addField_bare]
    split <;> rfl
  | .spread s, c => by
    rw [Selection.bare, collectSelection, collectSelection, collectSpread_bare follows]
  | .inlineFragment f, c => by
    rw [Selection.bare, collectSelection, collectSelection, collectInline_bare follows f]

theorem collectInline_bare (follows : FollowsBare follow other) :
    ∀ (f : InlineFragment) (c : Collected),
    collectInline scope.bare other f.bare c.bare = (collectInline scope follow f c).bare
  | ⟨condition, directives, set, loc⟩, c => by
    have applies : (condition.map NamedType.bare).all scope.bare.applies =
        condition.all scope.applies := by
      cases condition <;> rfl
    rw [InlineFragment.bare, collectInline, collectInline, applies]
    change (if isIncluded _ scope.vars && _ then _ else _) = _
    rw [isIncluded_bare, collectSet_bare follows set]
    split <;> rfl

end

theorem collectFragment_bare (depth : Nat) (f : FragmentDefinition) (c : Collected) :
    collectFragment scope.bare depth f.bare c.bare = (collectFragment scope depth f c).bare := by
  induction depth generalizing f c with
  | zero => rfl
  | succ depth ih => exact collectSet_bare ih f.selectionSet c

/-- What is collected without spans is what is collected with them, without them. -/
theorem collectFields_bare (sets : List SelectionSet) :
    collectFields scope.bare (sets.map SelectionSet.bare) =
      (collectFields scope sets).map fun e => (e.1, e.2.map Field.bare) := by
  have length : scope.bare.fragments.length = scope.fragments.length := List.length_map ..
  have built (c : Collected) :
      (sets.map SelectionSet.bare).foldl (fun c set => collectSet scope.bare
          (collectFragment scope.bare scope.fragments.length) set c) c.bare =
        (sets.foldl (fun c set => collectSet scope
          (collectFragment scope scope.fragments.length) set c) c).bare := by
    induction sets generalizing c with
    | nil => rfl
    | cons set rest ih =>
      rw [List.map_cons, List.foldl_cons, List.foldl_cons,
        collectSet_bare (collectFragment_bare _)]
      exact ih _
  unfold collectFields
  rw [length]
  exact congrArg Collected.fields (built {})

variable {σ : Type}

def FieldRef.bare (field : FieldRef) : FieldRef :=
  { field with nodes := field.nodes.map Field.bare }

theorem FieldRef.bare_sets (field : FieldRef) :
    field.bare.sets = field.sets.map SelectionSet.bare := by
  unfold sets bare
  dsimp only
  rw [List.filterMap_map, List.map_filterMap]
  congr 1
  funext f
  exact f.bare_selectionSet

def SelectedField.bare (s : SelectedField) : SelectedField := { s with field := s.field.bare }

namespace Execution

def bare (x : Execution σ) : Execution σ :=
  x.instead (x.fragments.map fun e => (e.1, e.2.bare)) x.operation.bare x.resolvers x.scheduler

variable (x : Execution σ)

theorem selected_bare (type : ObjectType) (sets : List SelectionSet) :
    x.bare.selected type (sets.map SelectionSet.bare) =
      (x.selected type sets).map SelectedField.bare := by
  have collect : x.bare.collect type (sets.map SelectionSet.bare) =
      (x.collect type sets).map fun e => (e.1, e.2.map Field.bare) :=
    @collectFields_bare ⟨x.schema, x.fragments, x.vars, .object type⟩ sets
  unfold selected
  rw [collect, List.mapIdx_eq_zipIdx_map, List.mapIdx_eq_zipIdx_map, List.filterMap_map,
    List.filterMap_map, List.map_filterMap, List.zipIdx_map, List.filterMap_map]
  congr 1
  funext ⟨⟨key, nodes⟩, i⟩
  cases nodes with
  | nil => rfl
  | cons first rest =>
    simp [Prod.map, bare, instead, SelectedField.bare, FieldRef.bare]

theorem argumentsOf_bare (field : FieldRef) :
    x.bare.argumentsOf field.bare = (x.argumentsOf field).mapError ArgumentError.bare := by
  have written : (field.bare.nodes.head?.map (·.arguments)).getD [] =
      ((field.nodes.head?.map (·.arguments)).getD []).map Argument.bare := by
    unfold FieldRef.bare
    cases field.nodes with
    | nil => rfl
    | cons first rest => exact first.bare_arguments
  unfold argumentsOf
  rw [written]
  exact argumentValues_bare field.definition.arguments _

variable {x}

theorem simulation_bare (blind : x.resolvers.NodeBlind) :
    Simulation (fun _ => Work.Relocated) (fun f g => g = f.bare) x x.bare where
  parent h := h ▸ rfl
  definition h := h ▸ rfl
  arguments {f _} h := by
    rw [h, argumentsOf_bare]
    cases x.argumentsOf f with
    | error e => exact congrArg Except.error e.bare_message
    | ok values => rfl
  selected {f _} h type := by
    rw [h, f.bare_sets, x.selected_bare, List.forall₂_map_right_iff, List.forall₂_same]
    exact fun s _ => ⟨rfl, rfl, rfl⟩
  fail {f g} _ path _ _ message extensions := f.fail_relocated g path message extensions
  invoke {f g} _ source arguments path := by
    have same := blind (x.info f source arguments path) g.nodes x.bare.operation
    exact congrArg (fun w => (w.lift : Work σ RecordedError Outcome).mapErrors _) same.symm
  nameType _ _ := rfl

theorem completeRoot_bare (blind : x.resolvers.NodeBlind) (joins : x.scheduler.Blind)
    (depth : Nat) (root : ObjectType) :
    (x.completeRoot depth root).Relocated (x.bare.completeRoot depth root) := by
  refine (simulation_bare blind).completeRoot joins.congruence rfl root ?_ depth
  have selected := x.selected_bare root [x.operation.selectionSet]
  rw [List.map_cons, List.map_nil] at selected
  change List.Forall₂ _ _ (x.bare.selected root [x.operation.selectionSet.bare])
  rw [selected, List.forall₂_map_right_iff, List.forall₂_same]
  exact fun s _ => ⟨rfl, rfl, rfl⟩

end Execution

theorem Ast.OperationDefinition.counterpart_bare (schema : Schema) (o : OperationDefinition) :
    o.Counterpart schema o.bare where
  kind := rfl
  name := by
    unfold bare
    cases o.name <;> rfl
  values given := by
    rw [variableValues_bare]
    cases variableValues schema o given with
    | ok vars => rfl
    | error es => exact congrArg Except.error (List.map_map ..)

/-- Where nodes stand changes nothing but the locations of errors. -/
theorem execute_bare {request : Request σ} (blind : request.resolvers.NodeBlind)
    {scheduler : Scheduler σ RecordedError Completion} (joins : scheduler.Blind)
    (document : Document) (depth : Nat) (s : σ) :
    unlocatedResult (execute request document depth s scheduler) =
      unlocatedResult (execute request document.bare depth s scheduler) := by
  refine execute_relocated (K := fun o p => p = o.bare) ?_ ?_ ?_ s
  · rintro o _ rfl
    exact o.counterpart_bare request.schema
  · rw [document.bare_operations, List.forall₂_map_right_iff, List.forall₂_same]
    exact fun _ _ => rfl
  · rintro o _ vars root rfl
    have same := Execution.completeRoot_bare (x := request.executionOf document o vars scheduler)
      blind joins depth root
    unfold Execution.bare at same
    unfold Request.executionOf at same ⊢
    rw [fragmentTable_bare]
    exact same

end GraphQL
