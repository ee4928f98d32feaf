import GraphQL.Proofs.Execution.BareDocument
import GraphQL.Proofs.Execution.CallOrder
import GraphQL.Proofs.Execution.RepeatedCollection

/-!
Selecting the same thing twice. Main statement: a document in which one selection set has its
selections written twice in a row gives the same data, and the same errors but for their locations.
-/
namespace GraphQL

open Ast TypeSystem

namespace Ast

/-- The selection set with the selections of one set in it, or its own, twice in a row. -/
inductive SelectionSet.Doubled : SelectionSet → SelectionSet → Prop where
  | here (selections : List Selection) (loc : Option Location) :
      Doubled ⟨selections, loc⟩ ⟨selections ++ selections, loc⟩
  | field {before after : List Selection} {f : Field} {s t : SelectionSet}
      {loc : Option Location} :
      f.selectionSet = some s → Doubled s t →
      Doubled ⟨before ++ .field f :: after, loc⟩
        ⟨before ++ .field { f with selectionSet := some t } :: after, loc⟩
  | inline {before after : List Selection} {f : InlineFragment} {t : SelectionSet}
      {loc : Option Location} :
      Doubled f.selectionSet t →
      Doubled ⟨before ++ .inlineFragment f :: after, loc⟩
        ⟨before ++ .inlineFragment { f with selectionSet := t } :: after, loc⟩

/-- The operation or fragment with its selection set doubled somewhere. -/
inductive Definition.Doubled : Definition → Definition → Prop where
  | operation {d : OperationDefinition} {t : SelectionSet} :
      d.selectionSet.Doubled t → Doubled (.operation d) (.operation { d with selectionSet := t })
  | fragment {d : FragmentDefinition} {t : SelectionSet} :
      d.selectionSet.Doubled t → Doubled (.fragment d) (.fragment { d with selectionSet := t })

/-- The document with the selections of one selection set twice in a row. -/
inductive Document.Doubled : Document → Document → Prop where
  | definition {before after : List Definition} {d e : Definition} {loc : Option Location} :
      d.Doubled e → Doubled ⟨before ++ d :: after, loc⟩ ⟨before ++ e :: after, loc⟩

theorem SelectionSet.Copy.within {before after : List Selection} {s t : Selection}
    {loc : Option Location} (h : s.Copy t) :
    SelectionSet.Copy ⟨before ++ s :: after, loc⟩ ⟨before ++ t :: after, loc⟩ := by
  have rest (selections : List Selection) : Repeats Selection.Copy selections selections :=
    Repeats.refl fun s _ => .refl s
  have one : Repeats Selection.Copy [s] [t] := Repeats.nil.next h
  exact (rest before).concat (one.concat (rest after))

theorem SelectionSet.Doubled.copy {s t : SelectionSet} (h : s.Doubled t) : s.Copy t := by
  induction h with
  | here selections loc =>
    exact (Repeats.refl fun s _ => .refl s).append fun s hs => ⟨s, hs, .refl s⟩
  | field hf _ ih => exact .within (.field hf ih)
  | inline _ ih => exact .within (.inline ih)

structure OperationDefinition.Copy (o p : OperationDefinition) : Prop where
  kind : p.operation = o.operation
  name : p.name = o.name
  variableDefinitions : p.variableDefinitions = o.variableDefinitions
  selectionSet : o.selectionSet.Copy p.selectionSet

theorem OperationDefinition.Copy.refl (o : OperationDefinition) : o.Copy o :=
  ⟨rfl, rfl, rfl, .refl _⟩

theorem OperationDefinition.Copy.counterpart {o p : OperationDefinition} (h : o.Copy p)
    (schema : Schema) : o.Counterpart schema p where
  kind := h.kind
  name := by rw [h.name]
  values given := by rw [variableValues, variableValues, h.variableDefinitions]

/-- The document with copies among the selections of its operations and fragments. -/
structure Document.Copy (d e : Document) : Prop where
  operations : List.Forall₂ OperationDefinition.Copy d.operations e.operations
  fragments : List.Forall₂ (fun f g => g.name = f.name ∧ f.Copy g) d.fragments e.fragments

theorem Document.Doubled.copy {d e : Document} (h : d.Doubled e) : d.Copy e := by
  have same (os : List OperationDefinition) : List.Forall₂ OperationDefinition.Copy os os :=
    List.forall₂_same.mpr fun o _ => .refl o
  have alike (fs : List FragmentDefinition) :
      List.Forall₂ (fun f g => g.name = f.name ∧ f.Copy g) fs fs :=
    List.forall₂_same.mpr fun f _ => ⟨rfl, rfl, .refl _⟩
  obtain ⟨h⟩ := h
  cases h with
  | operation h =>
    constructor
    · simp only [operations, List.filterMap_append, List.filterMap_cons]
      exact List.rel_append (same _) (.cons ⟨rfl, rfl, rfl, h.copy⟩ (same _))
    · simp only [fragments, List.filterMap_append, List.filterMap_cons]
      exact alike _
  | fragment h =>
    constructor
    · simp only [operations, List.filterMap_append, List.filterMap_cons]
      exact same _
    · simp only [fragments, List.filterMap_append, List.filterMap_cons]
      exact List.rel_append (alike _) (.cons ⟨rfl, rfl, h.copy⟩ (alike _))

end Ast

theorem fragmentTable_copy {d e : Document} (h : d.Copy e) :
    Entries.Related (fun _ => FragmentDefinition.Copy) (fragmentTable d) (fragmentTable e) := by
  unfold fragmentTable Entries.Related
  rw [List.forall₂_map_left_iff, List.forall₂_map_right_iff]
  exact h.fragments.imp fun f g same => ⟨congrArg Name.value same.1.symm, same.2⟩

structure FieldRef.Copy (f g : FieldRef) : Prop where
  parent : g.parent = f.parent
  definition : g.definition = f.definition
  nodes : Repeats Field.Copy f.nodes g.nodes

theorem FieldRef.Copy.sets {f g : FieldRef} (h : f.Copy g) :
    Repeats SelectionSet.Copy f.sets g.sets :=
  h.nodes.filterMap fun _ _ copy => copy.selectionSet

theorem forall₂_zipIdx {α β : Type} {R : α → β → Prop} {xs : List α} {ys : List β}
    (h : List.Forall₂ R xs ys) (n : Nat) :
    List.Forall₂ (fun p q => R p.1 q.1 ∧ q.2 = p.2) (xs.zipIdx n) (ys.zipIdx n) := by
  induction h generalizing n with
  | nil => exact .nil
  | cons h _ ih =>
    rw [List.zipIdx_cons, List.zipIdx_cons]
    exact .cons ⟨h, rfl⟩ (ih (n + 1))

variable {σ : Type}

namespace Execution

variable {x : Execution σ} {fragments : Entries FragmentDefinition}
  {operation : OperationDefinition}

theorem selected_copy
    (tables : Entries.Related (fun _ => FragmentDefinition.Copy) x.fragments fragments)
    (type : ObjectType) {sets others : List SelectionSet}
    (copies : Repeats SelectionSet.Copy sets others) :
    List.Forall₂ (SelectedField.Paired FieldRef.Copy) (x.selected type sets)
      ((x.instead fragments operation x.resolvers x.scheduler).selected type others) := by
  have collected := @collectFields_copy ⟨x.schema, x.fragments, x.vars, .object type⟩ fragments
    tables sets others copies
  unfold selected collect
  rw [List.mapIdx_eq_zipIdx_map, List.mapIdx_eq_zipIdx_map, List.filterMap_map,
    List.filterMap_map]
  refine List.rel_filterMap ?_ (forall₂_zipIdx collected 0)
  rintro ⟨⟨key, nodes⟩, i⟩ ⟨⟨key', nodes'⟩, i'⟩ ⟨⟨hk, same⟩, hi⟩
  obtain rfl : key = key' := hk
  obtain rfl : i' = i := hi
  replace same : Repeats Field.Copy nodes nodes' := same
  have heads := same.head?
  dsimp only [Function.comp_apply, id_eq]
  cases hf : nodes.head? <;> cases hg : nodes'.head? <;> rw [hf, hg] at heads
  case none.none => exact .none
  case none.some => cases heads
  case some.none => cases heads
  case some.some first first' =>
    cases heads with
    | some copy =>
      simp only [Option.bind_eq_bind, Option.bind_some, copy.name]
      change Option.Rel _ ((x.schema.field? (.object type) first.name.value).bind _)
        ((x.schema.field? (.object type) first.name.value).bind _)
      cases x.schema.field? (.object type) first.name.value with
      | none => exact .none
      | some definition => exact .some ⟨rfl, rfl, rfl, rfl, same⟩

theorem simulation_copy
    (tables : Entries.Related (fun _ => FragmentDefinition.Copy) x.fragments fragments)
    (blind : x.resolvers.NodeBlind) :
    Simulation (fun _ => Work.Relocated) FieldRef.Copy x
      (x.instead fragments operation x.resolvers x.scheduler) where
  parent h := h.parent
  definition h := h.definition
  arguments {f g} h := by
    have written : g.nodes.head?.map (·.arguments) = f.nodes.head?.map (·.arguments) := by
      have heads := h.nodes.head?
      generalize f.nodes.head? = first at heads ⊢
      generalize g.nodes.head? = second at heads ⊢
      cases heads with
      | none => rfl
      | some copy => exact congrArg some copy.arguments
    unfold argumentsOf
    rw [written, h.definition]
    rfl
  selected h type := selected_copy tables type h.sets
  fail {f g} _ path _ _ message extensions := f.fail_relocated g path message extensions
  invoke {f g} _ source arguments path := by
    have same := blind (x.info f source arguments path) g.nodes operation
    exact congrArg (fun w => (w.lift : Work σ RecordedError Outcome).mapErrors _) same.symm
  nameType _ _ := rfl

end Execution

/-- Copies of selections change nothing but the locations of errors. -/
theorem execute_copy {request : Request σ} (blind : request.resolvers.NodeBlind)
    {scheduler : Scheduler σ RecordedError Completion} (joins : scheduler.Blind)
    {document other : Document} (copy : document.Copy other) (depth : Nat) (s : σ) :
    unlocatedResult (execute request document depth s scheduler) =
      unlocatedResult (execute request other depth s scheduler) := by
  refine execute_relocated (fun o p h => h.counterpart request.schema) copy.operations ?_ s
  intro o p vars root h
  have tables := fragmentTable_copy copy
  let x := request.executionOf document o vars scheduler
  have sim : Simulation (fun _ => Work.Relocated) FieldRef.Copy x
      (x.instead (fragmentTable other) p x.resolvers x.scheduler) :=
    Execution.simulation_copy tables blind
  exact sim.completeRoot joins.congruence h.kind root
    (Execution.selected_copy tables root (Repeats.nil.next h.selectionSet)) depth

/-- Selecting the same thing twice changes nothing: writing the selections of a selection set twice
in a row, wherever the nodes stand then, gives the same data, the same errors but for their
locations, and the same last state. -/
theorem execute_doubled {request : Request σ} (blind : request.resolvers.NodeBlind)
    {document twice other : Document} (doubled : document.Doubled twice)
    (written : other.bare = twice.bare) (depth : Nat) (s : σ) :
    unlocatedResult (execute request document depth s) =
        unlocatedResult (execute request other depth s) ∧
      ∀ scheduler : Scheduler σ RecordedError Completion, scheduler.Blind →
        unlocatedResult (execute request document depth s scheduler) =
          unlocatedResult (execute request other depth s scheduler) := by
  have same (scheduler : Scheduler σ RecordedError Completion) (joins : scheduler.Blind) :
      unlocatedResult (execute request document depth s scheduler) =
        unlocatedResult (execute request other depth s scheduler) :=
    calc
      _ = unlocatedResult (execute request twice depth s scheduler) :=
        execute_copy blind joins doubled.copy depth s
      _ = unlocatedResult (execute request twice.bare depth s scheduler) :=
        execute_bare blind joins twice depth s
      _ = unlocatedResult (execute request other.bare depth s scheduler) := by rw [written]
      _ = _ := (execute_bare blind joins other depth s).symm
  exact ⟨same .rounds .rounds, same⟩

namespace Count

/-- `a: add { value next { value } } b: reset c: add { value }`, where `b` may have a span. -/
def incrementsWith (loc : Option Location) : List Selection :=
  [selectField "a" "add"
      [selectField "value" "value" [], selectField "next" "next" [selectField "value" "value" []]],
    .field
      { aliasName := some ⟨"b", none⟩
        name := ⟨"reset", none⟩
        loc := loc },
    selectField "c" "add" [selectField "value" "value" []]]

/-- The selections of `increments` twice in a row. -/
def incrementsTwice (first second : Option Location) : Document :=
  ⟨[.operation ⟨.mutation, none, [], [],
    ⟨incrementsWith first ++ incrementsWith second, none⟩, none⟩], none⟩

/-- The selections of `increments` on one line and again on the next. -/
def incrementsOnLines : Document := incrementsTwice (some ⟨0, 0, 1, 1⟩) (some ⟨0, 0, 2, 1⟩)

theorem increments_doubled : increments.Doubled (incrementsTwice none none) :=
  @Document.Doubled.definition [] [] _ _ none (.operation (.here _ none))

theorem incrementsOnLines_bare : incrementsOnLines.bare = (incrementsTwice none none).bare := by
  simp [incrementsOnLines, incrementsTwice, incrementsWith, selectField, Document.bare,
    Definition.bare?, OperationDefinition.bare, SelectionSet.bare, bareSelections, Selection.bare,
    Field.bare, bareSelectionSet]

theorem counterRequest_nodeBlind : counterRequest.resolvers.NodeBlind := by
  intro info nodes operation
  unfold Resolvers.invoke
  dsimp only
  split
  · rename_i resolver found
    unfold Resolvers.resolver? at found
    split at found
    · rename_i registered
      cases found
      have mem := List.mem_of_find?_eq_some registered
      simp only [counterRequest, List.mem_cons, Prod.mk.injEq, List.not_mem_nil, or_false] at mem
      rcases mem with ⟨-, rfl⟩ | ⟨-, rfl⟩ | ⟨-, rfl⟩ <;> rfl
    · cases found
  · rfl

end Count

/-- Both mutations call four resolvers and fail at `b`, which the second selects at two places. -/
theorem execute_doubled_increments :
    Count.counterRequest.resolvers.NodeBlind ∧
      Count.increments.Doubled (Count.incrementsTwice none none) ∧
      Count.incrementsOnLines.bare = (Count.incrementsTwice none none).bare ∧
      (execute Count.counterRequest Count.incrementsOnLines 2 0).map
          (fun r => (r.1.errors.map (·.locations), r.2)) = some ([[⟨1, 1⟩, ⟨2, 1⟩]], 4) ∧
      unlocatedResult (execute Count.counterRequest Count.increments 2 0) =
        unlocatedResult (execute Count.counterRequest Count.incrementsOnLines 2 0) ∧
      ∀ scheduler : Scheduler Nat RecordedError Completion, scheduler.Blind →
        unlocatedResult (execute Count.counterRequest Count.increments 2 0 scheduler) =
          unlocatedResult (execute Count.counterRequest Count.incrementsOnLines 2 0 scheduler) :=
  ⟨Count.counterRequest_nodeBlind, Count.increments_doubled, Count.incrementsOnLines_bare,
    by decide +kernel, execute_doubled Count.counterRequest_nodeBlind Count.increments_doubled
      Count.incrementsOnLines_bare 2 0⟩

end GraphQL
