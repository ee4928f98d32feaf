import GraphQL.Proofs.Execution.Bounded
import GraphQL.Proofs.Execution.WalkOfCollection

/-!
An execution reads no fragments but those that its operation reaches through spreads. Where two
tables have the same fragments of these names, selections take the same walk, nothing else is
collected from them, and the fields that are met reach no further: so all objects are completed
alike.

Main statement: `execute_reached`.
-/
namespace GraphQL

open Ast TypeSystem Validation

/-- The fragments that names lead to are the same in both tables, or missing in both. -/
def SameReached (fragments others : Entries FragmentDefinition) (names : List String) : Prop :=
  ∀ name, Reaches fragments names name → fragments.get? name = others.get? name

section

variable {fragments others : Entries FragmentDefinition} {names : List String}

theorem SameReached.of_reaches (h : SameReached fragments others names) {further : List String}
    (each : ∀ n ∈ further, Reaches fragments names n) : SameReached fragments others further :=
  fun name reached => h name (reached.trans each)

theorem SameReached.mono (h : SameReached fragments others names) {fewer : List String}
    (hs : fewer ⊆ names) : SameReached fragments others fewer :=
  h.of_reaches fun _ hn => .here (hs hn)

theorem SameReached.spread (h : SameReached fragments others names) {name : String}
    {f : FragmentDefinition} (hn : name ∈ names) (hf : fragments.get? name = some f) :
    SameReached fragments others (spreadsOf f.selectionSet) :=
  h.of_reaches fun _ ho => (Reaches.here hn).spread hf ho

end

namespace SelectionScope

variable {scope : SelectionScope} {others : Entries FragmentDefinition}

def on (scope : SelectionScope) (others : Entries FragmentDefinition) : SelectionScope :=
  { scope with fragments := others }

theorem followed?_on {s : Selection}
    (h : SameReached scope.fragments others (selectionSpreads s)) :
    (scope.on others).followed? s = scope.followed? s := by
  cases s with
  | field f => rfl
  | inlineFragment f => rfl
  | spread t =>
    have same := h t.name.value (.here (by simp [selectionSpreads]))
    rw [followed?, followed?, same]
    rfl

theorem entered?_on (s : Selection) : (scope.on others).entered? s = scope.entered? s := by
  cases s <;> rfl

theorem taken?_on (s : Selection) : (scope.on others).taken? s = scope.taken? s := by
  cases s <;> rfl

/-- A walk is the same with other fragments that are led to by none of the spreads. -/
theorem Walk.on {again : Bool} {site : Site} {numbered : List (Selection × Nat)}
    {before last : List String} {tour : List (Site × Selection)}
    (h : scope.Walk again site numbered before tour last)
    (agree : SameReached scope.fragments others (selectionsSpreads (numbered.map Prod.fst))) :
    (scope.on others).Walk again site numbered before tour last := by
  induction h with
  | nil => exact .nil
  | @stay site s k rest before last tour stays known _ ih =>
    have first : SameReached scope.fragments others (selectionSpreads s) :=
      agree.mono (List.subset_append_left _ _)
    refine .stay ((entered?_on s).trans stays) ?_ (ih (agree.mono (List.subset_append_right _ _)))
    intro name f follows
    exact known name f ((followed?_on first).symm.trans follows)
  | @enter site s k rest inner before between last within tour enters _ _ ih later =>
    have first : SameReached scope.fragments others (selectionSpreads s) :=
      agree.mono (List.subset_append_left _ _)
    refine .enter ((entered?_on s).trans enters) (ih ?_)
      (later (agree.mono (List.subset_append_right _ _)))
    obtain ⟨f, rfl, -, rfl⟩ := entered?_eq_some.mp enters
    rw [List.zipIdx_map_fst, ← inlineSpreads_eq]
    exact first
  | @follow site s k rest name f before between last within tour follows new _ _ ih later =>
    have first : SameReached scope.fragments others (selectionSpreads s) :=
      agree.mono (List.subset_append_left _ _)
    refine .follow ((followed?_on first).trans follows) new (ih ?_)
      (later (agree.mono (List.subset_append_right _ _)))
    obtain ⟨t, rfl, rfl, -⟩ := followed?_eq_some.mp follows
    rw [List.zipIdx_map_fst, ← spreadsOf_eq]
    exact first.spread List.mem_cons_self (get?_of_followed? follows)

theorem mem_spreads_asSelections {sets : List SelectionSet} {name : String} :
    name ∈ selectionsSpreads (asSelections sets) ↔ ∃ set ∈ sets, name ∈ spreadsOf set := by
  simp [mem_selectionsSpreads, asSelections, selectionSpreads, inlineSpreads]

theorem collectFields_on {sets : List SelectionSet}
    (agree : ∀ set ∈ sets, SameReached scope.fragments others (spreadsOf set)) :
    collectFields (scope.on others) sets = collectFields scope sets := by
  obtain ⟨tour, ⟨last, walk⟩, collected⟩ :=
    collectThrough_eq sets (Nat.le_refl scope.fragments.length)
  obtain ⟨tour', tours, collected'⟩ :=
    collectThrough_eq sets (Nat.le_refl (scope.on others).fragments.length)
  have all : SameReached scope.fragments others (selectionsSpreads (asSelections sets)) := by
    rintro name ⟨first, hfirst, way⟩
    obtain ⟨set, hset, hmem⟩ := mem_spreads_asSelections.mp hfirst
    exact agree set hset name ⟨first, hmem, way⟩
  rw [← List.zipIdx_map_fst 0 (asSelections sets)] at all
  obtain rfl := tours.unique ⟨last, walk.on all⟩
  have taken : (scope.on others).taken tour' = scope.taken tour' := by
    simp only [SelectionScope.taken, taken?_on]
  rw [taken, ← collected] at collected'
  exact collected'

end SelectionScope

variable {σ : Type}

namespace Execution

variable {x : Execution σ} {others : Entries FragmentDefinition}

def on (x : Execution σ) (others : Entries FragmentDefinition) : Execution σ :=
  { x with fragments := others }

/-- The fragments that selection sets lead to are the same in another table. -/
def AgreesOn (x : Execution σ) (others : Entries FragmentDefinition)
    (sets : List SelectionSet) : Prop :=
  ∀ set ∈ sets, SameReached x.fragments others (spreadsOf set)

theorem collect_on {type : ObjectType} {sets : List SelectionSet} (agree : x.AgreesOn others sets) :
    (x.on others).collect type sets = x.collect type sets := by
  let scope : SelectionScope := ⟨x.schema, x.fragments, x.vars, .object type⟩
  have same : collectFields (scope.on others) sets = collectFields scope sets :=
    SelectionScope.collectFields_on agree
  exact same

theorem selected_on {type : ObjectType} {sets : List SelectionSet}
    (agree : x.AgreesOn others sets) : (x.on others).selected type sets = x.selected type sets := by
  unfold selected
  rw [collect_on agree]
  rfl

/-- The selections of a field lead no further than those that select it. -/
theorem AgreesOn.of_selected {sets : List SelectionSet} (agree : x.AgreesOn others sets)
    {type : ObjectType} {s : SelectedField} (hs : s ∈ x.selected type sets) :
    x.AgreesOn others s.field.sets := by
  obtain ⟨collected, -⟩ := selected_spec hs
  have nodes := (collectFields_nodes collected).2
  intro inner hinner
  obtain ⟨node, hnode, hi⟩ := List.mem_filterMap.mp hinner
  obtain ⟨-, set, hset, meets⟩ := nodes node hnode
  have spreads : selectionSpreads (.field node) = spreadsOf inner := by
    rw [selectionSpreads, spreadsOf_of_field hi]
  refine (agree set hset).of_reaches fun name hname => ?_
  rw [← spreads] at hname
  rw [spreadsOf_eq]
  rcases meets.occurs with occurs | ⟨other, f, reached, hf, occurs⟩
  · exact .here (occurs.spreads hname)
  · refine reached.spread hf ?_
    rw [spreadsOf_eq]
    exact occurs.spreads hname

theorem completeValue_on (object : ObjectCompleter σ) (field : FieldRef) (type : TypeRef)
    (path : ResponsePath) (value : Json) :
    (x.on others).completeValue object field type path value =
      x.completeValue object field type path value := by
  induction type generalizing path value with
  | named name =>
    rw [completeValue, completeValue]
    rfl
  | nonNull inner ih => rw [completeValue, completeValue, ih]
  | list item ih =>
    cases value
    case array items =>
      simp only [completeValue, ih]
      rfl
    all_goals rfl

/-- Completing a field reads fragments in its objects alone. -/
theorem executeField_on {object object' : ObjectCompleter σ} {field : FieldRef}
    (objects : ∀ type path value, object type field path value = object' type field path value)
    (path : ResponsePath) (source : Json) :
    (x.on others).executeField object field path source =
      x.executeField object' field path source := by
  have same : x.executeField object field path source = x.executeField object' field path source :=
    executeField_same (Resolvers.SameWithin.refl x.resolvers _)
      (fun type path value _ => objects type path value) path source rfl (Nat.le_refl _)
  rw [← same]
  unfold executeField
  simp only [completeValue_on]
  rfl

theorem fieldWorks_on {object object' : ObjectCompleter σ} {type : ObjectType} {source : Json}
    {sets : List SelectionSet} {path : ResponsePath} (agree : x.AgreesOn others sets)
    (objects : ∀ s ∈ x.selected type sets, ∀ type path value,
      object type s.field path value = object' type s.field path value) :
    (x.on others).fieldWorks object type source ((x.on others).collect type sets) path =
      x.fieldWorks object' type source (x.collect type sets) path := by
  rw [fieldWorks_eq, fieldWorks_eq, selected_on agree]
  refine List.map_congr_left fun s hs => ?_
  rw [executeField_on (objects s hs)]

theorem completeObject_on (depth : Nat) (type : ObjectType) (field : FieldRef)
    (path : ResponsePath) (value : Json) (agree : x.AgreesOn others field.sets) :
    (x.on others).completeObject depth type field path value =
      x.completeObject depth type field path value := by
  induction depth generalizing type field path value with
  | zero => rfl
  | succ depth ih =>
    refine congrArg x.joined (fieldWorks_on agree fun s hs type path value => ?_)
    exact ih type s.field path value (agree.of_selected hs)

theorem completeRoot_on (depth : Nat) (root : ObjectType)
    (agree : SameReached x.fragments others (spreadsOf x.operation.selectionSet)) :
    (x.on others).completeRoot depth root = x.completeRoot depth root := by
  have sets : x.AgreesOn others [x.operation.selectionSet] := by simpa [AgreesOn] using agree
  have works : (x.on others).fieldWorks ((x.on others).completeObject depth) root x.rootValue
      ((x.on others).collect root [x.operation.selectionSet]) {} =
      x.fieldWorks (x.completeObject depth) root x.rootValue
        (x.collect root [x.operation.selectionSet]) {} := by
    refine fieldWorks_on sets fun s hs type path value => ?_
    exact completeObject_on depth type s.field path value (sets.of_selected hs)
  unfold completeRoot
  simp only [← works]
  rfl

end Execution

/-- The same operation is prepared, to be executed with the fragments of the other document. -/
theorem Request.prepare_on (request : Request σ) {document other : Document}
    (same : selectOperation document request.operationName =
      selectOperation other request.operationName)
    (scheduler : Scheduler σ RecordedError Completion) :
    request.prepare other scheduler =
      (request.prepare document scheduler).map fun p => (p.1.on (fragmentTable other), p.2) := by
  unfold prepare
  rw [← same]
  cases (selectOperation document request.operationName).mapError fun e => [e.toGraphQLError] with
  | error e => rfl
  | ok operation =>
    simp only [bind, Except.bind]
    cases (variableValues request.schema operation request.vars).mapError
      (·.map CoercionError.toGraphQLError) with
    | error e => rfl
    | ok vars => cases request.schema.root? operation.operation <;> rfl

/-- Where two documents select the same operation, and have the same first definition or none at
all of every fragment that it reaches through spreads, they are executed alike: other operations,
other fragments and the order of definitions have no influence. Resolvers are given the operation
and nothing else of the document. -/
theorem execute_reached (request : Request σ) {document other : Document}
    {operation : OperationDefinition}
    (selects : selectOperation document request.operationName = .ok operation)
    (selects' : selectOperation other request.operationName = .ok operation)
    (agree : SameReached (fragmentTable document) (fragmentTable other)
      (spreadsOf operation.selectionSet))
    (depth : Nat) (s : σ) (scheduler : Scheduler σ RecordedError Completion) :
    execute request document depth s scheduler = execute request other depth s scheduler := by
  have prepare := request.prepare_on (selects.trans selects'.symm) scheduler
  unfold execute
  rw [prepare]
  rcases hp : request.prepare document scheduler with errors | ⟨x, root⟩
  · rfl
  have prepared := Request.isPrepared hp
  obtain rfl := Except.ok.inj (selects.symm.trans (Request.operation_of_prepare hp))
  rw [← prepared.fragments] at agree
  change _ = ((Execution.completeRoot (x.on (fragmentTable other)) depth root).run s).map _
  rw [Execution.completeRoot_on depth root agree]

namespace Reordered

open Chain

/-- `query Main { ...F }` -/
def main : OperationDefinition := { operation with name := some ⟨"Main", none⟩ }

/-- `query Other { __typename }` -/
def other : OperationDefinition :=
  ⟨.query, some ⟨"Other", none⟩, [], [], ⟨[.field { name := ⟨"__typename", none⟩ }], none⟩, none⟩

/-- `fragment F on Query { self { ...G } }` -/
def outer : FragmentDefinition := fragment "F" [.field (selfNode "G")]

/-- `fragment G on Query { ...F ...Missing }` -/
def inner : FragmentDefinition := fragment "G" [spread "F", spread "Missing"]

/-- The operation and the fragments that it reaches. -/
def first : Document := ⟨[.operation main, .fragment outer, .fragment inner], none⟩

/-- The same in another order, another operation, a fragment that is not reached and a second
definition of one that is. -/
def second : Document :=
  ⟨[.fragment inner, .operation other, .fragment (fragment "Unused" [spread "F"]),
    .fragment outer, .operation main, .fragment (fragment "F" [])], none⟩

def request : Request Unit :=
  { schema, resolvers := Chain.resolvers fun path => path.length < 3, operationName := some "Main" }

/-- The answer to the operation `Main`. -/
def response : Response :=
  ⟨some (.object [("self", .object [("self", .object [("self", .null)])])]), []⟩

theorem reached {name : String} (h : Reaches (fragmentTable first) ["F"] name) :
    name = "F" ∨ name = "G" ∨ name = "Missing" := by
  obtain ⟨start, hstart, way⟩ := h
  obtain rfl := List.mem_singleton.mp hstart
  cases way with
  | refl => exact .inl rfl
  | @tail before _ _ last =>
    obtain ⟨f, found, spreads⟩ := last
    have entry : (before = "F" ∧ f = outer) ∨ (before = "G" ∧ f = inner) := by
      simpa [fragmentTable, first, Document.fragments, outer, inner, fragment]
        using Entries.mem_of_get? found
    rcases entry with ⟨-, rfl⟩ | ⟨-, rfl⟩
    · simp [outer, fragment, selfNode, spread, spreadsOf, selectionsSpreads, selectionSpreads,
        fieldSpreads, optionalSpreads] at spreads
      simp [spreads]
    · simp [inner, fragment, spread, spreadsOf, selectionsSpreads, selectionSpreads] at spreads
      rcases spreads with rfl | rfl <;> simp

end Reordered

theorem execute_reached_reordered :
    (selectOperation Reordered.first (some "Main") = .ok Reordered.main ∧
      selectOperation Reordered.second (some "Main") = .ok Reordered.main ∧
      SameReached (fragmentTable Reordered.first) (fragmentTable Reordered.second)
        (spreadsOf Reordered.main.selectionSet)) ∧
      execute Reordered.request Reordered.first 4 () = some (Reordered.response, ()) ∧
      execute Reordered.request Reordered.second 4 () = some (Reordered.response, ()) := by
  have agree : SameReached (fragmentTable Reordered.first) (fragmentTable Reordered.second)
      (spreadsOf Reordered.main.selectionSet) := by
    intro name h
    rcases Reordered.reached h with rfl | rfl | rfl <;> rfl
  have run : execute Reordered.request Reordered.first 4 () = some (Reordered.response, ()) := by
    have sorted : inResponseOrder [] = [] := inResponseOrder_of_perm (.refl _) .nil
    rw [Reordered.response, ← sorted]
    rfl
  have same := execute_reached Reordered.request rfl rfl agree 4 () .rounds
  exact ⟨⟨rfl, rfl, agree⟩, run, same ▸ run⟩

end GraphQL
