import GraphQL.Proofs.Execution.Levels
import GraphQL.Proofs.Execution.Scheduling

/-!
How far an execution descends. On selections that go down a number of levels its work does not stop
if resolvers return; and the work is the same at any two depths that are enough, with any two sets
of resolvers that agree no further down than the selections go.
-/
namespace GraphQL

open Ast TypeSystem

/-- The number of field keys in a path; list indices do not count. -/
def fieldCount (path : List PathElement) : Nat :=
  path.countP fun
    | .key _ => true
    | .index _ => false

theorem fieldCount_key (path : ResponsePath) (key : String) (ordinal : Nat) :
    fieldCount (path.child (.key key) ordinal).elements = fieldCount path.elements + 1 := by
  simp [fieldCount, ResponsePath.child]

theorem fieldCount_index (path : ResponsePath) (i ordinal : Nat) :
    fieldCount (path.child (.index i) ordinal).elements = fieldCount path.elements := by
  simp [fieldCount, ResponsePath.child]

variable {σ : Type}

namespace Work

variable {ε α β : Type}

theorem not_mayStop_bind {w : Work σ ε α} (h : ¬ w.MayStop) {f : α → Work σ ε β}
    (hf : ∀ a, ¬ (f a).MayStop) : ¬ (w.bind f).MayStop := by
  rw [mayStop_bind]
  rintro (stops | ⟨a, -, -, stops⟩)
  · exact h stops
  · exact hf a stops

theorem not_mayStop_join (scheduler : Scheduler σ ε α) {works : List (Work σ ε α)}
    (each : ∀ w ∈ works, ¬ w.MayStop) : ¬ (scheduler.join works).MayStop := by
  intro stops
  obtain ⟨w, hw, stops⟩ := (scheduler.interleaves works).stops stops
  exact each w hw stops

end Work

namespace Resolvers

/-- Every resolver ends with some outcome, wherever it is called. -/
def Return (r : Resolvers σ) : Prop := ∀ info, ¬ (r.invoke info).MayStop

/-- Both do the same for every field down to the bound, and name the same types. -/
structure SameWithin (r other : Resolvers σ) (bound : Nat) : Prop where
  field : ∀ info, fieldCount info.path ≤ bound → r.invoke info = other.invoke info
  type : ∀ abstract value, r.nameType abstract value = other.nameType abstract value

theorem SameWithin.refl (r : Resolvers σ) (bound : Nat) : r.SameWithin r bound :=
  ⟨fun _ _ => rfl, fun _ _ => rfl⟩

theorem not_mayStop_nameType (r : Resolvers σ) (abstract : String) (value : Json) :
    ¬ (r.nameType abstract value).MayStop := by
  unfold nameType
  split <;> simp [Work.update, Work.MayStop]

end Resolvers

namespace Execution

variable {x : Execution σ}

theorem resolveField_ends (returns : x.resolvers.Return) (field : FieldRef) (path : ResponsePath)
    (source : Json) : ¬ (x.resolveField field path source).MayStop := by
  rw [resolveField_eq]
  split
  · exact id
  · split
    · exact id
    · rw [Work.mayStop_map, Work.mayStop_lift]
      exact returns _

theorem runtimeTypeName_ends (abstract : TypeDefinition) (value : Json) :
    ¬ (x.runtimeTypeName abstract value).MayStop := by
  rw [runtimeTypeName_eq, Work.mayStop_map, Work.mayStop_lift]
  exact x.resolvers.not_mayStop_nameType abstract.name value

section Ends

variable {object : ObjectCompleter σ} {field : FieldRef}
  (objects : ∀ type path value, ¬ (object type field path value).MayStop)

include objects

theorem completeNamed_ends (name : String) (path : ResponsePath) (value : Json) :
    ¬ (x.completeNamed object field path name value).MayStop := by
  unfold completeNamed
  split
  · split <;> exact id
  · split <;> exact id
  · exact objects _ path value
  · exact id
  · exact id
  · apply Work.not_mayStop_bind (runtimeTypeName_ends _ value)
    intro name
    split
    · exact objects _ path value
    · exact id

theorem completeValue_ends (type : TypeRef) (path : ResponsePath) (value : Json) :
    ¬ (x.completeValue object field type path value).MayStop := by
  induction type generalizing path value with
  | named name =>
    rw [completeValue]
    split
    · exact id
    · exact completeNamed_ends objects name path value
  | list item ih =>
    cases value
    case null => exact id
    case array items =>
      rw [completeValue, Work.mayStop_map]
      apply Work.not_mayStop_join
      intro work hwork
      obtain ⟨i, _, rfl⟩ := List.mem_mapIdx.mp hwork
      rw [Work.mayStop_map]
      exact ih _ _
    all_goals exact id
  | nonNull inner ih =>
    rw [completeValue]
    apply Work.not_mayStop_bind (ih path value)
    intro c
    split <;> exact id

theorem executeField_ends (returns : x.resolvers.Return) (path : ResponsePath) (source : Json) :
    ¬ (x.executeField object field path source).MayStop := by
  rw [executeField, Work.mayStop_map]
  apply Work.not_mayStop_bind (resolveField_ends returns field path source)
  intro r
  cases r with
  | ok value => exact completeValue_ends objects _ path value
  | error problem => exact id

end Ends

theorem joined_ends {works : List (String × Work σ RecordedError Completion)}
    (each : ∀ entry ∈ works, ¬ entry.2.MayStop) : ¬ (x.joined works).MayStop := by
  rw [joined, Work.mayStop_map]
  apply Work.not_mayStop_join
  intro work hwork
  obtain ⟨entry, hentry, rfl⟩ := List.mem_map.mp hwork
  exact each entry hentry

theorem oneByOne_ends {works : List (String × Work σ RecordedError Completion)}
    (each : ∀ entry ∈ works, ¬ entry.2.MayStop) (built : Entries Json) :
    ¬ (oneByOne works built).MayStop := by
  induction works generalizing built with
  | nil => exact id
  | cons entry rest ih =>
    rw [List.forall_mem_cons] at each
    apply Work.not_mayStop_bind each.1
    intro c
    cases c with
    | none => exact id
    | some value => exact ih each.2 _

def SetsWithin (x : Execution σ) (n : Nat) (sets : List SelectionSet) : Prop :=
  ∀ set ∈ sets, Within x.fragments n set.selections

/-- The selections of a field are a level below those that select it. -/
theorem SetsWithin.of_selected (unnested : ¬ SelfNested x.fragments) {n : Nat}
    {sets : List SelectionSet} (h : x.SetsWithin n sets) {type : ObjectType} {s : SelectedField}
    (hs : s ∈ x.selected type sets) : 0 < n ∧ x.SetsWithin (n - 1) s.field.sets := by
  obtain ⟨collected, -, first, hfirst, -⟩ := selected_spec hs
  have nodes := (collectFields_nodes collected).2
  have below {node : Ast.Field} (hnode : node ∈ s.field.nodes) :
      0 < n ∧ ∀ set, node.selectionSet = some set →
        Within x.fragments (n - 1) set.selections := by
    obtain ⟨-, set, hset, meets⟩ := nodes node hnode
    exact Within.of_meets unnested (h set hset) meets
  refine ⟨(below (List.mem_of_head? hfirst)).1, ?_⟩
  intro set hset
  obtain ⟨node, hnode, hi⟩ := List.mem_filterMap.mp hset
  exact (below hnode).2 set hi

theorem setsWithin_operation {n : Nat}
    (within : Within x.fragments n x.operation.selectionSet.selections) :
    x.SetsWithin n [x.operation.selectionSet] := by
  intro set hset
  rw [List.mem_singleton.mp hset]
  exact within

theorem fieldWorks_ends {object : ObjectCompleter σ} {type : ObjectType} {source : Json}
    {sets : List SelectionSet} {path : ResponsePath}
    (each : ∀ s ∈ x.selected type sets,
      ¬ (x.executeField object s.field (s.place path).path source).MayStop) :
    ∀ entry ∈ x.fieldWorks object type source (x.collect type sets) path, ¬ entry.2.MayStop := by
  rw [fieldWorks_eq]
  intro entry hentry
  obtain ⟨s, hs, rfl⟩ := List.mem_map.mp hentry
  exact each s hs

section

variable (unnested : ¬ SelfNested x.fragments) (returns : x.resolvers.Return)

include unnested returns

theorem completeObject_ends {n depth : Nat} (enough : n < depth) (type : ObjectType)
    (field : FieldRef) (path : ResponsePath) (value : Json) (sets : x.SetsWithin n field.sets) :
    ¬ (x.completeObject depth type field path value).MayStop := by
  induction depth generalizing n type field path value with
  | zero => omega
  | succ depth ih =>
    apply joined_ends
    apply fieldWorks_ends
    intro s hs
    obtain ⟨pos, below⟩ := sets.of_selected unnested hs
    refine executeField_ends ?_ returns _ _
    intro type path value
    exact ih (by omega) type s.field path value below

theorem completeRoot_ends {n depth : Nat} (enough : n ≤ depth) (root : ObjectType)
    (within : Within x.fragments n x.operation.selectionSet.selections) :
    ¬ (x.completeRoot depth root).MayStop := by
  have each : ∀ entry ∈ x.fieldWorks (x.completeObject depth) root x.rootValue
      (x.collect root [x.operation.selectionSet]) {}, ¬ entry.2.MayStop := by
    apply fieldWorks_ends
    intro s hs
    obtain ⟨pos, below⟩ := (setsWithin_operation within).of_selected unnested hs
    refine executeField_ends ?_ returns _ _
    intro type path value
    exact completeObject_ends unnested returns (by omega) type s.field path value below
  unfold completeRoot
  dsimp only
  split
  · exact oneByOne_ends each []
  · exact joined_ends each

end

section Same

variable {other : Resolvers σ} {bound : Nat} (same : x.resolvers.SameWithin other bound)

include same

theorem resolveField_same (field : FieldRef) (path : ResponsePath) (source : Json)
    (within : fieldCount path.elements ≤ bound) :
    x.resolveField field path source =
      (x.with other x.scheduler).resolveField field path source := by
  have invoke (arguments : Entries Json) := same.field
    ⟨source, arguments, field.parent, field.definition, path.elements, field.nodes, x.schema,
      x.operation, x.vars, x.rootValue⟩ within
  rw [resolveField_eq, resolveField_eq]
  simp only [invoke]
  rfl

theorem runtimeTypeName_same (abstract : TypeDefinition) (value : Json) :
    x.runtimeTypeName abstract value =
      (x.with other x.scheduler).runtimeTypeName abstract value := by
  rw [runtimeTypeName_eq, runtimeTypeName_eq, same.type]
  rfl

variable {object object' : ObjectCompleter σ} {field : FieldRef} {level : Nat}
  (objects : ∀ type path value, fieldCount path.elements = level →
    object type field path value = object' type field path value)

include objects

theorem completeNamed_same (name : String) (path : ResponsePath) (value : Json)
    (here : fieldCount path.elements = level) :
    x.completeNamed object field path name value =
      (x.with other x.scheduler).completeNamed object' field path name value := by
  have found (type : ObjectType) := objects type path value here
  unfold completeNamed
  simp only [found, runtimeTypeName_same same, objectType_with]
  rfl

theorem completeValue_same (type : TypeRef) (path : ResponsePath) (value : Json)
    (here : fieldCount path.elements = level) :
    x.completeValue object field type path value =
      (x.with other x.scheduler).completeValue object' field type path value := by
  induction type generalizing path value with
  | named name =>
    rw [completeValue, completeValue]
    simp only [completeNamed_same same objects name path value here]
  | list item ih =>
    cases value
    case array items =>
      have each (i : Nat) (v : Json) :=
        ih (path.child (.index i) i) v (by rw [fieldCount_index, here])
      rw [completeValue, completeValue]
      simp only [each]
      rfl
    all_goals rfl
  | nonNull inner ih =>
    rw [completeValue, completeValue, ih path value here]

theorem executeField_same (path : ResponsePath) (source : Json)
    (here : fieldCount path.elements = level) (within : level ≤ bound) :
    x.executeField object field path source =
      (x.with other x.scheduler).executeField object' field path source := by
  have resolved := resolveField_same same field path source (here ▸ within)
  have completed (value : Json) :=
    completeValue_same same objects field.definition.type path value here
  unfold executeField
  simp only [resolved, completed]

end Same

theorem fieldWorks_same {other : Resolvers σ} {object object' : ObjectCompleter σ}
    {type : ObjectType} {source : Json} {sets : List SelectionSet} {path : ResponsePath}
    (each : ∀ s ∈ x.selected type sets,
      x.executeField object s.field (s.place path).path source =
        (x.with other x.scheduler).executeField object' s.field (s.place path).path source) :
    x.fieldWorks object type source (x.collect type sets) path =
      (x.with other x.scheduler).fieldWorks object' type source (x.collect type sets) path := by
  rw [fieldWorks_eq, fieldWorks_with]
  apply List.map_congr_left
  intro s hs
  rw [each s hs]

section

variable (unnested : ¬ SelfNested x.fragments) {other : Resolvers σ} {bound : Nat}
  (same : x.resolvers.SameWithin other bound)

include unnested same

theorem completeObject_same {n depth more : Nat} (enough : n < depth) (enough' : n < more)
    (type : ObjectType) (field : FieldRef) (path : ResponsePath) (value : Json)
    (sets : x.SetsWithin n field.sets) (within : fieldCount path.elements + n ≤ bound) :
    x.completeObject depth type field path value =
      (x.with other x.scheduler).completeObject more type field path value := by
  induction depth generalizing n more type field path value with
  | zero => omega
  | succ depth ih =>
    obtain ⟨more, rfl⟩ : ∃ m, more = m + 1 := ⟨more - 1, by omega⟩
    rw [completeObject, completeObject]
    apply congrArg x.joined
    apply fieldWorks_same
    intro s hs
    obtain ⟨pos, below⟩ := sets.of_selected unnested hs
    have level : fieldCount (s.place path).path.elements = fieldCount path.elements + 1 :=
      fieldCount_key path s.key s.ordinal
    apply executeField_same same _ _ value level (by omega)
    intro type path' value here
    exact ih (by omega) (by omega) type s.field path' value below (by omega)

theorem completeRoot_same {depth more : Nat} (enough : bound ≤ depth) (enough' : bound ≤ more)
    (root : ObjectType) (within : Within x.fragments bound x.operation.selectionSet.selections) :
    x.completeRoot depth root = (x.with other x.scheduler).completeRoot more root := by
  have works : x.fieldWorks (x.completeObject depth) root x.rootValue
      (x.collect root [x.operation.selectionSet]) {} =
      (x.with other x.scheduler).fieldWorks ((x.with other x.scheduler).completeObject more) root
        x.rootValue (x.collect root [x.operation.selectionSet]) {} := by
    apply fieldWorks_same
    intro s hs
    obtain ⟨pos, below⟩ := (setsWithin_operation within).of_selected unnested hs
    have level : fieldCount (s.place {}).path.elements = 1 := fieldCount_key {} s.key s.ordinal
    apply executeField_same same _ _ x.rootValue level pos
    intro type path value here
    exact completeObject_same unnested same (by omega) (by omega) type s.field path value below
      (by omega)
  unfold completeRoot
  simp only [works]
  rfl

end

end Execution

end GraphQL
