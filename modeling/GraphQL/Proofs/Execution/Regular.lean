import GraphQL.Proofs.Execution.Collected
import GraphQL.Proofs.Execution.CourseOfRun
import Mathlib.Data.List.Nodup

/-!
What the courses of executions have in common, whatever is selected and resolved: siblings have
different steps and stand in the order of their ordinals, and nothing is below a failure.
-/
namespace GraphQL

open Ast TypeSystem

/-- Positions right below a path, in the order of the response. -/
structure Siblings (path : ResponsePath) (places : List Place) : Prop where
  parent : ∀ p ∈ places, p.parent = path
  order : places.Pairwise fun p q => p.ordinal < q.ordinal ∧ p.step ≠ q.step

theorem Siblings.sublist {path : ResponsePath} {places others : List Place}
    (h : Siblings path others) (hs : places.Sublist others) : Siblings path places :=
  ⟨fun p hp => h.parent p (hs.subset hp), h.order.sublist hs⟩

theorem siblings_items (path : ResponsePath) (field : FieldRef) (item : TypeRef)
    (values : List Json) :
    Siblings path (values.mapIdx fun i _ => Place.item path field item i) := by
  refine ⟨fun p hp => ?_, List.pairwise_iff_getElem.mpr fun i j hi hj hij => ?_⟩
  · obtain ⟨i, _, rfl⟩ := List.mem_mapIdx.mp hp
    rfl
  · simp only [List.getElem_mapIdx, Place.item]
    exact ⟨hij, by simpa using Nat.ne_of_lt hij⟩

/-- A course of which the members, if any, are in order. -/
inductive Course.Regular : Course → Prop where
  | failed {place : Place} {resolved : Except FieldProblem Json} {e : RecordedError} :
      e.ordinals = place.path.ordinals → e.error.path = some place.path.elements →
      Regular ⟨place, resolved, .failed e, []⟩
  | null {place : Place} : Regular ⟨place, .ok .null, .null, []⟩
  | leaf {place : Place} {resolved : Except FieldProblem Json} {value : Json} :
      value ≠ .null → Regular ⟨place, resolved, .leaf value, []⟩
  | list {place : Place} {resolved : Except FieldProblem Json} {members : List Course} :
      Siblings place.path (members.map Course.place) →
      (∀ (i : Nat) (d : Course), members[i]? = some d → d.place.step = .index i) →
      (∀ d ∈ members, Regular d) →
      Regular ⟨place, resolved, .list, members⟩
  | object {place : Place} {resolved : Except FieldProblem Json} {type : ObjectType}
      {sets : List SelectionSet} {members : List Course} :
      Siblings place.path (members.map Course.place) →
      (∀ d : Course, d ∈ members → d.place.step = .key d.place.key) →
      (∀ d ∈ members, Regular d) →
      Regular ⟨place, resolved, .object type sets, members⟩

variable {σ : Type}

namespace Execution

variable {x : Execution σ}

theorem collect_keys_nodup (type : ObjectType) (sets : List SelectionSet) :
    (x.collect type sets).keys.Nodup := collectFields_keys_nodup _ _

theorem defined_pairwise (type : ObjectType) {fields : Entries (List Ast.Field)}
    (keys : fields.keys.Nodup) :
    (x.defined type fields).Pairwise fun s t => s.ordinal < t.ordinal ∧ s.key ≠ t.key := by
  unfold defined
  rw [List.mapIdx_eq_zipIdx_map, List.filterMap_map, List.pairwise_filterMap,
    List.pairwise_iff_getElem]
  intro i j hi hj hij s hs t ht
  have field {key : String} {nodes : List Ast.Field} {k : Nat} {u : SelectedField}
      (hu : (do
        let first ← nodes.head?
        let definition ← x.schema.field? (.object type) first.name.value
        return (⟨k, key, type, definition, nodes⟩ : SelectedField)) = some u) :
      u.ordinal = k ∧ u.key = key := by
    simp only [Option.bind_eq_bind, Option.bind_eq_some_iff] at hu
    obtain ⟨_, -, _, -, he⟩ := hu
    cases he
    exact ⟨rfl, rfl⟩
  simp only [List.getElem_zipIdx, Function.comp_apply, id_eq, Nat.zero_add] at hs ht
  obtain ⟨his, hks⟩ := field hs
  obtain ⟨hit, hkt⟩ := field ht
  refine ⟨by omega, ?_⟩
  have distinct := List.pairwise_iff_getElem.mp keys i j
    (by simpa [Entries.keys] using hi) (by simpa [Entries.keys] using hj) hij
  rw [hks, hkt]
  simpa [Entries.keys] using distinct

theorem selected_spec {t : ObjectType} {sets : List SelectionSet} {s : SelectedField}
    (h : s ∈ x.selected t sets) :
    (s.key, s.field.nodes) ∈ x.collect t sets ∧ s.field.parent = t ∧
      ∃ first, s.field.nodes.head? = some first ∧
        x.schema.field? (.object t) first.name.value = some s.field.definition := by
  unfold selected at h
  rw [List.mapIdx_eq_zipIdx_map, List.filterMap_map] at h
  obtain ⟨⟨⟨key, nodes⟩, i⟩, hmem, hs⟩ := List.mem_filterMap.mp h
  simp only [Function.comp_apply, id_eq, Option.bind_eq_bind, Option.bind_eq_some_iff] at hs
  obtain ⟨first, hf, definition, hd, he⟩ := hs
  cases he
  exact ⟨List.fst_mem_of_mem_zipIdx hmem, rfl, first, hf, hd⟩

theorem selected_typename {type : ObjectType} {sets : List SelectionSet} {s : SelectedField}
    (hs : s ∈ x.selected type sets) (name : s.field.definition.name = "__typename") :
    s.field.definition.type = .nonNull (.named "String") := by
  obtain ⟨-, -, first, -, hd⟩ := selected_spec hs
  have isTypename : s.field.definition = typenameField := by
    unfold Schema.field? at hd
    split at hd
    · exact (Option.some.inj hd).symm
    · rename_i other
      have same : s.field.definition.name = first.name.value := by
        simpa using List.find?_some hd
      exact absurd ⟨same.symm.trans name, rfl⟩ other
  rw [isTypename]
  rfl

theorem mem_selected_keys {t : ObjectType} {sets : List SelectionSet} {key : String}
    {nodes : List Ast.Field} (h : (key, nodes) ∈ x.collect t sets) {first : Ast.Field}
    (hf : nodes.head? = some first) :
    key ∈ (x.selected t sets).map (·.key) ↔
      x.schema.field? (.object t) first.name.value ≠ none := by
  constructor
  · intro hk
    obtain ⟨s, hs, hk⟩ := List.mem_map.mp hk
    obtain ⟨hmem, -, first', hf', hd⟩ := selected_spec hs
    -- a key has one entry
    obtain ⟨-, rfl⟩ := Prod.mk.inj
      (List.inj_on_of_nodup_map (collect_keys_nodup t sets) h hmem hk.symm)
    obtain rfl : first = first' := Option.some.inj (hf.symm.trans hf')
    simp [hd]
  · intro hd
    obtain ⟨definition, hd⟩ := Option.ne_none_iff_exists'.mp hd
    obtain ⟨i, hi, he⟩ := List.mem_iff_getElem.mp h
    refine List.mem_map.mpr ⟨⟨i, key, t, definition, nodes⟩, ?_, rfl⟩
    unfold selected
    refine List.mem_filterMap.mpr ⟨_, List.mem_mapIdx.mpr ⟨i, hi, rfl⟩, ?_⟩
    simp [he, hf, hd]

theorem siblings_defined (path : ResponsePath) (type : ObjectType)
    {fields : Entries (List Ast.Field)} (keys : fields.keys.Nodup) :
    Siblings path ((x.defined type fields).map (SelectedField.place path)) := by
  refine ⟨fun p hp => ?_, List.pairwise_map.mpr ?_⟩
  · obtain ⟨s, -, rfl⟩ := List.mem_map.mp hp
    rfl
  · refine (defined_pairwise type keys).imp fun ⟨ho, hk⟩ => ⟨ho, ?_⟩
    simpa [SelectedField.place] using hk

theorem siblings_selected (path : ResponsePath) (type : ObjectType) (sets : List SelectionSet) :
    Siblings path ((x.selected type sets).map (SelectedField.place path)) :=
  siblings_defined path type (collect_keys_nodup type sets)

theorem courseKeys_of_places {t : ObjectType} {sets : List SelectionSet} {path : ResponsePath}
    {members : List Course}
    (places : members.map Course.place = (x.selected t sets).map (SelectedField.place path)) :
    courseKeys members = (x.selected t sets).map (·.key) := by
  have := congrArg (List.map Place.key) places
  simpa [courseKeys, List.map_map, Function.comp_def, SelectedField.place, Place.key] using this

theorem step_of_selected {path : ResponsePath} {type : ObjectType} {sets : List SelectionSet}
    {places : List Place}
    (hp : ∀ p ∈ places, p ∈ (x.selected type sets).map (SelectedField.place path)) :
    ∀ p ∈ places, p.step = .key p.key := by
  intro p hmem
  obtain ⟨s, -, rfl⟩ := List.mem_map.mp (hp p hmem)
  rfl

theorem Completes.regular {field : FieldRef} {type : TypeRef} {path : ResponsePath} {value : Json}
    {fate : Fate} {members : List Course} (h : x.Completes field type path value fate members)
    {place : Place} (hp : place.path = path) :
    Course.Regular ⟨place, .ok value, fate, members⟩ := by
  induction h generalizing place with
  | null => exact .null
  | nonNull _ _ ih => exact ih hp
  | nullNotAllowed | notIterable | invalid | untyped =>
    subst hp
    exact .failed rfl rfl
  | leaf hv hr => exact .leaf (leaf_ne_null hv hr)
  | @list field item path values members places resolved _ ih =>
    subst hp
    refine .list (places ▸ siblings_items _ field item values) ?_ ?_
    · intro i d hd
      have at_ : (members.map Course.place)[i]? = some d.place := by simp [hd]
      rw [places, List.getElem?_mapIdx] at at_
      obtain ⟨_, -, he⟩ := Option.map_eq_some_iff.mp at_
      rw [← he]
      rfl
    · intro d hd
      have hr : d.resolved ∈ values.map Except.ok := resolved ▸ List.mem_map_of_mem hd
      obtain ⟨v, -, hv⟩ := List.mem_map.mp hr
      obtain ⟨place, _, fate, below⟩ := d
      change Except.ok v = _ at hv
      subst hv
      exact ih _ hd v rfl rfl
  | @object field name path value type sets members hv ht hsets places resolves failed _ ih =>
    subst hp
    refine .object (places ▸ siblings_selected _ type sets) ?_ ?_
    · intro d hd
      exact step_of_selected (fun p hp => hp) d.place (places ▸ List.mem_map_of_mem hd)
    · intro d hd
      obtain ⟨place, resolved, fate, below⟩ := d
      rcases resolved with problem | v
      · have hd := failed _ hd problem rfl
        change fate = .failed (place.field.error place.path problem) ∧ below = [] at hd
        obtain ⟨rfl, rfl⟩ := hd
        exact .failed rfl rfl
      · exact ih _ hd v rfl rfl

theorem Follows.regular {c : Course} (h : x.Follows c) : c.Regular := by
  obtain ⟨place, resolved, fate, members⟩ := c
  rcases resolved with problem | v
  · change fate = .failed (place.field.error place.path problem) ∧ members = [] at h
    obtain ⟨rfl, rfl⟩ := h
    exact .failed rfl rfl
  · exact Completes.regular h rfl

theorem UpToNull.prefix {places : List Place} {courses : List Course}
    (h : UpToNull places courses) :
    courses.map Course.place <+: places := by
  induction places generalizing courses with
  | nil =>
    cases courses with
    | nil => exact List.prefix_rfl
    | cons => exact h.elim
  | cons p places ih =>
    cases courses with
    | nil => exact h.elim
    | cons c rest =>
      obtain ⟨rfl, h⟩ := h
      split at h
      · subst h
        exact ⟨places, rfl⟩
      · exact List.cons_prefix_cons.mpr ⟨rfl, ih h⟩

theorem UpToNull.places_of_completions {places : List Place} {courses : List Course}
    (h : UpToNull places courses) {values : List Json}
    (hv : completions courses = some values) : courses.map Course.place = places := by
  induction places generalizing courses values with
  | nil =>
    cases courses with
    | nil => rfl
    | cons => exact h.elim
  | cons p places ih =>
    cases courses with
    | nil => exact h.elim
    | cons c rest =>
      obtain ⟨rfl, h⟩ := h
      obtain ⟨v, hc⟩ := completions_ne_none hv List.mem_cons_self
      rw [hc, if_neg (by simp)] at h
      rcases hr : completions rest with - | vs
      · simp [completions, hc, hr] at hv
      · rw [List.map_cons, ih h hr]

namespace RootFollows

variable {root : ObjectType} {courses : List Course}

theorem sublist (h : x.RootFollows root courses) :
    (courses.map Course.place).Sublist
      ((x.selected root [x.operation.selectionSet]).map (SelectedField.place {})) := by
  have places := h.places
  dsimp only at places
  split at places
  · exact places.prefix.sublist
  · rw [places]

/-- Where there is data, all fields of the operation were executed. -/
theorem places_of_objectOf (h : x.RootFollows root courses) {d : Json}
    (hd : objectOf courses = some d) : courses.map Course.place =
      (x.selected root [x.operation.selectionSet]).map (SelectedField.place {}) := by
  obtain ⟨values, hv, -⟩ := Option.map_eq_some_iff.mp hd
  have places := h.places
  dsimp only at places
  split at places
  · exact places.places_of_completions hv
  · exact places

theorem siblings (h : x.RootFollows root courses) : Siblings {} (courses.map Course.place) :=
  (siblings_selected {} root _).sublist h.sublist

theorem regular (h : x.RootFollows root courses) : ∀ c ∈ courses, c.Regular :=
  fun c hc => (h.follows c hc).regular

end RootFollows

end Execution

end GraphQL
