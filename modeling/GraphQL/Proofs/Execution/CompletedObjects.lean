import GraphQL.Proofs.Execution.Regular
import GraphQL.Proofs.Schema.Possible

/-!
The objects that an execution completes, from the root on: their types are object types of the
schema that the declared types allow, and their members are the fields selected on them.
-/
namespace GraphQL

open Ast TypeSystem

/-- A course among the members, or an item of a list that one of them holds, at any depth. -/
inductive ItemOf (members : List Course) : Course → Prop where
  | member {c : Course} : c ∈ members → ItemOf members c
  | item {l c : Course} : ItemOf members l → l.fate = .list → c ∈ l.members → ItemOf members c

variable {σ : Type}

namespace Execution

/-- An object that the execution completes: its type, the selection sets for it and the courses of
its fields. -/
inductive Objects (x : Execution σ) (root : ObjectType) (courses : List Course) :
    ObjectType → List SelectionSet → List Course → Prop where
  | root : Objects x root courses root [x.operation.selectionSet] courses
  | held {t u : ObjectType} {sets others : List SelectionSet} {members : List Course}
      {c : Course} :
      Objects x root courses t sets members → ItemOf members c → c.fate = .object u others →
      Objects x root courses u others c.members

/-- The members are courses of fields selected on the type; where they make up an object, of all
these fields. -/
structure Selects (x : Execution σ) (t : ObjectType) (sets : List SelectionSet)
    (members : List Course) : Prop where
  field : ∀ c ∈ members, ∃ s ∈ x.selected t sets,
    c.place.field = s.field ∧ c.place.type = s.field.definition.type
  follows : ∀ c ∈ members, x.Follows c
  keys : ∀ d, objectOf members = some d → courseKeys members = (x.selected t sets).map (·.key)

variable {x : Execution σ}

theorem selects_of_places {t : ObjectType} {sets : List SelectionSet} {members : List Course}
    {path : ResponsePath}
    (places : (members.map Course.place).Sublist
      ((x.selected t sets).map (SelectedField.place path)))
    (follows : ∀ c ∈ members, x.Follows c)
    (all : ∀ d, objectOf members = some d →
      members.map Course.place = (x.selected t sets).map (SelectedField.place path)) :
    x.Selects t sets members := by
  refine ⟨fun c hc => ?_, follows, fun d hd => ?_⟩
  · obtain ⟨s, hs, hp⟩ := List.mem_map.mp (places.subset (List.mem_map_of_mem hc))
    exact ⟨s, hs, hp ▸ rfl, hp ▸ rfl⟩
  · exact courseKeys_of_places (all d hd)

theorem RootFollows.selects {root : ObjectType} {courses : List Course}
    (h : x.RootFollows root courses) : x.Selects root [x.operation.selectionSet] courses :=
  selects_of_places h.sublist h.follows fun _ => h.places_of_objectOf

theorem canBe_of_mayHaveType {field : FieldRef} {name : String} {value : Json} {t : ObjectType}
    (h : x.MayHaveType field name value (.ok t)) :
    x.schema.Has t ∧ x.schema.CanBe (.named name) t := by
  generalize hr : (Except.ok t : Except FieldProblem ObjectType) = r at h
  cases h with
  | object ht =>
    cases hr
    exact ⟨⟨name, ht⟩, _, ht, by simp [Schema.isPossible]⟩
  | abstract ht _ _ =>
    obtain ⟨own, ho, possible⟩ := objectType_ok hr.symm
    exact ⟨⟨own, ho⟩, _, ht, possible⟩

theorem Completes.of_object {field : FieldRef} {type : TypeRef} {path : ResponsePath}
    {value : Json} {t : ObjectType} {sets : List SelectionSet} {members : List Course}
    (h : x.Completes field type path value (.object t sets) members) :
    sets = field.sets ∧ x.schema.Has t ∧ x.schema.CanBe type t ∧ x.Selects t sets members := by
  generalize hf : Fate.object t sets = fate at h
  induction h with
  | nonNull _ _ ih => exact ih hf
  | object _ ht hsets places _ failed completes _ =>
    cases hf
    obtain ⟨has, can⟩ := canBe_of_mayHaveType ht
    refine ⟨hsets, has, can, selects_of_places (places ▸ List.Sublist.refl _) ?_ fun _ _ => places⟩
    intro c hc
    unfold Follows
    split
    · exact completes c hc _ ‹_›
    · exact failed c hc _ ‹_›
  | _ => cases hf

/-- The items of a list are completed for its field, at types with its core. -/
theorem Completes.of_list {field : FieldRef} {type : TypeRef} {path : ResponsePath}
    {value : Json} {members : List Course}
    (h : x.Completes field type path value .list members) {c : Course} (hc : c ∈ members) :
    c.place.field = field ∧ c.place.type.coreName = type.coreName ∧ x.Follows c := by
  generalize hf : Fate.list = fate at h
  induction h with
  | nonNull _ _ ih => exact ih hc hf
  | @list field item path values members places resolved completes _ =>
    obtain ⟨i, _, hp⟩ := List.mem_mapIdx.mp (places ▸ List.mem_map_of_mem hc)
    obtain ⟨v, -, hv⟩ := List.mem_map.mp (resolved ▸ List.mem_map_of_mem hc)
    refine ⟨hp ▸ rfl, hp ▸ rfl, ?_⟩
    unfold Follows
    rw [← hv]
    exact completes c hc v hv.symm
  | _ => cases hf

theorem Follows.completes {c : Course} (h : x.Follows c) (hf : ∀ e, c.fate ≠ .failed e) :
    ∃ v, x.Completes c.place.field c.place.type c.place.path v c.fate c.members := by
  unfold Follows at h
  split at h
  · exact ⟨_, h⟩
  · exact absurd h.1 (hf _)

namespace Selects

variable {t : ObjectType} {sets : List SelectionSet} {members : List Course}

theorem of_itemOf (h : x.Selects t sets members) {c : Course} (hc : ItemOf members c) :
    (∃ s ∈ x.selected t sets, c.place.field = s.field ∧
      c.place.type.coreName = s.field.definition.type.coreName) ∧ x.Follows c := by
  induction hc with
  | member hc =>
    obtain ⟨s, hs, field, type⟩ := h.field _ hc
    exact ⟨⟨s, hs, field, type ▸ rfl⟩, h.follows _ hc⟩
  | @item l c _ hl hc ih =>
    obtain ⟨⟨s, hs, field, type⟩, follows⟩ := ih
    obtain ⟨v, completes⟩ := follows.completes (by simp [hl])
    rw [hl] at completes
    obtain ⟨hf, ht, hc⟩ := completes.of_list hc
    exact ⟨⟨s, hs, hf.trans field, ht.trans type⟩, hc⟩

/-- An object that a field holds, or a list of it. -/
theorem held (h : x.Selects t sets members) {c : Course} (hc : ItemOf members c)
    {u : ObjectType} {others : List SelectionSet} (hf : c.fate = .object u others) :
    others = c.place.field.sets ∧ x.schema.Has u ∧ x.Selects u others c.members ∧
      ∃ s ∈ x.selected t sets, c.place.field = s.field ∧
        x.schema.CanBe s.field.definition.type u := by
  obtain ⟨⟨s, hs, field, type⟩, follows⟩ := h.of_itemOf hc
  obtain ⟨v, completes⟩ := follows.completes (by simp [hf])
  rw [hf] at completes
  obtain ⟨hsets, has, ⟨d, hd, possible⟩, selects⟩ := completes.of_object
  refine ⟨hsets, has, selects, s, hs, field, d, ?_, possible⟩
  rwa [Schema.core?, type] at hd

end Selects

/-- What is known of all objects that an execution completes. -/
theorem Objects.selects {root : ObjectType} {courses : List Course}
    (follows : x.RootFollows root courses) (has : x.schema.Has root) {t : ObjectType}
    {sets : List SelectionSet} {members : List Course}
    (h : x.Objects root courses t sets members) :
    x.schema.Has t ∧ x.Selects t sets members := by
  induction h with
  | root => exact ⟨has, follows.selects⟩
  | held _ hc hf ih =>
    obtain ⟨-, has, selects, -⟩ := ih.2.held hc hf
    exact ⟨has, selects⟩

end Execution

end GraphQL
