import GraphQL.Proofs.Execution.Course
import GraphQL.Proofs.Number.Whole

/-!
Every way for the work of an execution to end has a course: completed values, lists, objects and
the fields of the operation, whatever the scheduler and whatever the resolvers do.
-/
namespace GraphQL

open Ast TypeSystem

variable {σ : Type}

theorem map_eq_of_forall₂ {α β γ : Type} {R : α → β → Prop} {f : β → γ} {g : α → γ}
    {as : List α} {bs : List β} (hR : ∀ a b, R a b → f b = g a) (h : List.Forall₂ R as bs) :
    bs.map f = as.map g := by
  induction h with
  | nil => rfl
  | cons hab _ ih => rw [List.map_cons, List.map_cons, hR _ _ hab, ih]

theorem exists_of_forall₂ {α β : Type} {R : α → β → Prop} {as : List α} {bs : List β}
    (h : List.Forall₂ R as bs) {b : β} (hb : b ∈ bs) : ∃ a ∈ as, R a b := by
  induction h with
  | nil => cases hb
  | cons hab _ ih =>
    rcases List.mem_cons.mp hb with rfl | hb
    · exact ⟨_, List.mem_cons_self, hab⟩
    · obtain ⟨a, ha, hR⟩ := ih hb
      exact ⟨a, List.mem_cons_of_mem _ ha, hR⟩

/-- Where each piece of work ends in a course, joined work ends in courses of all of them. -/
theorem Scheduler.courses (scheduler : Scheduler σ RecordedError Completion) {κ : Type}
    {R : κ → Course → Prop} {work : κ → Work σ RecordedError Completion} {items : List κ}
    (each : ∀ k ∈ items, ∀ c es, (work k).MayEnd c es →
      ∃ course, R k course ∧ course.completion = c ∧ es.Perm course.errors)
    {cs : List Completion} {es : List RecordedError}
    (h : (scheduler.join (items.map work)).MayEnd cs es) :
    ∃ courses, List.Forall₂ R items courses ∧ cs.mapM id = completions courses ∧
      es.Perm (errorsOf courses) := by
  obtain ⟨rs, hrs, rfl, he⟩ := (scheduler.interleaves _).ends h
  clear h
  have all : ∃ courses, List.Forall₂ R items courses ∧
      rs.map (·.1) = courses.map Course.completion ∧
      (rs.flatMap (·.2)).Perm (errorsOf courses) := by
    clear he
    induction items generalizing rs with
    | nil =>
      cases hrs
      exact ⟨[], .nil, rfl, .refl _⟩
    | cons k items ih =>
      obtain ⟨r, rest, hr, hrest, rfl⟩ := List.forall₂_cons_left_iff.mp hrs
      obtain ⟨course, hR, hc, hes⟩ := each k List.mem_cons_self r.1 r.2 hr
      obtain ⟨courses, hRs, hcs, hess⟩ :=
        ih (fun k hk => each k (List.mem_cons_of_mem _ hk)) rest hrest
      exact ⟨course :: courses, .cons hR hRs, by simp [hc, hcs], hes.append hess⟩
  obtain ⟨courses, hR, hc, hes⟩ := all
  exact ⟨courses, hR, by rw [hc, completions_eq], he.trans hes⟩

theorem FieldRef.fail_mayEnd {field : FieldRef} {path : ResponsePath} {problem : FieldProblem}
    {c : Completion} {es : List RecordedError}
    (h : (field.fail path problem : Work σ RecordedError Completion).MayEnd c es) :
    c = none ∧ es = [field.error path problem] := by
  obtain ⟨fs, rfl, hc, rfl⟩ := h
  exact ⟨hc, rfl⟩

theorem serializeScalar_ne_null {name : String} {value result : Json} (hv : value.isNull = false)
    (h : serializeScalar name value = .ok result) : result ≠ .null := by
  rintro rfl
  have whole (n : Option Int) : intResult n ≠ .ok .null := by
    intro ok
    obtain ⟨_, -, -, same⟩ := intResult_eq_ok.mp ok
    cases same
  have real (x : Option Binary64) : floatResult x ≠ .ok .null := by
    intro ok
    obtain ⟨_, -, same⟩ := floatResult_eq_ok.mp ok
    cases same
  unfold serializeScalar at h
  split at h
  · exact whole _ h
  split at h
  · exact real _ h
  all_goals grind [Json.isNull]

namespace Execution

variable {x : Execution σ}

theorem leaf_ne_null {name : String} {value result : Json} (hv : value.isNull = false)
    (h : x.leaf? name value = some (.ok result)) : result ≠ .null := by
  unfold leaf? at h
  split at h
  · rcases hs : serializeScalar name value with e | r <;> rw [hs] at h <;> cases h
    exact serializeScalar_ne_null hv hs
  · grind [Json.isNull]
  · simp at h
  · simp at h
  · cases h

theorem objectType_ok {abstract : TypeDefinition} {field : FieldRef} {answer : Option String}
    {t : ObjectType} (h : x.objectType abstract field answer = .ok t) :
    ∃ own, x.schema.type? own = some (.object t) ∧ x.schema.isPossible abstract t = true := by
  unfold objectType at h
  split at h
  · cases h
  · rename_i own
    split at h
    · rename_i u hu
      split at h
      · rename_i hp
        cases h
        exact ⟨own, hu, hp⟩
      · cases h
    · cases h
    · cases h

theorem Completes.null_of_complete {field : FieldRef} {type : TypeRef} {path : ResponsePath}
    {value : Json} {fate : Fate} {members : List Course}
    (h : x.Completes field type path value fate members)
    (hc : fate.complete (courseKeys members) (completions members) = some .null) :
    fate = .null ∧ value = .null ∧ members = [] := by
  induction h with
  | null => exact ⟨rfl, rfl, rfl⟩
  | nonNull _ hne ih => exact absurd (ih hc).1 hne
  | leaf hv hr => exact absurd (Option.some.inj hc) (leaf_ne_null hv hr)
  | list | object => simp [Fate.complete] at hc
  | _ => cases hc

/-- Works that end in courses of objects with the selected fields. -/
def CompletesObjects (x : Execution σ) (object : ObjectCompleter σ) : Prop :=
  ∀ ⦃type field path value c es⦄, (object type field path value).MayEnd c es →
    ∃ members, x.FieldsFollow type (field.nodes.filterMap (·.selectionSet)) path value members ∧
      c = objectOf members ∧ es.Perm (errorsOf members)

/-- The value has a fate that gives this completion and these errors. -/
def Comes (x : Execution σ) (field : FieldRef) (type : TypeRef) (path : ResponsePath)
    (value : Json) (c : Completion) (es : List RecordedError) : Prop :=
  ∃ fate members, x.Completes field type path value fate members ∧
    c = fate.complete (courseKeys members) (completions members) ∧
    es.Perm (fate.errors ++ errorsOf members)

theorem Comes.failed {field : FieldRef} {type : TypeRef} {path : ResponsePath} {value : Json}
    {problem : FieldProblem} {c : Completion} {es : List RecordedError}
    (h : x.Completes field type path value (.failed (field.error path problem)) [])
    (hw : (field.fail path problem : Work σ RecordedError Completion).MayEnd c es) :
    x.Comes field type path value c es := by
  obtain ⟨rfl, rfl⟩ := FieldRef.fail_mayEnd hw
  exact ⟨_, [], h, rfl, .refl _⟩

theorem comes_of_object {object : ObjectCompleter σ} (sound : x.CompletesObjects object)
    {field : FieldRef} {name : String} {path : ResponsePath} {value : Json} {type : ObjectType}
    {c : Completion} {es : List RecordedError} (hv : value.isNull = false)
    (ht : x.MayHaveType field name value (.ok type))
    (h : (object type field path value).MayEnd c es) :
    x.Comes field (.named name) path value c es := by
  obtain ⟨members, hm, rfl, he⟩ := sound h
  refine ⟨.object type _, members, .object hv ht rfl hm.places hm.resolved ?_ ?_, rfl, he⟩
  · intro c hc problem hp
    have hf := hm.follows c hc
    unfold Follows at hf
    rwa [hp] at hf
  · intro c hc v hv
    have hf := hm.follows c hc
    unfold Follows at hf
    rwa [hv] at hf

theorem comes_of_completeNamed {object : ObjectCompleter σ} (sound : x.CompletesObjects object)
    {field : FieldRef} {name : String} {path : ResponsePath} {value : Json}
    {c : Completion} {es : List RecordedError} (hv : value.isNull = false)
    (h : (x.completeNamed object field path name value).MayEnd c es) :
    x.Comes field (.named name) path value c es := by
  have leaf {result : Json} (hl : x.leaf? name value = some (.ok result))
      (hw : (Work.done (some result) : Work σ RecordedError Completion).MayEnd c es) :
      x.Comes field (.named name) path value c es := by
    obtain ⟨rfl, rfl⟩ := hw
    exact ⟨_, [], .leaf hv hl, rfl, .refl _⟩
  have abstract {t : TypeDefinition} (ht : x.schema.type? name = some t)
      (ha : t.isAbstract = true) {rest : Option String → Work σ RecordedError Completion}
      (found : ∀ answer u, x.objectType t field answer = .ok u →
        rest answer = object u field path value)
      (unfound : ∀ answer problem, x.objectType t field answer = .error problem →
        rest answer = field.fail path problem)
      (hw : ((x.runtimeTypeName t value).bind rest).MayEnd c es) :
      x.Comes field (.named name) path value c es := by
    obtain ⟨answer, first, rest, hn, hends, rfl⟩ := Work.mayEnd_bind.mp hw
    clear hw
    -- naming the type records no errors
    have quiet : first = [] := by
      unfold runtimeTypeName at hn
      split at hn
      · exact hn.2
      · obtain ⟨_, hu, -⟩ := Work.mayEnd_map.mp hn
        exact (Work.mayEnd_update.mp hu).1
    subst quiet
    have may : x.MayHaveType field name value _ := .abstract ht ha hn
    rcases ho : x.objectType t field answer with problem | type
    · rw [unfound answer problem ho] at hends
      exact .failed (.untyped hv (ho ▸ may)) hends
    · rw [found answer type ho] at hends
      exact comes_of_object sound hv (ho ▸ may) hends
  unfold completeNamed at h
  split at h
  case h_1 ht =>
    split at h
    case h_1 hs => exact leaf (by simp only [leaf?, ht, hs]; rfl) h
    case h_2 hs => exact .failed (.invalid hv (by simp only [leaf?, ht, hs]; rfl)) h
  case h_2 t ht =>
    split at h
    case isTrue hs => exact leaf (by simp only [leaf?, ht, hs, if_true]) h
    case isFalse hs =>
      exact .failed (.invalid hv (by simp only [leaf?, ht, hs, Bool.false_eq_true, if_false])) h
  case h_3 ht => exact comes_of_object sound hv (.object ht) h
  case h_4 ht => exact .failed (.invalid hv (by simp only [leaf?, ht])) h
  case h_5 ht => exact .failed (.invalid hv (by simp only [leaf?, ht])) h
  case h_6 t hs he ho hi ht =>
    exact abstract ht (by cases t <;> simp_all [TypeDefinition.isAbstract])
      (fun _ _ hk => by simp only [hk]) (fun _ _ hk => by simp only [hk]) h

/-- The items of a list have courses if each is completed to one. -/
theorem comes_of_items {object : ObjectCompleter σ} {field : FieldRef} {item : TypeRef}
    {path : ResponsePath} {items : List Json} {c : Completion} {es : List RecordedError}
    (each : ∀ {path value c es}, (x.completeValue object field item path value).MayEnd c es →
      x.Comes field item path value c es)
    (h : (x.completeValue object field (.list item) path (.array items)).MayEnd c es) :
    x.Comes field (.list item) path (.array items) c es := by
  obtain ⟨cs, hj, rfl⟩ := Work.mayEnd_map.mp h
  rw [List.mapIdx_eq_zipIdx_map] at hj
  let R : Json × Nat → Course → Prop := fun k course =>
    course.place = .item path field item k.2 ∧ course.resolved = .ok k.1 ∧
      x.Completes field item (Place.item path field item k.2).path k.1 course.fate course.members
  have one (k : Json × Nat) (c : Completion) (es : List RecordedError)
      (hw : ((x.completeValue object field item (Place.item path field item k.2).path k.1).map
        (·.absorb item)).MayEnd c es) :
      ∃ course, R k course ∧ course.completion = c ∧ es.Perm course.errors := by
    obtain ⟨a, hends, rfl⟩ := Work.mayEnd_map.mp hw
    obtain ⟨fate, members, hf, rfl, he⟩ := each hends
    refine ⟨⟨.item path field item k.2, .ok k.1, fate, members⟩, ⟨rfl, rfl, hf⟩, ?_, ?_⟩
    · rw [Course.completion_eq]
      rfl
    · rwa [Course.errors_eq]
  obtain ⟨members, hR, hc, he⟩ := x.scheduler.courses (R := R) (fun k _ => one k) hj
  refine ⟨.list, members, .list ?_ ?_ ?_, by rw [hc]; rfl, he⟩
  · rw [map_eq_of_forall₂ (fun k d (h : R k d) => h.1) hR, List.mapIdx_eq_zipIdx_map]
  · rw [map_eq_of_forall₂ (fun k d (h : R k d) => h.2.1) hR]
    conv_rhs => rw [← List.zipIdx_map_fst 0 items, List.map_map]
    rfl
  · intro d hd v hv
    obtain ⟨k, -, hp, hr, hf⟩ := exists_of_forall₂ hR hd
    rw [hr] at hv
    cases hv
    rw [hp]
    exact hf

theorem comes_of_completeValue {object : ObjectCompleter σ} (sound : x.CompletesObjects object)
    {field : FieldRef} {type : TypeRef} {path : ResponsePath} {value : Json}
    {c : Completion} {es : List RecordedError}
    (h : (x.completeValue object field type path value).MayEnd c es) :
    x.Comes field type path value c es := by
  induction type generalizing path value c es with
  | named name =>
    rw [completeValue] at h
    split at h
    · rename_i hn
      obtain ⟨rfl, rfl⟩ := h
      cases value <;> simp only [Json.isNull, Bool.false_eq_true] at hn
      exact ⟨.null, [], .null rfl, rfl, .refl _⟩
    · rename_i hn
      exact comes_of_completeNamed sound (by simpa using hn) h
  | list item ih =>
    have other (hv : value.isNull = false) (hi : value.items? = none)
        (hw : (field.fail path (.notIterable field.coordinate)).MayEnd c es) :
        x.Comes field (.list item) path value c es := .failed (.notIterable hv hi) hw
    cases value
    case null =>
      obtain ⟨rfl, rfl⟩ := h
      exact ⟨.null, [], .null rfl, rfl, .refl _⟩
    case array items => exact comes_of_items ih h
    all_goals exact other rfl rfl h
  | nonNull inner ih =>
    rw [completeValue] at h
    obtain ⟨a, first, rest, hi, hw, rfl⟩ := Work.mayEnd_bind.mp h
    obtain ⟨fate, members, hf, ha, he⟩ := ih hi
    split at hw
    · obtain ⟨rfl, rfl, rfl⟩ := hf.null_of_complete ha.symm
      obtain ⟨rfl, rfl⟩ := FieldRef.fail_mayEnd hw
      exact ⟨_, [], .nullNotAllowed hf, rfl, he.append_right _⟩
    · rename_i hne
      obtain ⟨rfl, rfl⟩ := hw
      refine ⟨fate, members, .nonNull hf ?_, ha, by simpa using he⟩
      rintro rfl
      exact hne ha

def FieldFollows (x : Execution σ) (path : ResponsePath) (source : Json) (s : SelectedField)
    (course : Course) : Prop :=
  course.place = s.place path ∧
    x.MayResolve course.place.field course.place.path source course.resolved ∧ x.Follows course

theorem follows_of_executeField {object : ObjectCompleter σ} (sound : x.CompletesObjects object)
    {s : SelectedField} {path : ResponsePath} {source : Json}
    {c : Completion} {es : List RecordedError}
    (h : (x.executeField object s.field (s.place path).path source).MayEnd c es) :
    ∃ course, x.FieldFollows path source s course ∧ course.completion = c ∧
      es.Perm course.errors := by
  obtain ⟨a, hb, rfl⟩ := Work.mayEnd_map.mp h
  obtain ⟨r, first, rest, hr, hw, rfl⟩ := Work.mayEnd_bind.mp hb
  -- resolving records no errors
  have quiet : first = [] := by
    unfold resolveField at hr
    dsimp only at hr
    split at hr
    · exact hr.2
    split at hr
    · exact hr.2
    split at hr
    · exact hr.2
    · obtain ⟨_, hl, -⟩ := Work.mayEnd_map.mp hr
      exact (Work.mayEnd_lift.mp hl).1
  subst quiet
  rcases r with problem | value
  · obtain ⟨rfl, rfl⟩ := FieldRef.fail_mayEnd hw
    refine ⟨⟨s.place path, .error problem, .failed (s.field.error (s.place path).path problem), []⟩,
      ⟨rfl, ⟨[], hr⟩, rfl, rfl⟩, ?_, ?_⟩
    · rw [Course.completion_eq]
      rfl
    · rw [Course.errors_eq]
      exact .refl _
  · obtain ⟨fate, members, hf, rfl, he⟩ := comes_of_completeValue sound hw
    refine ⟨⟨s.place path, .ok value, fate, members⟩, ⟨rfl, ⟨[], hr⟩, hf⟩, ?_, ?_⟩
    · rw [Course.completion_eq]
      rfl
    · rwa [Course.errors_eq]

theorem fieldWorks_defined (object : ObjectCompleter σ) (type : ObjectType) (source : Json)
    (fields : Entries (List Ast.Field)) (path : ResponsePath) :
    x.fieldWorks object type source fields path =
      (x.defined type fields).map fun s =>
        (s.key, x.executeField object s.field (s.place path).path source) := by
  unfold fieldWorks defined
  rw [List.mapIdx_eq_zipIdx_map, List.mapIdx_eq_zipIdx_map, List.filterMap_map, List.filterMap_map,
    List.map_filterMap]
  congr 1
  funext ⟨⟨key, nodes⟩, i⟩
  rcases nodes with - | ⟨first, rest⟩
  · rfl
  · simp only [Function.comp_apply, id_eq, List.head?_cons, Option.bind_eq_bind, Option.bind_some]
    rcases x.schema.field? (.object type) first.name.value with - | definition <;> rfl

theorem fieldWorks_eq (object : ObjectCompleter σ) (type : ObjectType) (source : Json)
    (sets : List SelectionSet) (path : ResponsePath) :
    x.fieldWorks object type source (x.collect type sets) path =
      (x.selected type sets).map fun s =>
        (s.key, x.executeField object s.field (s.place path).path source) :=
  x.fieldWorks_defined object type source (x.collect type sets) path

theorem fieldsFollow_of_joined {object : ObjectCompleter σ} (sound : x.CompletesObjects object)
    {type : ObjectType} {sets : List SelectionSet} {path : ResponsePath} {value : Json}
    {c : Completion} {es : List RecordedError}
    (h : (x.joined (x.fieldWorks object type value (x.collect type sets) path)).MayEnd c es) :
    ∃ members, x.FieldsFollow type sets path value members ∧ c = objectOf members ∧
      es.Perm (errorsOf members) := by
  rw [fieldWorks_eq] at h
  obtain ⟨cs, hj, rfl⟩ := Work.mayEnd_map.mp h
  rw [List.map_map] at hj
  obtain ⟨members, hR, hc, he⟩ := x.scheduler.courses (R := x.FieldFollows path value)
    (fun s _ c es hw => follows_of_executeField sound hw) hj
  have places : members.map Course.place = (x.selected type sets).map (SelectedField.place path) :=
    map_eq_of_forall₂ (fun s d (h : x.FieldFollows path value s d) => h.1) hR
  have keys : courseKeys members = (x.selected type sets).map (·.key) :=
    map_eq_of_forall₂ (fun s d (h : x.FieldFollows path value s d) => by rw [h.1]; rfl) hR
  refine ⟨members, ⟨places, fun d hd => ?_, fun d hd => ?_⟩, ?_, he⟩
  · obtain ⟨s, -, hs⟩ := exists_of_forall₂ hR hd
    exact hs.2.1
  · obtain ⟨s, -, hs⟩ := exists_of_forall₂ hR hd
    exact hs.2.2
  · rw [objectOf, hc, keys, List.map_map]
    rfl

theorem completeObject_sound (depth : Nat) : x.CompletesObjects (x.completeObject depth) := by
  induction depth with
  | zero => exact fun _ _ _ _ _ _ h => h.elim
  | succ depth ih =>
    intro type field path value c es h
    exact fieldsFollow_of_joined ih h

/-- Fields one after another have courses up to the first whose null travels up. -/
theorem upToNull_of_oneByOne {object : ObjectCompleter σ} (sound : x.CompletesObjects object)
    {fields : List SelectedField} {path : ResponsePath} {source : Json} {built : Entries Json}
    {c : Completion} {es : List RecordedError}
    (h : (oneByOne (fields.map fun s =>
      (s.key, x.executeField object s.field (s.place path).path source)) built).MayEnd c es) :
    ∃ courses, UpToNull (fields.map (SelectedField.place path)) courses ∧
      (∀ d ∈ courses, x.MayResolve d.place.field d.place.path source d.resolved ∧ x.Follows d) ∧
      c = ((completions courses).map fun values =>
        .object (built ++ (courseKeys courses).zip values)) ∧
      es.Perm (errorsOf courses) := by
  induction fields generalizing built c es with
  | nil =>
    obtain ⟨rfl, rfl⟩ := h
    exact ⟨[], trivial, by simp, by simp [completions], .refl _⟩
  | cons s fields ih =>
    obtain ⟨a, first, rest, hf, hw, rfl⟩ := Work.mayEnd_bind.mp h
    obtain ⟨course, ⟨hp, hr, hfollows⟩, rfl, he⟩ := follows_of_executeField sound hf
    rcases hc : course.completion with - | v
    · rw [hc] at hw
      obtain ⟨rfl, rfl⟩ := hw
      refine ⟨[course], ⟨hp, by simp [hc]⟩, by simpa using ⟨hr, hfollows⟩, ?_, ?_⟩
      · simp [completions, hc]
      · simpa [errorsOf] using he
    · rw [hc] at hw
      obtain ⟨courses, hup, hall, rfl, hes⟩ := ih hw
      refine ⟨course :: courses, ⟨hp, by simpa [hc] using hup⟩,
        by simpa using ⟨⟨hr, hfollows⟩, hall⟩, ?_, he.append hes⟩
      have key : course.place.key = s.key := by rw [hp]; rfl
      rcases hcs : completions courses with - | vs
      · simp [completions, hcs]
      · simp [completions, hc, hcs, courseKeys, key]

/-- The fields of the operation, however they end. -/
theorem rootFollows_of_completeRoot {depth : Nat} {root : ObjectType} {c : Completion}
    {es : List RecordedError} (h : (x.completeRoot depth root).MayEnd c es) :
    ∃ courses, x.RootFollows root courses ∧ c = objectOf courses ∧
      es.Perm (errorsOf courses) := by
  unfold completeRoot at h
  dsimp only at h
  split at h
  · rename_i hop
    rw [fieldWorks_eq] at h
    obtain ⟨courses, hup, hall, hc, he⟩ := upToNull_of_oneByOne (completeObject_sound depth) h
    refine ⟨courses, ⟨?_, fun d hd => (hall d hd).1, fun d hd => (hall d hd).2⟩, ?_, he⟩
    · simpa only [hop] using hup
    · rw [hc]
      rfl
  · rename_i hop
    obtain ⟨courses, hm, hc, he⟩ := fieldsFollow_of_joined (completeObject_sound depth) h
    refine ⟨courses, ⟨?_, hm.resolved, hm.follows⟩, hc, he⟩
    dsimp only
    split
    · exact absurd ‹_› hop
    · exact hm.places

end Execution

end GraphQL
