import GraphQL.Proofs.Execution.Scheduling

/-!
The fields of an object one after another and side by side. Main statement: where each invocation of
a resolver has its answer, both ways come to the same completion; one after another, the errors are
those of the fields up to the first whose null travels up.
-/
namespace GraphQL

open Ast TypeSystem

variable {σ : Type}

namespace Work

variable {ε α β : Type} {w : Work σ ε α} {a : α} {es fs : List ε}

theorem Gives.perm (h : w.Gives (some (a, es))) (hp : es.Perm fs) : w.Gives (some (a, fs)) := by
  refine ⟨fun b gs hw => ?_, fun hs => absurd (h.stops hs) (by simp)⟩
  obtain ⟨_, he, hq⟩ := h.ends b gs hw
  cases he
  exact ⟨fs, rfl, hq.trans hp⟩

theorem Gives.run (h : w.Gives (some (a, es))) (s : σ) :
    ∃ fs t, w.run s = some (a, fs, t) ∧ fs.Perm es := by
  rcases hr : w.run s with - | ⟨b, fs, t⟩
  · cases h.stops (mayStop_of_run hr)
  · obtain ⟨_, he, hp⟩ := h.ends b fs (mayEnd_of_run hr)
    cases he
    exact ⟨fs, t, rfl, hp⟩

theorem Gives.andThen (h : w.Gives (some (a, es))) {f : α → Work σ ε β} {b : β}
    (hf : (f a).Gives (some (b, fs))) : (w.bind f).Gives (some (b, es ++ fs)) := by
  constructor
  · intro c gs hw
    obtain ⟨a', first, rest, ha, hc, rfl⟩ := mayEnd_bind.mp hw
    obtain ⟨_, he, hp⟩ := h.ends a' first ha
    cases he
    obtain ⟨_, he, hq⟩ := hf.ends c rest hc
    cases he
    exact ⟨_, rfl, hp.append hq⟩
  · intro hs
    rcases mayStop_bind.mp hs with hs | ⟨a', first, ha, hs⟩
    · cases h.stops hs
    · obtain ⟨_, he, -⟩ := h.ends a' first ha
      cases he
      cases hf.stops hs

end Work

/-- The courses up to the first that is a null that travels up. -/
def throughNull : List Course → List Course
  | [] => []
  | c :: rest => if c.completion.isNone then [c] else c :: throughNull rest

theorem throughNull_isPrefix (courses : List Course) : throughNull courses <+: courses := by
  induction courses with
  | nil => exact List.prefix_rfl
  | cons c rest ih =>
    rw [throughNull]
    split
    · exact ⟨rest, rfl⟩
    · exact List.cons_prefix_cons.mpr ⟨rfl, ih⟩

theorem throughNull_eq_self {courses : List Course} (h : ∀ c ∈ courses, c.completion ≠ none) :
    throughNull courses = courses := by
  induction courses with
  | nil => rfl
  | cons c rest ih =>
    rw [List.forall_mem_cons] at h
    rw [throughNull, if_neg (by simpa using h.1), ih h.2]

theorem errorsOf_isPrefix {courses others : List Course} (h : courses <+: others) :
    errorsOf courses <+: errorsOf others := by
  obtain ⟨rest, rfl⟩ := h
  rw [errorsOf_eq, errorsOf_eq, List.flatMap_append]
  exact List.prefix_append _ _

namespace Execution

variable {x : Execution σ} {answers : Answers} {object : ObjectCompleter σ}
variable {path : ResponsePath} {source : Json}

/-- The field has this course in every run. -/
structure Always (x : Execution σ) (object : ObjectCompleter σ) (path : ResponsePath)
    (source : Json) (s : SelectedField) (course : Course) : Prop where
  follows : x.FieldFollows path source s course
  gives : (x.executeField object s.field (s.place path).path source).Gives
    (some (course.completion, course.errors))

/-- A field that may end has one course in every run. -/
theorem exists_always (follow : x.resolvers.Follow answers) (depth : Nat) {s : SelectedField}
    {c : Completion} {es : List RecordedError}
    (h : (x.executeField (x.completeObject depth) s.field (s.place path).path source).MayEnd c es) :
    ∃ course, x.Always (x.completeObject depth) path source s course ∧ course.completion = c ∧
      es.Perm course.errors := by
  obtain ⟨course, follows, hc, hp⟩ := follows_of_executeField (completeObject_sound depth) h
  have congruence := Work.Agree.congruence x.scheduler x.scheduler
  have field := executeField_congr congruence (follow.relate follow)
    (completeObject_congr congruence (follow.relate follow) depth) s.field (s.place path).path
    source
  obtain ⟨r, gives, -⟩ := field
  obtain ⟨fs, rfl, hq⟩ := gives.ends c es h
  refine ⟨course, ⟨follows, ?_⟩, hc, hp⟩
  rw [hc]
  exact gives.perm (hq.symm.trans hp)

/-- One after another the fields come to the object of all, unless one is a null that travels up;
the errors are those recorded until then. -/
theorem oneByOne_gives {fields : List SelectedField} {courses : List Course}
    (h : List.Forall₂ (x.Always object path source) fields courses) (built : Entries Json) :
    (oneByOne (fields.map fun s =>
        (s.key, x.executeField object s.field (s.place path).path source)) built).Gives
      (some ((completions courses).map fun values =>
        .object (built ++ (courseKeys courses).zip values), errorsOf (throughNull courses))) := by
  induction h generalizing built with
  | nil =>
    have done := Work.gives_done (σ := σ) (ε := RecordedError) (some (Json.object built))
    simpa [oneByOne, completions, throughNull, errorsOf] using done
  | @cons s course fields courses first _ ih =>
    have key : course.place.key = s.key := by rw [first.follows.1]; rfl
    have gives := first.gives
    rw [List.map_cons, oneByOne, throughNull]
    rcases hc : course.completion with - | v
    · have values : completions (course :: courses) = none := by simp [completions, hc]
      rw [hc] at gives
      rw [values]
      exact gives.andThen (Work.gives_done none)
    · have values : (completions (course :: courses)).map (fun values =>
            Json.object (built ++ (courseKeys (course :: courses)).zip values)) =
          (completions courses).map fun values =>
            .object (built ++ [(s.key, v)] ++ (courseKeys courses).zip values) := by
        rcases hcs : completions courses with - | vs <;>
          simp [completions, hc, hcs, courseKeys, key]
      rw [hc] at gives
      rw [values]
      exact gives.andThen (ih (built ++ [(s.key, v)]))

/-- Fields side by side that come to an end have courses, which they have in every run. -/
theorem exists_always_of_joined (follow : x.resolvers.Follow answers) (depth : Nat)
    {fields : List SelectedField} {c : Completion} {es : List RecordedError}
    (h : (x.joined (fields.map fun s =>
      (s.key, x.executeField (x.completeObject depth) s.field (s.place path).path source))).MayEnd
        c es) :
    ∃ courses, List.Forall₂ (x.Always (x.completeObject depth) path source) fields courses ∧
      c = objectOf courses ∧ es.Perm (errorsOf courses) := by
  obtain ⟨cs, hj, rfl⟩ := Work.mayEnd_map.mp h
  rw [List.map_map] at hj
  obtain ⟨courses, always, hc, hp⟩ := x.scheduler.courses
    (fun s _ c es hw => exists_always follow depth hw) hj
  have keys : courseKeys courses = fields.map (·.key) :=
    map_eq_of_forall₂ (fun s c (h : x.Always _ path source s c) => by rw [h.follows.1]; rfl) always
  refine ⟨courses, always, ?_, hp⟩
  rw [objectOf, hc, keys, List.map_map]
  rfl

end Execution

/-- Where each invocation of a resolver has its answer, the fields of a collected map, in which no
response key stands twice, come one after another to the same completion as side by side, whatever
the scheduler and the states. In the order of the response, the errors of the former are the first
of the latter; they are all of them if no field is a null that travels up. -/
theorem oneByOne_joined {x : Execution σ} {answers : Answers}
    (follow : x.resolvers.Follow answers) (depth : Nat) (type : ObjectType) (source : Json)
    {fields : Entries (List Ast.Field)} (keys : fields.keys.Nodup) (path : ResponsePath)
    (s t : σ) {c : Completion} {es' : List RecordedError} {t' : σ}
    (run : (x.joined (x.fieldWorks (x.completeObject depth) type source fields path)).run t =
      some (c, es', t')) :
    ∃ es s', (Execution.oneByOne
        (x.fieldWorks (x.completeObject depth) type source fields path) []).run s =
          some (c, es, s') ∧
      inResponseOrder es <+: inResponseOrder es' ∧
      ((∀ entry ∈ x.fieldWorks (x.completeObject depth) type source fields path,
          ∀ fs u, entry.2.run s ≠ some (none, fs, u)) →
        inResponseOrder es = inResponseOrder es') := by
  rw [Execution.fieldWorks_defined] at run ⊢
  obtain ⟨courses, always, rfl, perm⟩ :=
    Execution.exists_always_of_joined follow depth (Work.mayEnd_of_run run)
  obtain ⟨es, s', serial, perm'⟩ := (Execution.oneByOne_gives always []).run s
  have places : courses.map Course.place =
      (x.defined type fields).map (SelectedField.place path) :=
    map_eq_of_forall₂ (fun f c (h : x.Always _ path source f c) => h.follows.1) always
  have siblings : Siblings path (courses.map Course.place) :=
    places ▸ Execution.siblings_defined path type keys
  have regular : ∀ c ∈ courses, c.Regular := fun c hc => by
    obtain ⟨_, -, field⟩ := exists_of_forall₂ always hc
    exact field.follows.2.2.regular
  have first := throughNull_isPrefix courses
  have serialOrder := inResponseOrder_errorsOf (siblings.sublist (first.map Course.place).sublist)
    (fun c hc => regular c (first.subset hc)) perm'
  rw [inResponseOrder_errorsOf siblings regular perm]
  refine ⟨es, s', serial, ?_, fun none_travels => ?_⟩
  · rw [serialOrder]
    exact (errorsOf_isPrefix first).map _
  rw [serialOrder, throughNull_eq_self]
  intro c hc travels
  obtain ⟨f, hf, field⟩ := exists_of_forall₂ always hc
  obtain ⟨fs, u, run, -⟩ := field.gives.run s
  rw [travels] at run
  exact none_travels _ (List.mem_map_of_mem hf) fs u run

namespace Count

/-- `a: count b: count`, collected. -/
def twice : Entries (List Ast.Field) :=
  [("a", [{ aliasName := some ⟨"a", none⟩, name := ⟨"count", none⟩ }]),
    ("b", [{ aliasName := some ⟨"b", none⟩, name := ⟨"count", none⟩ }])]

/-- An execution on a count that is null; nothing is registered. -/
def execution : Execution Unit where
  schema := schema
  fragments := []
  operation := ⟨.query, none, [], [], ⟨[], none⟩, none⟩
  vars := []
  rootValue := .object [("count", .null)]
  resolvers := {}
  scheduler := .rounds

def query : ObjectType := ⟨position, none, "Query", [], [], [field]⟩

def works : List (String × Work Unit RecordedError Completion) :=
  execution.fieldWorks (execution.completeObject 0) query execution.rootValue twice {}

end Count

theorem oneByOne_joined_counts :
    ∃ es', (Count.execution.joined Count.works).run () = some (none, es', ()) ∧ es'.length = 2 ∧
      ∃ es s', (Execution.oneByOne Count.works []).run () = some (none, es, s') ∧
        inResponseOrder es <+: inResponseOrder es' ∧
        ((∀ entry ∈ Count.works, ∀ fs u, entry.2.run () ≠ some (none, fs, u)) →
          inResponseOrder es = inResponseOrder es') := by
  refine ⟨_, rfl, rfl, ?_⟩
  exact oneByOne_joined Count.follow_lookups 0 Count.query Count.execution.rootValue
    (show Count.twice.keys.Nodup by decide) {} () () rfl

end GraphQL
