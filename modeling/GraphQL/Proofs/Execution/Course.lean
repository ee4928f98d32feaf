import GraphQL.Execution.Response
import GraphQL.Proofs.Execution.WorkEnds

/-!
The course of an execution: at every position of the response the value that was resolved for it,
what became of that value, and the courses of its members. The rules of `Completes` say how a value
may be completed; the data and the errors of a response are read off the course.
-/
namespace GraphQL

open Ast TypeSystem

/-- A position of the response below its root: a field of an object or an item of a list, with its
declared type. -/
structure Place where
  parent : ResponsePath
  step : PathElement
  ordinal : Nat
  field : FieldRef
  type : TypeRef

namespace Place

def path (p : Place) : ResponsePath := p.parent.child p.step p.ordinal

def key (p : Place) : String :=
  match p.step with
  | .key name => name
  | .index _ => ""

/-- An item of the list that a field holds at a path. -/
def item (path : ResponsePath) (field : FieldRef) (type : TypeRef) (i : Nat) : Place :=
  ⟨path, .index i, i, field, type⟩

end Place

def FieldRef.sets (field : FieldRef) : List SelectionSet :=
  field.nodes.filterMap (·.selectionSet)

/-- A field that an object has, with the place of its response key among all that are collected. -/
structure SelectedField where
  ordinal : Nat
  key : String
  field : FieldRef

def SelectedField.place (path : ResponsePath) (s : SelectedField) : Place :=
  ⟨path, .key s.key, s.ordinal, s.field, s.field.definition.type⟩

inductive Fate where
  /-- A null travels up from here. -/
  | failed (e : RecordedError)
  | null
  | leaf (value : Json)
  | list
  | object (type : ObjectType) (sets : List SelectionSet)

/-- The members of a list are its items, those of an object its fields. -/
inductive Course where
  | mk (place : Place) (resolved : Except FieldProblem Json) (fate : Fate) (members : List Course)

namespace Course

def place : Course → Place
  | mk place _ _ _ => place

def resolved : Course → Except FieldProblem Json
  | mk _ resolved _ _ => resolved

def fate : Course → Fate
  | mk _ _ fate _ => fate

def members : Course → List Course
  | mk _ _ _ members => members

end Course

/-- The completion of a value from those of its members. -/
def Fate.complete (keys : List String) (values : Option (List Json)) : Fate → Completion
  | failed _ => none
  | null => some .null
  | leaf value => some value
  | list => values.map .array
  | object _ _ => values.map fun values => .object (keys.zip values)

def Fate.errors : Fate → List RecordedError
  | failed e => [e]
  | _ => []

def courseKeys (courses : List Course) : List String := courses.map (·.place.key)

mutual

def Course.completion : Course → Completion
  | ⟨place, _, fate, members⟩ =>
    Completion.absorb place.type (fate.complete (courseKeys members) (completions members))

/-- All values, unless one of them is a null that travels up. -/
def completions : List Course → Option (List Json)
  | [] => some []
  | c :: rest =>
    match c.completion, completions rest with
    | some v, some vs => some (v :: vs)
    | _, _ => none

end

mutual

/-- The errors in the order of the response. -/
def Course.errors : Course → List RecordedError
  | ⟨_, _, fate, members⟩ => fate.errors ++ errorsOf members

def errorsOf : List Course → List RecordedError
  | [] => []
  | c :: rest => c.errors ++ errorsOf rest

end

def objectOf (courses : List Course) : Completion :=
  (completions courses).map fun values => .object ((courseKeys courses).zip values)

namespace Course

def raw (c : Course) : Completion := c.fate.complete (courseKeys c.members) (completions c.members)

theorem completion_eq (c : Course) : c.completion = c.raw.absorb c.place.type := by
  cases c
  rw [completion]
  rfl

theorem errors_eq (c : Course) : c.errors = c.fate.errors ++ errorsOf c.members := by
  cases c
  rw [errors]
  rfl

/-- Induction on courses, the members of each first. -/
@[elab_as_elim]
theorem induction {motive : Course → Prop}
    (step : ∀ c : Course, (∀ d ∈ c.members, motive d) → motive c) (c : Course) : motive c := by
  refine Course.rec (motive_1 := motive) (motive_2 := fun cs => ∀ d ∈ cs, motive d)
    (fun place resolved fate members ih => step ⟨place, resolved, fate, members⟩ ih)
    (by simp) (fun d ds hd hds => ?_) c
  simpa using ⟨hd, hds⟩

end Course

theorem completions_eq (courses : List Course) :
    completions courses = (courses.map Course.completion).mapM id := by
  induction courses with
  | nil => rfl
  | cons c rest ih =>
    rw [completions, ih]
    cases hc : c.completion <;> cases hr : (rest.map Course.completion).mapM id <;>
      simp [hc, hr]

theorem completions_eq_some {courses : List Course} {values : List Json} :
    completions courses = some values ↔
      List.Forall₂ (fun c v => c.completion = some v) courses values := by
  induction courses generalizing values with
  | nil => simp [completions, eq_comm]
  | cons c rest ih =>
    rw [completions, List.forall₂_cons_left_iff]
    constructor
    · intro h
      split at h
      · rename_i v vs hv hvs
        cases h
        exact ⟨v, vs, hv, ih.mp hvs, rfl⟩
      · cases h
    · rintro ⟨v, vs, hv, hvs, rfl⟩
      simp [hv, ih.mpr hvs]

theorem completions_eq_none {courses : List Course} (h : completions courses = none) :
    ∃ c ∈ courses, c.completion = none := by
  induction courses with
  | nil => cases h
  | cons c rest ih =>
    rcases hc : c.completion with - | v
    · exact ⟨c, List.mem_cons_self, hc⟩
    · rcases hr : completions rest with - | vs
      · obtain ⟨d, hd, hn⟩ := ih hr
        exact ⟨d, List.mem_cons_of_mem _ hd, hn⟩
      · simp [completions, hc, hr] at h

theorem completions_ne_none {courses : List Course} {values : List Json}
    (h : completions courses = some values) {c : Course} (hc : c ∈ courses) :
    ∃ v, c.completion = some v := by
  obtain ⟨i, hi, rfl⟩ := List.mem_iff_getElem.mp hc
  have all := completions_eq_some.mp h
  exact ⟨_, (List.forall₂_iff_get.mp all).2 i hi (all.length_eq ▸ hi)⟩

theorem keys_of_objectOf {courses : List Course} {entries : Entries Json}
    (h : objectOf courses = some (.object entries)) : entries.keys = courseKeys courses := by
  obtain ⟨values, hv, he⟩ := Option.map_eq_some_iff.mp h
  cases he
  refine List.map_fst_zip (Nat.le_of_eq ?_)
  simpa [courseKeys] using (completions_eq_some.mp hv).length_eq

theorem errorsOf_eq (courses : List Course) : errorsOf courses = courses.flatMap Course.errors := by
  induction courses with
  | nil => rfl
  | cons c rest ih => rw [errorsOf, ih, List.flatMap_cons]

variable {σ : Type}

namespace Execution

variable (x : Execution σ)

def defined (type : ObjectType) (fields : Entries (List Ast.Field)) : List SelectedField :=
  (fields.mapIdx fun i (key, nodes) => do
    let first ← nodes.head?
    let definition ← x.schema.field? (.object type) first.name.value
    return ⟨i, key, type, definition, nodes⟩).filterMap id

/-- The fields that selection sets ask of an object type and that the type has. -/
def selected (type : ObjectType) (sets : List SelectionSet) : List SelectedField :=
  ((x.collect type sets).mapIdx fun i (key, nodes) => do
    let first ← nodes.head?
    let definition ← x.schema.field? (.object type) first.name.value
    return ⟨i, key, type, definition, nodes⟩).filterMap id

def MayResolve (field : FieldRef) (path : ResponsePath) (source : Json)
    (r : Except FieldProblem Json) : Prop :=
  ∃ es, (x.resolveField field path source).MayEnd r es

/-- How a value that is not null is completed at a scalar or enum type, and at what is no output
type at all. -/
def leaf? (name : String) (value : Json) : Option (Except FieldProblem Json) :=
  match x.schema.type? name with
  | some (.scalar _) => some ((serializeScalar name value).mapError (.invalidScalar · value))
  | some (.enum t) =>
    if value.string?.any fun s => t.values.any (·.name = s) then some (.ok value)
    else some (.error (.invalidEnum name value))
  | some (.inputObject _) | none => some (.error (.unknownOutputType name))
  | _ => none

/-- The object type that a value may be found to have at an object, interface or union type. -/
inductive MayHaveType (field : FieldRef) (name : String) (value : Json) :
    Except FieldProblem ObjectType → Prop where
  | object {t : ObjectType} : x.schema.type? name = some (.object t) →
      MayHaveType field name value (.ok t)
  | abstract {t : TypeDefinition} {answer : Option String} {es : List RecordedError} :
      x.schema.type? name = some t → t.isAbstract = true →
      (x.runtimeTypeName t value).MayEnd answer es →
      MayHaveType field name value (x.objectType t field answer)

/-- `x.Completes field type path value fate members`: the value of the field, which lands at the
path with the declared type, may meet this fate. -/
inductive Completes : FieldRef → TypeRef → ResponsePath → Json → Fate → List Course → Prop where
  | null {field : FieldRef} {type : TypeRef} {path : ResponsePath} :
      type.isNonNull = false → Completes field type path .null .null []
  | nonNull {field : FieldRef} {inner : TypeRef} {path : ResponsePath} {value : Json}
      {fate : Fate} {members : List Course} :
      Completes field inner path value fate members → fate ≠ .null →
      Completes field (.nonNull inner) path value fate members
  | nullNotAllowed {field : FieldRef} {inner : TypeRef} {path : ResponsePath} {value : Json} :
      Completes field inner path value .null [] →
      Completes field (.nonNull inner) path value
        (.failed (field.error path (.nullNotAllowed field.coordinate))) []
  | notIterable {field : FieldRef} {item : TypeRef} {path : ResponsePath} {value : Json} :
      value.isNull = false → value.items? = none →
      Completes field (.list item) path value
        (.failed (field.error path (.notIterable field.coordinate))) []
  | list {field : FieldRef} {item : TypeRef} {path : ResponsePath} {values : List Json}
      {members : List Course} :
      members.map Course.place = (values.mapIdx fun i _ => Place.item path field item i) →
      members.map Course.resolved = values.map .ok →
      (∀ c ∈ members, ∀ v, c.resolved = .ok v →
        Completes c.place.field c.place.type c.place.path v c.fate c.members) →
      Completes field (.list item) path (.array values) .list members
  | leaf {field : FieldRef} {name : String} {path : ResponsePath} {value result : Json} :
      value.isNull = false → x.leaf? name value = some (.ok result) →
      Completes field (.named name) path value (.leaf result) []
  | invalid {field : FieldRef} {name : String} {path : ResponsePath} {value : Json}
      {problem : FieldProblem} :
      value.isNull = false → x.leaf? name value = some (.error problem) →
      Completes field (.named name) path value (.failed (field.error path problem)) []
  | untyped {field : FieldRef} {name : String} {path : ResponsePath} {value : Json}
      {problem : FieldProblem} :
      value.isNull = false → x.MayHaveType field name value (.error problem) →
      Completes field (.named name) path value (.failed (field.error path problem)) []
  | object {field : FieldRef} {name : String} {path : ResponsePath} {value : Json}
      {type : ObjectType} {sets : List SelectionSet} {members : List Course} :
      value.isNull = false → x.MayHaveType field name value (.ok type) →
      sets = field.nodes.filterMap (·.selectionSet) →
      members.map Course.place = (x.selected type sets).map (SelectedField.place path) →
      (∀ c ∈ members, x.MayResolve c.place.field c.place.path value c.resolved) →
      (∀ c ∈ members, ∀ problem, c.resolved = .error problem →
        c.fate = .failed (c.place.field.error c.place.path problem) ∧ c.members = []) →
      (∀ c ∈ members, ∀ v, c.resolved = .ok v →
        Completes c.place.field c.place.type c.place.path v c.fate c.members) →
      Completes field (.named name) path value (.object type sets) members

/-- A place whose resolution fails has its error; else the resolved value is completed. -/
def Follows (c : Course) : Prop :=
  match c.resolved with
  | .ok value => x.Completes c.place.field c.place.type c.place.path value c.fate c.members
  | .error problem => c.fate = .failed (c.place.field.error c.place.path problem) ∧ c.members = []

structure FieldsFollow (type : ObjectType) (sets : List SelectionSet) (path : ResponsePath)
    (value : Json) (members : List Course) : Prop where
  places : members.map Course.place = (x.selected type sets).map (SelectedField.place path)
  resolved : ∀ c ∈ members, x.MayResolve c.place.field c.place.path value c.resolved
  follows : ∀ c ∈ members, x.Follows c

/-- Fields one after another, up to the first whose null travels up. -/
def UpToNull : List Place → List Course → Prop
  | [], [] => True
  | p :: places, c :: rest =>
    c.place = p ∧ if c.completion.isNone then rest = [] else UpToNull places rest
  | _, _ => False

structure RootFollows (root : ObjectType) (courses : List Course) : Prop where
  places :
    let places := (x.selected root [x.operation.selectionSet]).map (SelectedField.place {})
    match x.operation.operation with
    | .mutation => UpToNull places courses
    | _ => courses.map Course.place = places
  resolved : ∀ c ∈ courses, x.MayResolve c.place.field c.place.path x.rootValue c.resolved
  follows : ∀ c ∈ courses, x.Follows c

/-- The courses of the root fields are one way for an execution to give this response. -/
structure Explains (root : ObjectType) (courses : List Course) (response : Response) : Prop where
  root : x.RootFollows root courses
  data : response.data = objectOf courses
  errors : response.errors = (errorsOf courses).map (·.error)

end Execution

end GraphQL
