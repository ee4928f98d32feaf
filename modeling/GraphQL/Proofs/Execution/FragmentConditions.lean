import GraphQL.Proofs.Execution.KeysKept
import GraphQL.Proofs.Execution.Simulation
import GraphQL.Proofs.Execution.WalkOfCollection

/-!
Fragments on a type, the object types possible for it, and the object types that values of it are
taken for. Main statement: collecting fields for an object type goes into the fragments on just
those types that it is possible for; these are the types that it is listed for, and among interfaces
and unions those whose values may say that they are of it.
-/
namespace GraphQL

open Ast TypeSystem

namespace SelectionScope

variable {scope : SelectionScope}

/-- A fragment on a type applies to the object types that are possible for the type. -/
theorem applies_iff (named : NamesOwn scope.schema.types) {object : ObjectType}
    (has : scope.schema.Has object) (runtime : scope.runtimeType = .object object)
    {condition : NamedType} {type : TypeDefinition}
    (found : scope.schema.type? condition.name.value = some type) :
    scope.applies condition = true ↔ scope.schema.isPossible type object = true := by
  constructor
  · intro applies
    obtain ⟨_, same, possible⟩ := isPossible_of_applies named has runtime applies
    rw [found] at same
    exact Option.some.inj same ▸ possible
  · intro possible
    unfold applies
    rw [found, runtime]
    apply Bool.or_eq_true_iff.mpr
    cases type with
    | object t => exact .inl possible
    | interface t => exact .inr possible
    | union t => exact .inr possible
    | _ => cases possible

section

variable {selections : List Selection} {site : Site} {s : Selection} {k : Nat}

theorem Reachable.way_ne_nil (h : scope.Reachable selections site s) : site.way ≠ [] := by
  cases h <;> simp [Site.member]

theorem Reachable.entered (h : scope.Reachable selections (site.member k) s)
    (below : site.way ≠ []) :
    ∃ t inner, scope.Reachable selections site t ∧ scope.entered? t = some inner := by
  generalize hm : site.member k = place at h
  cases h with
  | given =>
    obtain ⟨rfl, -⟩ := Site.member_inj.mp hm
    exact absurd rfl below
  | enter reached enters =>
    obtain ⟨rfl, -⟩ := Site.member_inj.mp hm
    exact ⟨_, _, reached, enters⟩
  | follow =>
    obtain ⟨rfl, -⟩ := Site.member_inj.mp hm
    exact absurd rfl below

theorem Reachable.followed {name : String}
    (h : scope.Reachable selections (Site.member ⟨some name, []⟩ k) s) :
    ∃ place t f, scope.Reachable selections place t ∧ scope.followed? t = some (name, f) := by
  generalize hm : Site.member ⟨some name, []⟩ k = place at h
  cases h with
  | given => cases (Site.member_inj.mp hm).1
  | enter reached =>
    obtain ⟨rfl, -⟩ := Site.member_inj.mp hm
    exact absurd rfl reached.way_ne_nil
  | follow reached follows =>
    obtain ⟨same, -⟩ := Site.member_inj.mp hm
    cases same
    exact ⟨_, _, _, reached, follows⟩

end

/-- A tour goes into those fragments on the type of a name that it comes to and that are included,
if the condition holds, and into none of them if it does not. -/
structure GoesInto (scope : SelectionScope) (tour : List (Site × Selection)) (name : String)
    (condition : Prop) : Prop where
  inline : ∀ site f type, (site, .inlineFragment f) ∈ tour →
    isIncluded f.directives scope.vars = true → f.typeCondition = some type →
    type.name.value = name → ∀ s k, (s, k) ∈ f.selectionSet.selections.zipIdx →
      ((site.member k, s) ∈ tour ↔ condition)
  spread : ∀ site t f, (site, .spread t) ∈ tour → isIncluded t.directives scope.vars = true →
    scope.fragments.get? t.name.value = some f → f.typeCondition.name.value = name →
    ∀ s k, (s, k) ∈ f.selectionSet.selections.zipIdx →
      ((Site.member ⟨some t.name.value, []⟩ k, s) ∈ tour ↔ condition)

theorem goesInto_of_applies {sets : List SelectionSet} {tour : List (Site × Selection)}
    (tours : scope.Tours sets false tour) {name : String} {condition : Prop}
    (applies : ∀ type : NamedType, type.name.value = name →
      (scope.applies type = true ↔ condition)) : scope.GoesInto tour name condition := by
  constructor
  case inline =>
    intro site f type passed included typed named s k member
    rw [← applies type named, tours.mem_iff]
    have reached := tours.mem_iff.mp passed
    constructor
    · intro within
      obtain ⟨t, inner, reached', enters⟩ := within.entered reached.way_ne_nil
      -- only one selection stands at the site
      obtain rfl : t = .inlineFragment f := congrArg Prod.snd
        (List.inj_on_of_nodup_map tours.nodup (tours.mem_iff.mpr reached') passed rfl)
      obtain ⟨_, same, ⟨-, all⟩, -⟩ := entered?_eq_some.mp enters
      cases same
      rwa [typed] at all
    · intro holds
      have all : f.typeCondition.all scope.applies = true := by rwa [typed]
      exact .enter reached (entered?_eq_some.mpr ⟨f, rfl, ⟨included, all⟩, rfl⟩) member
  case spread =>
    intro site t f passed included found named s k member
    rw [← applies f.typeCondition named, tours.mem_iff]
    constructor
    · intro within
      obtain ⟨_, _, g, -, follows⟩ := within.followed
      obtain ⟨_, -, -, -, found', holds⟩ := followed?_eq_some.mp follows
      rw [found] at found'
      cases found'
      exact holds
    · intro holds
      have follows := followed?_eq_some.mpr ⟨t, rfl, rfl, included, found, holds⟩
      exact .follow (tours.mem_iff.mp passed) follows member

end SelectionScope

namespace Execution

variable {σ : Type} {x : Execution σ}

section

variable {object : ObjectType} {type : TypeDefinition} {field : FieldRef}

theorem objectType_of_name (found : x.schema.type? object.name = some (.object object)) :
    x.objectType type field (some object.name) =
      if x.schema.isPossible type object then .ok object
      else .error (.notAPossibleType object.name type.name) := by
  unfold objectType
  simp only [found]

theorem objectType_eq_ok (named : NamesOwn x.schema.types) (has : x.schema.Has object)
    {answer : Option String} :
    x.objectType type field answer = .ok object ↔
      answer = some object.name ∧ x.schema.isPossible type object = true := by
  constructor
  · intro ok
    unfold objectType at ok
    split at ok
    · cases ok
    · rename_i name
      split at ok
      · rename_i found
        split_ifs at ok with possible
        cases ok
        have same : object.name = name := Schema.name_of_type? named found
        exact ⟨by rw [same], possible⟩
      · cases ok
      · cases ok
  · rintro ⟨rfl, possible⟩
    rw [objectType_of_name (has.type? named), if_pos possible]

end

theorem errors_of_runtimeTypeName {type : TypeDefinition} {value : Json}
    {answer : Option String} {es : List RecordedError} {s s' : σ}
    (run : (x.runtimeTypeName type value).run s = some (answer, es, s')) : es = [] := by
  have ends := Work.mayEnd_of_run run
  rw [runtimeTypeName_eq] at ends
  obtain ⟨_, lifted, -⟩ := Work.mayEnd_map.mp ends
  exact (Work.mayEnd_lift.mp lifted).1

/-- A value of an abstract type is completed as the object type that its name is accepted for. -/
theorem run_completeNamed {object : ObjectCompleter σ} {field : FieldRef} {path : ResponsePath}
    {name : String} {value : Json} {type : TypeDefinition}
    (found : x.schema.type? name = some type) (abstract : type.isAbstract = true)
    {answer : Option String} {es : List RecordedError} {s s' : σ}
    (run : (x.runtimeTypeName type value).run s = some (answer, es, s')) :
    (x.completeNamed object field path name value).run s =
      (match x.objectType type field answer with
        | .ok t => object t field path value
        | .error problem => field.fail path problem).run s' := by
  obtain rfl := errors_of_runtimeTypeName run
  have completes : x.completeNamed object field path name value =
      (x.runtimeTypeName type value).bind fun answer =>
        match x.objectType type field answer with
        | .ok t => object t field path value
        | .error problem => field.fail path problem := by
    unfold completeNamed
    rw [found]
    cases type with
    | interface | union => rfl
    | _ => cases abstract
  rw [completes, Work.run_bind, run]
  simp

/-- For the values of the type of a name an object type is accepted if the condition holds: those
that are said to be of it are completed as objects of it, or else they fail. -/
structure Accepts (x : Execution σ) (name : String) (type : TypeDefinition) (object : ObjectType)
    (condition : Prop) : Prop where
  accepted : ∀ field answer, x.objectType type field answer = .ok object ↔
    answer = some object.name ∧ condition
  completed : ∀ completer field path value es s s',
    (x.runtimeTypeName type value).run s = some (some object.name, es, s') → condition →
      (x.completeNamed completer field path name value).run s =
        (completer object field path value).run s'
  failed : ∀ completer field path value es s s',
    (x.runtimeTypeName type value).run s = some (some object.name, es, s') → ¬ condition →
      (x.completeNamed completer field path name value).run s =
        (field.fail path (.notAPossibleType object.name name)).run s'

theorem accepts_of_isPossible (named : NamesOwn x.schema.types) {object : ObjectType}
    (has : x.schema.Has object) {name : String} {type : TypeDefinition}
    (found : x.schema.type? name = some type) (abstract : type.isAbstract = true) :
    x.Accepts name type object (x.schema.isPossible type object = true) where
  accepted _ _ := objectType_eq_ok named has
  completed completer field path value es s s' run possible := by
    rw [run_completeNamed found abstract run, objectType_of_name (has.type? named),
      if_pos possible]
  failed completer field path value es s s' run impossible := by
    rw [run_completeNamed found abstract run, objectType_of_name (has.type? named),
      if_neg impossible, Schema.name_of_type? named found]

end Execution

/-- For every type of a schema and every object type of it: collecting fields for the object type
goes into fragments on the type, the object type is listed for the type, and values of the type are
accepted as objects of it if it is an interface or union, each exactly if the object type is
possible for the type. -/
theorem conditions_possible {definitions : List TypeSystem.Definition} {schema : Schema}
    (built : Schema.ofDefinitions definitions = .ok schema) {name : String}
    {type : TypeDefinition} (found : schema.type? name = some type) {object : ObjectType}
    (has : schema.Has object) :
    (∀ scope : SelectionScope, scope.schema = schema → scope.runtimeType = .object object →
      (∀ condition : NamedType, condition.name.value = name →
        (scope.applies condition = true ↔ schema.isPossible type object = true)) ∧
      ∀ sets, ∃ tour, scope.Tours sets false tour ∧
        collectFields scope sets = grouped ((scope.taken tour).map Prod.snd) ∧
        scope.GoesInto tour name (schema.isPossible type object = true)) ∧
    (object ∈ schema.possibleTypes type ↔ schema.isPossible type object = true) ∧
    (type.isAbstract = true → ∀ (σ : Type) (x : Execution σ), x.schema = schema →
      x.Accepts name type object (schema.isPossible type object = true)) := by
  have named := Schema.ofDefinitions_namesOwn built
  refine ⟨?applied, Schema.mem_possibleTypes has type, ?resolved⟩
  case applied =>
    rintro scope rfl runtime
    have applies (condition : NamedType) (on : condition.name.value = name) :
        scope.applies condition = true ↔ scope.schema.isPossible type object = true :=
      SelectionScope.applies_iff named has runtime (on ▸ found)
    refine ⟨applies, fun sets => ?_⟩
    obtain ⟨tour, tours, collected⟩ :=
      collectThrough_eq sets (Nat.le_refl scope.fragments.length)
    exact ⟨tour, tours, collected, SelectionScope.goesInto_of_applies tours applies⟩
  case resolved =>
    rintro abstract σ x rfl
    exact Execution.accepts_of_isPossible named has found abstract

namespace Pets

/-- `... on Pet { name }` -/
def named : InlineFragment :=
  ⟨some ⟨⟨"Pet", none⟩, none⟩, [], ⟨[node none "name" []], none⟩, none⟩

/-- `{ ... on Pet { name } }` -/
def onPets : SelectionSet := ⟨[.inlineFragment named], none⟩

def scope (object : ObjectType) : SelectionScope := ⟨schema, [], [], .object object⟩

theorem scope_passes {object : ObjectType} {tour : List (Site × Selection)}
    (tours : (scope object).Tours [onPets] false tour) :
    (⟨none, [0, 0]⟩, .inlineFragment named) ∈ tour := by
  have around : (scope object).Reachable (asSelections [onPets]) ⟨none, [0]⟩
      (.inlineFragment ⟨none, [], onPets, none⟩) := .given List.mem_cons_self
  exact tours.mem_iff.mpr (.enter around rfl List.mem_cons_self)

end Pets

/-- Dogs are pets and persons are not: the names of dogs are collected, and dogs are completed. -/
theorem conditions_possible_pets :
    Schema.ofDefinitions Pets.definitions = .ok Pets.schema ∧
      Pets.schema.type? "Pet" = some (.interface Pets.pet) ∧
      Pets.dog ∈ Pets.schema.possibleTypes (.interface Pets.pet) ∧
      Pets.person ∉ Pets.schema.possibleTypes (.interface Pets.pet) ∧
      (∃ tour, (Pets.scope Pets.dog).Tours [Pets.onPets] false tour ∧
        (⟨none, [0, 0, 0]⟩, Pets.node none "name" []) ∈ tour) ∧
      (∃ tour, (Pets.scope Pets.person).Tours [Pets.onPets] false tour ∧
        (⟨none, [0, 0, 0]⟩, Pets.node none "name" []) ∉ tour) ∧
      ∃ x root, Pets.request.prepare Pets.pets = .ok (x, root) ∧
        ∀ completer field path value,
          (x.completeNamed completer field path "Pet" value).run () =
            (completer Pets.dog field path value).run () := by
  have built : Schema.ofDefinitions Pets.definitions = .ok Pets.schema := rfl
  have found : Pets.schema.type? "Pet" = some (.interface Pets.pet) := rfl
  have hasDog : Pets.schema.Has Pets.dog := ⟨"Dog", rfl⟩
  have hasPerson : Pets.schema.Has Pets.person := ⟨"Person", rfl⟩
  obtain ⟨dogApplied, dogListed, dogResolved⟩ := conditions_possible built found hasDog
  obtain ⟨personApplied, personListed, -⟩ := conditions_possible built found hasPerson
  obtain ⟨-, dogTours⟩ := dogApplied (Pets.scope Pets.dog) rfl rfl
  obtain ⟨-, personTours⟩ := personApplied (Pets.scope Pets.person) rfl rfl
  obtain ⟨dogTour, tours, -, goes⟩ := dogTours [Pets.onPets]
  obtain ⟨personTour, tours', -, stays⟩ := personTours [Pets.onPets]
  have refused : Pets.schema.isPossible (.interface Pets.pet) Pets.person ≠ true := nofun
  refine ⟨built, found, dogListed.mpr rfl, mt personListed.mp refused, ⟨dogTour, tours, ?dog⟩,
    ⟨personTour, tours', ?person⟩, _, _, rfl, ?completed⟩
  case dog =>
    have passed := Pets.scope_passes tours
    exact (goes.inline _ _ _ passed rfl rfl rfl _ 0 List.mem_cons_self).mpr rfl
  case person =>
    have passed := Pets.scope_passes tours'
    exact mt (stays.inline _ _ _ passed rfl rfl rfl _ 0 List.mem_cons_self).mp refused
  case completed =>
    intro completer field path value
    exact (dogResolved rfl Unit _ rfl).completed completer field path value [] () () rfl rfl

end GraphQL
