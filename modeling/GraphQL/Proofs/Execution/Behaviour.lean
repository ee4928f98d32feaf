import GraphQL.Proofs.Execution.Scheduling

/-!
What resolvers come to at the positions of a response. Main statements: every run behaves in some
way, whatever its resolvers do; where each invocation has its answer, all runs behave by the
answers.
-/
namespace GraphQL

open Ast TypeSystem

/-- What invocations of resolvers come to, and which type is named at a path for a value of an
abstract type. Two behaviours may differ at some paths only. -/
structure Behaviour where
  field : ResolveInfo → Outcome
  type : List PathElement → String → Json → Option String

def Answers.behaviour (answers : Answers) : Behaviour := ⟨answers.field, fun _ => answers.type⟩

variable {σ : Type}

namespace Execution

/-- The invocation that resolves a field, or what it is resolved to without one. -/
def invocation (x : Execution σ) (field : FieldRef) (path : ResponsePath) (source : Json) :
    Except (Except FieldProblem Json) ResolveInfo :=
  if field.definition.name = "__typename" then .error (.ok (.string field.parent.name))
  else
    match argumentValues x.schema field.definition.arguments
        ((field.nodes.head?.map (·.arguments)).getD []) x.vars with
    | .error e => .error (.error (.argument e))
    | .ok arguments => .ok ⟨source, arguments, field.parent, field.definition, path.elements,
        field.nodes, x.schema, x.operation, x.vars, x.rootValue⟩

def resolution (x : Execution σ) (outcome : ResolveInfo → Outcome) (field : FieldRef)
    (path : ResponsePath) (source : Json) : Except FieldProblem Json :=
  match x.invocation field path source with
  | .error resolved => resolved
  | .ok info => (outcome info).toExcept

/-- The abstract type that values of a type have. -/
def abstract? (x : Execution σ) : TypeRef → Option TypeDefinition
  | .named name => (x.schema.type? name).filter TypeDefinition.isAbstract
  | .nonNull inner => x.abstract? inner
  | .list _ => none

/-- The object type that a value of an abstract type has if this type is named for it. -/
def typing (x : Execution σ) (abstract : TypeDefinition) (field : FieldRef) (value : Json)
    (named : Option String) : Except FieldProblem ObjectType :=
  x.objectType abstract field (named.or ((value.property? "__typename").bind Json.string?))

def fateOfType (field : FieldRef) (path : ResponsePath) : Except FieldProblem ObjectType → Fate
  | .ok t => .object t field.sets
  | .error problem => .failed (field.error path problem)

/-- A value of an abstract type meets its fate by the type that is named for it at the path. -/
def Typed (x : Execution σ) (b : Behaviour) (field : FieldRef) (type : TypeRef)
    (path : ResponsePath) (value : Json) (fate : Fate) : Prop :=
  ∀ t, value.isNull = false → x.abstract? type = some t →
    fate = fateOfType field path (x.typing t field value (b.type path.elements t.name value))

/-- The position and all below it are as the behaviour says. -/
inductive Obeys (x : Execution σ) (b : Behaviour) : Course → Prop where
  | mk {c : Course} :
      (∀ v, c.resolved = .ok v → x.Typed b c.place.field c.place.type c.place.path v c.fate) →
      (∀ v t sets, c.resolved = .ok v → c.fate = .object t sets → ∀ d ∈ c.members,
        d.resolved = x.resolution b.field d.place.field d.place.path v) →
      (∀ d ∈ c.members, Obeys x b d) → Obeys x b c

/-- All positions of a response are as the behaviour says. -/
structure BehavesAs (x : Execution σ) (b : Behaviour) (courses : List Course) : Prop where
  resolved : ∀ c ∈ courses,
    c.resolved = x.resolution b.field c.place.field c.place.path x.rootValue
  obeys : ∀ c ∈ courses, x.Obeys b c

variable {x : Execution σ}

theorem resolveField_of_invocation (field : FieldRef) (path : ResponsePath) (source : Json) :
    x.resolveField field path source = match x.invocation field path source with
      | .error resolved => .done resolved
      | .ok info => (x.resolvers.invoke info).lift.map Outcome.toExcept := by
  rw [resolveField_eq]
  unfold invocation
  split
  · rfl
  · cases argumentValues x.schema field.definition.arguments
      ((field.nodes.head?.map (·.arguments)).getD []) x.vars <;> rfl

theorem path_of_invocation {field : FieldRef} {path : ResponsePath} {source : Json}
    {info : ResolveInfo} (h : x.invocation field path source = .ok info) :
    info.path = path.elements := by
  unfold invocation at h
  split at h
  · cases h
  · split at h
    · cases h
    · cases h
      rfl

/-- A field is resolved by the outcomes if these are what its invocation may come to. -/
theorem resolution_of_mayResolve {field : FieldRef} {path : ResponsePath} {source : Json}
    {r : Except FieldProblem Json} {outcome : ResolveInfo → Outcome}
    (h : x.MayResolve field path source r)
    (invoked : ∀ info o, info.path = path.elements → (x.resolvers.invoke info).MayEnd o [] →
      r = o.toExcept → (outcome info).toExcept = r) :
    r = x.resolution outcome field path source := by
  obtain ⟨es, h⟩ := h
  rw [resolveField_of_invocation] at h
  unfold resolution
  rcases hi : x.invocation field path source with resolved | info <;> rw [hi] at h
  · exact h.1
  · obtain ⟨o, ho, rfl⟩ := Work.mayEnd_map.mp h
    exact (invoked info o (path_of_invocation hi) (Work.mayEnd_lift.mp ho).2 rfl).symm

section Abstract

variable {t : TypeDefinition} {name : String} {value : Json}

theorem MayHaveType.exists_named {field : FieldRef} {r : Except FieldProblem ObjectType}
    (h : x.MayHaveType field name value r) (ht : x.abstract? (.named name) = some t) :
    ∃ named, (x.resolvers.nameType t.name value).MayEnd named [] ∧
      r = x.typing t field value named := by
  obtain ⟨ht, abstract⟩ := Option.filter_eq_some_iff.mp ht
  cases h with
  | object hu =>
    obtain rfl := Option.some.inj (hu.symm.trans ht)
    cases abstract
  | abstract hu _ named =>
    obtain rfl := Option.some.inj (hu.symm.trans ht)
    rw [runtimeTypeName_eq] at named
    obtain ⟨own, ends, rfl⟩ := Work.mayEnd_map.mp named
    exact ⟨own, (Work.mayEnd_lift.mp ends).2, rfl⟩

theorem leaf?_of_abstract (ht : x.abstract? (.named name) = some t) :
    x.leaf? name value = none := by
  obtain ⟨ht, abstract⟩ := Option.filter_eq_some_iff.mp ht
  cases t with
  | interface | union => simp only [leaf?, ht]
  | _ => cases abstract

theorem Completes.exists_named {field : FieldRef} {type : TypeRef} {path : ResponsePath}
    {fate : Fate} {members : List Course} (h : x.Completes field type path value fate members)
    (hv : value.isNull = false) (ht : x.abstract? type = some t) :
    ∃ named, (x.resolvers.nameType t.name value).MayEnd named [] ∧
      fate = fateOfType field path (x.typing t field value named) := by
  induction h with
  | null => cases hv
  | nonNull _ _ ih => exact ih hv ht
  | nullNotAllowed _ ih =>
    obtain ⟨named, -, hn⟩ := ih hv ht
    unfold fateOfType at hn
    split at hn <;> cases hn
  | notIterable | list => cases ht
  | leaf _ h | invalid _ h =>
    rw [leaf?_of_abstract ht] at h
    cases h
  | untyped _ h =>
    obtain ⟨named, ends, hr⟩ := h.exists_named ht
    exact ⟨named, ends, by rw [← hr]; rfl⟩
  | object _ h hsets =>
    obtain ⟨named, ends, hr⟩ := h.exists_named ht
    exact ⟨named, ends, by rw [← hr, hsets]; rfl⟩

end Abstract

theorem Completes.follows_members {field : FieldRef} {type : TypeRef} {path : ResponsePath}
    {value : Json} {fate : Fate} {members : List Course}
    (h : x.Completes field type path value fate members) : ∀ d ∈ members, x.Follows d := by
  induction h with
  | nonNull _ _ ih => exact ih
  | list _ resolved completes =>
    intro d hd
    obtain ⟨v, -, hv⟩ := List.mem_map.mp (resolved ▸ List.mem_map_of_mem hd)
    unfold Follows
    rw [← hv]
    exact completes d hd v hv.symm
  | object _ _ _ _ _ failed completes =>
    intro d hd
    unfold Follows
    split
    · exact completes d hd _ ‹_›
    · exact failed d hd _ ‹_›
  | _ => simp

theorem Completes.resolves_members {field : FieldRef} {type : TypeRef} {path : ResponsePath}
    {value : Json} {t : ObjectType} {sets : List SelectionSet} {members : List Course}
    (h : x.Completes field type path value (.object t sets) members) :
    ∀ d ∈ members, x.MayResolve d.place.field d.place.path value d.resolved := by
  generalize hf : Fate.object t sets = fate at h
  induction h with
  | nonNull _ _ ih => exact ih hf
  | object _ _ _ _ resolved _ _ => exact resolved
  | _ => cases hf

/-- What the behaviour says of a position is what came of it. -/
structure Suits (x : Execution σ) (b : Behaviour) (c : Course) : Prop where
  field : ∀ info o, info.path = c.place.path.elements → (x.resolvers.invoke info).MayEnd o [] →
    c.resolved = o.toExcept → (b.field info).toExcept = c.resolved
  type : ∀ t v named, c.resolved = .ok v → x.abstract? c.place.type = some t →
    (x.resolvers.nameType t.name v).MayEnd named [] →
    c.fate = fateOfType c.place.field c.place.path (x.typing t c.place.field v named) →
    c.fate = fateOfType c.place.field c.place.path
      (x.typing t c.place.field v (b.type c.place.path.elements t.name v))

variable {b : Behaviour}

theorem obeys_of_suits (c : Course) (follows : x.Follows c) (suits : x.Suits b c)
    (below : ∀ q d, Below c.members q d → x.Suits b d) : x.Obeys b c := by
  induction c using Course.induction with
  | step c ih =>
    have completes (v : Json) (hv : c.resolved = .ok v) :
        x.Completes c.place.field c.place.type c.place.path v c.fate c.members := by
      unfold Follows at follows
      rwa [hv] at follows
    have members : ∀ d ∈ c.members, x.Follows d := by
      rcases hr : c.resolved with problem | v
      · unfold Follows at follows
        rw [hr] at follows
        simp [follows.2]
      · exact (completes v hr).follows_members
    refine .mk (fun v hv t notNull ht => ?_) (fun v t sets hv hf d hd => ?_) fun d hd => ?_
    · obtain ⟨named, ends, fate⟩ := (completes v hv).exists_named notNull ht
      exact suits.type t v named hv ht ends fate
    · have resolves := (hf ▸ completes v hv).resolves_members d hd
      exact resolution_of_mayResolve resolves (below _ d (.here hd)).field
    · exact ih d hd (members d hd) (below _ d (.here hd)) fun q e he => below _ e (.deeper hd he)

theorem RootFollows.behavesAs {root : ObjectType} {courses : List Course}
    (h : x.RootFollows root courses) (suits : ∀ q c, Below courses q c → x.Suits b c) :
    x.BehavesAs b courses where
  resolved c hc := resolution_of_mayResolve (h.resolved c hc) (suits _ c (.here hc)).field
  obeys c hc := obeys_of_suits c (h.follows c hc) (suits _ c (.here hc))
    fun _ d hd => suits _ d (.deeper hc hd)

/-- Where each invocation has its answer, every run behaves by the answers. -/
theorem RootFollows.behavesAs_answers {answers : Answers} (follow : x.resolvers.Follow answers)
    {root : ObjectType} {courses : List Course} (h : x.RootFollows root courses) :
    x.BehavesAs answers.behaviour courses := by
  refine h.behavesAs fun _ c _ => ⟨fun info o _ ends hr => ?_, fun t v named _ _ ends hf => ?_⟩
  · obtain ⟨_, he, -⟩ := (follow.field info).ends o [] ends
    cases he
    exact hr.symm
  · obtain ⟨_, he, -⟩ := (follow.type t.name v).ends named [] ends
    cases he
    exact hf

end Execution

theorem Below.unique {path : ResponsePath} {courses : List Course} (members : Members path courses)
    {p : List PathElement} {c d : Course} (hc : Below courses p c) (hd : Below courses p d) :
    c = d := by
  induction hc generalizing path with
  | @here courses c mem =>
    rcases (members.siblings.below_iff mem).mp hd with ⟨-, rfl⟩ | deeper
    · rfl
    · exact absurd rfl deeper.ne_nil
  | @deeper courses e c p mem below ih =>
    rcases (members.siblings.below_iff mem).mp hd with ⟨rfl, -⟩ | deeper
    · exact absurd rfl below.ne_nil
    · exact ih (members.regular e mem).asMembers deeper

namespace Execution

variable {x : Execution σ}

/-- Every run behaves in some way: each position comes about once. -/
theorem RootFollows.exists_behavesAs {root : ObjectType} {courses : List Course}
    (h : x.RootFollows root courses) : ∃ b, x.BehavesAs b courses := by
  classical
  let Invoked (q : List PathElement) (o : Outcome) : Prop :=
    ∃ c, Below courses q c ∧ c.resolved = o.toExcept
  let Named (q : List PathElement) (v : Json) (named : Option String) : Prop :=
    ∃ c t, Below courses q c ∧ x.abstract? c.place.type = some t ∧
      c.fate = fateOfType c.place.field c.place.path (x.typing t c.place.field v named)
  let b : Behaviour :=
    { field := fun info => if h : ∃ o, Invoked info.path o then h.choose else .value .null
      type := fun q _ v => if h : ∃ named, Named q v named then h.choose else none }
  refine ⟨b, h.behavesAs fun q c hc => ?_⟩
  have path : c.place.path.elements = q := by simpa using (h.members.elements hc).2
  constructor
  · intro info o hi _ hr
    have some : ∃ o, Invoked info.path o := ⟨o, c, by rw [hi, path]; exact hc, hr⟩
    obtain ⟨d, hd, hr'⟩ := some.choose_spec
    rw [hi, path] at hd
    obtain rfl := hc.unique h.members hd
    simp only [b, dif_pos some]
    exact hr'.symm
  · intro t v named _ ht _ hf
    have some : ∃ named, Named c.place.path.elements v named :=
      ⟨named, c, t, by rw [path]; exact hc, ht, hf⟩
    obtain ⟨d, u, hd, hu, hf'⟩ := some.choose_spec
    rw [path] at hd
    obtain rfl := hc.unique h.members hd
    obtain rfl := Option.some.inj (ht.symm.trans hu)
    simp only [b, dif_pos some]
    exact hf'

end Execution

end GraphQL
