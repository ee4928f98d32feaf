import GraphQL.Proofs.Execution.Alike
import GraphQL.Proofs.Execution.Behaviour

/-!
Two runs whose resolvers differ at one path and below it only. Main statement: where the position at
that path may be null, the responses differ there only, in data and in errors.
-/
namespace GraphQL

open Ast TypeSystem

/-- The behaviours differ at paths that extend `p` only. -/
structure Behaviour.AgreeOutside (p : List PathElement) (b b' : Behaviour) : Prop where
  field : ∀ info, ¬ p <+: info.path → b.field info = b'.field info
  type : ∀ q, ¬ p <+: q → b.type q = b'.type q

variable {σ τ : Type}

namespace Execution

section Named

variable (x : Execution σ)

def fateAt (b : Behaviour) (field : FieldRef) (name : String) (path : ResponsePath)
    (value : Json) : Fate :=
  match x.leaf? name value, x.schema.type? name with
  | some (.ok result), _ => .leaf result
  | some (.error problem), _ => .failed (field.error path problem)
  | none, some (.object t) => .object t field.sets
  | none, some t =>
    fateOfType field path (x.typing t field value (b.type path.elements t.name value))
  | none, none => .null

variable {x} {b b' : Behaviour} {p : List PathElement}

theorem MayHaveType.fateAt {field : FieldRef} {name : String} {path : ResponsePath} {value : Json}
    {r : Except FieldProblem ObjectType} (hv : value.isNull = false)
    (h : x.MayHaveType field name value r)
    (typed : x.Typed b field (.named name) path value (fateOfType field path r)) :
    fateOfType field path r = x.fateAt b field name path value := by
  cases h with
  | object ht =>
    have leaf : x.leaf? name value = none := by simp only [leaf?, ht]
    simp only [Execution.fateAt, leaf, ht]
    rfl
  | @abstract t answer es ht abstract _ =>
    have ha : x.abstract? (.named name) = some t := Option.filter_eq_some_iff.mpr ⟨ht, abstract⟩
    rw [typed t hv ha]
    simp only [Execution.fateAt, leaf?_of_abstract ha, ht]
    cases t with
    | interface | union => rfl
    | _ => cases abstract

theorem Completes.fate_eq {field : FieldRef} {name : String} {path : ResponsePath} {value : Json}
    {fate : Fate} {members : List Course}
    (h : x.Completes field (.named name) path value fate members) (hv : value.isNull = false)
    (typed : x.Typed b field (.named name) path value fate) :
    fate = x.fateAt b field name path value := by
  cases h with
  | null => cases hv
  | leaf _ hr => simp only [fateAt, hr]
  | invalid _ hr => simp only [fateAt, hr]
  | untyped _ ht => exact ht.fateAt hv typed
  | object _ ht hsets =>
    subst hsets
    exact ht.fateAt hv typed

end Named

variable {x : Execution σ} {r : Resolvers τ} {scheduler : Scheduler τ RecordedError Completion}
variable {b b' : Behaviour} {p : List PathElement}

theorem fateAt_agree (agree : b.AgreeOutside p b') {path : ResponsePath}
    (outside : ¬ p <+: path.elements) (field : FieldRef) (name : String) (value : Json) :
    (x.with r scheduler).fateAt b' field name path value = x.fateAt b field name path value := by
  unfold fateAt typing
  simp only [objectType_with, agree.type _ outside]
  rfl

theorem resolution_agree (agree : b.AgreeOutside p b') {path : ResponsePath}
    (outside : ¬ p <+: path.elements) (field : FieldRef) (source : Json) :
    (x.with r scheduler).resolution b'.field field path source =
      x.resolution b.field field path source := by
  have same : (x.with r scheduler).invocation field path source = x.invocation field path source :=
    rfl
  unfold resolution
  rw [same]
  rcases hi : x.invocation field path source with resolved | info
  · rfl
  · have at_path : info.path = path.elements := path_of_invocation hi
    dsimp only
    rw [agree.field info (at_path ▸ outside)]

/-- What comes of the value at a place, and how. -/
structure Outcomes (x : Execution σ) (b : Behaviour) (field : FieldRef) (type : TypeRef)
    (path : ResponsePath) (value : Json) (fate : Fate) (members : List Course) : Prop where
  completes : x.Completes field type path value fate members
  typed : x.Typed b field type path value fate
  resolved : ∀ t sets, fate = .object t sets → ∀ d ∈ members,
    d.resolved = x.resolution b.field d.place.field d.place.path value
  obeys : ∀ d ∈ members, x.Obeys b d

theorem Obeys.outcomes {c : Course} (h : x.Obeys b c) (follows : x.Follows c) {v : Json}
    (hv : c.resolved = .ok v) :
    x.Outcomes b c.place.field c.place.type c.place.path v c.fate c.members := by
  cases h with
  | mk typed resolved members =>
    unfold Follows at follows
    rw [hv] at follows
    exact ⟨follows, typed v hv, fun t sets => resolved v t sets hv, members⟩

theorem Completes.selects_members {field : FieldRef} {type : TypeRef} {path : ResponsePath}
    {value : Json} {t : ObjectType} {sets : List SelectionSet} {members : List Course}
    (h : x.Completes field type path value (.object t sets) members) :
    members.map Course.place = (x.selected t sets).map (SelectedField.place path) := by
  generalize hf : Fate.object t sets = fate at h
  induction h with
  | nonNull _ _ ih => exact ih hf
  | object _ _ _ places =>
    cases hf
    exact places
  | _ => cases hf

theorem Completes.members_eq_nil {field : FieldRef} {type : TypeRef} {path : ResponsePath}
    {value : Json} {fate : Fate} {members : List Course}
    (h : x.Completes field type path value fate members) (list : fate ≠ .list)
    (object : ∀ t sets, fate ≠ .object t sets) : members = [] := by
  induction h with
  | nonNull _ _ ih => exact ih list object
  | list => exact absurd rfl list
  | object => exact absurd rfl (object _ _)
  | _ => rfl

theorem fateOfType_ne_null (field : FieldRef) (path : ResponsePath)
    (t : Except FieldProblem ObjectType) : fateOfType field path t ≠ .null := by
  cases t <;> exact nofun

theorem Completes.typed_null {field : FieldRef} {type : TypeRef} {path : ResponsePath}
    {value : Json} {members : List Course} (h : x.Completes field type path value .null members) :
    x.Typed b field type path value .null := by
  intro t hv ht
  obtain ⟨named, -, fate⟩ := h.exists_named hv ht
  exact (fateOfType_ne_null _ _ _ fate.symm).elim

theorem pair_alike {c d : Course} (place : c.place = d.place) (resolved : c.resolved = d.resolved)
    (follows : x.Follows c) (follows' : (x.with r scheduler).Follows d) (obeys : x.Obeys b c)
    (obeys' : (x.with r scheduler).Obeys b' d)
    (each : ∀ v fate members, c.resolved = .ok v →
      x.Outcomes b c.place.field c.place.type c.place.path v c.fate c.members →
      (x.with r scheduler).Outcomes b' c.place.field c.place.type c.place.path v fate members →
      c.fate = fate ∧ Alike p c.members members) :
    c.resolved = d.resolved ∧ c.fate = d.fate ∧ Alike p c.members d.members := by
  refine ⟨resolved, ?_⟩
  rcases hr : c.resolved with problem | v
  · unfold Follows at follows follows'
    rw [hr] at follows
    rw [← resolved, hr] at follows'
    obtain ⟨fate, members⟩ := follows
    obtain ⟨fate', members'⟩ := follows'
    rw [members, members', fate, fate', place]
    exact ⟨rfl, .nil⟩
  · have outcomes' := obeys'.outcomes follows' (resolved ▸ hr)
    rw [← place] at outcomes'
    exact each v d.fate d.members hr (obeys.outcomes follows hr) outcomes'

theorem outside_child {path : ResponsePath} {c : Course} (parent : c.place.parent = path)
    (outside : ¬ p <+: path.elements) (hp : c.place.path.elements ≠ p) :
    ¬ p <+: c.place.path.elements := by
  have elements : c.place.path.elements = path.elements ++ [c.place.step] := by
    rw [Place.path, parent]
    rfl
  rw [elements] at hp ⊢
  rw [List.prefix_concat_iff]
  rintro (rfl | below)
  · exact hp rfl
  · exact outside below

theorem resolved_of_item {path : ResponsePath} {field : FieldRef} {item : TypeRef}
    {values : List Json} {members : List Course}
    (places : members.map Course.place = values.mapIdx fun i _ => Place.item path field item i)
    (resolved : members.map Course.resolved = values.map .ok) {c : Course} (hc : c ∈ members) :
    ∃ v, values[c.place.ordinal]? = some v ∧ c.resolved = .ok v := by
  obtain ⟨i, hi, rfl⟩ := List.mem_iff_getElem.mp hc
  have place := congrArg (·[i]?) places
  have value := congrArg (·[i]?) resolved
  simp only [List.getElem?_map, List.getElem?_eq_getElem hi, Option.map_some,
    List.getElem?_mapIdx] at place value
  obtain ⟨v, hv, he⟩ := Option.map_eq_some_iff.mp value.symm
  rw [hv, Option.map_some, Option.some.injEq] at place
  exact ⟨v, by rw [place]; exact hv, he.symm⟩

/-- A value that is not null meets one fate at a named type. -/
theorem Completes.fate_unique (agree : b.AgreeOutside p b') {field : FieldRef} {name : String}
    {path : ResponsePath} {value : Json} {fate fate' : Fate} {members members' : List Course}
    (outside : ¬ p <+: path.elements) (hv : value.isNull = false)
    (h : x.Completes field (.named name) path value fate members)
    (typed : x.Typed b field (.named name) path value fate)
    (h' : (x.with r scheduler).Completes field (.named name) path value fate' members')
    (typed' : (x.with r scheduler).Typed b' field (.named name) path value fate') :
    fate = fate' := by
  rw [h.fate_eq hv typed, h'.fate_eq hv typed', fateAt_agree agree outside]

/-- A value outside the path meets the same fate in both runs, with members that are alike. -/
theorem Outcomes.alike (agree : b.AgreeOutside p b') {field : FieldRef} {type : TypeRef}
    {path : ResponsePath} {value : Json} {fate fate' : Fate} {members members' : List Course}
    (h : x.Outcomes b field type path value fate members)
    (h' : (x.with r scheduler).Outcomes b' field type path value fate' members')
    (outside : ¬ p <+: path.elements) : fate = fate' ∧ Alike p members members' := by
  obtain ⟨completes, typed, resolved, obeys⟩ := h
  obtain ⟨completes', typed', resolved', obeys'⟩ := h'
  induction completes generalizing fate' members' with
  | null hn =>
    cases completes' with
    | null => exact ⟨rfl, .nil⟩
    | nonNull | nullNotAllowed => cases hn
    | notIterable hv | leaf hv | invalid hv | untyped hv | object hv => cases hv
  | @nonNull field inner path value fate members h hne ih =>
    cases completes' with
    | null hn => cases hn
    | nonNull completes' hne' =>
      exact ih outside typed resolved obeys completes' typed' resolved' obeys'
    | nullNotAllowed completes' =>
      exact absurd (ih outside typed resolved obeys completes' completes'.typed_null
        (fun _ _ hf => by cases hf) (by simp)).1 hne
  | nullNotAllowed h ih =>
    cases completes' with
    | null hn => cases hn
    | nonNull completes' hne' =>
      exact absurd (ih outside h.typed_null (fun _ _ hf => by cases hf) (by simp) completes' typed'
        resolved' obeys').1.symm hne'
    | nullNotAllowed completes' => exact ⟨rfl, .nil⟩
  | notIterable hv hi =>
    cases completes' with
    | null => cases hv
    | notIterable => exact ⟨rfl, .nil⟩
    | list => cases hi
  | @list field item path values members places values_eq completes ih =>
    have follows := (Completes.list places values_eq completes).follows_members
    cases completes' with
    | notIterable _ hi => cases hi
    | list places' values_eq' completes' =>
      have follows' := (Completes.list places' values_eq' completes').follows_members
      refine ⟨rfl, alike_of_places (places.trans places'.symm) fun c hc d hd place hp => ?_⟩
      obtain ⟨v, hv, hr⟩ := resolved_of_item places values_eq hc
      obtain ⟨w, hw, hr'⟩ := resolved_of_item places' values_eq' hd
      obtain rfl : v = w := Option.some.inj (hv.symm.trans (place ▸ hw))
      have parent : c.place.parent = path :=
        (places ▸ siblings_items path field item values).parent _ (List.mem_map_of_mem hc)
      exact pair_alike place (hr.trans hr'.symm) (follows c hc) (follows' d hd) (obeys c hc)
        (obeys' d hd) fun v fate members hv out out' => ih c hc v hv
          (outside_child parent outside hp) out.typed out.resolved out.obeys out'.completes
          out'.typed out'.resolved out'.obeys
  | leaf hv hr =>
    obtain rfl := (Completes.leaf hv hr).fate_unique agree outside hv typed completes' typed'
    rw [completes'.members_eq_nil nofun nofun]
    exact ⟨rfl, .nil⟩
  | invalid hv hr =>
    obtain rfl := (Completes.invalid hv hr).fate_unique agree outside hv typed completes' typed'
    rw [completes'.members_eq_nil nofun nofun]
    exact ⟨rfl, .nil⟩
  | untyped hv ht =>
    obtain rfl := (Completes.untyped hv ht).fate_unique agree outside hv typed completes' typed'
    rw [completes'.members_eq_nil nofun nofun]
    exact ⟨rfl, .nil⟩
  | @object field name path value t sets members hv ht hsets places resolves failed completes ih =>
    have whole := Completes.object hv ht hsets places resolves failed completes
    obtain rfl := whole.fate_unique agree outside hv typed completes' typed'
    have follows := whole.follows_members
    have follows' := completes'.follows_members
    have places' := completes'.selects_members
    refine ⟨rfl, alike_of_places (places.trans places'.symm) fun c hc d hd place hp => ?_⟩
    have parent : c.place.parent = path :=
      (places ▸ siblings_selected path t sets).parent _ (List.mem_map_of_mem hc)
    have away := outside_child parent outside hp
    have same : c.resolved = d.resolved := by
      rw [resolved t sets rfl c hc, resolved' t sets rfl d hd, ← place]
      exact (resolution_agree agree away ..).symm
    exact pair_alike place same (follows c hc) (follows' d hd) (obeys c hc)
      (obeys' d hd) fun v fate members hv out out' => ih c hc v hv
        away out.typed out.resolved out.obeys out'.completes
        out'.typed out'.resolved out'.obeys

theorem Obeys.alike (agree : b.AgreeOutside p b') {c d : Course} (place : c.place = d.place)
    (resolved : c.resolved = d.resolved) (follows : x.Follows c)
    (follows' : (x.with r scheduler).Follows d) (obeys : x.Obeys b c)
    (obeys' : (x.with r scheduler).Obeys b' d) (outside : ¬ p <+: c.place.path.elements) :
    c.resolved = d.resolved ∧ c.fate = d.fate ∧ Alike p c.members d.members :=
  pair_alike place resolved follows follows' obeys obeys' fun _ _ _ _ h h' =>
    h.alike agree h' outside

theorem alike_of_upToNull {places : List Place} {cs ds : List Course} (h : UpToNull places cs)
    (h' : UpToNull places ds) (nullable : NullableAt p cs)
    (each : ∀ c ∈ cs, ∀ d ∈ ds, c.place = d.place → c.place.path.elements ≠ p →
      c.resolved = d.resolved ∧ c.fate = d.fate ∧ Alike p c.members d.members) : Alike p cs ds := by
  induction places generalizing cs ds with
  | nil =>
    cases cs with
    | nil =>
      cases ds with
      | nil => exact .nil
      | cons => exact h'.elim
    | cons => exact h.elim
  | cons place places ih =>
    obtain _ | ⟨c, cs⟩ := cs
    · exact h.elim
    obtain _ | ⟨d, ds⟩ := ds
    · exact h'.elim
    obtain ⟨rfl, h⟩ := h
    obtain ⟨same, h'⟩ := h'
    have rest (isNone : c.completion.isNone = d.completion.isNone) : Alike p cs ds := by
      rw [isNone] at h
      split at h
      · rw [if_pos ‹_›] at h'
        subst h h'
        exact .nil
      · rw [if_neg ‹_›] at h'
        exact ih h h' nullable.tail fun c hc d hd =>
          each c (List.mem_cons_of_mem _ hc) d (List.mem_cons_of_mem _ hd)
    by_cases hp : c.place.path.elements = p
    · have absorbs := nullable.head hp
      refine .here same.symm hp (rest ?_)
      rw [Course.completion_isSome absorbs, Course.completion_isSome (same ▸ absorbs)]
    · obtain ⟨resolved, fate, members⟩ :=
        each c List.mem_cons_self d List.mem_cons_self same.symm hp
      exact .away same.symm resolved fate members (rest
        (Course.completion_isNone_eq same.symm fate (members.completions_isNone nullable.members)))

/-- The courses explain the response, and they are as the behaviour says. -/
structure ExplainsAs (x : Execution σ) (b : Behaviour) (root : ObjectType) (courses : List Course)
    (response : Response) : Prop extends x.Explains root courses response where
  behaves : x.BehavesAs b courses

theorem RootFollows.alike {root : ObjectType} {courses others : List Course}
    (h : x.RootFollows root courses) (h' : (x.with r scheduler).RootFollows root others)
    (behaves : x.BehavesAs b courses) (behaves' : (x.with r scheduler).BehavesAs b' others)
    (agree : b.AgreeOutside p b') (root_outside : p ≠ []) (nullable : NullableAt p courses) :
    Alike p courses others := by
  have each (c : Course) (hc : c ∈ courses) (d : Course) (hd : d ∈ others)
      (place : c.place = d.place) (hp : c.place.path.elements ≠ p) :
      c.resolved = d.resolved ∧ c.fate = d.fate ∧ Alike p c.members d.members := by
    have parent : c.place.parent = {} := h.siblings.parent _ (List.mem_map_of_mem hc)
    have away := outside_child parent (fun hp => root_outside (List.prefix_nil.mp hp)) hp
    have resolved : c.resolved = d.resolved := by
      rw [behaves.resolved c hc, behaves'.resolved d hd, ← place]
      exact (resolution_agree agree away ..).symm
    exact (behaves.obeys c hc).alike agree place resolved (h.follows c hc) (h'.follows d hd)
      (behaves'.obeys d hd) away
  have places := h.places
  have places' := h'.places
  dsimp only at places places'
  have operation : (x.with r scheduler).operation = x.operation := rfl
  rw [operation] at places'
  cases ho : x.operation.operation with
  | mutation =>
    rw [ho] at places places'
    exact alike_of_upToNull places places' nullable each
  | query | subscription =>
    rw [ho] at places places'
    exact alike_of_places (places.trans places'.symm) each

theorem Explains.explainsAs {answers : Answers} (follow : x.resolvers.Follow answers)
    {root : ObjectType} {courses : List Course} {response : Response}
    (h : x.Explains root courses response) :
    x.ExplainsAs answers.behaviour root courses response :=
  ⟨h, h.root.behavesAs_answers follow⟩

theorem ExplainsAs.sameBut {root : ObjectType} {courses others : List Course}
    {response response' : Response} (h : x.ExplainsAs b root courses response)
    (h' : (x.with r scheduler).ExplainsAs b' root others response') (agree : b.AgreeOutside p b')
    (root_outside : p ≠ []) (nullable : ∀ c, Below courses p c → c.place.type.isNonNull = false) :
    response.SameBut p response' := by
  have members := h.root.members
  have nullableAt : NullableAt p courses := by
    intro q c hc hp
    obtain rfl : q = p := by rw [← hp, (members.elements hc).2]; rfl
    exact nullable c hc
  have alike := h.root.alike h'.root h.behaves h'.behaves agree root_outside nullableAt
  constructor
  · rw [h.data, h'.data]
    exact alike.objectOf members nullableAt fun c hc =>
      step_of_selected (fun _ hp => h.root.sublist.subset hp) c.place (List.mem_map_of_mem hc)
  · have errors := congrArg (List.map RecordedError.error)
      (alike.errors h.root.regular h'.root.regular)
    rw [h.errors, h'.errors, List.filter_map, List.filter_map]
    exact errors

end Execution

theorem exists_explainsAs {request : Request σ} {document : Document} {depth : Nat} {s s' : σ}
    {scheduler : Scheduler σ RecordedError Completion} {x : Execution σ} {root : ObjectType}
    (prepared : request.prepare document scheduler = .ok (x, root)) {response : Response}
    (run : execute request document depth s scheduler = some (response, s')) :
    ∃ b courses, x.ExplainsAs b root courses response := by
  obtain ⟨courses, explains⟩ := exists_explains prepared run
  obtain ⟨b, behaves⟩ := explains.root.exists_behavesAs
  exact ⟨b, courses, explains, behaves⟩

/-- Where the position at a path may be null, what resolvers do at the path and below it changes
nothing elsewhere. Two runs of a request with resolvers that behave alike at all other paths have
responses that are the same but for the data and the errors there. Every run behaves in some way;
where each invocation has its answer, as the answers say. -/
theorem execute_independent {request : Request σ} {r : Resolvers τ} {document : Document}
    {depth depth' : Nat} {s s' : σ} {t t' : τ} {scheduler : Scheduler σ RecordedError Completion}
    {other : Scheduler τ RecordedError Completion} {response response' : Response}
    (first : execute request document depth s scheduler = some (response, s'))
    (second : execute (request.with r) document depth' t other = some (response', t')) :
    (∀ errors, request.prepare document scheduler = .error errors → response = response') ∧
      ∀ x root, request.prepare document scheduler = .ok (x, root) →
        (∃ b courses, x.ExplainsAs b root courses response) ∧
        (∃ b courses, (x.with r other).ExplainsAs b root courses response') ∧
        (∀ answers, request.resolvers.Follow answers → ∀ courses,
          x.Explains root courses response →
            x.ExplainsAs answers.behaviour root courses response) ∧
        (∀ answers, r.Follow answers → ∀ courses,
          (x.with r other).Explains root courses response' →
            (x.with r other).ExplainsAs answers.behaviour root courses response') ∧
        ∀ p b b' courses others, p ≠ [] → b.AgreeOutside p b' →
          x.ExplainsAs b root courses response →
          (x.with r other).ExplainsAs b' root others response' →
          (∀ c, Below courses p c → c.place.type.isNonNull = false) →
            response.SameBut p response' := by
  refine ⟨fun errors he => ?_, fun x root prepared => ?_⟩
  · simp only [execute, request.prepare_with r document scheduler other, he, Except.map,
      Option.some.injEq, Prod.mk.injEq] at first second
    exact first.1.symm.trans second.1
  have prepared' := Request.prepare_with_ok prepared r other
  refine ⟨exists_explainsAs prepared first, exists_explainsAs prepared' second, ?_, ?_, ?_⟩
  · intro answers follow courses explains
    exact explains.explainsAs ((Request.isPrepared prepared).resolvers ▸ follow)
  · intro answers follow courses explains
    exact explains.explainsAs follow
  · intro p b b' courses others root_outside agree explains explains' nullable
    exact explains.sameBut explains' agree root_outside nullable

namespace Count

/-- A request on the count 7 for `type Query { count: Int }`. -/
def nullableRequest : Request Unit where
  schema := { schema with
    types := [("Query", .object ⟨position, none, "Query", [], [],
        [{ field with type := .named "Int" }]⟩),
      ("Int", .scalar ⟨position, none, "Int", []⟩)] }
  resolvers := {}
  rootValue := .object [("count", .ofInt 7)]

/-- `{ a: count b: count }` -/
def pair : Document :=
  ⟨[.operation ⟨.query, none, [], [], ⟨[
    .field { aliasName := some ⟨"a", none⟩, name := ⟨"count", none⟩ },
    .field { aliasName := some ⟨"b", none⟩, name := ⟨"count", none⟩ }], none⟩, none⟩], none⟩

/-- Panics at `a` alone. -/
def panics : Answers where
  field info := if info.path = [.key "a"] then .panicked none else lookups.field info
  type _ _ := none

def panicsAtA : Resolvers Unit := { fallback := some fun info => .done (panics.field info) }

theorem follow_panics : panicsAtA.Follow panics :=
  ⟨fun _ => Work.gives_done _, fun _ _ => Work.gives_done _⟩

theorem panics_agrees : lookups.behaviour.AgreeOutside [.key "a"] panics.behaviour := by
  refine ⟨fun info outside => ?_, fun _ _ => rfl⟩
  have elsewhere : info.path ≠ [.key "a"] := fun h => outside (h ▸ List.prefix_rfl)
  exact (if_neg elsewhere).symm

def pairResponse (a : Json) (errors : List GraphQLError) : Response :=
  ⟨some (.object [("a", a), ("b", .ofInt 7)]), errors⟩

end Count

theorem execute_independent_pair :
    ∃ errors errors',
      execute Count.nullableRequest Count.pair 0 () =
        some (Count.pairResponse (.ofInt 7) errors, ()) ∧
      execute (Count.nullableRequest.with Count.panicsAtA) Count.pair 0 () =
        some (Count.pairResponse .null errors', ()) ∧
      (Count.pairResponse (.ofInt 7) errors).SameBut [.key "a"]
        (Count.pairResponse .null errors') := by
  have first : execute Count.nullableRequest Count.pair 0 () =
      some (Count.pairResponse (.ofInt 7) _, ()) := rfl
  have second : execute (Count.nullableRequest.with Count.panicsAtA) Count.pair 0 () =
      some (Count.pairResponse .null _, ()) := rfl
  obtain ⟨-, runs⟩ := execute_independent first second
  obtain ⟨⟨_, courses, explains⟩, ⟨_, others, explains'⟩, asFirst, asSecond, independent⟩ :=
    runs _ _ rfl
  have places : courses.map Course.place = [_, _] := explains.root.places
  refine ⟨_, _, first, second, ?_⟩
  refine independent [.key "a"] Count.lookups.behaviour Count.panics.behaviour courses others nofun
    Count.panics_agrees (asFirst _ Count.follow_lookups _ explains.toExplains)
    (asSecond _ Count.follow_panics _ explains'.toExplains) fun c hc => ?_
  obtain ⟨c, mem, -, ⟨-, rfl⟩ | below⟩ := Below.cons_iff.mp hc
  · have mem : c.place ∈ courses.map Course.place := List.mem_map_of_mem mem
    rw [places] at mem
    rcases List.mem_pair.mp mem with place | place <;> rw [place] <;> rfl
  · exact absurd rfl below.ne_nil

end GraphQL
