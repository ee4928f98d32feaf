import GraphQL.Proofs.Execution.NullPropagation

/-!
Data conforms to what is asked for: to the type of each position and, where it is an object, to the
fields that its selection sets ask of its type.
-/
namespace GraphQL

open Ast TypeSystem

/-- What the result of a scalar looks like, by the name of the scalar. -/
structure IsScalarResult (name : String) (value : Json) : Prop where
  int : name = "Int" → ∃ n, value = .integer n ∧ InInt32 n.val
  float : name = "Float" → ∃ r, value = .float r
  text : name = "String" ∨ name = "ID" → ∃ s, value = .string s
  boolean : name = "Boolean" → ∃ b, value = .bool b

/-- What a response is to hold at a position: a value of a type, or an object of a type, each with
the selection sets for its fields. -/
inductive Expected where
  | value (type : TypeRef) (sets : List SelectionSet)
  | object (type : ObjectType) (sets : List SelectionSet)

namespace Execution

variable {σ : Type}

/-- Whether a scalar or enum type, or none at all, has the name String. -/
def PlainString (x : Execution σ) : Prop :=
  ∀ t, x.schema.type? "String" = some t → t.isComposite = false

variable (x : Execution σ)

inductive Conforms : Expected → Json → Prop where
  | null {type : TypeRef} {sets : List SelectionSet} :
      type.isNonNull = false → Conforms (.value type sets) .null
  | nonNull {inner : TypeRef} {sets : List SelectionSet} {v : Json} :
      Conforms (.value inner sets) v → v ≠ .null → Conforms (.value (.nonNull inner) sets) v
  | list {item : TypeRef} {sets : List SelectionSet} {items : List Json} :
      (∀ v ∈ items, Conforms (.value item sets) v) →
      Conforms (.value (.list item) sets) (.array items)
  | scalar {name : String} {sets : List SelectionSet} {t : ScalarType} {v : Json} :
      x.schema.type? name = some (.scalar t) → IsScalarResult name v →
      Conforms (.value (.named name) sets) v
  | enum {name : String} {sets : List SelectionSet} {t : EnumType} {value : EnumValue} :
      x.schema.type? name = some (.enum t) → value ∈ t.values →
      Conforms (.value (.named name) sets) (.string value.name)
  | object {name : String} {sets : List SelectionSet} {t : ObjectType} {v : Json} :
      x.schema.type? name = some (.object t) → Conforms (.object t sets) v →
      Conforms (.value (.named name) sets) v
  | abstract {name own : String} {sets : List SelectionSet} {abstract : TypeDefinition}
      {t : ObjectType} {v : Json} :
      x.schema.type? name = some abstract → abstract.isAbstract = true →
      x.schema.type? own = some (.object t) → x.schema.isPossible abstract t = true →
      Conforms (.object t sets) v → Conforms (.value (.named name) sets) v
  /-- The fields that are selected on the type and that it has, in the order of collection. -/
  | fields {t : ObjectType} {sets : List SelectionSet} {entries : Entries Json} :
      entries.keys = (x.selected t sets).map (·.key) →
      (∀ s v, (s, v) ∈ (x.selected t sets).zip (entries.map Prod.snd) →
        Conforms (.value s.field.definition.type s.field.sets) v) →
      (∀ s v, (s, v) ∈ (x.selected t sets).zip (entries.map Prod.snd) →
        (∃ first, s.field.nodes.head? = some first ∧ first.name.value = "__typename") →
        x.PlainString → v = .string t.name) →
      Conforms (.object t sets) (.object entries)

end Execution

theorem isScalarResult_of_serialize {name : String} {value result : Json}
    (h : serializeScalar name value = .ok result) : IsScalarResult name result := by
  constructor
  · rintro rfl
    obtain ⟨n, -, range, rfl⟩ := intResult_eq_ok.mp h
    exact ⟨n, rfl, range⟩
  · rintro rfl
    obtain ⟨x, -, rfl⟩ := floatResult_eq_ok.mp h
    exact ⟨x, rfl⟩
  · rintro (rfl | rfl) <;> unfold serializeScalar at h
    · rw [if_neg (by decide), if_neg (by decide), if_pos rfl] at h
      split at h
      all_goals first | exact ⟨_, (Except.ok.inj h).symm⟩ | cases h
    · rw [if_neg (by decide), if_neg (by decide), if_neg (by decide), if_neg (by decide),
        if_pos rfl] at h
      split at h
      all_goals first | exact ⟨_, (Except.ok.inj h).symm⟩ | cases h
  · rintro rfl
    unfold serializeScalar at h
    rw [if_neg (by decide), if_neg (by decide), if_neg (by decide), if_pos rfl] at h
    split at h
    all_goals first | exact ⟨_, (Except.ok.inj h).symm⟩ | cases h

variable {σ : Type}

namespace Execution

variable {x : Execution σ}

theorem conforms_of_leaf {name : String} {value result : Json} (sets : List SelectionSet)
    (h : x.leaf? name value = some (.ok result)) :
    x.Conforms (.value (.named name) sets) result := by
  unfold leaf? at h
  split at h
  · rename_i t ht
    rcases hs : serializeScalar name value with e | r <;> rw [hs] at h <;> cases h
    exact .scalar ht (isScalarResult_of_serialize hs)
  · rename_i t ht
    split at h
    · rename_i hv
      cases h
      cases value <;> simp only [Json.string?, Option.any_none, Option.any_some,
        Bool.false_eq_true, List.any_eq_true, decide_eq_true_eq] at hv
      obtain ⟨known, hmem, rfl⟩ := hv
      exact .enum ht hmem
    · cases h
  · cases h
  · cases h
  · cases h

theorem conforms_of_mayHaveType {field : FieldRef} {name : String} {value v : Json}
    {t : ObjectType} {sets : List SelectionSet} (h : x.MayHaveType field name value (.ok t))
    (hv : x.Conforms (.object t sets) v) : x.Conforms (.value (.named name) sets) v := by
  generalize hr : (Except.ok t : Except FieldProblem ObjectType) = r at h
  cases h with
  | object ht =>
    cases hr
    exact .object ht hv
  | abstract ht ha _ =>
    obtain ⟨own, ho, hp⟩ := objectType_ok hr.symm
    exact .abstract ht ha ho hp hv

/-- What conforms without a null that travels up conforms with it absorbed. -/
theorem conforms_absorb {type : TypeRef} {sets : List SelectionSet} {c : Completion}
    (h : ∀ v, c = some v → x.Conforms (.value type sets) v) {v : Json}
    (hv : c.absorb type = some v) : x.Conforms (.value type sets) v := by
  rcases c with - | w
  · cases hn : type.isNonNull
    · simp only [Completion.absorb, hn, Option.isNone_none, Bool.not_false, Bool.and_self,
        if_true, Option.some.injEq] at hv
      exact hv ▸ .null hn
    · simp [Completion.absorb, hn] at hv
  · exact h v (by simpa [Completion.absorb] using hv)

theorem typename_of_completes {place : Place} {r : Except FieldProblem Json} {source v : Json}
    {fate : Fate} {members : List Course} (plain : x.PlainString)
    (hd : place.field.definition = typenameField) (ht : place.type = typenameField.type)
    (resolves : x.MayResolve place.field place.path source r)
    (completes : ∀ w, r = .ok w → x.Completes place.field place.type place.path w fate members)
    (failed : ∀ problem, r = .error problem → ∃ e, fate = .failed e)
    (hv : fate.complete (courseKeys members) (completions members) = some v) :
    v = .string place.field.parent.name := by
  obtain ⟨es, hr⟩ := resolves
  obtain ⟨rfl, -⟩ : r = .ok (.string place.field.parent.name) ∧ es = [] := by
    simpa [resolveField, hd, typenameField, Work.MayEnd] using hr
  have h := completes _ rfl
  rw [ht] at h
  cases h with
  | nonNull h _ =>
    cases h with
    | leaf _ hl =>
      cases hv
      unfold leaf? at hl
      split at hl
      · unfold serializeScalar at hl
        rw [if_neg (by decide), if_neg (by decide), if_pos rfl] at hl
        exact (Except.ok.inj (Option.some.inj hl)).symm
      · split at hl
        · exact (Except.ok.inj (Option.some.inj hl)).symm
        · cases hl
      · cases hl
      · cases hl
      · cases hl
    | object _ hm =>
      -- no composite type has the name
      generalize hr : (Except.ok _ : Except FieldProblem ObjectType) = r at hm
      cases hm with
      | object hs => cases plain _ hs
      | @abstract t _ _ hs ha _ =>
        have := plain _ hs
        cases t <;> simp [TypeDefinition.isComposite, TypeDefinition.isAbstract] at this ha
    | _ => cases hv
  | _ => cases hv

section

variable {t : ObjectType} {sets : List SelectionSet} {path : ResponsePath} {members : List Course}

theorem exists_course_of_value
    (places : members.map Course.place = (x.selected t sets).map (SelectedField.place path))
    {values : List Json} (hv : completions members = some values) {s : SelectedField} {w : Json}
    (h : (s, w) ∈ (x.selected t sets).zip values) :
    ∃ c ∈ members, c.place = s.place path ∧ c.completion = some w := by
  have all := completions_eq_some.mp hv
  obtain ⟨i, hi, he⟩ := List.mem_iff_getElem.mp h
  obtain ⟨hs, hw⟩ : i < (x.selected t sets).length ∧ i < values.length := by
    simpa [Nat.lt_min] using hi
  have hm : i < members.length := all.length_eq ▸ hw
  simp only [List.getElem_zip, Prod.mk.injEq] at he
  refine ⟨members[i], List.getElem_mem hm, ?_, ?_⟩
  · have := congrArg (·[i]?) places
    simpa [hm, hs, he.1] using this
  · rw [← he.2]
    exact (List.forall₂_iff_get.mp all).2 i hm hw

theorem typename_of_selected (plain : x.PlainString) {s : SelectedField}
    (hs : s ∈ x.selected t sets)
    (typename : ∃ first, s.field.nodes.head? = some first ∧ first.name.value = "__typename")
    {c : Course} (hp : c.place = s.place path) {source w : Json}
    (resolves : x.MayResolve c.place.field c.place.path source c.resolved) (follows : x.Follows c)
    (hw : c.completion = some w) : w = .string t.name := by
  obtain ⟨-, parent, first, hf, hd⟩ := selected_spec hs
  obtain ⟨first', hf', name⟩ := typename
  obtain rfl : first = first' := Option.some.inj (hf.symm.trans hf')
  have definition : s.field.definition = typenameField := by
    rw [name] at hd
    simpa [Schema.field?, TypeDefinition.isComposite, eq_comm] using hd
  have field : c.place.field = s.field := by rw [hp]; rfl
  have type : c.place.type = s.field.definition.type := by rw [hp]; rfl
  have raw : c.raw = some w := by
    rcases c.completion_cases with ⟨u, hu, hcu⟩ | ⟨-, hcu⟩
    · rw [hu, Option.some.inj (hcu.symm.trans hw)]
    · rw [type, definition] at hcu
      rw [hcu] at hw
      cases hw
  unfold Follows at follows
  rw [← parent, ← field]
  refine typename_of_completes plain (field ▸ definition) (type.trans (definition ▸ rfl))
    resolves (fun u hu => ?_) (fun problem hproblem => ?_) raw
  · rwa [hu] at follows
  · rw [hproblem] at follows
    exact ⟨_, follows.1⟩

theorem conforms_of_members {source v : Json}
    (places : members.map Course.place = (x.selected t sets).map (SelectedField.place path))
    (resolves : ∀ c ∈ members, x.MayResolve c.place.field c.place.path source c.resolved)
    (follows : ∀ c ∈ members, x.Follows c)
    (each : ∀ c ∈ members, ∀ v, c.raw = some v →
      x.Conforms (.value c.place.type c.place.field.sets) v)
    (hv : objectOf members = some v) : x.Conforms (.object t sets) v := by
  obtain ⟨values, hvs, rfl⟩ := Option.map_eq_some_iff.mp hv
  have length : values.length = (courseKeys members).length := by
    simpa [courseKeys] using (completions_eq_some.mp hvs).length_eq.symm
  have snd : ((courseKeys members).zip values).map Prod.snd = values :=
    List.map_snd_zip (Nat.le_of_eq length)
  refine .fields ?_ (fun s w h => ?_) (fun s w h typename plain => ?_)
  · rw [← courseKeys_of_places places]
    exact keys_of_objectOf hv
  · rw [snd] at h
    obtain ⟨c, hc, hp, hw⟩ := exists_course_of_value places hvs h
    have field : c.place.field = s.field := by rw [hp]; rfl
    have type : c.place.type = s.field.definition.type := by rw [hp]; rfl
    rw [← type, ← field]
    exact conforms_absorb (each c hc) (c.completion_eq ▸ hw)
  · rw [snd] at h
    obtain ⟨c, hc, hp, hw⟩ := exists_course_of_value places hvs h
    exact typename_of_selected plain (List.of_mem_zip h).1 typename hp (resolves c hc)
      (follows c hc) hw

end

/-- What a value is completed to conforms to its type. -/
theorem Completes.conforms {field : FieldRef} {type : TypeRef} {path : ResponsePath}
    {value : Json} {fate : Fate} {members : List Course}
    (h : x.Completes field type path value fate members) {v : Json}
    (hv : fate.complete (courseKeys members) (completions members) = some v) :
    x.Conforms (.value type field.sets) v := by
  induction h generalizing v with
  | null hn =>
    cases hv
    exact .null hn
  | nonNull h hne ih =>
    refine .nonNull (ih hv) ?_
    rintro rfl
    exact hne (h.null_of_complete hv).1
  | nullNotAllowed | notIterable | invalid | untyped => cases hv
  | @list field item path values members places resolved _ ih =>
    obtain ⟨results, hr, rfl⟩ := Option.map_eq_some_iff.mp hv
    refine .list fun w hw => ?_
    obtain ⟨i, hi, rfl⟩ := List.mem_iff_getElem.mp hw
    have all := completions_eq_some.mp hr
    have hm : i < members.length := all.length_eq ▸ hi
    have completion := (List.forall₂_iff_get.mp all).2 i hm hi
    have hc : members[i] ∈ members := List.getElem_mem hm
    obtain ⟨u, -, hu⟩ := List.mem_map.mp (resolved ▸ List.mem_map_of_mem hc)
    obtain ⟨j, _, hj⟩ := List.mem_mapIdx.mp (places ▸ List.mem_map_of_mem hc)
    have each : ∀ v, (members[i]).raw = some v → x.Conforms (.value item field.sets) v := by
      intro v hv
      have := ih _ hc u hu.symm hv
      rwa [← hj] at this
    rw [List.get_eq_getElem, Course.completion_eq, ← hj] at completion
    exact conforms_absorb each completion
  | leaf _ hl =>
    cases hv
    exact conforms_of_leaf _ hl
  | @object field name path value type sets members _ ht hsets places resolves failed completes
      ih =>
    subst hsets
    refine conforms_of_mayHaveType ht (conforms_of_members places resolves ?_ ?_ hv)
    · intro c hc
      unfold Follows
      split
      · exact completes c hc _ ‹_›
      · exact failed c hc _ ‹_›
    · intro c hc w hw
      rcases hr : c.resolved with problem | u
      · rw [Course.raw, (failed c hc problem hr).1] at hw
        cases hw
      · exact ih c hc u hr hw

/-- The data of a run conforms to the selection of its operation on the root type. -/
theorem RootFollows.conforms {root : ObjectType} {courses : List Course}
    (h : x.RootFollows root courses) {d : Json} (hd : objectOf courses = some d) :
    x.Conforms (.object root [x.operation.selectionSet]) d := by
  refine conforms_of_members (h.places_of_objectOf hd) h.resolved h.follows (fun c hc v hv => ?_) hd
  have follows := h.follows c hc
  unfold Follows at follows
  split at follows
  · exact follows.conforms hv
  · rw [Course.raw, follows.1] at hv
    cases hv

end Execution

/-- Whatever the resolvers do, the data of a response conforms to the root type and the selection of
the operation. -/
theorem execute_conforms {request : Request σ} {document : Document} {depth : Nat} {s s' : σ}
    {scheduler : Scheduler σ RecordedError Completion} {response : Response} {d : Json}
    (run : execute request document depth s scheduler = some (response, s'))
    (data : response.data = some d) :
    ∃ x root, request.prepare document scheduler = .ok (x, root) ∧
      x.Conforms (.object root [x.operation.selectionSet]) d := by
  rcases prepared : request.prepare document scheduler with errors | ⟨x, root⟩
  · simp only [execute, prepared, Option.some.injEq, Prod.mk.injEq] at run
    rw [← run.1] at data
    cases data
  · obtain ⟨courses, h⟩ := exists_explains prepared run
    exact ⟨x, root, rfl, h.root.conforms (h.data ▸ data)⟩

theorem execute_conforms_count :
    ∃ response, execute (Count.request (.integer ⟨3, by decide⟩)) Count.document 0 () =
        some (response, ()) ∧
      response.data = some (.object [("count", .integer ⟨3, by decide⟩)]) ∧
      ∃ x root, (Count.request (.integer ⟨3, by decide⟩)).prepare Count.document = .ok (x, root) ∧
        x.Conforms (.object root [x.operation.selectionSet])
          (.object [("count", .integer ⟨3, by decide⟩)]) := by
  have run : execute (Count.request (.integer ⟨3, by decide⟩)) Count.document 0 () =
      some (⟨some (.object [("count", .integer ⟨3, by decide⟩)]), inResponseOrder []⟩, ()) := rfl
  exact ⟨_, run, rfl, execute_conforms run rfl⟩

namespace StringObject

def position : Position := ⟨1, 1⟩

/-- `type Query { a: Int } type String { b: Int }` -/
def definitions : List TypeSystem.Definition :=
  [.type (.object ⟨position, none, "Query", [], [],
      [⟨position, none, "a", [], .named "Int", []⟩]⟩),
    .type (.object ⟨position, none, "String", [], [],
      [⟨position, none, "b", [], .named "Int", []⟩]⟩)]

/-- `{ __typename }` -/
def document : Document :=
  ⟨[.operation ⟨.query, none, [], [],
    ⟨[.field { name := ⟨"__typename", none⟩ }], none⟩, none⟩], none⟩

end StringObject

/-- Where `String` is an object type, `__typename` is an object, not the name of the type. -/
theorem typename_of_stringObject :
    ∃ schema response,
      Schema.ofDefinitions StringObject.definitions = .ok schema ∧
      execute (⟨schema, {}, .null, [], none⟩ : Request Unit) StringObject.document 1 () =
        some (response, ()) ∧
      response.data = some (.object [("__typename", .object [])]) :=
  ⟨_, ⟨some (.object [("__typename", .object [])]), inResponseOrder []⟩, rfl, rfl, rfl⟩

end GraphQL
