import GraphQL.Proofs.Execution.CompletedObjects
import GraphQL.Proofs.Execution.Prepared
import GraphQL.Proofs.Execution.ResponseOrder
import GraphQL.Proofs.Validation.Known

/-!
What validation says of the objects that are completed: which of the collected response keys they
have, and that all fragments met while collecting are defined. Validation does not compare the
fields that one response key merges, and lets pass what is selected under reserved names; where
neither comes in, an object lacks the keys of unknown fields with reserved names, and no others.
-/
namespace GraphQL

open Ast TypeSystem Validation

namespace Schema

/-- The type is known, and its values can have this object type. -/
def Covers (schema : Schema) (type : Option TypeRef) (t : ObjectType) : Prop :=
  ∃ r, type = some r ∧ schema.CanBe r t

/-- What a node selects on an object type can hold an object of the second type by the node's own
name, which is not reserved or known wherever the first type is possible. -/
structure Holds (schema : Schema) (t : ObjectType) (node : Ast.Field) (u : ObjectType) : Prop where
  field : ∃ f, schema.field? (.object t) node.name.value = some f ∧ schema.CanBe f.type u
  known : node.name.value.startsWith "__" = true → ∀ name d, schema.type? name = some d →
    schema.isPossible d t = true → schema.field? d node.name.value ≠ none

variable {schema : Schema} {t : ObjectType}

theorem outputType?_of_possible {r : TypeRef} {d : TypeDefinition} (hd : schema.core? r = some d)
    (possible : schema.isPossible d t = true) :
    Visit.TypeContext.outputType? schema r = some r := by
  have : d.isOutput = true := by cases d <;> first | rfl | cases possible
  simp [Visit.TypeContext.outputType?, isOutputType, hd, this]

theorem parentOf_of_possible {r : TypeRef} {d : TypeDefinition} (hd : schema.core? r = some d)
    (possible : schema.isPossible d t = true) : parentOf schema (some r) = some d := by
  simp [parentOf, hd, isComposite_of_isPossible possible]

theorem Holds.covers (named : NamesOwn schema.types) (implemented : schema.InterfacesImplemented)
    {u : ObjectType} (ht : schema.Has t) (hu : schema.Has u) {node : Ast.Field}
    (h : schema.Holds t node u) {type : Option TypeRef} (covers : schema.Covers type t)
    (known : NameKnown schema (parentOf schema type) node.name.value) :
    schema.Covers (fieldType schema (parentOf schema type) node.name.value) u := by
  obtain ⟨r, rfl, d, hd, possible⟩ := covers
  rw [parentOf_of_possible hd possible] at known ⊢
  obtain ⟨g, hg, can⟩ := h.field
  rcases hf : schema.field? d node.name.value with - | f
  · exact absurd hf (h.known (known d rfl hf) _ d hd possible)
  · obtain ⟨g', hg', covariant⟩ := field?_of_isPossible named implemented ht hd possible hf
    obtain rfl : g = g' := Option.some.inj (hg.symm.trans hg')
    obtain ⟨e, he, below⟩ := covariant u hu can
    exact ⟨f.type, by simp [fieldType, hf, outputType?_of_possible he below], e, he, below⟩

end Schema

namespace SelectionScope

variable {scope : SelectionScope} {t : ObjectType}

/-- A fragment that applies is on a type that the object type is possible for. -/
theorem isPossible_of_applies (named : NamesOwn scope.schema.types) (ht : scope.schema.Has t)
    (runtime : scope.runtimeType = .object t) {condition : NamedType}
    (h : scope.applies condition = true) :
    ∃ d, scope.schema.type? condition.name.value = some d ∧
      scope.schema.isPossible d t = true := by
  unfold applies at h
  rw [runtime] at h
  rcases hd : scope.schema.type? condition.name.value with - | d
  · rw [hd] at h
    cases h
  · refine ⟨d, rfl, ?_⟩
    rw [hd] at h
    -- a type with the name of the object type is the object type
    have same (hn : d.name = t.name) : d = .object t := by
      have names : condition.name.value = t.name := (Schema.name_of_type? named hd).symm.trans hn
      rw [names, ht.type? named] at hd
      exact (Option.some.inj hd).symm
    rcases Bool.or_eq_true_iff.mp h with hn | hm
    · rw [same (of_decide_eq_true hn)]
      simp [Schema.isPossible]
    · cases d <;> first | exact hm | cases hm

variable (scope) in
/-- Fragments that apply narrow a type that covers the object type to another that does. -/
theorem covers_narrowed (named : NamesOwn scope.schema.types) (ht : scope.schema.Has t)
    (runtime : scope.runtimeType = .object t) {type : Option TypeRef}
    (covers : scope.schema.Covers type t) {condition : Option NamedType}
    (ha : condition.all scope.applies = true) :
    scope.schema.Covers (narrowed scope.schema type condition) t := by
  cases condition with
  | none =>
    obtain ⟨r, rfl, d, hd, possible⟩ := covers
    have hd : scope.schema.core? (.named r.coreName) = some d := hd
    exact ⟨.named r.coreName, Schema.outputType?_of_possible hd possible, d, hd, possible⟩
  | some condition =>
    obtain ⟨d, hd, possible⟩ := isPossible_of_applies named ht runtime ha
    have hd : scope.schema.core? (.named condition.name.value) = some d := hd
    exact ⟨.named condition.name.value, Schema.outputType?_of_possible hd possible, d, hd,
      possible⟩

/-- What is known of selections is known of all that collecting them meets, at types with every
property that narrowing keeps. -/
theorem Meets.known {fragments : Entries FragmentDefinition} {P : Option TypeRef → Prop}
    (narrow : ∀ type condition, P type → condition.all scope.applies = true →
      P (narrowed scope.schema type condition))
    (fragment : ∀ name f, scope.fragments.get? name = some f → ∀ type,
      SetKnown scope.schema fragments (narrowed scope.schema type (some f.typeCondition))
        f.selectionSet)
    {selections : List Selection} {s : Selection} (h : scope.Meets selections s)
    {type : Option TypeRef} (hp : P type)
    (known : SelectionsKnown scope.schema fragments type selections) :
    ∃ narrower, P narrower ∧ SelectionKnown scope.schema fragments narrower s := by
  induction h generalizing type with
  | @here selections s hmem _ =>
    refine ⟨type, hp, ?_⟩
    induction selections with
    | nil => cases hmem
    | cons u rest ih =>
      rw [SelectionsKnown] at known
      rcases List.mem_cons.mp hmem with rfl | hmem
      · exact known.1
      · exact ih hmem known.2
  | @inline selections f s _ ha _ outer inner =>
    obtain ⟨narrower, hn, hk⟩ := outer hp known
    obtain ⟨condition, directives, ⟨selections, loc⟩, loc'⟩ := f
    rw [SelectionKnown, InlineKnown, SetKnown] at hk
    exact inner (narrow _ _ hn ha) hk
  | @spread selections u f s _ hf ha _ outer inner =>
    have hk := fragment _ f hf type
    rcases hs : f.selectionSet with ⟨selections, loc⟩
    rw [hs, SetKnown] at hk
    rw [hs] at inner
    exact inner (narrow _ (some f.typeCondition) hp ha) hk

end SelectionScope

variable {σ : Type}

namespace Execution

def scope (x : Execution σ) (t : ObjectType) : SelectionScope :=
  ⟨x.schema, x.fragments, x.vars, .object t⟩

/-- A completed object with one of its selection sets, which belongs to a node that can hold the
object, met in such a set of the object around it. -/
inductive Grounded (x : Execution σ) (root : ObjectType) (courses : List Course) :
    ObjectType → List SelectionSet → List Course → SelectionSet → Prop where
  | root : Grounded x root courses root [x.operation.selectionSet] courses x.operation.selectionSet
  | held {t u : ObjectType} {sets others : List SelectionSet} {members : List Course}
      {set inner : SelectionSet} {c : Course} {node : Ast.Field} :
      Grounded x root courses t sets members set → ItemOf members c →
      c.fate = .object u others → node ∈ c.place.field.nodes →
      (x.scope t).Meets set.selections (.field node) → x.schema.Holds t node u →
      node.selectionSet = some inner → Grounded x root courses u others c.members inner

/-- Nowhere are fields of two names merged in one response key, and the only reserved name is that
of the type name. -/
def Uniform (x : Execution σ) (root : ObjectType) (courses : List Course) : Prop :=
  ∀ t sets members, x.Objects root courses t sets members →
    ∀ e ∈ x.collect t sets, ∀ first, e.2.head? = some first → ∀ node ∈ e.2,
      node.name.value = first.name.value ∧
        (node.name.value.startsWith "__" = true → node.name.value = "__typename")

/-- Which response keys the completed objects have, and what they were collected from. -/
structure KeepsKeys (x : Execution σ) (root : ObjectType) (courses : List Course) : Prop where
  /-- All fragments met are defined. -/
  spreads : ∀ t sets members, x.Objects root courses t sets members → ∀ set ∈ sets, ∀ s,
    (x.scope t).Meets set.selections (.spread s) →
    ∃ f, x.fragments.get? s.name.value = some f
  /-- A key is dropped if and only if it is that of an unknown field with a reserved name. -/
  dropped : ∀ t sets members set, x.Grounded root courses t sets members set →
    ∀ entries : Entries Json, objectOf members = some (.object entries) →
    ∀ key nodes, (key, nodes) ∈ x.collect t sets → ∀ first, nodes.head? = some first →
    (x.scope t).Meets set.selections (.field first) →
    (key ∉ entries.keys ↔ first.name.value.startsWith "__" = true ∧
      x.schema.field? (.object t) first.name.value = none)
  /-- No key is dropped from uniform selections. -/
  all : x.Uniform root courses → ∀ t sets members, x.Objects root courses t sets members →
    ∀ entries : Entries Json, objectOf members = some (.object entries) →
    ∀ key ∈ (x.collect t sets).keys, key ∈ entries.keys

variable {x : Execution σ} {root : ObjectType} {courses : List Course}

theorem Grounded.objects {t : ObjectType} {sets : List SelectionSet} {members : List Course}
    {set : SelectionSet} (h : x.Grounded root courses t sets members set) :
    x.Objects root courses t sets members := by
  induction h with
  | root => exact .root
  | held _ hc hf _ _ _ _ ih => exact .held ih hc hf

theorem Uniform.grounded (uniform : x.Uniform root courses) (follows : x.RootFollows root courses)
    (has : x.schema.Has root) {t : ObjectType} {sets : List SelectionSet} {members : List Course}
    (h : x.Objects root courses t sets members) :
    ∀ set ∈ sets, x.Grounded root courses t sets members set := by
  induction h with
  | root =>
    intro set hset
    rw [List.mem_singleton.mp hset]
    exact .root
  | @held t u sets others members c outer hc hf ih =>
    intro inner hinner
    obtain ⟨hsets, -, -, s, hs, field, can⟩ := (outer.selects follows has).2.held hc hf
    obtain ⟨node, hnode, hi⟩ := List.mem_filterMap.mp (hsets ▸ hinner)
    obtain ⟨hmem, -, first, hfirst, hd⟩ := selected_spec hs
    rw [field] at hnode
    obtain ⟨name, reserved⟩ := uniform t sets members outer _ hmem first hfirst node hnode
    obtain ⟨set, hset, meets⟩ := ((collectFields_nodes hmem).2 node hnode).2
    refine .held (ih set hset) hc hf (field ▸ hnode) meets ⟨⟨_, name ▸ hd, can⟩, ?_⟩ hi
    intro hr _ d _ possible
    rw [reserved hr]
    simp [Schema.field?, Schema.isComposite_of_isPossible possible]

/-- What an execution knows of its document by validation. -/
structure Validated (x : Execution σ) (root : ObjectType) : Prop where
  named : NamesOwn x.schema.types
  implemented : x.schema.InterfacesImplemented
  rootType : x.schema.type? root.name = some (.object root)
  operation : SetKnown x.schema x.fragments (some (.named root.name)) x.operation.selectionSet
  fragment : ∀ name f, x.fragments.get? name = some f → ∀ type,
    SetKnown x.schema x.fragments (narrowed x.schema type (some f.typeCondition)) f.selectionSet

namespace Validated

theorem known_of_meets (v : x.Validated root) {P : Option TypeRef → Prop} {t : ObjectType}
    (narrow : ∀ type condition, P type → condition.all (x.scope t).applies = true →
      P (narrowed x.schema type condition))
    {set : SelectionSet} {s : Selection} (h : (x.scope t).Meets set.selections s)
    {type : Option TypeRef} (hp : P type) (known : SetKnown x.schema x.fragments type set) :
    ∃ narrower, P narrower ∧ SelectionKnown x.schema x.fragments narrower s :=
  SelectionScope.Meets.known narrow v.fragment h hp known.selections

theorem known_of_objects (v : x.Validated root) (follows : x.RootFollows root courses)
    {t : ObjectType} {sets : List SelectionSet} {members : List Course}
    (h : x.Objects root courses t sets members) :
    ∀ set ∈ sets, ∃ type, SetKnown x.schema x.fragments type set := by
  induction h with
  | root =>
    intro set hset
    rw [List.mem_singleton.mp hset]
    exact ⟨_, v.operation⟩
  | @held t u sets others members c outer hc hf ih =>
    intro inner hinner
    obtain ⟨hsets, -, -, s, hs, field, -⟩ := (outer.selects follows ⟨_, v.rootType⟩).2.held hc hf
    obtain ⟨node, hnode, hi⟩ := List.mem_filterMap.mp (hsets ▸ hinner)
    rw [field] at hnode
    obtain ⟨set, hset, meets⟩ := ((collectFields_nodes (selected_spec hs).1).2 node hnode).2
    obtain ⟨type, known⟩ := ih set hset
    obtain ⟨_, -, hk⟩ := v.known_of_meets (P := fun _ => True) (fun _ _ _ _ => trivial) meets
      trivial known
    rw [SelectionKnown] at hk
    exact ⟨_, hk.selectionSet hi⟩

theorem covers_narrowed (v : x.Validated root) {t : ObjectType} (ht : x.schema.Has t)
    (type : Option TypeRef) (condition : Option NamedType) (covers : x.schema.Covers type t)
    (ha : condition.all (x.scope t).applies = true) :
    x.schema.Covers (narrowed x.schema type condition) t :=
  SelectionScope.covers_narrowed (x.scope t) v.named ht rfl covers ha

theorem known_of_grounded (v : x.Validated root) (follows : x.RootFollows root courses)
    {t : ObjectType} {sets : List SelectionSet} {members : List Course} {set : SelectionSet}
    (h : x.Grounded root courses t sets members set) :
    ∃ type, x.schema.Covers type t ∧ SetKnown x.schema x.fragments type set := by
  induction h with
  | root =>
    refine ⟨_, ⟨.named root.name, rfl, .object root, v.rootType, ?_⟩, v.operation⟩
    simp [Schema.isPossible]
  | @held t u sets others members set inner c node outer hc hf _ meets holds hi ih =>
    obtain ⟨ht, selects⟩ := outer.objects.selects follows ⟨_, v.rootType⟩
    obtain ⟨-, hu, -⟩ := selects.held hc hf
    obtain ⟨type, covers, known⟩ := ih
    obtain ⟨narrower, covers, hk⟩ := v.known_of_meets (v.covers_narrowed ht) meets covers known
    rw [SelectionKnown] at hk
    exact ⟨_, holds.covers v.named v.implemented ht hu covers hk.name, hk.selectionSet hi⟩

/-- What a grounded set asks of its object is a field of the object or has a reserved name. -/
theorem reserved_of_grounded (v : x.Validated root) (follows : x.RootFollows root courses)
    {t : ObjectType} {sets : List SelectionSet} {members : List Course} {set : SelectionSet}
    (h : x.Grounded root courses t sets members set) {node : Ast.Field}
    (meets : (x.scope t).Meets set.selections (.field node))
    (unknown : x.schema.field? (.object t) node.name.value = none) :
    node.name.value.startsWith "__" = true := by
  obtain ⟨ht, -⟩ := h.objects.selects follows ⟨_, v.rootType⟩
  obtain ⟨type, covers, known⟩ := v.known_of_grounded follows h
  obtain ⟨_, ⟨r, rfl, d, hd, possible⟩, hk⟩ :=
    v.known_of_meets (v.covers_narrowed ht) meets covers known
  rw [SelectionKnown] at hk
  have name := hk.name
  rw [Schema.parentOf_of_possible hd possible] at name
  refine name d rfl ?_
  by_contra hf
  obtain ⟨f, hf⟩ := Option.ne_none_iff_exists'.mp hf
  obtain ⟨g, hg, -⟩ := Schema.field?_of_isPossible v.named v.implemented ht hd possible hf
  rw [unknown] at hg
  cases hg

end Validated

/-- The keys of a completed object are those that collecting finds known fields for. -/
theorem Objects.mem_keys_iff {t : ObjectType} {sets : List SelectionSet} {members : List Course}
    (h : x.Objects root courses t sets members) (follows : x.RootFollows root courses)
    (has : x.schema.Has root) {entries : Entries Json}
    (hd : objectOf members = some (.object entries)) {key : String} {nodes : List Ast.Field}
    (hk : (key, nodes) ∈ x.collect t sets) {first : Ast.Field} (hf : nodes.head? = some first) :
    key ∈ entries.keys ↔ x.schema.field? (.object t) first.name.value ≠ none := by
  rw [keys_of_objectOf hd, (h.selects follows has).2.keys _ hd]
  exact mem_selected_keys hk hf

theorem Validated.keepsKeys (v : x.Validated root) (follows : x.RootFollows root courses) :
    x.KeepsKeys root courses := by
  have has : x.schema.Has root := ⟨_, v.rootType⟩
  have dropped {t : ObjectType} {sets : List SelectionSet} {members : List Course}
      {set : SelectionSet} (h : x.Grounded root courses t sets members set)
      {entries : Entries Json} (hd : objectOf members = some (.object entries)) {key : String}
      {nodes : List Ast.Field} (hk : (key, nodes) ∈ x.collect t sets) {first : Ast.Field}
      (hf : nodes.head? = some first) (meets : (x.scope t).Meets set.selections (.field first)) :
      key ∉ entries.keys ↔ first.name.value.startsWith "__" = true ∧
        x.schema.field? (.object t) first.name.value = none := by
    rw [h.objects.mem_keys_iff follows has hd hk hf, not_not]
    exact ⟨fun unknown => ⟨v.reserved_of_grounded follows h meets unknown, unknown⟩, And.right⟩
  refine ⟨?_, fun t sets members set h entries hd key nodes hk first hf meets =>
    dropped h hd hk hf meets, ?_⟩
  · intro t sets members h set hset s meets
    obtain ⟨type, known⟩ := v.known_of_objects follows h set hset
    obtain ⟨_, -, hs⟩ := v.known_of_meets (P := fun _ => True) (fun _ _ _ _ => trivial) meets
      trivial known
    rw [SelectionKnown] at hs
    exact Option.isSome_iff_exists.mp hs
  · intro uniform t sets members h entries hd key hkey
    obtain ⟨⟨_, nodes⟩, hk, rfl⟩ := List.mem_map.mp hkey
    obtain ⟨hne, all⟩ := collectFields_nodes hk
    obtain ⟨first, hf⟩ := Option.ne_none_iff_exists'.mp (mt List.head?_eq_none_iff.mp hne)
    have hmem : first ∈ nodes := List.mem_of_head? hf
    obtain ⟨set, hset, meets⟩ := (all first hmem).2
    by_contra missing
    have grounded := uniform.grounded follows has h set hset
    obtain ⟨reserved, unknown⟩ := (dropped grounded hd hk hf meets).mp missing
    obtain ⟨-, typename⟩ := uniform t sets members h _ hk first hf first hmem
    rw [typename reserved, Schema.field?_object_typename] at unknown
    cases unknown

theorem validated_of_isPrepared {request : Request σ} {document : Document}
    {definitions : List TypeSystem.Definition} (h : request.IsPrepared document x root)
    (built : Schema.ofDefinitions definitions = .ok request.schema)
    (implemented : request.schema.InterfacesImplemented)
    (valid : validate request.schema document defaultRules = []) : x.Validated root := by
  have named := Schema.ofDefinitions_namesOwn built
  have rootType := Schema.type?_of_root? named h.root
  refine ⟨h.schema ▸ named, h.schema ▸ implemented, h.schema ▸ rootType, ?_, ?_⟩
  · have known := operation_known valid h.operation
    rw [h.root] at known
    rwa [h.schema, h.fragments]
  · intro name f hf type
    rw [h.fragments] at hf
    rw [h.schema, h.fragments]
    obtain ⟨d, hd, he⟩ := List.mem_map.mp (Entries.mem_of_get? hf)
    cases he
    exact fragment_known valid hd type

end Execution

/-- Where object types implement their interfaces and the document is accepted, completed objects
lack no response key but those of unknown fields with reserved names, and those selected under
reserved names or under nodes merged with fields of other types. All fragments met are defined. -/
theorem execute_keepsKeys {definitions : List TypeSystem.Definition} {request : Request σ}
    {document : Document} {depth : Nat} {s s' : σ}
    {scheduler : Scheduler σ RecordedError Completion} {response : Response} {x : Execution σ}
    {root : ObjectType} (built : Schema.ofDefinitions definitions = .ok request.schema)
    (implemented : request.schema.InterfacesImplemented)
    (valid : validate request.schema document defaultRules = [])
    (prepared : request.prepare document scheduler = .ok (x, root))
    (run : execute request document depth s scheduler = some (response, s')) :
    (∃ courses, x.Explains root courses response) ∧
      ∀ courses, x.Explains root courses response → x.KeepsKeys root courses := by
  have validated :=
    Execution.validated_of_isPrepared (Request.isPrepared prepared) built implemented valid
  exact ⟨exists_explains prepared run, fun _ h => validated.keepsKeys h.root⟩

namespace Pets

def position : Position := ⟨1, 1⟩

def field (name type : String) : TypeSystem.Field := ⟨position, none, name, [], .named type, []⟩

/-- `type Query { owner: Person pet: Pet }` -/
def query : ObjectType :=
  ⟨position, none, "Query", [], [], [field "owner" "Person", field "pet" "Pet"]⟩

/-- `type Person { age: Int }` -/
def person : ObjectType := ⟨position, none, "Person", [], [], [field "age" "Int"]⟩

/-- `interface Pet { name: String }` -/
def pet : InterfaceType := ⟨position, none, "Pet", [], [], [field "name" "String"]⟩

/-- `type Dog implements Pet { name: String }` -/
def dog : ObjectType := ⟨position, none, "Dog", ["Pet"], [], [field "name" "String"]⟩

def definitions : List TypeSystem.Definition :=
  [.type (.object query), .type (.object person), .type (.interface pet), .type (.object dog)]

def schema : Schema where
  types := [("Query", .object query), ("Person", .object person), ("Pet", .interface pet),
    ("Dog", .object dog)] ++ builtinScalars.map fun t => (t.name, .scalar t)
  directives := builtinDirectives.map fun d => (d.name, d)
  query := "Query"
  mutation := none
  subscription := none

theorem implemented : schema.InterfacesImplemented := by
  intro t ⟨name, ht⟩ interface listed i hi field f hf
  have hmem : t = query ∨ t = person ∨ t = dog := by
    have := Entries.mem_of_get? ht
    simp only [schema, builtinScalars, List.map_cons, List.map_nil, List.cons_append,
      List.nil_append, List.mem_cons, Prod.mk.injEq, TypeDefinition.object.injEq, reduceCtorEq,
      and_false, false_or, or_false, List.not_mem_nil] at this
    rcases this with ⟨-, h⟩ | ⟨-, h⟩ | ⟨-, h⟩
    · exact .inl h
    · exact .inr (.inl h)
    · exact .inr (.inr h)
  rcases hmem with rfl | rfl | rfl
  · cases listed
  · cases listed
  · rw [List.mem_singleton.mp listed] at hi
    cases hi
    exact ⟨f, hf, fun _ _ h => h⟩

/-- A node without arguments; no selections are a leaf. -/
def node (key : Option String) (name : String) (selections : List Selection) : Selection :=
  .field ⟨key.map (⟨·, none⟩), ⟨name, none⟩, [], [],
    if selections.isEmpty then none else some ⟨selections, none⟩, none⟩

def document (selections : List Selection) : Document :=
  ⟨[.operation ⟨.query, none, [], [], ⟨selections, none⟩, none⟩], none⟩

/-- A request on an owner of age 7 and a dog named Rex. -/
def request : Request Unit where
  schema := schema
  resolvers := { types := [("Pet", fun _ s => (some "Dog", s))] }
  rootValue := .object [("owner", .object [("age", .integer ⟨7, by decide⟩)]),
    ("pet", .object [("name", .string "Rex")])]

/-- `{ pet { name } }` -/
def pets : Document := document [node none "pet" [node none "name" []]]

/-- `{ __pet }` -/
def reserved : Document := document [node none "__pet" []]

/-- `{ x: owner { age } x: pet { name } }` -/
def merged : Document :=
  document [node (some "x") "owner" [node none "age" []],
    node (some "x") "pet" [node none "name" []]]

end Pets

theorem execute_keepsKeys_pets :
    Schema.ofDefinitions Pets.definitions = .ok Pets.request.schema ∧
      Pets.request.schema.InterfacesImplemented ∧
      validate Pets.request.schema Pets.pets defaultRules = [] ∧
      ∃ x root response, Pets.request.prepare Pets.pets = .ok (x, root) ∧
        execute Pets.request Pets.pets 2 () = some (response, ()) ∧
        response.data = some (.object [("pet", .object [("name", .string "Rex")])]) ∧
        (∃ courses, x.Explains root courses response) ∧
        ∀ courses, x.Explains root courses response → x.KeepsKeys root courses := by
  have built : Schema.ofDefinitions Pets.definitions = .ok Pets.request.schema := rfl
  have valid : validate Pets.request.schema Pets.pets defaultRules = [] :=
    List.isEmpty_iff.mp (by decide +kernel)
  have run : execute Pets.request Pets.pets 2 () =
      some (⟨some (.object [("pet", .object [("name", .string "Rex")])]), inResponseOrder []⟩,
        ()) := rfl
  exact ⟨built, Pets.implemented, valid, _, _, _, rfl, run, rfl,
    execute_keepsKeys built Pets.implemented valid rfl run⟩

/-- An unknown field with a reserved name is accepted, and dropped. -/
theorem pets_reserved_dropped :
    validate Pets.schema Pets.reserved defaultRules = [] ∧
      ∃ response, execute Pets.request Pets.reserved 1 () = some (response, ()) ∧
        response.data = some (.object []) := by
  have valid : validate Pets.schema Pets.reserved defaultRules = [] :=
    List.isEmpty_iff.mp (by decide +kernel)
  exact ⟨valid, ⟨some (.object []), inResponseOrder []⟩, rfl, rfl⟩

/-- Fields of two types are accepted under one response key, and the second's selections are
dropped. -/
theorem pets_merged_dropped :
    validate Pets.schema Pets.merged defaultRules = [] ∧
      ∃ response, execute Pets.request Pets.merged 2 () = some (response, ()) ∧
        response.data = some (.object [("x", .object [("age", .integer ⟨7, by decide⟩)])]) := by
  have valid : validate Pets.schema Pets.merged defaultRules = [] :=
    List.isEmpty_iff.mp (by decide +kernel)
  exact ⟨valid, ⟨some (.object [("x", .object [("age", .integer ⟨7, by decide⟩)])]),
    inResponseOrder []⟩, rfl, rfl⟩

end GraphQL
