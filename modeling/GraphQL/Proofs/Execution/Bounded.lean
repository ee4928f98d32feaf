import GraphQL.Proofs.Execution.Descent
import GraphQL.Proofs.Validation.Known

/-!
Executions are bounded by their document: where no fragment is spread within one of its own fields,
every execution ends, and no resolver is called deeper in the response than the document has levels
of fields. A document whose fragment is spread within its own field has no such bound, although the
default rules accept it.
-/
namespace GraphQL

open Ast TypeSystem Validation

variable {σ : Type}

theorem within_levels {document : Document} {operation : OperationDefinition}
    (h : operation ∈ document.operations) :
    Within (fragmentTable document) document.levels operation.selectionSet.selections := by
  have total := within_total (fragmentTable document) operation.selectionSet.selections
  have one : levelsOf operation.selectionSet ≤
      totalLevels (document.operations.map (·.selectionSet)) :=
    levelsOf_le_total (List.mem_map_of_mem h)
  apply total.mono
  rw [levelsOf_eq] at one
  unfold Document.levels
  omega

/-- The resolver, but a call at a path with more field keys than the bound ends everything without a
result. -/
def Resolver.cutOff (resolver : Resolver σ) (bound : Nat) : Resolver σ := fun info =>
  if fieldCount info.path ≤ bound then resolver info else .stop

def Resolvers.cutOff (r : Resolvers σ) (bound : Nat) : Resolvers σ where
  fields := r.fields.map fun (key, resolver) => (key, resolver.cutOff bound)
  fallback := r.fallback.map (·.cutOff bound)
  types := r.types

/-- For every request on the schema whose resolvers return, executions of the document end: there is
one response, however deep objects may nest from the bound on. No resolver is called at a path with
more field keys than the bound, since the response is there even if such a call ends everything. -/
def Ast.Document.BoundedBy (document : Document) (schema : Schema) (bound : Nat) : Prop :=
  ∀ {σ : Type} (request : Request σ), request.schema = schema → request.resolvers.Return →
    ∀ (s : σ) (scheduler : Scheduler σ RecordedError Completion),
      ∃ response s', ∀ depth, bound ≤ depth →
        execute request document depth s scheduler = some (response, s') ∧
          execute (request.with (request.resolvers.cutOff bound)) document depth s scheduler =
            some (response, s')

theorem Resolvers.resolver?_cutOff (r : Resolvers σ) (bound : Nat) (type field : String) :
    (r.cutOff bound).resolver? type field = (r.resolver? type field).map (·.cutOff bound) := by
  have found : (r.cutOff bound).fields.find? (·.1 = (type, field)) =
      (r.fields.find? (·.1 = (type, field))).map fun e => (e.1, e.2.cutOff bound) := by
    simp only [cutOff, List.find?_map]
    rfl
  unfold resolver?
  rw [found]
  cases r.fields.find? (·.1 = (type, field)) <;> rfl

theorem Resolvers.sameWithin_cutOff (r : Resolvers σ) (bound : Nat) :
    r.SameWithin (r.cutOff bound) bound := by
  constructor
  · intro info within
    unfold invoke
    rw [resolver?_cutOff]
    cases r.resolver? info.parent.name info.field.name with
    | none => rfl
    | some resolver => simp [Resolver.cutOff, within]
  · intro abstract value
    rfl

section

variable {document : Document} (unnested : ¬ SelfNested (fragmentTable document))

include unnested

theorem execute_ne_none {request : Request σ} (returns : request.resolvers.Return) (s : σ)
    (scheduler : Scheduler σ RecordedError Completion) {depth : Nat}
    (enough : document.levels ≤ depth) : execute request document depth s scheduler ≠ none := by
  unfold execute
  rcases hp : request.prepare document scheduler with errors | ⟨x, root⟩
  · simp
  have prepared := Request.isPrepared hp
  have within := within_levels prepared.operation
  rw [← prepared.resolvers] at returns
  rw [← prepared.fragments] at unnested within
  have ends := Execution.completeRoot_ends unnested returns enough root within
  intro none
  exact ends (Work.mayStop_of_run (Option.map_eq_none_iff.mp none))

/-- From the levels of the document on, neither the depth makes a difference nor what resolvers do
further down. -/
theorem execute_same (request : Request σ) {r : Resolvers σ}
    (same : request.resolvers.SameWithin r document.levels) (s : σ)
    (scheduler : Scheduler σ RecordedError Completion) {depth more : Nat}
    (enough : document.levels ≤ depth) (enough' : document.levels ≤ more) :
    execute request document depth s scheduler =
      execute (request.with r) document more s scheduler := by
  unfold execute
  rcases hp : request.prepare document scheduler with errors | ⟨x, root⟩
  · rw [request.prepare_with r document scheduler scheduler, hp]
    rfl
  have prepared := Request.isPrepared hp
  have within := within_levels prepared.operation
  rw [← prepared.resolvers] at same
  rw [← prepared.fragments] at unnested within
  have root_same := Execution.completeRoot_same unnested same enough enough' root within
  rw [Request.prepare_with_ok hp r scheduler, ← Request.scheduler_of_prepare hp]
  simp only [root_same]

end

/-- Where no fragment is spread within one of its own fields, the levels of the document bound all
its executions. -/
theorem execute_bounded (schema : Schema) {document : Document}
    (unnested : ¬ SelfNested (fragmentTable document)) :
    document.BoundedBy schema document.levels := by
  intro σ request _ returns s scheduler
  have least := Nat.le_refl document.levels
  obtain ⟨⟨response, s'⟩, run⟩ :=
    Option.ne_none_iff_exists'.mp (execute_ne_none unnested returns s scheduler least)
  refine ⟨response, s', ?_⟩
  intro depth enough
  have deep := execute_same unnested request (Resolvers.SameWithin.refl _ _) s scheduler
    least enough
  have cut := execute_same unnested request (request.resolvers.sameWithin_cutOff _) s scheduler
    least enough
  exact ⟨deep.symm.trans run, cut.symm.trans run⟩

namespace Chain

def position : Position := ⟨1, 1⟩

def selfDefinition : TypeSystem.Field := ⟨position, none, "self", [], .named "Query", []⟩

/-- `type Query { self: Query }` -/
def query : ObjectType := ⟨position, none, "Query", [], [], [selfDefinition]⟩

def definitions : List TypeSystem.Definition := [.type (.object query)]

def schema : Schema where
  types := ("Query", .object query) :: builtinScalars.map fun t => (t.name, .scalar t)
  directives := builtinDirectives.map fun d => (d.name, d)
  query := "Query"
  mutation := none
  subscription := none

def spread (name : String) : Selection := .spread ⟨⟨name, none⟩, [], none⟩

/-- `self { ...name }` -/
def selfNode (name : String) : Ast.Field :=
  ⟨none, ⟨"self", none⟩, [], [], some ⟨[spread name], none⟩, none⟩

def operation : OperationDefinition := ⟨.query, none, [], [], ⟨[spread "F"], none⟩, none⟩

def fragment (name : String) (selections : List Selection) : FragmentDefinition :=
  ⟨⟨name, none⟩, ⟨⟨"Query", none⟩, none⟩, [], ⟨selections, none⟩, none⟩

def document (fragments : List FragmentDefinition) : Document :=
  ⟨.operation operation :: fragments.map .fragment, none⟩

/-- `{ ...F } fragment F on Query { self { ...G } } fragment G on Query { ...H __typename }`
`fragment H on Query { ...G }` -/
def linked : Document :=
  document [fragment "F" [.field (selfNode "G")],
    fragment "G" [spread "H", .field { name := ⟨"__typename", none⟩ }],
    fragment "H" [spread "G"]]

/-- `{ ...F } fragment F on Query { self { ...F } }` -/
def endless : Document := document [fragment "F" [.field (selfNode "F")]]

theorem eq_of_linked {name : String} {f : FragmentDefinition}
    (h : (fragmentTable linked).get? name = some f) :
    (name = "F" ∧ f = fragment "F" [.field (selfNode "G")]) ∨
      (name = "G" ∧ f = fragment "G" [spread "H", .field { name := ⟨"__typename", none⟩ }]) ∨
      (name = "H" ∧ f = fragment "H" [spread "G"]) := by
  have entry := Entries.mem_of_get? h
  simpa [fragmentTable, linked, document, Document.fragments, fragment] using entry

/-- No fragment spreads the first one, which alone nests another. -/
theorem unnested_linked : ¬ SelfNested (fragmentTable linked) := by
  rintro ⟨name, other, ⟨f, g, set, hf, occurs, hset, ho⟩, way⟩
  have never {n m : String} (h : Spreads (fragmentTable linked) n m) : m ≠ "F" := by
    obtain ⟨k, hk, hm⟩ := h
    rcases eq_of_linked hk with ⟨-, rfl⟩ | ⟨-, rfl⟩ | ⟨-, rfl⟩ <;>
      simp [fragment, selfNode, spread, spreadsOf, selectionsSpreads, selectionSpreads,
        fieldSpreads, optionalSpreads] at hm <;> simp [hm]
  rcases eq_of_linked hf with ⟨rfl, rfl⟩ | ⟨-, rfl⟩ | ⟨-, rfl⟩
  · rcases occurs with hg | ⟨hg, -⟩
    · obtain rfl : g = selfNode "G" := by simpa [fragment] using hg
      cases hset
      obtain rfl : other = "G" := by
        simpa [spread, spreadsOf, selectionsSpreads, selectionSpreads] using ho
      rcases Relation.ReflTransGen.cases_tail way with same | ⟨n, -, last⟩
      · exact absurd same (by decide)
      · exact never last rfl
    · simp [fragment] at hg
  · rcases occurs with hg | ⟨hg, -⟩
    · obtain rfl : g = { name := ⟨"__typename", none⟩ } := by simpa [fragment, spread] using hg
      cases hset
    · simp [fragment, spread] at hg
  · rcases occurs with hg | ⟨hg, -⟩ <;> simp [fragment, spread] at hg

end Chain

theorem execute_bounded_linked :
    ¬ SelfNested (fragmentTable Chain.linked) ∧ Chain.linked.levels = 2 ∧
      Chain.linked.BoundedBy Chain.schema Chain.linked.levels :=
  ⟨Chain.unnested_linked, rfl, execute_bounded Chain.schema Chain.unnested_linked⟩

namespace Chain

/-- A resolver of every field: an object as long as it is to go on, then null. -/
def resolvers (more : List PathElement → Bool) : Resolvers Unit where
  fallback := some fun info => .done (.value (if more info.path then .object [] else .null))

theorem return_resolvers (more : List PathElement → Bool) : (resolvers more).Return :=
  fun _ h => h

def request (r : Resolvers σ) : Request σ := { schema, resolvers := r }

def execution (r : Resolvers σ) : Execution σ :=
  ⟨schema, fragmentTable endless, operation, [], .null, r, .rounds⟩

def field : FieldRef := ⟨query, selfDefinition, [selfNode "F"]⟩

def below (path : ResponsePath) : ResponsePath := path.child (.key "self") 0

def call (path : ResponsePath) (value : Json) : ResolveInfo :=
  ⟨value, [], query, selfDefinition, (below path).elements, [selfNode "F"], schema, operation, [],
    .null⟩

def next (r : Resolvers σ) (depth : Nat) (path : ResponsePath) (value : Json) :
    Work σ RecordedError Completion :=
  (execution r).executeField ((execution r).completeObject depth) field (below path) value

def link (r : Resolvers σ) (depth : Nat) (path : ResponsePath) (value : Json) :
    Work σ RecordedError Completion :=
  (execution r).joined [("self", next r depth path value)]

theorem execute_eq (r : Resolvers σ) (depth : Nat) (s : σ) :
    execute (request r) endless depth s = ((link r depth {} .null).run s).map
      fun (data, errors, s) => (⟨data, inResponseOrder errors⟩, s) := rfl

theorem run_link (r : Resolvers σ) (depth : Nat) (path : ResponsePath) (value : Json) (s : σ) :
    (link r depth path value).run s = ((next r depth path value).run s).map
      fun e => (e.1.map fun v => .object [("self", v)], e.2) := by
  have one : (execution r).scheduler.join [next r depth path value] =
      (next r depth path value).map fun c => [c] := by
    change ((next r depth path value).both (.done [])).map _ = _
    rw [Work.both_done, Work.map_map]
  change (((execution r).scheduler.join [next r depth path value]).map _).run s = _
  rw [one, Work.map_map, Work.run_map]
  congr 1
  funext ⟨c, rest⟩
  cases c <;> rfl

section Call

variable {r : Resolvers σ} {path : ResponsePath} {value : Json}

theorem resolveField_call (r : Resolvers σ) (path : ResponsePath) (value : Json) :
    (execution r).resolveField field (below path) value =
      (r.invoke (call path value)).lift.map Outcome.toExcept := by
  rw [Execution.resolveField_eq]
  rfl

theorem next_object (h : r.invoke (call path value) = .done (.value (.object []))) (depth : Nat) :
    next r (depth + 1) path value =
      (link r depth (below path) (.object [])).map (Completion.absorb (.named "Query")) := by
  unfold next Execution.executeField
  rw [resolveField_call, h]
  rfl

theorem next_null (h : r.invoke (call path value) = .done (.value .null)) (depth : Nat) :
    next r depth path value = .done (some .null) := by
  unfold next Execution.executeField
  rw [resolveField_call, h]
  rfl

theorem next_stop (h : r.invoke (call path value) = .stop) (depth : Nat) :
    next r depth path value = .stop := by
  unfold next Execution.executeField
  rw [resolveField_call, h]
  rfl

end Call

/-- However deep objects may nest, the next one is too deep. -/
theorem link_endless (depth : Nat) (path : ResponsePath) (value : Json) (s : Unit) :
    (link (resolvers fun _ => true) depth path value).run s = none := by
  induction depth generalizing path value with
  | zero => rfl
  | succ depth ih =>
    rw [run_link, next_object rfl, Work.run_map, ih]
    rfl

/-- Resolvers that go on down to the bound are called once more, right below it. -/
theorem link_below {bound n depth : Nat} (enough : n ≤ depth) (path : ResponsePath)
    (here : fieldCount path.elements + n = bound) (value : Json) :
    (∃ data, (link (resolvers fun p => fieldCount p ≤ bound) depth path value).run () =
        some (data, [], ())) ∧
      (link ((resolvers fun p => fieldCount p ≤ bound).cutOff bound) depth path value).run () =
        none := by
  have level : fieldCount (below path).elements = fieldCount path.elements + 1 :=
    fieldCount_key path "self" 0
  have invoke : (resolvers fun p => fieldCount p ≤ bound).invoke (call path value) =
      .done (.value (if decide (fieldCount (below path).elements ≤ bound) then .object [] else
        .null)) := rfl
  induction n generalizing depth path value with
  | zero =>
    have last : ¬ fieldCount (below path).elements ≤ bound := by omega
    have cut : ((resolvers fun p => fieldCount p ≤ bound).cutOff bound).invoke (call path value) =
        .stop := if_neg last
    rw [decide_eq_false last] at invoke
    rw [run_link, run_link, next_null invoke, next_stop cut]
    exact ⟨⟨_, rfl⟩, rfl⟩
  | succ n ih =>
    obtain ⟨depth, rfl⟩ : ∃ d, depth = d + 1 := ⟨depth - 1, by omega⟩
    have more : fieldCount (below path).elements ≤ bound := by omega
    have cut := (Resolvers.sameWithin_cutOff (resolvers fun p => fieldCount p ≤ bound) bound).field
      (call path value) more
    rw [decide_eq_true more] at invoke
    obtain ⟨⟨data, ends⟩, stops⟩ := ih (Nat.le_of_succ_le_succ enough) (below path) (by omega)
      (.object []) (fieldCount_key (below path) "self" 0) rfl
    rw [run_link, run_link, next_object invoke, next_object (cut.symm.trans invoke), Work.run_map,
      Work.run_map, ends, stops]
    exact ⟨⟨_, rfl⟩, rfl⟩

theorem accepted_endless : validate schema endless defaultRules = [] := by
  obtain ⟨rest, reached⟩ : ∃ rest, reachedFragments endless.fragments ["F"] = "F" :: rest :=
    ⟨_, reachedFragments_of_find (f := fragment "F" [.field (selfNode "F")]) rfl []⟩
  have used : endless.fragments.filter (fun f =>
      !(reachedFragments endless.fragments ["F"]).contains f.name.value) = [] := by
    rw [reached]
    rfl
  apply validate_of_used
  · change (List.map _ (endless.fragments.filter fun f =>
      !(reachedFragments endless.fragments ["F"]).contains f.name.value)).map _ = []
    rw [used]
    rfl
  · decide +kernel

end Chain

/-- The default rules accept a document that spreads a fragment within its own field. Its executions
have no bound: for every number, resolvers that return may be called at a path with more field keys,
and resolvers that always return an object are called without end. -/
theorem endless_unbounded :
    Schema.ofDefinitions Chain.definitions = .ok Chain.schema ∧
      validate Chain.schema Chain.endless defaultRules = [] ∧
      (∀ bound, ¬ Chain.endless.BoundedBy Chain.schema bound) ∧
      (∀ bound, ∃ (request : Request Unit) (response : Response),
        request.schema = Chain.schema ∧ request.resolvers.Return ∧
          execute request Chain.endless bound () = some (response, ()) ∧
          execute (request.with (request.resolvers.cutOff bound)) Chain.endless bound () = none) ∧
      ∃ request : Request Unit, request.schema = Chain.schema ∧ request.resolvers.Return ∧
        ∀ depth, execute request Chain.endless depth () = none := by
  have never (depth : Nat) :
      execute (Chain.request (Chain.resolvers fun _ => true)) Chain.endless depth () = none := by
    rw [Chain.execute_eq, Chain.link_endless]
    rfl
  refine ⟨rfl, Chain.accepted_endless, ?_, ?_, ?_⟩
  · intro bound bounded
    obtain ⟨response, s, ends⟩ := bounded (Chain.request (Chain.resolvers fun _ => true)) rfl
      (Chain.return_resolvers fun _ => true) () .rounds
    have none_eq_some := (never bound).symm.trans (ends bound (Nat.le_refl bound)).1
    cases none_eq_some
  · intro bound
    let r := Chain.resolvers fun p => fieldCount p ≤ bound
    obtain ⟨⟨data, ends⟩, stops⟩ :=
      Chain.link_below (Nat.le_refl bound) {} (Nat.zero_add bound) .null
    refine ⟨Chain.request r, ⟨data, inResponseOrder []⟩, rfl,
      Chain.return_resolvers fun p => fieldCount p ≤ bound, ?_, ?_⟩
    · rw [Chain.execute_eq r, ends]
      rfl
    · have cut := Chain.execute_eq (r.cutOff bound) bound ()
      rw [stops] at cut
      exact cut
  · exact ⟨_, rfl, Chain.return_resolvers fun _ => true, never⟩

end GraphQL
