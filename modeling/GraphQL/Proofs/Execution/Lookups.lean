import GraphQL.Proofs.Execution.Bounded

/-!
Requests without resolvers of fields. The value of every field is looked up in the value above it,
and so nests less deep: whatever fragments do, and although no rule may have looked at the document,
executions end, and fields nest at most one level deeper than the root value.

Main statement: `execute_lookups`.
-/
namespace GraphQL

open Ast TypeSystem

namespace Json

theorem depth_le_of_mem {items : List Json} {item : Json} (h : item ∈ items) :
    item.depth ≤ itemsDepth items := by
  induction items with
  | nil => cases h
  | cons first rest ih =>
    rw [itemsDepth]
    rcases List.mem_cons.mp h with rfl | h
    · exact Nat.le_max_left ..
    · exact Nat.le_trans (ih h) (Nat.le_max_right ..)

theorem depth_le_of_entry {entries : Entries Json} {key : String} {v : Json}
    (h : (key, v) ∈ entries) : v.depth ≤ entriesDepth entries := by
  induction entries with
  | nil => cases h
  | cons first rest ih =>
    obtain ⟨k, w⟩ := first
    rw [entriesDepth]
    rcases List.mem_cons.mp h with heq | h
    · cases heq
      exact Nat.le_max_left ..
    · exact Nat.le_trans (ih h) (Nat.le_max_right ..)

theorem depth_lt_of_property? {value v : Json} {key : String} (h : value.property? key = some v) :
    v.depth < value.depth := by
  cases value with
  | object entries =>
    rw [depth]
    exact Nat.lt_succ_of_le (depth_le_of_entry (Entries.mem_of_get? h))
  | _ => cases h

end Json

variable {σ : Type}

/-- No field has a resolver, and there is none for all others; types may have resolvers. -/
structure Resolvers.NoFields (r : Resolvers σ) : Prop where
  fields : r.fields = []
  fallback : r.fallback = none

theorem Resolvers.NoFields.resolver? {r : Resolvers σ} (h : r.NoFields) (type field : String) :
    r.resolver? type field = none := by
  rw [Resolvers.resolver?, h.fields, h.fallback]
  rfl

theorem Resolvers.NoFields.return {r : Resolvers σ} (h : r.NoFields) : r.Return := by
  intro info
  rw [invoke, h.resolver?]
  exact id

namespace Execution

variable {x : Execution σ}

/-- All fields are looked up, and the name of a type is a scalar. -/
structure LooksUp (x : Execution σ) : Prop where
  noFields : x.resolvers.NoFields
  string : ∃ t, x.schema.type? "String" = some (.scalar t)

/-- The value of a field is the name of its type, or a null, or it nests less deep than the value
above it. -/
theorem LooksUp.resolveField (h : x.LooksUp) (field : FieldRef) (path : ResponsePath)
    (source : Json) :
    ∃ r, x.resolveField field path source = .done r ∧ ∀ v, r = .ok v →
      (field.definition.name = "__typename" ∧ v = .string field.parent.name) ∨
        v = .null ∨ v.depth < source.depth := by
  rw [resolveField_eq]
  split
  · rename_i typename
    exact ⟨_, rfl, fun v hv => .inl ⟨typename, (Except.ok.inj hv).symm⟩⟩
  · split
    · exact ⟨_, rfl, nofun⟩
    · rw [Resolvers.invoke, h.noFields.resolver?]
      refine ⟨_, rfl, fun v hv => .inr ?_⟩
      obtain rfl : (source.property? field.definition.name).getD .null = v := Except.ok.inj hv
      cases hp : source.property? field.definition.name with
      | none => exact .inl rfl
      | some v => exact .inr (Json.depth_lt_of_property? hp)

/-- The completer, for values that nest less deep than `n` alone. -/
def shallow (object : ObjectCompleter σ) (n : Nat) : ObjectCompleter σ :=
  fun type field path value => if value.depth < n then object type field path value else .done none

/-- Completing a value completes objects in it alone. -/
theorem completeValue_shallow (object : ObjectCompleter σ) {n : Nat} (field : FieldRef)
    (type : TypeRef) (path : ResponsePath) (value : Json) (h : value = .null ∨ value.depth < n) :
    x.completeValue (shallow object n) field type path value =
      x.completeValue object field type path value := by
  induction type generalizing path value with
  | named name =>
    rw [completeValue, completeValue]
    rcases h with rfl | deep
    · rfl
    · have found (type : ObjectType) : shallow object n type field path value =
          object type field path value := if_pos deep
      unfold completeNamed
      simp only [found]
  | list item ih =>
    cases value
    case array items =>
      have deep := h.resolve_left (by simp)
      rw [Json.depth] at deep
      rw [completeValue, completeValue, List.mapIdx_eq_zipIdx_map, List.mapIdx_eq_zipIdx_map]
      have same : items.zipIdx.map (fun p => (x.completeValue (shallow object n) field item
            (path.child (.index p.2) p.2) p.1).map (Completion.absorb item)) =
          items.zipIdx.map fun p => (x.completeValue object field item
            (path.child (.index p.2) p.2) p.1).map (Completion.absorb item) := by
        refine List.map_congr_left fun p hp => ?_
        have below := Json.depth_le_of_mem (List.fst_mem_of_mem_zipIdx hp)
        rw [ih _ _ (.inr (by omega))]
      exact congrArg (fun works => (x.scheduler.join works).map _) same
    all_goals rfl
  | nonNull inner ih => rw [completeValue, completeValue, ih path value h]

theorem LooksUp.completeValue_string (h : x.LooksUp) (object object' : ObjectCompleter σ)
    (field : FieldRef) (path : ResponsePath) (text : String) :
    x.completeValue object field (.nonNull (.named "String")) path (.string text) =
      x.completeValue object' field (.nonNull (.named "String")) path (.string text) := by
  obtain ⟨t, ht⟩ := h.string
  rw [completeValue, completeValue, completeValue, completeValue, completeNamed, completeNamed, ht]

theorem LooksUp.executeField_shallow (h : x.LooksUp) (object : ObjectCompleter σ)
    {type : ObjectType} {sets : List SelectionSet} {s : SelectedField}
    (hs : s ∈ x.selected type sets) (path : ResponsePath) (source : Json) :
    x.executeField (shallow object source.depth) s.field path source =
      x.executeField object s.field path source := by
  obtain ⟨r, resolved, looked⟩ := h.resolveField s.field path source
  unfold executeField
  rw [resolved]
  cases r with
  | error problem => rfl
  | ok value =>
    refine congrArg (Work.map _) ?_
    change x.completeValue _ s.field _ path value = x.completeValue _ s.field _ path value
    rcases looked value rfl with ⟨name, rfl⟩ | deep
    · rw [selected_typename hs name]
      exact h.completeValue_string ..
    · exact completeValue_shallow object s.field _ path value deep

theorem LooksUp.fieldWorks_shallow (h : x.LooksUp) (object : ObjectCompleter σ)
    (type : ObjectType) (sets : List SelectionSet) (path : ResponsePath) (source : Json) :
    x.fieldWorks (shallow object source.depth) type source (x.collect type sets) path =
      x.fieldWorks object type source (x.collect type sets) path := by
  rw [fieldWorks_eq, fieldWorks_eq]
  refine List.map_congr_left fun s hs => ?_
  rw [h.executeField_shallow object hs]

/-- A value is completed alike at any two depths that exceed its own. -/
theorem LooksUp.completeObject_depth (h : x.LooksUp) {n m k : Nat} (hn : k ≤ n) (hm : k ≤ m) :
    shallow (x.completeObject n) k = shallow (x.completeObject m) k := by
  induction n generalizing m k with
  | zero =>
    obtain rfl : k = 0 := by omega
    rfl
  | succ n ih =>
    funext type field path value
    unfold shallow
    split
    · rename_i deep
      obtain ⟨m, rfl⟩ : ∃ m', m = m' + 1 := ⟨m - 1, by omega⟩
      have below : value.depth ≤ n := by omega
      have below' : value.depth ≤ m := by omega
      rw [completeObject, completeObject, ← h.fieldWorks_shallow (x.completeObject n),
        ih below below', h.fieldWorks_shallow]
    · rfl

/-- The fields of a value end if objects do that nest less deep than the value. -/
theorem LooksUp.fieldWorks_ends (h : x.LooksUp) {object : ObjectCompleter σ} {source : Json}
    (objects : ∀ type field path value,
      ¬ (shallow object source.depth type field path value).MayStop)
    (type : ObjectType) (sets : List SelectionSet) (path : ResponsePath) :
    ∀ entry ∈ x.fieldWorks object type source (x.collect type sets) path, ¬ entry.2.MayStop := by
  rw [← h.fieldWorks_shallow]
  apply Execution.fieldWorks_ends
  intro s _
  exact executeField_ends (fun type path value => objects type s.field path value)
    h.noFields.return _ source

theorem LooksUp.completeObject_ends (h : x.LooksUp) {n k : Nat} (hk : k ≤ n) (type : ObjectType)
    (field : FieldRef) (path : ResponsePath) (value : Json) :
    ¬ (shallow (x.completeObject n) k type field path value).MayStop := by
  induction n generalizing k type field path value with
  | zero =>
    obtain rfl : k = 0 := by omega
    exact id
  | succ n ih =>
    unfold shallow
    split
    · apply joined_ends
      exact h.fieldWorks_ends (ih (by omega)) _ _ path
    · exact id

theorem LooksUp.completeRoot_ends (h : x.LooksUp) {depth : Nat} (enough : x.rootValue.depth ≤ depth)
    (root : ObjectType) : ¬ (x.completeRoot depth root).MayStop := by
  have each := h.fieldWorks_ends (h.completeObject_ends enough) root [x.operation.selectionSet] {}
  unfold completeRoot
  dsimp only
  split
  · exact oneByOne_ends each []
  · exact joined_ends each

theorem LooksUp.completeRoot_depth (h : x.LooksUp) {depth : Nat}
    (enough : x.rootValue.depth ≤ depth) (root : ObjectType) :
    x.completeRoot depth root = x.completeRoot x.rootValue.depth root := by
  unfold completeRoot
  simp only [← h.fieldWorks_shallow (x.completeObject depth),
    h.completeObject_depth enough (Nat.le_refl _), h.fieldWorks_shallow]

theorem Completes.members_null {field : FieldRef} {type : TypeRef} {path : ResponsePath}
    {fate : Fate} {members : List Course}
    (h : x.Completes field type path .null fate members) : members = [] := by
  generalize hv : Json.null = value at h
  induction h with
  | null => rfl
  | nonNull _ _ ih => exact ih hv
  | list => cases hv
  | object nonNull => subst hv; cases nonNull
  | _ => rfl

theorem LooksUp.members_string (h : x.LooksUp) {field : FieldRef} {path : ResponsePath}
    {value : Json} {fate : Fate} {members : List Course}
    (completes : x.Completes field (.nonNull (.named "String")) path value fate members) :
    members = [] := by
  obtain ⟨scalar, hs⟩ := h.string
  cases completes with
  | null hn => rfl
  | nullNotAllowed _ => rfl
  | nonNull inner _ =>
    cases inner with
    | object _ has =>
      generalize hr : (Except.ok _ : Except FieldProblem ObjectType) = r at has
      cases has with
      | object ht => simp [hs] at ht
      | abstract ht isAbstract =>
        rw [hs] at ht
        cases ht
        cases isAbstract
    | _ => rfl

theorem fieldCount_le_of_fields {type : ObjectType} {sets : List SelectionSet}
    {path : ResponsePath} {members : List Course} {n : Nat}
    (places : ∀ c ∈ members, c.place ∈ (x.selected type sets).map (SelectedField.place path))
    (below : ∀ c ∈ members, ∀ p d, Below c.members p d → fieldCount p ≤ n) :
    ∀ p d, Below members p d → fieldCount p ≤ n + 1 := by
  have step {c : Course} (hc : c ∈ members) (p : List PathElement) :
      fieldCount (c.place.step :: p) = fieldCount p + 1 := by
    obtain ⟨s, -, hp⟩ := List.mem_map.mp (places c hc)
    have key : c.place.step = .key s.key := hp ▸ rfl
    simp [fieldCount, key]
  intro p d hb
  cases hb with
  | here hd =>
    rw [step hd]
    exact Nat.succ_le_succ (Nat.zero_le _)
  | deeper hc hb =>
    rw [step hc]
    exact Nat.succ_le_succ (below _ hc _ d hb)

/-- Fields below a field of a value nest no deeper than the value, if they nest at most one level
deeper than that of the field. -/
theorem LooksUp.fieldCount_le_of_field (h : x.LooksUp) {type : ObjectType}
    {sets : List SelectionSet} {path : ResponsePath} {source : Json} {c : Course}
    (place : c.place ∈ (x.selected type sets).map (SelectedField.place path))
    (resolved : x.MayResolve c.place.field c.place.path source c.resolved) (follows : x.Follows c)
    (below : ∀ v, c.resolved = .ok v → ∀ p d, Below c.members p d → fieldCount p ≤ v.depth + 1) :
    ∀ p d, Below c.members p d → fieldCount p ≤ source.depth := by
  obtain ⟨s, hs, hp⟩ := List.mem_map.mp place
  have field : c.place.field = s.field := hp ▸ rfl
  have declared : c.place.type = s.field.definition.type := hp ▸ rfl
  obtain ⟨r, done, looked⟩ := h.resolveField c.place.field c.place.path source
  obtain ⟨es, ends⟩ := resolved
  rw [done] at ends
  obtain ⟨same, -⟩ := ends
  have none (empty : c.members = []) :
      ∀ p d, Below c.members p d → fieldCount p ≤ source.depth := by
    intro p d hb
    rw [empty] at hb
    cases hb <;> contradiction
  unfold Follows at follows
  rcases hr : c.resolved with problem | v <;> rw [hr] at follows
  · exact none follows.2
  rcases looked v (same.symm.trans hr) with ⟨name, -⟩ | rfl | deep
  · rw [declared, selected_typename hs (field ▸ name)] at follows
    exact none (h.members_string follows)
  · exact none follows.members_null
  · exact fun p d hb => Nat.le_trans (below v hr p d hb) deep

/-- Below a value fields nest at most one level deeper than the value does. -/
theorem LooksUp.fieldCount_le (h : x.LooksUp) {field : FieldRef} {type : TypeRef}
    {path : ResponsePath} {value : Json} {fate : Fate} {members : List Course}
    (completes : x.Completes field type path value fate members) :
    ∀ p d, Below members p d → fieldCount p ≤ value.depth + 1 := by
  have index (i : Nat) (p : List PathElement) : fieldCount (.index i :: p) = fieldCount p := by
    simp [fieldCount]
  induction completes with
  | nonNull _ _ ih => exact ih
  | @list field item path values members places resolved _ ih =>
    have step {c : Course} (hc : c ∈ members) : ∃ i, c.place.step = .index i := by
      have place := List.mem_map_of_mem (f := Course.place) hc
      rw [places] at place
      obtain ⟨i, _, hp⟩ := List.mem_mapIdx.mp place
      exact ⟨i, hp ▸ rfl⟩
    intro p d hb
    cases hb with
    | here hd =>
      obtain ⟨i, hi⟩ := step hd
      rw [hi, index]
      exact Nat.zero_le _
    | @deeper _ c _ p hc hb =>
      obtain ⟨i, hi⟩ := step hc
      have value := List.mem_map_of_mem (f := Course.resolved) hc
      rw [resolved] at value
      obtain ⟨v, hv, hr⟩ := List.mem_map.mp value
      have below := ih c hc v hr.symm p d hb
      have within := Json.depth_le_of_mem hv
      rw [hi, index, Json.depth]
      omega
  | @object field name path value type sets members _ _ _ places resolved failed completes ih =>
    have place (c : Course) (hc : c ∈ members) :
        c.place ∈ (x.selected type sets).map (SelectedField.place path) :=
      places ▸ List.mem_map_of_mem hc
    refine fieldCount_le_of_fields place fun c hc => ?_
    have follows : x.Follows c := by
      unfold Follows
      split
      · exact completes c hc _ ‹_›
      · exact failed c hc _ ‹_›
    exact h.fieldCount_le_of_field (place c hc) (resolved c hc) follows (ih c hc)
  | _ =>
    intro p d hb
    cases hb <;> contradiction

theorem LooksUp.fieldCount_le_of_root (h : x.LooksUp) {root : ObjectType} {courses : List Course}
    (follows : x.RootFollows root courses) :
    ∀ p d, Below courses p d → fieldCount p ≤ x.rootValue.depth + 1 := by
  have place (c : Course) (hc : c ∈ courses) : c.place ∈
      (x.selected root [x.operation.selectionSet]).map (SelectedField.place {}) :=
    follows.sublist.subset (List.mem_map_of_mem hc)
  refine fieldCount_le_of_fields place fun c hc => ?_
  refine h.fieldCount_le_of_field (place c hc) (follows.resolved c hc) (follows.follows c hc) ?_
  intro v hv
  have completes := follows.follows c hc
  unfold Follows at completes
  rw [hv] at completes
  exact h.fieldCount_le completes

end Execution

/-- Without resolvers of fields every execution of every document ends, where the names of types are
scalars: there is one response, whatever depth from that of the root value on is allowed. However
the execution went that gave it, no position has a path with more field keys than the root value
nests deep, plus one. -/
theorem execute_lookups (request : Request σ) (noFields : request.resolvers.NoFields)
    (string : ∃ t, request.schema.type? "String" = some (.scalar t)) (document : Document) (s : σ)
    (scheduler : Scheduler σ RecordedError Completion) :
    ∃ response s', (∀ depth, request.rootValue.depth ≤ depth →
        execute request document depth s scheduler = some (response, s')) ∧
      ∀ x root, request.prepare document scheduler = .ok (x, root) →
        (∃ courses, x.Explains root courses response) ∧
        ∀ courses, x.RootFollows root courses →
          ∀ path c, Below courses path c → fieldCount path ≤ request.rootValue.depth + 1 := by
  rcases hp : request.prepare document scheduler with errors | ⟨x, root⟩
  · refine ⟨.ofErrors errors, s, fun depth _ => ?_, fun x root prepared => ?_⟩
    · simp only [execute, hp]
    · cases prepared
  have prepared := Request.isPrepared hp
  rw [← prepared.resolvers] at noFields
  rw [← prepared.schema] at string
  have looksUp : x.LooksUp := ⟨noFields, string⟩
  rw [← Request.rootValue_of_prepare hp]
  have ends : (x.completeRoot x.rootValue.depth root).run s ≠ none := fun none =>
    looksUp.completeRoot_ends (Nat.le_refl _) root (Work.mayStop_of_run none)
  obtain ⟨⟨data, errors, s'⟩, run⟩ := Option.ne_none_iff_exists'.mp ends
  have response (depth : Nat) (enough : x.rootValue.depth ≤ depth) :
      execute request document depth s scheduler =
        some (⟨data, inResponseOrder errors⟩, s') := by
    simp only [execute, hp]
    rw [looksUp.completeRoot_depth enough, run]
    rfl
  refine ⟨⟨data, inResponseOrder errors⟩, s', response, ?_⟩
  rintro x' root' same
  cases same
  exact ⟨exists_explains hp (response _ (Nat.le_refl _)), fun courses follows =>
    looksUp.fieldCount_le_of_root follows⟩

namespace Chain

/-- `{"self": "x"}` for the schema of `endless`, with nothing resolved. -/
def lookups : Request Unit :=
  { schema, resolvers := {}, rootValue := .object [("self", .string "x")] }

end Chain

/-- The endless document ends: two levels of fields are looked up in a root value of depth one. -/
theorem execute_lookups_endless :
    (Chain.lookups.resolvers.NoFields ∧
      ∃ t, Chain.lookups.schema.type? "String" = some (.scalar t)) ∧
    Chain.lookups.rootValue.depth = 1 ∧
    ∃ response, (∀ depth, 1 ≤ depth →
        execute Chain.lookups Chain.endless depth () = some (response, ())) ∧
      ∃ x root courses, Chain.lookups.prepare Chain.endless = .ok (x, root) ∧
        x.Explains root courses response ∧
        ∀ path c, Below courses path c → fieldCount path ≤ 2 := by
  have noFields : Chain.lookups.resolvers.NoFields := ⟨rfl, rfl⟩
  have string : ∃ t, Chain.lookups.schema.type? "String" = some (.scalar t) := ⟨_, rfl⟩
  obtain ⟨response, s', same, bounds⟩ :=
    execute_lookups Chain.lookups noFields string Chain.endless () .rounds
  obtain ⟨⟨courses, explains⟩, bound⟩ := bounds _ _ rfl
  exact ⟨⟨noFields, string⟩, rfl, response, same, _, _, courses, rfl, explains,
    bound courses explains.root⟩

example : (execute Chain.lookups Chain.endless 1 ()).map (·.1.data) =
    some (some (.object [("self", .object [("self", .null)])])) := by rfl

end GraphQL
