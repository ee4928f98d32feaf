import GraphQL.Proofs.Execution.Erasure
import GraphQL.Proofs.Execution.NoteOrder
import GraphQL.Proofs.Execution.NullPropagation

/-!
The order in which an execution calls resolvers. Main statement: in every run each resolver is
called at most once for a path, after all fields above the path are resolved; the root fields of a
mutation take turns, and none has its turn after one whose null travels up.
-/
namespace GraphQL

open Ast TypeSystem

variable {σ : Type}

namespace Execution

variable {x : Execution (Noted σ)} {r : Resolvers σ}

theorem fail_silent (field : FieldRef) (path : ResponsePath) (problem : FieldProblem) :
    (field.fail path problem : Work (Noted σ) RecordedError Completion).Silent :=
  Work.silent_record _ _

theorem selected_steps_nodup (type : ObjectType) (sets : List SelectionSet) :
    ((x.selected type sets).map fun s => PathElement.key s.key).Nodup := by
  refine List.pairwise_map.mpr ?_
  refine (defined_pairwise type (collect_keys_nodup type sets)).imp ?_
  exact fun ⟨_, distinct⟩ same => distinct (PathElement.key.inj same)

/-- Nothing is below a field `__typename`, unless its type has fields. -/
theorem completeTypename_silent (scalar : x.schema.stringIsComposite = false)
    (object : ObjectCompleter (Noted σ)) (field : FieldRef) (path : ResponsePath)
    (value : Json) :
    (x.completeValue object field (.nonNull (.named "String")) path value).Silent := by
  rw [completeValue, completeValue]
  refine Work.Silent.bind ?_ fun c => ?_
  · split
    · exact Work.silent_done _
    unfold completeNamed
    unfold Schema.stringIsComposite at scalar
    split
    · split
      · exact Work.silent_done _
      · exact fail_silent _ _ _
    · split
      · exact Work.silent_done _
      · exact fail_silent _ _ _
    · rename_i ht
      simp [ht, TypeDefinition.isComposite] at scalar
    · exact fail_silent _ _ _
    · exact fail_silent _ _ _
    · rename_i t notScalar notEnum _ notInput ht
      cases t with
      | scalar t => exact (notScalar t rfl).elim
      | enum t => exact (notEnum t rfl).elim
      | inputObject t => exact (notInput t rfl).elim
      | object | interface | union => simp [ht, TypeDefinition.isComposite] at scalar
  · split
    · exact fail_silent _ _ _
    · exact Work.silent_done _

section

variable (noted : x.resolvers = r.noted)

include noted

theorem runtimeTypeName_silent (abstract : TypeDefinition) (value : Json) :
    (x.runtimeTypeName abstract value).Silent := by
  rw [runtimeTypeName_eq, noted, r.nameType_noted]
  refine Work.Silent.map (fun notes o h => ?_) _
  exact h.of_lift.of_quiet

/-- Without a note a field fails, or it is `__typename`. -/
theorem resolveField_shows {field : FieldRef} {path : ResponsePath} {source : Json}
    {notes : List Note} {o : Option (Except FieldProblem Json)}
    (h : (x.resolveField field path source).Shows notes o) :
    (notes <+: [.called path.elements, .returned path.elements] ∨
        notes <+: [.found path.elements]) ∧
      (o.isSome = true → notes = [.called path.elements, .returned path.elements] ∨
        notes = [.found path.elements] ∨ notes = []) ∧
      ∀ value, o = some (.ok value) → notes = [] → field.definition.name = "__typename" := by
  rw [resolveField_eq] at h
  split at h
  · obtain rfl := h.of_done
    exact ⟨.inl List.nil_prefix, fun _ => .inr (.inr rfl), fun _ _ _ => ‹_›⟩
  · split at h
    · cases h with
      | cut => exact ⟨.inl List.nil_prefix, nofun, nofun⟩
      | done => exact ⟨.inl List.nil_prefix, fun _ => .inr (.inr rfl), nofun⟩
    · obtain ⟨o', called, rfl⟩ := h.of_map
      rw [noted] at called
      obtain ⟨once, ends⟩ := Resolvers.noting_shows called.of_lift
      refine ⟨once, fun ho => ?_, fun value ho hn => ?_⟩
      · rcases ends (by simpa using ho) with h | h
        · exact .inl h
        · exact .inr (.inl h)
      · obtain ⟨outcome, rfl, -⟩ := Option.map_eq_some_iff.mp ho
        subst hn
        rcases ends rfl with h | h <;> cases h

variable {object : ObjectCompleter (Noted σ)}

def ObjectsResolve (x : Execution (Noted σ)) (object : ObjectCompleter (Noted σ)) : Prop :=
  ∀ type field path value, (object type field path value).ResolvesBelow x.schema path.elements

variable (objects : x.ObjectsResolve object)

include objects

theorem completeNamed_resolves (field : FieldRef) (path : ResponsePath) (name : String)
    (value : Json) :
    (x.completeNamed object field path name value).ResolvesBelow x.schema path.elements := by
  unfold completeNamed
  split
  · split
    · exact (Work.silent_done _).resolvesBelow
    · exact (fail_silent _ _ _).resolvesBelow
  · split
    · exact (Work.silent_done _).resolvesBelow
    · exact (fail_silent _ _ _).resolvesBelow
  · exact objects ..
  · exact (fail_silent _ _ _).resolvesBelow
  · exact (fail_silent _ _ _).resolvesBelow
  · refine .of_silent_bind (runtimeTypeName_silent noted _ value) fun name => ?_
    split
    · exact objects ..
    · exact (fail_silent _ _ _).resolvesBelow

theorem completeValue_resolves (field : FieldRef) (type : TypeRef) (path : ResponsePath)
    (value : Json) :
    (x.completeValue object field type path value).ResolvesBelow x.schema path.elements := by
  induction type generalizing path value with
  | named name =>
    rw [completeValue]
    split
    · exact (Work.silent_done _).resolvesBelow
    · exact completeNamed_resolves noted objects ..
  | list item ih =>
    cases value
    case null => exact (Work.silent_done _).resolvesBelow
    case array items =>
      rw [completeValue, List.mapIdx_eq_zipIdx_map]
      refine (Work.ResolvesBelow.join x.scheduler (fun k => .index k.2) ?_ fun k _ => ?_).map _
      · have indices : (items.zipIdx.map Prod.snd).Nodup := by
          rw [List.zipIdx_map_snd]
          exact List.nodup_range'
        have steps := indices.map fun _ _ => PathElement.index.inj
        rwa [List.map_map] at steps
      · exact ((ih (path.child (.index k.2) k.2) k.1).map _).at_index
    all_goals exact (fail_silent _ _ _).resolvesBelow
  | nonNull inner ih =>
    rw [completeValue]
    refine (ih path value).bind_silent fun c => ?_
    split
    · exact fail_silent _ _ _
    · exact Work.silent_done _

/-- The notes of the resolution of a field, and after it those below the field. -/
theorem executeField_shows {field : FieldRef} {path : ResponsePath}
    (typename : field.definition.name = "__typename" →
      field.definition.type = .nonNull (.named "String")) {source : Json} {notes : List Note}
    {o : Option Completion} (h : (x.executeField object field path source).Shows notes o) :
    ∃ first rest, notes = first ++ rest ∧
      (first <+: [.called path.elements, .returned path.elements] ∨
        first <+: [.found path.elements]) ∧
      NotesInOrder x.schema path.elements rest ∧
      (rest ≠ [] → .returned path.elements ∈ first ∨ .found path.elements ∈ first ∨
        (x.schema.stringIsComposite ∧ first = [])) ∧
      (o.isSome = true → AllReturned notes) := by
  obtain ⟨o', both, rfl⟩ := h.of_map
  rcases both.of_bind with ⟨hf, rfl⟩ | ⟨resolved, first, rest, hf, hr, rfl⟩
  · obtain ⟨once, -, -⟩ := resolveField_shows noted hf
    exact ⟨notes, [], by simp, once, .nil, nofun, nofun⟩
  obtain ⟨once, ends, typenameOnly⟩ := resolveField_shows noted hf
  have returned : AllReturned first := by
    rcases ends rfl with rfl | rfl | rfl <;> simp [AllReturned]
  cases resolved with
  | error problem =>
    obtain rfl := fail_silent _ _ _ rest o' hr
    exact ⟨first, [], rfl, once, .nil, nofun, fun _ => by simpa using returned⟩
  | ok value =>
    have below := completeValue_resolves noted objects field field.definition.type path value
    refine ⟨first, rest, rfl, once, below.inOrder rest o' hr, fun some_below => ?_, fun ho => ?_⟩
    · rcases ends rfl with rfl | rfl | rfl
      · simp
      · simp
      · refine .inr (.inr ⟨?_, rfl⟩)
        by_contra scalar
        rw [typename (typenameOnly value rfl rfl)] at hr
        exact some_below
          (completeTypename_silent (by simpa using scalar) object field path value rest o' hr)
    · rw [Option.isSome_map] at ho
      obtain ⟨c, rfl⟩ := Option.isSome_iff_exists.mp ho
      intro p hp
      rcases List.mem_append.mp hp with hp | hp
      · exact List.mem_append_left _ (returned p hp)
      · exact List.mem_append_right _ (below.returned rest c hr p hp)

theorem executeField_resolves {type : ObjectType} {sets : List SelectionSet} {s : SelectedField}
    (hs : s ∈ x.selected type sets) (path : ResponsePath) (source : Json) :
    (x.executeField object s.field (s.place path).path source).ResolvesAt x.schema path.elements
      (.key s.key) := by
  have typename := selected_typename hs
  constructor
  · constructor
    · intro notes o h
      obtain ⟨first, rest, rfl, once, below, resolved, -⟩ :=
        executeField_shows noted objects typename h
      exact (NotesInOrder.field once below resolved).1
    · intro notes c h
      obtain ⟨first, rest, rfl, -, -, -, returned⟩ := executeField_shows noted objects typename h
      exact returned rfl
  · intro notes o h
    obtain ⟨first, rest, rfl, once, below, resolved, -⟩ :=
      executeField_shows noted objects typename h
    exact (NotesInOrder.field once below resolved).2

theorem joined_resolves (type : ObjectType) (sets : List SelectionSet) (path : ResponsePath)
    (source : Json) :
    (x.joined (x.fieldWorks object type source (x.collect type sets) path)).ResolvesBelow
      x.schema path.elements := by
  rw [fieldWorks_eq]
  unfold joined
  simp only [List.map_map]
  refine (Work.ResolvesBelow.join x.scheduler (fun s : SelectedField => .key s.key)
    (selected_steps_nodup type sets) fun s hs => ?_).map _
  exact executeField_resolves noted objects hs path source

end

theorem completeObject_resolves (noted : x.resolvers = r.noted) (depth : Nat) :
    x.ObjectsResolve (x.completeObject depth) := by
  induction depth with
  | zero =>
    have silent : (Work.stop : Work (Noted σ) RecordedError Completion).Silent := by
      intro notes o h
      cases h
      rfl
    exact fun _ _ _ _ => silent.resolvesBelow
  | succ depth ih => exact fun type field path value => joined_resolves noted ih ..

theorem oneByOne_turns {schema : Schema} {path : List PathElement} {fields : List SelectedField}
    (distinct : (fields.map fun s => PathElement.key s.key).Nodup)
    {work : SelectedField → Work (Noted σ) RecordedError Completion}
    (each : ∀ s ∈ fields, (work s).ResolvesAt schema path (.key s.key)) {built : Entries Json}
    {notes : List Note} {o : Option Completion}
    (h : (oneByOne (fields.map fun s => (s.key, work s)) built).Shows notes o) :
    TakeTurns schema path (fields.map fun s => .key s.key) notes := by
  induction fields generalizing built notes o with
  | nil =>
    obtain rfl := h.of_done
    exact .nil _
  | cons s fields ih =>
    obtain ⟨fresh, distinct⟩ := List.nodup_cons.mp distinct
    have resolves := each s List.mem_cons_self
    rcases h.of_bind with ⟨hs, -⟩ | ⟨c, first, rest, hs, hr, rfl⟩
    · have alone := TakeTurns.cons fresh (resolves.inOrder notes none hs)
        (resolves.within notes none hs) (fun h => absurd rfl h) (.nil _)
      simpa using alone
    · have turns : TakeTurns schema path (fields.map fun s => .key s.key) rest := by
        cases c with
        | none =>
          obtain rfl := hr.of_done
          exact .nil _
        | some value => exact ih distinct (fun s hs => each s (List.mem_cons_of_mem _ hs)) hr
      exact .cons fresh (resolves.inOrder first _ hs) (resolves.within first _ hs)
        (fun _ => resolves.returned first c hs) turns

def rootWorks (x : Execution σ) (depth : Nat) (root : ObjectType) :
    List (String × Work σ RecordedError Completion) :=
  x.fieldWorks (x.completeObject depth) root x.rootValue
    (x.collect root [x.operation.selectionSet]) {}

/-- The root fields take turns from a state on, up to one whose null travels up. -/
structure RootsTakeTurns (x : Execution (Noted σ)) (depth : Nat) (root : ObjectType)
    (s : Noted σ) (notes : List Note) : Prop where
  /-- What is noted at and below a root field is complete before anything is noted of later ones. -/
  serial : ∀ before key work after, x.rootWorks depth root = before ++ (key, work) :: after →
    ∀ later ∈ after.map (·.1), CompleteBefore [] (.key key) (.key later) notes
  /-- If the turn of a root field ends in a null that travels up, nothing is noted of later ones. -/
  ends : ∀ before key work after, x.rootWorks depth root = before ++ (key, work) :: after →
    ∀ d errors t more u, (oneByOne before []).run s = some (some d, errors, t) →
      work.run t = some (none, more, u) →
      ∀ later ∈ after.map (·.1), ∀ n ∈ notes, ¬ [.key later] <+: n.path

/-- A null that travels up ends the turns. -/
theorem oneByOne_notes {before after : List (String × Work (Noted σ) RecordedError Completion)}
    {key : String} {work : Work (Noted σ) RecordedError Completion} {built : Entries Json}
    {s t u : Noted σ} {d : Json} {errors more : List RecordedError}
    (first : (oneByOne before built).run s = some (some d, errors, t))
    (null : work.run t = some (none, more, u)) :
    (oneByOne (before ++ (key, work) :: after) built).notes s =
      (oneByOne (before ++ [(key, work)]) built).notes s := by
  induction before generalizing built s errors with
  | nil =>
    cases first
    simp only [List.nil_append, oneByOne, Work.notes_bind, null, Option.elim_some]
  | cons entry before ih =>
    obtain ⟨k, v⟩ := entry
    rw [oneByOne, Work.run_bind] at first
    simp only [List.cons_append, oneByOne, Work.notes_bind]
    rcases hv : v.run s with - | ⟨c, es, s'⟩ <;> rw [hv] at first
    · cases first
    · obtain ⟨q, hq, he⟩ := Option.map_eq_some_iff.mp first
      cases c with
      | none =>
        cases hq
        cases he
      | some value =>
        obtain ⟨c', fs, t'⟩ := q
        cases he
        rw [Option.elim_some, Option.elim_some]
        exact congrArg _ (ih hq)

def rootWork (x : Execution σ) (depth : Nat) (s : SelectedField) :
    String × Work σ RecordedError Completion :=
  (s.key, x.executeField (x.completeObject depth) s.field (s.place {}).path x.rootValue)

theorem rootWorks_eq (x : Execution σ) (depth : Nat) (root : ObjectType) :
    x.rootWorks depth root = (x.selected root [x.operation.selectionSet]).map (x.rootWork depth) :=
  x.fieldWorks_eq ..

theorem rootWorks_split {x : Execution σ} {depth : Nat} {root : ObjectType}
    {before after : List (String × Work σ RecordedError Completion)}
    {entry : String × Work σ RecordedError Completion}
    (h : x.rootWorks depth root = before ++ entry :: after) :
    ∃ left s right, x.selected root [x.operation.selectionSet] = left ++ s :: right ∧
      before = left.map (x.rootWork depth) ∧ entry = x.rootWork depth s ∧
      after = right.map (x.rootWork depth) := by
  rw [rootWorks_eq] at h
  obtain ⟨left, more, hf, rfl, hr⟩ := List.map_eq_append_iff.mp h
  obtain ⟨s, right, rfl, rfl, rfl⟩ := List.map_eq_cons_iff.mp hr
  exact ⟨left, s, right, hf, rfl, rfl, rfl⟩

theorem completeRoot_mutation {x : Execution σ} (mutation : x.operation.operation = .mutation)
    (depth : Nat) (root : ObjectType) :
    x.completeRoot depth root = oneByOne (x.rootWorks depth root) [] := by
  unfold completeRoot
  rw [mutation]
  rfl

section

variable {x : Execution (Noted σ)} {r : Resolvers σ} (noted : x.resolvers = r.noted)

include noted

theorem roots_turns {depth : Nat} {root : ObjectType} {fields : List SelectedField}
    (part : fields.Sublist (x.selected root [x.operation.selectionSet])) {notes : List Note}
    {o : Option Completion}
    (h : (oneByOne (fields.map (x.rootWork depth)) []).Shows notes o) :
    TakeTurns x.schema [] (fields.map fun s => .key s.key) notes := by
  refine oneByOne_turns ((selected_steps_nodup ..).sublist (part.map _)) (fun s hs => ?_) h
  exact executeField_resolves noted (completeObject_resolves noted depth) (part.subset hs) {} _

theorem completeRoot_inOrder {depth : Nat} {root : ObjectType} {notes : List Note}
    {o : Option Completion} (h : (x.completeRoot depth root).Shows notes o) :
    NotesInOrder x.schema [] notes := by
  have joined (h : (x.joined (x.rootWorks depth root)).Shows notes o) :
      NotesInOrder x.schema [] notes :=
    (joined_resolves noted (completeObject_resolves noted depth) ..).inOrder notes o h
  rcases ho : x.operation.operation with - | - | -
  · unfold completeRoot at h
    rw [ho] at h
    exact joined h
  · rw [completeRoot_mutation ho, rootWorks_eq] at h
    have turns := roots_turns noted (List.Sublist.refl _) h
    exact .gather _ turns.below turns.inOrder
  · unfold completeRoot at h
    rw [ho] at h
    exact joined h

theorem rootsTakeTurns (mutation : x.operation.operation = .mutation) (depth : Nat)
    (root : ObjectType) (s : Noted σ) :
    x.RootsTakeTurns depth root s ((x.completeRoot depth root).notes s) := by
  rw [completeRoot_mutation mutation]
  constructor
  · intro before key work after hw later hl
    have shows := (oneByOne (x.rootWorks depth root) []).shows_notes s
    generalize (oneByOne (x.rootWorks depth root) []).notes s = notes at shows ⊢
    rw [rootWorks_eq] at shows
    have serial := (roots_turns noted (List.Sublist.refl _) shows).serial
    obtain ⟨left, f, right, hf, -, he, rfl⟩ := rootWorks_split hw
    cases he
    obtain ⟨_, hmem, rfl⟩ := List.mem_map.mp hl
    obtain ⟨g, hg, rfl⟩ := List.mem_map.mp hmem
    rw [hf, List.map_append, List.map_cons, List.pairwise_append] at serial
    exact (List.pairwise_cons.mp serial.2.1).1 _ (List.mem_map_of_mem hg)
  · intro before key work after hw d errors t more u first null later hl n hn under
    rw [hw, oneByOne_notes first null] at hn
    obtain ⟨left, f, right, hf, rfl, he, rfl⟩ := rootWorks_split hw
    replace hf : x.selected root [x.operation.selectionSet] = (left ++ [f]) ++ right := by
      simp [hf]
    -- only the fields up to this one have their turns
    rw [he, ← List.map_singleton (f := x.rootWork depth), ← List.map_append] at hn
    have shows := (oneByOne ((left ++ [f]).map (x.rootWork depth)) []).shows_notes s
    have turns := roots_turns noted (hf ▸ List.sublist_append_left (left ++ [f]) right) shows
    obtain ⟨e, hmem, hen⟩ := turns.below n hn
    obtain ⟨_, hmap, rfl⟩ := List.mem_map.mp hl
    obtain ⟨g, hg, rfl⟩ := List.mem_map.mp hmap
    have distinct := x.selected_steps_nodup root [x.operation.selectionSet]
    rw [hf, List.map_append] at distinct
    exact (List.nodup_append.mp distinct).2.2 e hmem _ (List.mem_map_of_mem hg)
      (step_unique hen under)

end

end Execution

/-- Each run has a counterpart in which resolvers note their calls, and nothing else is different.
Whatever the resolvers do, however often they pause and however they are interleaved, the notes are
in order: no resolver is called twice for a path, or before the fields above it are resolved; the
root fields of a mutation take turns in the order of the response. -/
theorem execute_callOrder (request : Request σ) (document : Document) (depth : Nat) (s : σ) :
    (∀ scheduler, ∃ noting,
      (execute request.noted document depth (s, none) noting).map (fun r => (r.1, r.2.1)) =
        execute request document depth s scheduler) ∧
      ∀ noting,
        NotesInOrder request.schema [] (request.noted.notes document depth (s, none) noting) ∧
        ∀ x root, request.noted.prepare document noting = .ok (x, root) →
          x.operation.operation = .mutation →
          x.RootsTakeTurns depth root (s, none)
            (request.noted.notes document depth (s, none) noting) := by
  refine ⟨fun scheduler => ⟨scheduler.noted s, execute_noted request document depth s scheduler⟩,
    fun noting => ⟨?_, fun x root prepared mutation => ?_⟩⟩
  · unfold Request.notes
    split
    · exact .nil
    · rename_i x root prepared
      have parts := Request.isPrepared prepared
      have inOrder := Execution.completeRoot_inOrder parts.resolvers
        ((x.completeRoot depth root).shows_notes (s, none))
      rwa [parts.schema] at inOrder
  · have notes : request.noted.notes document depth (s, none) noting =
        (x.completeRoot depth root).notes (s, none) := by
      unfold Request.notes
      rw [prepared]
    rw [notes]
    exact Execution.rootsTakeTurns (Request.isPrepared prepared).resolvers mutation depth root _

namespace Count

/-- `type Query { count: Int! } type Mutation { add: Counter reset: Int! }
type Counter { value: Int next: Counter }` -/
def counterSchema : Schema where
  types := schema.types ++
    [("Mutation", .object ⟨position, none, "Mutation", [], [],
      [⟨position, none, "add", [], .named "Counter", []⟩,
        ⟨position, none, "reset", [], .nonNull (.named "Int"), []⟩]⟩),
      ("Counter", .object ⟨position, none, "Counter", [], [],
        [⟨position, none, "value", [], .named "Int", []⟩,
          ⟨position, none, "next", [], .named "Counter", []⟩]⟩)]
  directives := []
  query := "Query"
  mutation := some "Mutation"
  subscription := none

/-- Counts its calls, and comes to the value in its second turn. -/
def counted (value : Json) : Resolver Nat := fun _ =>
  .read fun n => .write (n + 1) (.pause (.done (.value value)))

/-- The resolver of `reset` comes to null; `next` has none. -/
def counterRequest : Request Nat where
  schema := counterSchema
  resolvers :=
    { fields := [(("Mutation", "add"), counted (.object [("next", .object [])])),
        (("Mutation", "reset"), counted .null), (("Counter", "value"), counted (.ofInt 1))] }

def selectField (key name : String) (selections : List Selection) : Selection :=
  .field
    { aliasName := some ⟨key, none⟩
      name := ⟨name, none⟩
      selectionSet := if selections.isEmpty then none else some ⟨selections, none⟩ }

/-- `mutation { a: add { value next { value } } b: reset c: add { value } }` -/
def increments : Document :=
  ⟨[.operation ⟨.mutation, none, [], [], ⟨[
    selectField "a" "add"
      [selectField "value" "value" [], selectField "next" "next" [selectField "value" "value" []]],
    selectField "b" "reset" [],
    selectField "c" "add" [selectField "value" "value" []]], none⟩, none⟩], none⟩

/-- `value` of the first counter and that of the next have their turns side by side; `c` has none,
since the null of `b` travels up. -/
def incrementNotes : List Note :=
  [.called [.key "a"], .returned [.key "a"], .called [.key "a", .key "value"],
    .found [.key "a", .key "next"], .called [.key "a", .key "next", .key "value"],
    .returned [.key "a", .key "value"], .returned [.key "a", .key "next", .key "value"],
    .called [.key "b"], .returned [.key "b"]]

end Count

theorem execute_callOrder_increments :
    ∃ x root, Count.counterRequest.noted.prepare Count.increments .rounds = .ok (x, root) ∧
      x.operation.operation = .mutation ∧
      Count.counterRequest.noted.notes Count.increments 2 (0, none) = Count.incrementNotes ∧
      NotesInOrder Count.counterSchema [] Count.incrementNotes ∧
      x.RootsTakeTurns 2 root (0, none) Count.incrementNotes := by
  have notes : Count.counterRequest.noted.notes Count.increments 2 (0, none) .rounds =
      Count.incrementNotes := rfl
  obtain ⟨-, ordered⟩ := execute_callOrder Count.counterRequest Count.increments 2 0
  obtain ⟨inOrder, turns⟩ := ordered .rounds
  rw [notes] at inOrder turns
  exact ⟨_, _, rfl, rfl, notes, inOrder, turns _ _ rfl rfl⟩

end GraphQL
