import GraphQL.Proofs.Execution.Independence

/-!
One response for all interleavings. Main statement: runs whose invocations come to the same have the
same response, whatever their schedulers and states, and the errors of every response are in its
strict order.
-/
namespace GraphQL

open Ast TypeSystem

variable {σ : Type}

namespace Work

variable {ε α : Type}

/-- The same work, but this is how it ends. -/
def endingIn (a : α) : Work σ ε α → Work σ ε α
  | done _ => done a
  | read next => read fun s => (next s).endingIn a
  | write s next => write s (next.endingIn a)
  | record e next => record e (next.endingIn a)
  | pause next => pause (next.endingIn a)
  | stop => done a

theorem gives_endingIn (w : Work σ Empty α) (a : α) : (w.endingIn a).Gives (some (a, [])) := by
  constructor
  · intro b es ends
    suffices same : b = a ∧ es = [] from ⟨[], by rw [same.1], by rw [same.2]⟩
    induction w with
    | done => exact ends
    | read next ih =>
      obtain ⟨s, ends⟩ := ends
      exact ih s ends
    | write s next ih => exact ih ends
    | record e => exact e.elim
    | pause next ih => exact ih ends
    | stop => exact ends
  · intro stops
    induction w with
    | done => exact stops.elim
    | read next ih =>
      obtain ⟨s, stops⟩ := stops
      exact ih s stops
    | write s next ih => exact ih stops
    | record e => exact e.elim
    | pause next ih => exact ih stops
    | stop => exact stops.elim

theorem Gives.endingIn_eq {w : Work σ Empty α} {a : α} (h : w.Gives (some (a, []))) :
    w.endingIn a = w := by
  induction w with
  | done b =>
    obtain ⟨_, same, -⟩ := h.ends b [] ⟨rfl, rfl⟩
    cases same
    rfl
  | read next ih =>
    exact congrArg read (funext fun s =>
      ih s ⟨fun b es ends => h.ends b es ⟨s, ends⟩, fun stops => h.stops ⟨s, stops⟩⟩)
  | write s next ih => exact congrArg (write s) (ih ⟨h.ends, h.stops⟩)
  | record e => exact e.elim
  | pause next ih => exact congrArg pause (ih ⟨h.ends, h.stops⟩)
  | stop => cases h.stops trivial

end Work

/-- The resolvers, doing what they do but coming to these answers. -/
def Resolvers.heldTo (r : Resolvers σ) (answers : Answers) : Resolvers σ where
  fallback := some fun info => (r.invoke info).endingIn (answers.field info)
  types := r.types.map fun e =>
    (e.1, fun value s => (answers.type e.1 value, (e.2 value s).2))

theorem Resolvers.nameType_heldTo (r : Resolvers σ) (answers : Answers) (abstract : String)
    (value : Json) :
    (r.heldTo answers).nameType abstract value = match r.types.get? abstract with
      | some resolve => .update fun s => (answers.type abstract value, (resolve value s).2)
      | none => .done none := by
  have resolver : (r.heldTo answers).types.get? abstract = (r.types.get? abstract).map
      fun resolve value s => (answers.type abstract value, (resolve value s).2) :=
    r.types.get?_mapWithKey (fun name resolve value s =>
      (answers.type name value, (resolve value s).2)) abstract
  unfold nameType
  rw [resolver]
  cases r.types.get? abstract <;> rfl

theorem Resolvers.exists_follow_heldTo (r : Resolvers σ) (answers : Answers) :
    ∃ held, (r.heldTo answers).Follow held := by
  refine ⟨⟨answers.field, fun abstract value =>
    (r.types.get? abstract).bind fun _ => answers.type abstract value⟩, fun info => ?field,
    fun abstract value => ?type⟩
  case field => exact (r.invoke info).gives_endingIn _
  case type =>
    rw [r.nameType_heldTo]
    dsimp only
    cases r.types.get? abstract with
    | none => exact Work.gives_done _
    | some resolve =>
      constructor
      · rintro b es ⟨s, rfl, rfl⟩
        exact ⟨[], rfl, .refl _⟩
      · rintro ⟨s, stops⟩
        exact stops.elim

/-- Each invocation of the run has its answer: with resolvers that are held to the answers it is the
same run. -/
def Request.KeepsTo (request : Request σ) (answers : Answers) (document : Document) (depth : Nat)
    (s : σ) (scheduler : Scheduler σ RecordedError Completion) : Prop :=
  execute (request.with (request.resolvers.heldTo answers)) document depth s scheduler =
    execute request document depth s scheduler

theorem Congruence.eq (scheduler : Scheduler σ RecordedError Completion) :
    Congruence (fun _ => Eq) scheduler scheduler where
  done _ := rfl
  stop := rfl
  record _ _ := rfl
  map h f := congrArg (Work.map f) h
  bind h hf := by rw [h, funext hf]
  join {works others} h := by
    have same : works = others := List.forall₂_eq_eq_eq ▸ h
    rw [same]

theorem Resolvers.Follow.relate_heldTo {r : Resolvers σ} {answers : Answers}
    (h : r.Follow answers) : r.Relate (fun _ => Eq) (r.heldTo answers) where
  field info := congrArg Work.lift (h.field info).endingIn_eq.symm
  type abstract value := by
    rw [r.nameType_heldTo]
    have named := h.type abstract value
    unfold nameType at named ⊢
    cases hr : r.types.get? abstract with
    | none => rfl
    | some resolve =>
      rw [hr] at named
      have same (s : σ) : resolve value s = (answers.type abstract value, (resolve value s).2) := by
        obtain ⟨_, name, -⟩ := named.ends (resolve value s).1 [] ⟨s, rfl, rfl⟩
        exact Prod.ext (congrArg Prod.fst (Option.some.inj name)).symm rfl
      exact congrArg (fun f => (Work.update f).lift) (funext same)

theorem Request.keepsTo_of_follow {request : Request σ} {answers : Answers}
    (h : request.resolvers.Follow answers) (document : Document) (depth : Nat) (s : σ)
    (scheduler : Scheduler σ RecordedError Completion) :
    request.KeepsTo answers document depth s scheduler := by
  unfold KeepsTo execute
  rw [request.prepare_with _ document scheduler scheduler]
  rcases hp : request.prepare document scheduler with errors | ⟨x, root⟩
  · rfl
  have relate := h.relate_heldTo
  rw [← (Request.isPrepared hp).resolvers] at relate ⊢
  obtain rfl := Request.scheduler_of_prepare hp
  have same := Execution.completeRoot_congr (.eq x.scheduler) relate depth root
  dsimp only [Except.map]
  rw [same]

theorem Course.ext {c d : Course} (place : c.place = d.place) (resolved : c.resolved = d.resolved)
    (fate : c.fate = d.fate) (members : c.members = d.members) : c = d := by
  cases c
  cases d
  cases place
  cases resolved
  cases fate
  cases members
  rfl

/-- Courses that differ at a path only are the same if there is nothing at it. -/
theorem Alike.eq_of_absent {p : List PathElement} {cs ds : List Course} (h : Alike p cs ds)
    (absent : ∀ q c, Below cs q c → c.place.path.elements ≠ p) : cs = ds := by
  induction h with
  | nil => rfl
  | here _ hp => exact absurd hp (absent _ _ (.here List.mem_cons_self))
  | @away c d cs ds place resolved fate _ _ ihm ih =>
    have members : c.members = d.members :=
      ihm fun q e he => absent _ e (.deeper List.mem_cons_self he)
    have rest : cs = ds := by
      refine ih fun q e he => absent q e ?_
      cases he with
      | here mem => exact .here (List.mem_cons_of_mem _ mem)
      | deeper mem he => exact .deeper (List.mem_cons_of_mem _ mem) he
    rw [Course.ext place resolved fate members, rest]

/-- The first error is that of an earlier position of the response, and neither path is a prefix of
the other. -/
def ErrorPrecedes (courses : List Course) (e f : GraphQLError) : Prop :=
  ∃ p q, e.path = some p ∧ f.path = some q ∧ Earlier courses p q ∧ p ≠ q ∧ ¬ p <+: q ∧ ¬ q <+: p

namespace Execution

variable {x : Execution σ} {root : ObjectType} {courses others : List Course}
variable {response response' : Response}

theorem Explains.errors_order (h : x.Explains root courses response) :
    response.errors.Pairwise (ErrorPrecedes courses) := by
  rw [h.errors]
  refine List.pairwise_map.mpr ?_
  refine (errorsOf_inOrder h.root.siblings h.root.regular).imp ?_
  rintro e f ⟨p, q, o, r, he, hf, -, earlier⟩
  have apart := earlier.not_prefix h.root.siblings h.root.regular
  refine ⟨p, q, he.elements, hf.elements, earlier, ?_, apart⟩
  rintro rfl
  exact apart.1 List.prefix_rfl

theorem RootFollows.elements_ne (h : x.RootFollows root courses) {q : List PathElement} {c : Course}
    (below : Below courses q c) (i : Nat) : c.place.path.elements ≠ [.index i] := by
  rw [(h.members.elements below).2]
  cases below with
  | here mem | deeper mem =>
    have step := step_of_selected (fun _ hp => h.sublist.subset hp) _ (List.mem_map_of_mem mem)
    rw [step]
    exact nofun

/-- There is one response for a behaviour. -/
theorem ExplainsAs.unique {τ : Type} {r : Resolvers τ}
    {scheduler : Scheduler τ RecordedError Completion} {b : Behaviour}
    (h : x.ExplainsAs b root courses response)
    (h' : (x.with r scheduler).ExplainsAs b root others response') : response = response' := by
  have absent (q : List PathElement) (c : Course) (below : Below courses q c) :
      c.place.path.elements ≠ [.index 0] := h.root.elements_ne below 0
  have agree : b.AgreeOutside [.index 0] b := ⟨fun _ _ => rfl, fun _ _ => rfl⟩
  have alike : Alike [.index 0] courses others :=
    h.root.alike h'.root h.behaves h'.behaves agree nofun fun q c below at' =>
      absurd at' (absent q c below)
  obtain rfl : courses = others := alike.eq_of_absent absent
  have data : response.data = response'.data := h.data.trans h'.data.symm
  have errors : response.errors = response'.errors := h.errors.trans h'.errors.symm
  cases response
  cases response'
  cases data
  cases errors
  rfl

end Execution

/-- No interleaving changes the response. If each invocation has its answer in one run and the same
in another, whatever the schedulers, the states and what the resolvers do on the way, then both have
the same response or none. Every run that has a response behaves in some way, and those that behave
alike, in which the types of equal values may also differ by their paths, have the same response.
Its errors are in the strict order of the response. -/
theorem execute_interleaving (request : Request σ) (document : Document) (depth : Nat) (s t : σ)
    (scheduler other : Scheduler σ RecordedError Completion) :
    (∀ answers, request.resolvers.Follow answers →
      request.KeepsTo answers document depth s scheduler) ∧
    (∀ answers, request.KeepsTo answers document depth s scheduler →
      request.KeepsTo answers document depth t other →
        (execute request document depth s scheduler).map (·.1) =
          (execute request document depth t other).map (·.1)) ∧
    ∀ x root response s', request.prepare document scheduler = .ok (x, root) →
      execute request document depth s scheduler = some (response, s') →
        (∃ b courses, x.ExplainsAs b root courses response) ∧
        (∀ b courses, x.ExplainsAs b root courses response → ∀ depth' response' t' others,
          execute request document depth' t other = some (response', t') →
          (x.with x.resolvers other).ExplainsAs b root others response' →
            response = response') ∧
        ∀ courses, x.Explains root courses response →
          response.errors.Pairwise (ErrorPrecedes courses) := by
  refine ⟨fun _ follow => Request.keepsTo_of_follow follow document depth s scheduler, ?same, ?runs⟩
  case same =>
    intro answers first second
    obtain ⟨held, follow⟩ := request.resolvers.exists_follow_heldTo answers
    rw [← first, ← second]
    exact execute_with follow follow document depth s t scheduler other
  case runs =>
    intro x root response s' prepared run
    refine ⟨exists_explainsAs prepared run, ?_, fun _ h => h.errors_order⟩
    intro b courses h depth' response' t' others _ h'
    exact h.unique h'

namespace Work

variable {ε α : Type}

/-- One piece of work after the other, each until it is done. -/
def inTurn : List (Work σ ε α) → Work σ ε (List α)
  | [] => done []
  | first :: rest => first.bind fun a => (inTurn rest).map (a :: ·)

theorem interleaves_inTurn (works : List (Work σ ε α)) : Interleaves works (inTurn works) := by
  induction works with
  | nil => exact .done []
  | cons first rest ih =>
    rw [inTurn]
    induction first with
    | done a => exact ih.cons_done a
    | read next turn => exact .read [] rest turn
    | write s next turn => exact .write [] rest turn
    | record e next turn => exact .record [] rest turn
    | pause next turn => exact .resume [] rest (.pause turn)
    | stop => exact .stop [] rest

end Work

def Scheduler.inTurn {ε α : Type} : Scheduler σ ε α := ⟨Work.inTurn, Work.interleaves_inTurn⟩

namespace Count

/-- Fails when it is called for a path for the first time; at `a` this is after a pause. -/
def failsOnce : Resolver (List (List PathElement)) := fun info =>
  let call := .read fun calls => .write (info.path :: calls) <| .done <|
    if info.path ∈ calls then .value .null else .failed { message := "Not yet." }
  if info.path = [.key "a"] then .pause call else call

def failingRequest : Request (List (List PathElement)) :=
  nullableRequest.with { fallback := some failsOnce }

theorem not_follow_failing (answers : Answers) : ¬ failingRequest.resolvers.Follow answers := by
  intro follow
  have ends := (follow.field ⟨.null, [], ⟨position, none, "Query", [], [], []⟩, field, [], [],
    schema, ⟨.query, none, [], [], ⟨[], none⟩, none⟩, [], .null⟩).ends
  obtain ⟨_, first, -⟩ := ends (.failed { message := "Not yet." }) [] ⟨[], rfl, rfl⟩
  obtain ⟨_, again, -⟩ := ends (.value .null) [] ⟨[[]], rfl, rfl⟩
  cases first.symm.trans again

def failures : Answers := ⟨fun _ => .failed { message := "Not yet." }, fun _ _ => none⟩

def failure (key : String) (ordinal : Nat) : RecordedError :=
  ⟨[ordinal], { message := "Not yet.", path := some [.key key] }⟩

def failedPair (errors : List GraphQLError) : Response :=
  ⟨some (.object [("a", .null), ("b", .null)]), errors⟩

def failedInOrder : Response := failedPair [(failure "a" 0).error, (failure "b" 1).error]

def failed (key : String) (ordinal : Nat) : Course :=
  let definition := { field with type := .named "Int" }
  let query : ObjectType := ⟨position, none, "Query", [], [], [definition]⟩
  let node : Ast.Field := { aliasName := some ⟨key, none⟩, name := ⟨"count", none⟩ }
  .mk ⟨{}, .key key, ordinal, ⟨query, definition, [node]⟩, definition.type⟩
    (.error (.resolver { message := "Not yet." })) (.failed (failure key ordinal)) []

theorem failures_explain
    {scheduler : Scheduler (List (List PathElement)) RecordedError Completion}
    {x : Execution (List (List PathElement))} {root : ObjectType}
    (prepared : failingRequest.prepare pair scheduler = .ok (x, root)) :
    x.ExplainsAs failures.behaviour root [failed "a" 0, failed "b" 1] failedInOrder := by
  have same : failingRequest.prepare pair scheduler = .ok (_, _) := rfl
  rw [same] at prepared
  cases prepared
  refine ⟨⟨⟨rfl, ?resolved, ?follows⟩, rfl, rfl⟩, ⟨?behaves, ?obeys⟩⟩ <;> intro c mem <;>
    rcases List.mem_pair.mp mem with rfl | rfl
  case resolved => exact ⟨[], [], rfl, rfl⟩
  case resolved => exact ⟨[], [], rfl, rfl⟩
  case follows => exact ⟨rfl, rfl⟩
  case follows => exact ⟨rfl, rfl⟩
  case behaves => rfl
  case behaves => rfl
  case obeys => exact .mk nofun nofun nofun
  case obeys => exact .mk nofun nofun nofun

theorem keepsTo_inTurn : failingRequest.KeepsTo failures pair 0 [] .inTurn := by
  have held : execute (failingRequest.with (failingRequest.resolvers.heldTo failures)) pair 0 []
      .inTurn = some (failedPair (inResponseOrder [failure "a" 0, failure "b" 1]), _) := rfl
  exact held.trans rfl

theorem keepsTo_rounds : failingRequest.KeepsTo failures pair 0 [] .rounds := by
  have held : execute (failingRequest.with (failingRequest.resolvers.heldTo failures)) pair 0 []
      .rounds = some (failedPair (inResponseOrder [failure "b" 1, failure "a" 0]), _) := rfl
  exact held.trans rfl

theorem execute_failing_inTurn : execute failingRequest pair 0 [] .inTurn =
    some (failedInOrder, [[.key "b"], [.key "a"]]) := by
  have sorted : inResponseOrder [failure "a" 0, failure "b" 1] = failedInOrder.errors :=
    inResponseOrder_of_perm (.refl _) (List.pairwise_pair.mpr (.of_lt Nat.zero_lt_one [] []))
  have run : execute failingRequest pair 0 [] .inTurn =
      some (failedPair (inResponseOrder [failure "a" 0, failure "b" 1]), _) := rfl
  rw [run, sorted]
  rfl

end Count

/-- One after the other, two fields fail in their order; side by side, the second fails first. The
response is the same. -/
theorem execute_interleaving_failures :
    Count.nullableRequest.KeepsTo Count.lookups Count.pair 0 () .inTurn ∧
      (∀ answers, ¬ Count.failingRequest.resolvers.Follow answers) ∧
      execute Count.failingRequest Count.pair 0 [] .inTurn =
        some (Count.failedInOrder, [[.key "b"], [.key "a"]]) ∧
      execute Count.failingRequest Count.pair 0 [] .rounds =
        some (Count.failedInOrder, [[.key "a"], [.key "b"]]) ∧
      ∃ x root, Count.failingRequest.prepare Count.pair .inTurn = .ok (x, root) ∧
        ((x.completeRoot 0 root).run []).map (·.2.1) =
          some [Count.failure "a" 0, Count.failure "b" 1] ∧
        (((x.with x.resolvers .rounds).completeRoot 0 root).run []).map (·.2.1) =
          some [Count.failure "b" 1, Count.failure "a" 0] ∧
        x.ExplainsAs Count.failures.behaviour root [Count.failed "a" 0, Count.failed "b" 1]
          Count.failedInOrder ∧
        (x.with x.resolvers .rounds).ExplainsAs Count.failures.behaviour root
          [Count.failed "a" 0, Count.failed "b" 1] Count.failedInOrder ∧
        (∀ response s others,
          execute Count.failingRequest Count.pair 0 [] .rounds = some (response, s) →
          (x.with x.resolvers .rounds).ExplainsAs Count.failures.behaviour root others response →
            Count.failedInOrder = response) ∧
        Count.failedInOrder.errors.Pairwise
          (ErrorPrecedes [Count.failed "a" 0, Count.failed "b" 1]) := by
  obtain ⟨keeps, -, -⟩ :=
    execute_interleaving Count.nullableRequest Count.pair 0 () () .inTurn .inTurn
  obtain ⟨-, same, runs⟩ :=
    execute_interleaving Count.failingRequest Count.pair 0 [] [] .inTurn .rounds
  have first := Count.execute_failing_inTurn
  have second : execute Count.failingRequest Count.pair 0 [] .rounds =
      some (Count.failedPair (inResponseOrder [Count.failure "b" 1, Count.failure "a" 0]),
        [[.key "a"], [.key "b"]]) := rfl
  have response : Count.failedInOrder =
      Count.failedPair (inResponseOrder [Count.failure "b" 1, Count.failure "a" 0]) := by
    have both := same Count.failures Count.keepsTo_inTurn Count.keepsTo_rounds
    rw [first, second] at both
    exact Option.some.inj both
  rw [← response] at second
  have prepared : Count.failingRequest.prepare Count.pair .inTurn = .ok (_, _) := rfl
  have again : Count.failingRequest.prepare Count.pair .rounds = .ok (_, _) := rfl
  have explains := Count.failures_explain prepared
  obtain ⟨-, unique, order⟩ := runs _ _ _ _ prepared first
  refine ⟨keeps _ Count.follow_lookups, Count.not_follow_failing, first, second, _, _, prepared,
    ?_, ?_, explains, Count.failures_explain again, ?_, ?_⟩
  · rfl
  · rfl
  · exact unique _ _ explains 0
  · exact order _ explains.toExplains

end GraphQL
