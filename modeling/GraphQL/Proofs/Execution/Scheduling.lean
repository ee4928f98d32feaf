import GraphQL.Proofs.Execution.Agreement
import GraphQL.Proofs.Execution.Congruence
import GraphQL.Proofs.Execution.NullPropagation
import GraphQL.Proofs.Execution.Prepared

/-!
Resolvers whose invocations have answers, whatever states they meet. Executions with the same
answers come to the same response under all schedulers, or to none.
-/
namespace GraphQL

open Ast TypeSystem

/-- What invocations of resolvers come to. -/
structure Answers where
  field : ResolveInfo → Outcome
  /-- The name that a type resolver gives for a value of an abstract type. -/
  type : String → Json → Option String

variable {σ τ : Type}

/-- Each invocation comes to its answer. On the way there it may pause, read and write as it
likes. -/
structure Resolvers.Follow (r : Resolvers σ) (answers : Answers) : Prop where
  field : ∀ info, (r.invoke info).Gives (some (answers.field info, []))
  type : ∀ abstract value, (r.nameType abstract value).Gives
    (some (answers.type abstract value, []))

namespace Work

theorem Gives.lift {α ε : Type} {w : Work σ Empty α} {a : α} (h : w.Gives (some (a, []))) :
    (w.lift : Work σ ε α).Gives (some (a, [])) := by
  constructor
  · intro b es hw
    obtain ⟨rfl, hb⟩ := mayEnd_lift.mp hw
    obtain ⟨_, he, -⟩ := h.ends b [] hb
    cases he
    exact ⟨[], rfl, .refl _⟩
  · intro hs
    cases h.stops (mayStop_lift.mp hs)

end Work

theorem Work.Agree.congruence (first : Scheduler σ RecordedError Completion)
    (second : Scheduler τ RecordedError Completion) :
    Congruence (fun _ => Work.Agree) first second where
  done := .done
  stop := .stop
  record e a := ⟨_, (Work.gives_done a).record e, (Work.gives_done a).record e⟩
  map h f := h.map f
  bind h hf := h.bind hf
  join h := .join h first second

theorem Resolvers.Follow.relate {r : Resolvers σ} {other : Resolvers τ} {answers : Answers}
    (first : r.Follow answers) (second : other.Follow answers) :
    r.Relate (fun _ => Work.Agree) other where
  field info := .of_gives (first.field info).lift (second.field info).lift
  type abstract value := .of_gives (first.type abstract value).lift
    (second.type abstract value).lift

/-- Requests whose invocations have the same answers have the same response, in whatever states and
under whatever schedulers. -/
theorem execute_with {request : Request σ} {r : Resolvers τ} {answers : Answers}
    (first : request.resolvers.Follow answers) (second : r.Follow answers) (document : Document)
    (depth : Nat) (s : σ) (t : τ) (scheduler : Scheduler σ RecordedError Completion)
    (other : Scheduler τ RecordedError Completion) :
    (execute request document depth s scheduler).map (·.1) =
      (execute (request.with r) document depth t other).map (·.1) := by
  simp only [execute, request.prepare_with r document scheduler other]
  rcases hp : request.prepare document scheduler with errors | ⟨x, root⟩
  · rfl
  rw [← (Request.isPrepared hp).resolvers] at first
  dsimp only [Except.map]
  have agree := Execution.completeRoot_congr (Work.Agree.congruence x.scheduler other)
    (first.relate second) depth root
  rcases agree.run s t with ⟨h, h'⟩ | ⟨c, es, s', fs, t', h, h', perm⟩
  · rw [h, h']
    rfl
  · obtain ⟨courses, follows, -, hes⟩ :=
      Execution.rootFollows_of_completeRoot (Work.mayEnd_of_run h)
    rw [h, h']
    simp only [Option.map_some, Option.some.injEq, Response.mk.injEq, true_and]
    rw [follows.inResponseOrder hes, follows.inResponseOrder (perm.symm.trans hes)]

namespace Count

def lookups : Answers where
  field info := .value ((info.source.property? info.field.name).getD .null)
  type _ _ := none

theorem follow_lookups : ({} : Resolvers Unit).Follow lookups :=
  ⟨fun _ => Work.gives_done _, fun _ _ => Work.gives_done _⟩

end Count

end GraphQL
