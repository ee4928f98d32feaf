import GraphQL.Proofs.Execution.Notes
import GraphQL.Proofs.Execution.Prepared

/-!
Erasing notes. Main statement: noting changes nothing else; for each run of a request there is one
of the same request with noting resolvers that has the same response and the same last state.
-/
namespace GraphQL

open Ast TypeSystem

variable {σ ε α β : Type}

namespace Work

def noting (notes : List Note) (w : Work (Noted σ) ε α) : Work (Noted σ) ε α :=
  notes.foldr note w

theorem bind_done (w : Work σ ε α) : w.bind done = w := by
  induction w with
  | done a => rfl
  | read next ih => simp only [bind, ih]
  | write s next ih => simp only [bind, ih]
  | record e next ih => simp only [bind, ih]
  | pause next ih => simp only [bind, ih]
  | stop => rfl

/-- Without the notes that it makes, the first is the second. -/
inductive Erases : Work (Noted σ) ε α → Work σ ε α → Prop where
  | done (notes : List Note) (a : α) : Erases (noting notes (.done a)) (.done a)
  | read (notes : List Note) {next : Noted σ → Work (Noted σ) ε α} {plain : σ → Work σ ε α} :
      (∀ s, Erases (next s) (plain s.1)) → Erases (noting notes (.read next)) (.read plain)
  | write (notes : List Note) {s : σ} {next : Work (Noted σ) ε α} {plain : Work σ ε α} :
      Erases next plain → Erases (noting notes (.write (s, none) next)) (.write s plain)
  | record (notes : List Note) {e : ε} {next : Work (Noted σ) ε α} {plain : Work σ ε α} :
      Erases next plain → Erases (noting notes (.record e next)) (.record e plain)
  | pause (notes : List Note) {next : Work (Noted σ) ε α} {plain : Work σ ε α} :
      Erases next plain → Erases (noting notes (.pause next)) (.pause plain)
  | stop (notes : List Note) : Erases (noting notes .stop) .stop

theorem noting_append (first second : List Note) (w : Work (Noted σ) ε α) :
    noting (first ++ second) w = noting first (noting second w) := List.foldr_append

theorem noting_map (notes : List Note) (w : Work (Noted σ) ε α) (f : α → β) :
    (noting notes w).map f = noting notes (w.map f) := by
  induction notes with
  | nil => rfl
  | cons n notes ih =>
    change (note n (noting notes w)).map f = note n (noting notes (w.map f))
    rw [← ih]
    rfl

theorem noting_bind (notes : List Note) (w : Work (Noted σ) ε α)
    (f : α → Work (Noted σ) ε β) : (noting notes w).bind f = noting notes (w.bind f) := by
  induction notes with
  | nil => rfl
  | cons n notes ih =>
    change (note n (noting notes w)).bind f = note n (noting notes (w.bind f))
    rw [← ih]
    rfl

theorem noting_lift (notes : List Note) (w : Work (Noted σ) Empty α) :
    ((noting notes w).lift : Work (Noted σ) ε α) = noting notes w.lift := by
  induction notes with
  | nil => rfl
  | cons n notes ih =>
    change (note n (noting notes w)).lift = note n (noting notes w.lift)
    rw [← ih]
    rfl

/-- Notes change nothing but the note of the last state. -/
theorem noting_run (notes : List Note) (w : Work (Noted σ) ε α) (s : Noted σ) :
    ∃ m, (noting notes w).run s = w.run (s.1, m) := by
  induction notes generalizing s with
  | nil => exact ⟨s.2, rfl⟩
  | cons n notes ih => exact ih (s.1, some n)

namespace Erases

variable {w : Work (Noted σ) ε α} {v : Work σ ε α}

theorem noting (h : Erases w v) (notes : List Note) : Erases (Work.noting notes w) v := by
  cases h with
  | done more a =>
    rw [← noting_append]
    exact .done _ a
  | read more h =>
    rw [← noting_append]
    exact .read _ h
  | write more h =>
    rw [← noting_append]
    exact .write _ h
  | record more h =>
    rw [← noting_append]
    exact .record _ h
  | pause more h =>
    rw [← noting_append]
    exact .pause _ h
  | stop more =>
    rw [← noting_append]
    exact .stop _

theorem quiet (v : Work σ ε α) : Erases v.quiet v := by
  induction v with
  | done a => exact .done [] a
  | read next ih => exact .read [] fun s => ih s.1
  | write s next ih => exact .write [] ih
  | record e next ih => exact .record [] ih
  | pause next ih => exact .pause [] ih
  | stop => exact .stop []

theorem map (h : Erases w v) (f : α → β) : Erases (w.map f) (v.map f) := by
  induction h with
  | done notes a => exact noting_map notes _ f ▸ .done notes (f a)
  | read notes _ ih => exact noting_map notes _ f ▸ .read notes ih
  | write notes _ ih => exact noting_map notes _ f ▸ .write notes ih
  | record notes _ ih => exact noting_map notes _ f ▸ .record notes ih
  | pause notes _ ih => exact noting_map notes _ f ▸ .pause notes ih
  | stop notes => exact noting_map notes _ f ▸ .stop notes

theorem bind (h : Erases w v) {f : α → Work (Noted σ) ε β} {g : α → Work σ ε β}
    (hf : ∀ a, Erases (f a) (g a)) : Erases (w.bind f) (v.bind g) := by
  induction h with
  | done notes a => exact noting_bind notes _ f ▸ (hf a).noting notes
  | read notes _ ih => exact noting_bind notes _ f ▸ .read notes ih
  | write notes _ ih => exact noting_bind notes _ f ▸ .write notes ih
  | record notes _ ih => exact noting_bind notes _ f ▸ .record notes ih
  | pause notes _ ih => exact noting_bind notes _ f ▸ .pause notes ih
  | stop notes => exact noting_bind notes _ f ▸ .stop notes

theorem lift {w : Work (Noted σ) Empty α} {v : Work σ Empty α} (h : Erases w v) :
    Erases (w.lift : Work (Noted σ) ε α) v.lift := by
  induction h with
  | done notes a => exact noting_lift notes _ ▸ .done notes a
  | read notes _ ih => exact noting_lift notes _ ▸ .read notes ih
  | write notes _ ih => exact noting_lift notes _ ▸ .write notes ih
  | @record _ e => exact e.elim
  | pause notes _ ih => exact noting_lift notes _ ▸ .pause notes ih
  | stop notes => exact noting_lift notes _ ▸ .stop notes

theorem run (h : Erases w v) (s : Noted σ) :
    (w.run s).map (fun r => (r.1, r.2.1, r.2.2.1)) = v.run s.1 := by
  induction h generalizing s with
  | done notes a =>
    obtain ⟨m, hr⟩ := noting_run notes (.done a : Work (Noted σ) ε α) s
    rw [hr]
    rfl
  | read notes _ ih =>
    obtain ⟨m, hr⟩ := noting_run notes _ s
    rw [hr]
    exact ih (s.1, m) (s.1, m)
  | write notes _ ih =>
    obtain ⟨m, hr⟩ := noting_run notes _ s
    rw [hr]
    exact ih _
  | record notes _ ih =>
    obtain ⟨m, hr⟩ := noting_run notes _ s
    rw [hr, Work.run, Work.run, ← ih (s.1, m), Option.map_map, Option.map_map]
    rfl
  | pause notes _ ih =>
    obtain ⟨m, hr⟩ := noting_run notes _ s
    rw [hr]
    exact ih _
  | stop notes =>
    obtain ⟨m, hr⟩ := noting_run notes (.stop : Work (Noted σ) ε α) s
    rw [hr]
    rfl

end Erases

def isNote : Work (Noted σ) ε α → Bool
  | write s _ => s.2.isSome
  | _ => false

/-- The work without its notes, found by means of some state. -/
def erase (origin : σ) : Work (Noted σ) ε α → Work σ ε α
  | done a => done a
  | read next =>
    if (next (origin, none)).isNote then (next (origin, none)).erase origin
    else read fun s => (next (s, none)).erase origin
  | write s next => if s.2.isSome then next.erase origin else write s.1 (next.erase origin)
  | record e next => record e (next.erase origin)
  | pause next => pause (next.erase origin)
  | stop => stop

theorem erase_noting (origin : σ) (notes : List Note) (w : Work (Noted σ) ε α) :
    (noting notes w).erase origin = w.erase origin := by
  induction notes with
  | nil => rfl
  | cons n notes ih => exact ih

theorem Erases.isNote {w : Work (Noted σ) ε α} {v : Work σ ε α} (h : Erases w v) :
    w.isNote = false := by
  cases h with
  | done notes | read notes | write notes | record notes | pause notes | stop notes =>
    cases notes <;> rfl

/-- There is only one work without the notes. -/
theorem Erases.erase {w : Work (Noted σ) ε α} {v : Work σ ε α} (h : Erases w v) (origin : σ) :
    w.erase origin = v := by
  induction h with
  | done notes a => exact erase_noting ..
  | read notes h ih =>
    rw [erase_noting, Work.erase, (h (origin, none)).isNote]
    exact congrArg Work.read (funext fun s => ih (s, none))
  | write notes _ ih =>
    rw [erase_noting, ← ih]
    rfl
  | record notes _ ih =>
    rw [erase_noting, ← ih]
    rfl
  | pause notes _ ih =>
    rw [erase_noting, ← ih]
    rfl
  | stop notes => exact erase_noting ..

theorem Interleaves.noting (before after : List (Work (Noted σ) ε α)) {w : Work (Noted σ) ε α}
    {v : Work (Noted σ) ε (List α)} (notes : List Note)
    (h : Interleaves (before ++ w :: after) v) :
    Interleaves (before ++ Work.noting notes w :: after) (Work.noting notes v) := by
  induction notes with
  | nil => exact h
  | cons n notes ih => exact .read before after fun _ => .write before after ih

abbrev IsErased (v : Work σ ε α) (w : Work (Noted σ) ε α) : Prop := w.Erases v

theorem Interleaves.erases_done {works : List (Work (Noted σ) ε α)} {as : List α}
    (h : List.Forall₂ IsErased (as.map Work.done) works) :
    ∃ w, Interleaves works w ∧ Erases w (.done as) := by
  induction as generalizing works with
  | nil =>
    cases h
    exact ⟨_, .done [], .done [] []⟩
  | cons a as ih =>
    obtain ⟨first, rest, ha, hrest, rfl⟩ := List.forall₂_cons_left_iff.mp h
    obtain ⟨w, interleaves, erases⟩ := ih hrest
    cases ha with
    | done notes a =>
      exact ⟨_, (interleaves.cons_done a).noting [] rest notes, (erases.map (a :: ·)).noting notes⟩

/-- An interleaving without notes is one with notes whose notes are erased: each member makes its
notes right before its next action. -/
theorem Interleaves.erases {plain : List (Work σ ε α)} {v : Work σ ε (List α)}
    (h : Interleaves plain v) {works : List (Work (Noted σ) ε α)}
    (each : List.Forall₂ IsErased plain works) : ∃ w, Interleaves works w ∧ Erases w v := by
  induction h generalizing works with
  | done as => exact erases_done each
  | read before after _ ih =>
    obtain ⟨left, first, right, rfl, hl, hf, hr⟩ := forall₂_split each
    cases hf with
    | read notes hf =>
      choose w interleaves erases using fun s : Noted σ =>
        ih s.1 (forall₂_join (R := IsErased) hl (hf s) hr)
      exact ⟨_, (Interleaves.read left right interleaves).noting left right notes,
        .read notes erases⟩
  | write before after _ ih =>
    obtain ⟨left, first, right, rfl, hl, hf, hr⟩ := forall₂_split each
    cases hf with
    | write notes hf =>
      obtain ⟨w, interleaves, erases⟩ := ih (forall₂_join (R := IsErased) hl hf hr)
      exact ⟨_, (Interleaves.write left right interleaves).noting left right notes,
        .write notes erases⟩
  | record before after _ ih =>
    obtain ⟨left, first, right, rfl, hl, hf, hr⟩ := forall₂_split each
    cases hf with
    | record notes hf =>
      obtain ⟨w, interleaves, erases⟩ := ih (forall₂_join (R := IsErased) hl hf hr)
      exact ⟨_, (Interleaves.record left right interleaves).noting left right notes,
        .record notes erases⟩
  | resume before after _ ih =>
    obtain ⟨left, first, right, rfl, hl, hf, hr⟩ := forall₂_split each
    cases hf with
    | pause notes hf =>
      obtain ⟨w, interleaves, erases⟩ := ih (forall₂_join (R := IsErased) hl hf hr)
      exact ⟨_, (Interleaves.resume left right interleaves).noting left right notes,
        erases.noting notes⟩
  | pause _ ih =>
    obtain ⟨w, interleaves, erases⟩ := ih each
    exact ⟨_, .pause interleaves, .pause [] erases⟩
  | stop before after =>
    obtain ⟨left, first, right, rfl, hl, hf, hr⟩ := forall₂_split each
    cases hf with
    | stop notes => exact ⟨_, (Interleaves.stop left right).noting left right notes, .stop notes⟩

end Work

open Classical in
/-- Schedules works that make notes as it does without these. -/
noncomputable def Scheduler.noted (scheduler : Scheduler σ ε α) (origin : σ) :
    Scheduler (Noted σ) ε α where
  join works :=
    if h : ∃ w, Work.Interleaves works w ∧
        w.Erases (scheduler.join (works.map (Work.erase origin))) then h.choose
    else .all works
  interleaves works := by
    split
    · rename_i h
      exact h.choose_spec.1
    · exact Work.interleaves_all works

theorem Scheduler.noted_erases (scheduler : Scheduler σ ε α) (origin : σ)
    {works : List (Work (Noted σ) ε α)} {plain : List (Work σ ε α)}
    (each : List.Forall₂ Work.IsErased plain works) :
    ((scheduler.noted origin).join works).Erases (scheduler.join plain) := by
  have unique : works.map (Work.erase origin) = plain := by
    induction each with
    | nil => rfl
    | cons h _ ih => rw [List.map_cons, h.erase, ih]
  have exists_erases : ∃ w, Work.Interleaves works w ∧
      w.Erases (scheduler.join (works.map (Work.erase origin))) :=
    unique ▸ (scheduler.interleaves plain).erases each
  unfold noted
  dsimp only
  rw [dif_pos exists_erases]
  exact unique ▸ exists_erases.choose_spec.2

theorem Work.Erases.congruence (scheduler : Scheduler σ RecordedError Completion) (origin : σ) :
    Congruence (fun _ => Work.IsErased) scheduler (scheduler.noted origin) where
  done a := .done [] a
  stop := .stop []
  record _ a := .record [] (.done [] a)
  map h f := h.map f
  bind h hf := h.bind hf
  join h := scheduler.noted_erases origin h

theorem Resolvers.noting_erases (r : Resolvers σ) (info : ResolveInfo) :
    (r.noting info).Erases (r.invoke info) := by
  unfold noting invoke
  cases r.resolver? info.parent.name info.field.name with
  | none => exact .done [.found info.path] _
  | some resolver =>
    have call := (Work.Erases.quiet (resolver info)).bind fun outcome =>
      .done [.returned info.path] outcome
    rw [Work.bind_done] at call
    exact call.noting [.called info.path]

theorem Resolvers.nameType_noted (r : Resolvers σ) (abstract : String) (value : Json) :
    r.noted.nameType abstract value = (r.nameType abstract value).quiet := by
  unfold nameType noted
  rw [Entries.get?_map]
  cases r.types.get? abstract <;> rfl

theorem Resolvers.relate_noted (r : Resolvers σ) :
    r.Relate (fun _ => Work.IsErased) r.noted where
  field info := (r.noting_erases info).lift
  type abstract value := by
    rw [r.nameType_noted]
    exact (Work.Erases.quiet _).lift

/-- Noting changes nothing else: each run has a counterpart with the same response and the same last
state. -/
theorem execute_noted (request : Request σ) (document : Document) (depth : Nat) (s : σ)
    (scheduler : Scheduler σ RecordedError Completion) :
    (execute request.noted document depth (s, none) (scheduler.noted s)).map
        (fun r => (r.1, r.2.1)) = execute request document depth s scheduler := by
  simp only [execute, Request.noted,
    request.prepare_with request.resolvers.noted document scheduler (scheduler.noted s)]
  rcases hp : request.prepare document scheduler with errors | ⟨x, root⟩
  · rfl
  have congruence : Congruence (fun _ => Work.IsErased) x.scheduler (scheduler.noted s) :=
    Request.scheduler_of_prepare hp ▸ Work.Erases.congruence scheduler s
  have relate : x.resolvers.Relate (fun _ => Work.IsErased) request.resolvers.noted :=
    (Request.isPrepared hp).resolvers ▸ request.resolvers.relate_noted
  have erases := Execution.completeRoot_congr congruence relate depth root
  dsimp only [Except.map]
  rw [← erases.run (s, none), Option.map_map, Option.map_map]
  rfl

end GraphQL
