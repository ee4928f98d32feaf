import GraphQL.Execution.Work

/-!
Interleavings of several pieces of work. One of them is their execution in rounds; schedulers are
all ways to interleave.
-/
namespace GraphQL

namespace Work

variable {σ ε α : Type}

/-- The second argument does what all pieces of work do, each in its own order, one action of
anyone at a time. It ends in all their results and may pause at any point. -/
inductive Interleaves : List (Work σ ε α) → Work σ ε (List α) → Prop where
  | done (as : List α) : Interleaves (as.map done) (done as)
  | read (before after : List (Work σ ε α)) {next : σ → Work σ ε α}
      {w : σ → Work σ ε (List α)} :
      (∀ s, Interleaves (before ++ next s :: after) (w s)) →
        Interleaves (before ++ read next :: after) (read w)
  | write (before after : List (Work σ ε α)) {s : σ} {next : Work σ ε α}
      {w : Work σ ε (List α)} :
      Interleaves (before ++ next :: after) w →
        Interleaves (before ++ write s next :: after) (write s w)
  | record (before after : List (Work σ ε α)) {e : ε} {next : Work σ ε α}
      {w : Work σ ε (List α)} :
      Interleaves (before ++ next :: after) w →
        Interleaves (before ++ record e next :: after) (record e w)
  /-- The pause of one need not hold up the others. -/
  | resume (before after : List (Work σ ε α)) {next : Work σ ε α} {w : Work σ ε (List α)} :
      Interleaves (before ++ next :: after) w →
        Interleaves (before ++ pause next :: after) w
  | pause {works : List (Work σ ε α)} {w : Work σ ε (List α)} :
      Interleaves works w → Interleaves works (pause w)
  | stop (before after : List (Work σ ε α)) : Interleaves (before ++ stop :: after) stop

theorem Interleaves.cons_done (a : α) {works : List (Work σ ε α)} {w : Work σ ε (List α)}
    (h : Interleaves works w) : Interleaves (.done a :: works) (w.map (a :: ·)) := by
  induction h with
  | done as => exact .done (a :: as)
  | read before after _ ih => exact .read (.done a :: before) after ih
  | write before after _ ih => exact .write (.done a :: before) after ih
  | record before after _ ih => exact .record (.done a :: before) after ih
  | resume before after _ ih => exact .resume (.done a :: before) after ih
  | pause _ ih => exact .pause ih
  | stop before after => exact .stop (.done a :: before) after

theorem map_map {β γ : Type} (f : α → β) (g : β → γ) (w : Work σ ε α) :
    (w.map f).map g = w.map fun a => g (f a) := by
  induction w with
  | done => rfl
  | read next ih => simp only [map, ih]
  | write s next ih => simp only [map, ih]
  | record e next ih => simp only [map, ih]
  | pause next ih => simp only [map, ih]
  | stop => rfl

theorem both_done {β : Type} (w : Work σ ε α) (b : β) :
    both w (.done b) = w.map fun a => (a, b) := by
  induction w with
  | done => rfl
  | read next ih => simp only [both, map, ih]
  | write s next ih => simp only [both, map, ih]
  | record e next ih => simp only [both, map, ih]
  | pause next => rfl
  | stop => rfl

/-- A first piece of work and an interleaving of the others, in rounds. -/
theorem Interleaves.both (first : Work σ ε α) {works : List (Work σ ε α)}
    {w : Work σ ε (List α)} (h : Interleaves works w) :
    Interleaves (first :: works) ((both first w).map fun (a, as) => a :: as) := by
  induction first generalizing works w with
  | done a =>
    simpa only [Work.both, map_map] using h.cons_done a
  | read next ih => exact .read [] works fun s => ih s h
  | write s next ih => exact .write [] works (ih h)
  | record e next ih => exact .record [] works (ih h)
  | stop => exact .stop [] works
  | pause next ih =>
    -- the turn passes to the others until they pause too
    induction h with
    | done as =>
      have last := ih (Interleaves.done as)
      rw [both_done] at last
      exact .resume [] _ (.pause last)
    | read before after _ turn => exact .read (.pause next :: before) after turn
    | write before after _ turn => exact .write (.pause next :: before) after turn
    | record before after _ turn => exact .record (.pause next :: before) after turn
    | resume before after _ turn => exact .resume (.pause next :: before) after turn
    | pause rest _ => exact .resume [] _ (.pause (ih rest))
    | stop before after => exact .stop (.pause next :: before) after

theorem interleaves_all (works : List (Work σ ε α)) : Interleaves works (all works) := by
  induction works with
  | nil => exact .done []
  | cons first rest ih => exact ih.both first

end Work

/-- A way to let several pieces of work proceed side by side. -/
structure Scheduler (σ ε α : Type) where
  join : List (Work σ ε α) → Work σ ε (List α)
  interleaves : ∀ works, Work.Interleaves works (join works)

/-- All pieces of work have their turns in list order, round after round. -/
def Scheduler.rounds {σ ε α : Type} : Scheduler σ ε α := ⟨Work.all, Work.interleaves_all⟩

end GraphQL
