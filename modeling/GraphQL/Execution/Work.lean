/-!
Work that shares a state with other work and proceeds in turns. Within a turn it reads and writes
the state and records errors; the turn ends when it pauses or is done. Several pieces of work are
joined by giving each its turn, in order, round after round.
-/
namespace GraphQL

/-- Work on a state `σ` that records errors `ε` and ends in an `α`. -/
inductive Work (σ ε α : Type) where
  | done (a : α)
  | read (next : σ → Work σ ε α)
  | write (s : σ) (next : Work σ ε α)
  | record (e : ε) (next : Work σ ε α)
  /-- Ends the turn. -/
  | pause (next : Work σ ε α)
  /-- Ends everything without a result. -/
  | stop

namespace Work

variable {σ ε α β : Type}

def map (f : α → β) : Work σ ε α → Work σ ε β
  | done a => done (f a)
  | read next => read fun s => (next s).map f
  | write s next => write s (next.map f)
  | record e next => record e (next.map f)
  | pause next => pause (next.map f)
  | stop => stop

def bind (w : Work σ ε α) (f : α → Work σ ε β) : Work σ ε β :=
  match w with
  | done a => f a
  | read next => read fun s => (next s).bind f
  | write s next => write s (next.bind f)
  | record e next => record e (next.bind f)
  | pause next => pause (next.bind f)
  | stop => stop

/-- Work that records nothing, among work that may. -/
def lift : Work σ Empty α → Work σ ε α
  | done a => done a
  | read next => read fun s => (next s).lift
  | write s next => write s next.lift
  | pause next => pause next.lift
  | stop => stop

def update (f : σ → α × σ) : Work σ ε α :=
  read fun s => write (f s).2 (done (f s).1)

def pauses : Nat → Work σ ε α → Work σ ε α
  | 0, w => w
  | n + 1, w => pause (pauses n w)

/-- The turn of the second of two, the first having paused; `round` is the next round, given what
remains of the second. -/
def afterPause (first : Work σ ε α) (round : Work σ ε β → Work σ ε (α × β)) :
    Work σ ε β → Work σ ε (α × β)
  | done b => pause (first.map fun a => (a, b))
  | read next => read fun s => afterPause first round (next s)
  | write s next => write s (afterPause first round next)
  | record e next => record e (afterPause first round next)
  | pause next => pause (round next)
  | stop => stop

/-- Two pieces of work in rounds: the first has its turn, then the second, until both are done. -/
def both : Work σ ε α → Work σ ε β → Work σ ε (α × β)
  | done a, second => second.map fun b => (a, b)
  | read next, second => read fun s => both (next s) second
  | write s next, second => write s (both next second)
  | record e next, second => record e (both next second)
  | pause next, second => afterPause next (both next) second
  | stop, _ => stop

def all : List (Work σ ε α) → Work σ ε (List α)
  | [] => done []
  | w :: rest => (both w (all rest)).map fun (a, as) => a :: as

/-- Runs all turns: the result, the errors in the order of recording, and the last state. -/
def run : Work σ ε α → σ → Option (α × List ε × σ)
  | done a, s => some (a, [], s)
  | read next, s => (next s).run s
  | write s next, _ => next.run s
  | record e next, s => (next.run s).map fun (a, es, s) => (a, e :: es, s)
  | pause next, s => next.run s
  | stop, _ => none

end Work

end GraphQL
