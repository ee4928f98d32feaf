import GraphQL.Proofs.Execution.Congruence
import GraphQL.Proofs.Execution.WorkEnds

/-!
Resolvers that note when they are called and when they have completed, and the notes that work may
make, whatever states it meets. Of interleaved work, those that are one member's own are notes of
this member.
-/
namespace GraphQL

open Ast TypeSystem

/-- What is noted of the resolution of the field at a path. -/
inductive Note where
  | called (path : List PathElement)
  /-- The resolver has completed. -/
  | returned (path : List PathElement)
  /-- The field has no resolver; its value is a property of the object. -/
  | found (path : List PathElement)
deriving DecidableEq

def Note.path : Note → List PathElement
  | called path | returned path | found path => path

/-- A state with the note that the last write to it made, if any. -/
abbrev Noted (σ : Type) := σ × Option Note

variable {σ ε α β : Type}

namespace Work

/-- Makes a note and goes on. -/
def note (n : Note) (w : Work (Noted σ) ε α) : Work (Noted σ) ε α :=
  read fun s => write (s.1, some n) w

/-- The work, making no notes. -/
def quiet : Work σ ε α → Work (Noted σ) ε α
  | done a => done a
  | read next => read fun s => (next s.1).quiet
  | write s next => write (s, none) next.quiet
  | record e next => record e next.quiet
  | pause next => pause next.quiet
  | stop => stop

/-- The notes that a run of all turns makes, also where it stops. -/
def notes : Work (Noted σ) ε α → Noted σ → List Note
  | done _, _ => []
  | read next, s => (next s).notes s
  | write s next, _ => s.2.toList ++ next.notes s
  | record _ next, s => next.notes s
  | pause next, s => next.notes s
  | stop, _ => []

end Work

/-- Calls the resolver of the field, if it has one, between two notes. -/
def Resolvers.noting (r : Resolvers σ) : Resolver (Noted σ) := fun info =>
  match r.resolver? info.parent.name info.field.name with
  | some resolver =>
    .note (.called info.path) <| (resolver info).quiet.bind fun outcome =>
      .note (.returned info.path) (.done outcome)
  | none =>
    .note (.found info.path) (.done (.value ((info.source.property? info.field.name).getD .null)))

def TypeResolver.noted (resolve : TypeResolver σ) : TypeResolver (Noted σ) := fun value s =>
  let (name, t) := resolve value s.1
  (name, (t, none))

/-- The resolvers as resolvers that note their calls. -/
def Resolvers.noted (r : Resolvers σ) : Resolvers (Noted σ) where
  fallback := some r.noting
  types := r.types.map fun e => (e.1, TypeResolver.noted e.2)

def Request.noted (request : Request σ) : Request (Noted σ) :=
  request.with request.resolvers.noted

/-- The notes of the run that executes an operation of a document. -/
def Request.notes (request : Request (Noted σ)) (document : Document) (depth : Nat) (s : Noted σ)
    (scheduler : Scheduler (Noted σ) RecordedError Completion := .rounds) : List Note :=
  match request.prepare document scheduler with
  | .error _ => []
  | .ok (x, root) => (x.completeRoot depth root).notes s

namespace Work

/-- In some states the work makes these notes, one after another, and comes to the result; without
a result it may go on or stop. -/
inductive Shows : Work (Noted σ) ε α → List Note → Option α → Prop where
  | cut (w : Work (Noted σ) ε α) : Shows w [] none
  | done (a : α) : Shows (done a) [] (some a)
  | read {next : Noted σ → Work (Noted σ) ε α} {notes : List Note} {r : Option α} (s : Noted σ) :
      Shows (next s) notes r → Shows (read next) notes r
  | write {next : Work (Noted σ) ε α} {notes : List Note} {r : Option α} {s : Noted σ} :
      Shows next notes r → Shows (write s next) (s.2.toList ++ notes) r
  | record {next : Work (Noted σ) ε α} {notes : List Note} {r : Option α} {e : ε} :
      Shows next notes r → Shows (record e next) notes r
  | pause {next : Work (Noted σ) ε α} {notes : List Note} {r : Option α} :
      Shows next notes r → Shows (pause next) notes r

theorem shows_notes (w : Work (Noted σ) ε α) (s : Noted σ) :
    w.Shows (w.notes s) ((w.run s).map (·.1)) := by
  induction w generalizing s with
  | done a => exact .done a
  | read next ih => exact .read s (ih s s)
  | write t next ih => exact .write (ih t)
  | record e next ih =>
    rw [run, Option.map_map]
    exact .record (ih s)
  | pause next ih => exact .pause (ih s)
  | stop => exact .cut _

theorem notes_bind (w : Work (Noted σ) ε α) (f : α → Work (Noted σ) ε β) (s : Noted σ) :
    (w.bind f).notes s =
      w.notes s ++ (w.run s).elim [] fun r => (f r.1).notes r.2.2 := by
  induction w generalizing s with
  | done a => rfl
  | read next ih => exact ih s s
  | write t next ih =>
    rw [bind, notes, notes, run, ih, List.append_assoc]
  | record e next ih =>
    rw [bind, notes, notes, run, ih]
    cases next.run s <;> rfl
  | pause next ih => exact ih s
  | stop => rfl

variable {w : Work (Noted σ) ε α} {notes : List Note}

theorem Shows.of_done {a : α} {r : Option α}
    (h : (Work.done a : Work (Noted σ) ε α).Shows notes r) : notes = [] := by
  cases h <;> rfl

theorem Shows.of_map {f : α → β} {r : Option β} (h : (w.map f).Shows notes r) :
    ∃ r', w.Shows notes r' ∧ r = r'.map f := by
  induction w generalizing notes r with
  | done a =>
    cases h with
    | cut => exact ⟨none, .cut _, rfl⟩
    | done => exact ⟨some a, .done a, rfl⟩
  | read next ih =>
    cases h with
    | cut => exact ⟨none, .cut _, rfl⟩
    | read s h =>
      obtain ⟨r', hw, rfl⟩ := ih s h
      exact ⟨r', .read s hw, rfl⟩
  | write s next ih =>
    cases h with
    | cut => exact ⟨none, .cut _, rfl⟩
    | write h =>
      obtain ⟨r', hw, rfl⟩ := ih h
      exact ⟨r', .write hw, rfl⟩
  | record e next ih =>
    cases h with
    | cut => exact ⟨none, .cut _, rfl⟩
    | record h =>
      obtain ⟨r', hw, rfl⟩ := ih h
      exact ⟨r', .record hw, rfl⟩
  | pause next ih =>
    cases h with
    | cut => exact ⟨none, .cut _, rfl⟩
    | pause h =>
      obtain ⟨r', hw, rfl⟩ := ih h
      exact ⟨r', .pause hw, rfl⟩
  | stop =>
    cases h
    exact ⟨none, .cut _, rfl⟩

theorem Shows.of_bind {f : α → Work (Noted σ) ε β} {r : Option β}
    (h : (w.bind f).Shows notes r) :
    (w.Shows notes none ∧ r = none) ∨
      ∃ a first rest, w.Shows first (some a) ∧ (f a).Shows rest r ∧ notes = first ++ rest := by
  induction w generalizing notes r with
  | done a => exact .inr ⟨a, [], notes, .done a, h, rfl⟩
  | read next ih =>
    cases h with
    | cut => exact .inl ⟨.cut _, rfl⟩
    | read s h =>
      rcases ih s h with ⟨hw, rfl⟩ | ⟨a, first, rest, hw, hf, rfl⟩
      · exact .inl ⟨.read s hw, rfl⟩
      · exact .inr ⟨a, first, rest, .read s hw, hf, rfl⟩
  | write s next ih =>
    cases h with
    | cut => exact .inl ⟨.cut _, rfl⟩
    | write h =>
      rcases ih h with ⟨hw, rfl⟩ | ⟨a, first, rest, hw, hf, rfl⟩
      · exact .inl ⟨.write hw, rfl⟩
      · exact .inr ⟨a, s.2.toList ++ first, rest, .write hw, hf, (List.append_assoc ..).symm⟩
  | record e next ih =>
    cases h with
    | cut => exact .inl ⟨.cut _, rfl⟩
    | record h =>
      rcases ih h with ⟨hw, rfl⟩ | ⟨a, first, rest, hw, hf, rfl⟩
      · exact .inl ⟨.record hw, rfl⟩
      · exact .inr ⟨a, first, rest, .record hw, hf, rfl⟩
  | pause next ih =>
    cases h with
    | cut => exact .inl ⟨.cut _, rfl⟩
    | pause h =>
      rcases ih h with ⟨hw, rfl⟩ | ⟨a, first, rest, hw, hf, rfl⟩
      · exact .inl ⟨.pause hw, rfl⟩
      · exact .inr ⟨a, first, rest, .pause hw, hf, rfl⟩
  | stop =>
    cases h
    exact .inl ⟨.cut _, rfl⟩

theorem Shows.of_lift {w : Work (Noted σ) Empty α} {r : Option α}
    (h : (w.lift : Work (Noted σ) ε α).Shows notes r) : w.Shows notes r := by
  induction w generalizing notes r with
  | done a =>
    cases h with
    | cut => exact .cut _
    | done => exact .done a
  | read next ih =>
    cases h with
    | cut => exact .cut _
    | read s h => exact .read s (ih s h)
  | write s next ih =>
    cases h with
    | cut => exact .cut _
    | write h => exact .write (ih h)
  | record e => exact e.elim
  | pause next ih =>
    cases h with
    | cut => exact .cut _
    | pause h => exact .pause (ih h)
  | stop =>
    cases h
    exact .cut _

theorem Shows.of_quiet {v : Work σ ε α} {r : Option α} (h : v.quiet.Shows notes r) :
    notes = [] := by
  induction v generalizing notes r with
  | done a => exact h.of_done
  | read next ih =>
    cases h with
    | cut => rfl
    | read s h => exact ih s.1 h
  | write s next ih =>
    cases h with
    | cut => rfl
    | write h => exact ih h
  | record e next ih =>
    cases h with
    | cut => rfl
    | record h => exact ih h
  | pause next ih =>
    cases h with
    | cut => rfl
    | pause h => exact ih h
  | stop =>
    cases h
    rfl

theorem Shows.of_note {n : Note} {r : Option α} (h : (note n w).Shows notes r) :
    (notes = [] ∧ r = none) ∨ ∃ rest, notes = n :: rest ∧ w.Shows rest r := by
  cases h with
  | cut => exact .inl ⟨rfl, rfl⟩
  | read s h =>
    cases h with
    | cut => exact .inl ⟨rfl, rfl⟩
    | write h => exact .inr ⟨_, rfl, h⟩

/-- All notes that the work makes are its own. -/
def Owns (own : Note → Bool) (w : Work (Noted σ) ε α) : Prop :=
  ∀ notes r, w.Shows notes r → ∀ n ∈ notes, own n = true

structure Apart (own : Nat → Note → Bool) (works : List (Work (Noted σ) ε α)) : Prop where
  unique : ∀ i j n, own i n = true → own j n = true → i = j
  owns : ∀ (i : Nat) (v : Work (Noted σ) ε α), works[i]? = some v → v.Owns (own i)

/-- Each note is some member's own, and those that are a member's own are what it makes, on the way
to a result if all have come to an end. -/
structure Apportions (own : Nat → Note → Bool) (works : List (Work (Noted σ) ε α))
    (notes : List Note) (ended : Bool) : Prop where
  owned : ∀ n ∈ notes, ∃ i, own i n = true
  shows : ∀ (i : Nat) (v : Work (Noted σ) ε α), works[i]? = some v →
    ∃ r, v.Shows (notes.filter (own i)) r ∧ (ended = true → r.isSome = true)

private theorem getElem?_other {before after : List β} (a : β) {b c : β} {i : Nat}
    (h : (before ++ b :: after)[i]? = some c) :
    (i = before.length ∧ c = b) ∨ (i ≠ before.length ∧ (before ++ a :: after)[i]? = some c) := by
  rcases Nat.lt_trichotomy i before.length with hi | rfl | hi
  · rw [List.getElem?_append_left hi] at h
    exact .inr ⟨Nat.ne_of_lt hi, by rw [List.getElem?_append_left hi, h]⟩
  · simp at h
    exact .inl ⟨rfl, h.symm⟩
  · obtain ⟨k, rfl⟩ := Nat.exists_eq_add_of_lt hi
    refine .inr ⟨Nat.ne_of_gt hi, ?_⟩
    rw [List.getElem?_append_right (by omega)] at h ⊢
    rw [show before.length + k + 1 - before.length = k + 1 by omega] at h ⊢
    exact h

variable {own : Nat → Note → Bool}

theorem Apportions.cut (works : List (Work (Noted σ) ε α)) : Apportions own works [] false :=
  ⟨nofun, fun _ v _ => ⟨none, .cut v, nofun⟩⟩

theorem Apportions.step {before after : List (Work (Noted σ) ε α)} {v next : Work (Noted σ) ε α}
    (made : List Note)
    (stepped : ∀ {notes r}, next.Shows notes r → v.Shows (made ++ notes) r)
    (apart : Apart own (before ++ v :: after)) {ended : Bool}
    (rest : Apart own (before ++ next :: after) →
      Apportions own (before ++ next :: after) notes ended) :
    Apportions own (before ++ v :: after) (made ++ notes) ended := by
  have owns : v.Owns (own before.length) := apart.owns _ v (by simp)
  have made_own (n : Note) (hn : n ∈ made) : own before.length n = true :=
    owns _ _ (stepped (.cut next)) n (by simpa using hn)
  obtain ⟨owned, shows⟩ := rest ⟨apart.unique, fun i u hu => by
    rcases getElem?_other v hu with ⟨rfl, rfl⟩ | ⟨-, hu⟩
    · exact fun notes r h n hn => owns _ r (stepped h) n (List.mem_append_right _ hn)
    · exact apart.owns i u hu⟩
  constructor
  · intro n hn
    rcases List.mem_append.mp hn with hn | hn
    · exact ⟨_, made_own n hn⟩
    · exact owned n hn
  · intro i u hu
    rw [List.filter_append]
    rcases getElem?_other next hu with ⟨rfl, rfl⟩ | ⟨hi, hu⟩
    · obtain ⟨r, h, ends⟩ := shows before.length next (by simp)
      rw [List.filter_eq_self.mpr made_own]
      exact ⟨r, stepped h, ends⟩
    · have none_made : made.filter (own i) = [] := by
        refine List.filter_eq_nil_iff.mpr fun n hn h => hi ?_
        exact apart.unique _ _ n h (made_own n hn)
      rw [none_made, List.nil_append]
      exact shows i u hu

theorem Interleaves.apportions {works : List (Work (Noted σ) ε α)}
    {w : Work (Noted σ) ε (List α)} (h : Interleaves works w) (apart : Apart own works)
    {r : Option (List α)} (hw : w.Shows notes r) : Apportions own works notes r.isSome := by
  induction h generalizing notes r with
  | done as =>
    obtain rfl := hw.of_done
    refine ⟨nofun, fun i v hv => ?_⟩
    obtain ⟨a, -, rfl⟩ := List.mem_map.mp (List.mem_of_getElem? hv)
    exact ⟨some a, .done a, fun _ => rfl⟩
  | read before after _ ih =>
    cases hw with
    | cut => exact .cut _
    | read s hw => exact .step [] (.read s) apart fun apart => ih s apart hw
  | write before after _ ih =>
    cases hw with
    | cut => exact .cut _
    | write hw => exact .step _ .write apart fun apart => ih apart hw
  | record before after _ ih =>
    cases hw with
    | cut => exact .cut _
    | record hw => exact .step [] .record apart fun apart => ih apart hw
  | resume before after _ ih => exact .step [] .pause apart fun apart => ih apart hw
  | pause _ ih =>
    cases hw with
    | cut => exact .cut _
    | pause hw => exact ih apart hw
  | stop before after =>
    cases hw
    exact .cut _

end Work

/-- A call of a resolver is noted at its start and its end, the lookup of a property once. -/
theorem Resolvers.noting_shows {r : Resolvers σ} {info : ResolveInfo} {notes : List Note}
    {o : Option Outcome} (h : (r.noting info).Shows notes o) :
    (notes <+: [.called info.path, .returned info.path] ∨ notes <+: [.found info.path]) ∧
      (o.isSome = true →
        notes = [.called info.path, .returned info.path] ∨ notes = [.found info.path]) := by
  unfold Resolvers.noting at h
  split at h
  · rcases h.of_note with ⟨rfl, rfl⟩ | ⟨rest, rfl, hr⟩
    · exact ⟨.inl List.nil_prefix, nofun⟩
    rcases hr.of_bind with ⟨hq, rfl⟩ | ⟨outcome, first, last, hq, hl, rfl⟩
    · obtain rfl := hq.of_quiet
      exact ⟨.inl ⟨_, rfl⟩, nofun⟩
    obtain rfl := hq.of_quiet
    rcases hl.of_note with ⟨rfl, rfl⟩ | ⟨rest, rfl, hd⟩
    · exact ⟨.inl ⟨_, rfl⟩, nofun⟩
    · obtain rfl := hd.of_done
      exact ⟨.inl List.prefix_rfl, fun _ => .inl rfl⟩
  · rcases h.of_note with ⟨rfl, rfl⟩ | ⟨rest, rfl, hd⟩
    · exact ⟨.inl List.nil_prefix, nofun⟩
    · obtain rfl := hd.of_done
      exact ⟨.inr List.prefix_rfl, fun _ => .inr rfl⟩

end GraphQL
