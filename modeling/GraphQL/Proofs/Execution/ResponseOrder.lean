import GraphQL.Proofs.Execution.Regular
import Mathlib.Data.List.Pairwise

/-!
The order of a response. The errors of a course stand in it already, no two at one position and
none below another, so sorting brings errors recorded in any order into this one.
-/
namespace GraphQL

open Ast TypeSystem

/-- Strictly before in the order of the response, neither position below the other. -/
def Precedes : List Nat → List Nat → Prop
  | i :: rest, j :: others => i < j ∨ i = j ∧ Precedes rest others
  | _, _ => False

/-- At the first level where two positions part, the first comes earlier among its siblings: its
response key was collected earlier, or its index is less. -/
inductive Earlier : List Course → List PathElement → List PathElement → Prop where
  | here {courses : List Course} {c d : Course} {p q : List PathElement} :
      c ∈ courses → d ∈ courses → c.place.ordinal < d.place.ordinal →
      Earlier courses (c.place.step :: p) (d.place.step :: q)
  | deeper {courses : List Course} {c : Course} {p q : List PathElement} :
      c ∈ courses → Earlier c.members p q →
      Earlier courses (c.place.step :: p) (c.place.step :: q)

theorem Precedes.irrefl (a : List Nat) : ¬ Precedes a a := by
  induction a with
  | nil => exact id
  | cons i rest ih =>
    rintro (h | ⟨-, h⟩)
    · exact Nat.lt_irrefl i h
    · exact ih h

theorem Precedes.of_lt {i j : Nat} (h : i < j) (rest others : List Nat) :
    Precedes (i :: rest) (j :: others) := .inl h

theorem Precedes.cons (i : Nat) {rest others : List Nat} (h : Precedes rest others) :
    Precedes (i :: rest) (i :: others) := .inr ⟨rfl, h⟩

theorem Precedes.append (a : List Nat) {o r : List Nat} (h : Precedes o r) :
    Precedes (a ++ o) (a ++ r) := by
  induction a with
  | nil => exact h
  | cons i rest ih => exact ih.cons i

theorem ordinalsLe_of_precedes {a b : List Nat} (h : Precedes a b) : ordinalsLe a b = true := by
  induction a generalizing b with
  | nil => rfl
  | cons i rest ih =>
    cases b with
    | nil => exact h.elim
    | cons j others =>
      rcases h with h | ⟨rfl, h⟩
      · simp [ordinalsLe, h]
      · simp [ordinalsLe, ih h]

theorem ordinalsLe_antisymm {a b : List Nat} (hab : ordinalsLe a b = true)
    (hba : ordinalsLe b a = true) : a = b := by
  induction a generalizing b with
  | nil =>
    cases b with
    | nil => rfl
    | cons => simp [ordinalsLe] at hba
  | cons i rest ih =>
    cases b with
    | nil => simp [ordinalsLe] at hab
    | cons j others =>
      simp only [ordinalsLe, Bool.or_eq_true, decide_eq_true_eq, Bool.and_eq_true] at hab hba
      rcases hab with h | ⟨rfl, hab⟩
      · rcases hba with h' | ⟨rfl, -⟩ <;> omega
      · rcases hba with h' | ⟨-, hba⟩
        · omega
        · rw [ih hab hba]

theorem ordinalsLe_trans {a b c : List Nat} (hab : ordinalsLe a b = true)
    (hbc : ordinalsLe b c = true) : ordinalsLe a c = true := by
  induction a generalizing b c with
  | nil => rfl
  | cons i rest ih =>
    cases b with
    | nil => simp [ordinalsLe] at hab
    | cons j others =>
      cases c with
      | nil => simp [ordinalsLe] at hbc
      | cons k last =>
        simp only [ordinalsLe, Bool.or_eq_true, decide_eq_true_eq, Bool.and_eq_true] at *
        rcases hab with h | ⟨rfl, hab⟩
        · rcases hbc with h' | ⟨rfl, -⟩ <;> exact .inl (by omega)
        · rcases hbc with h' | ⟨rfl, hbc⟩
          · exact .inl h'
          · exact .inr ⟨rfl, ih hab hbc⟩

theorem ordinalsLe_total (a b : List Nat) : (ordinalsLe a b || ordinalsLe b a) = true := by
  induction a generalizing b with
  | nil => rfl
  | cons i rest ih =>
    cases b with
    | nil => rfl
    | cons j others =>
      have := ih others
      simp only [ordinalsLe, Bool.or_eq_true, decide_eq_true_eq, Bool.and_eq_true] at *
      rcases Nat.lt_trichotomy i j with h | rfl | h
      · exact .inl (.inl h)
      · rcases this with h | h
        · exact .inl (.inr ⟨rfl, h⟩)
        · exact .inr (.inr ⟨rfl, h⟩)
      · exact .inr (.inl h)

/-- Errors recorded in any order are sorted as they are listed, if no two share a position. -/
theorem inResponseOrder_of_perm {es fs : List RecordedError} (h : es.Perm fs)
    (order : fs.Pairwise fun e f => Precedes e.ordinals f.ordinals) :
    inResponseOrder es = fs.map (·.error) := by
  have sorted : (es.mergeSort fun e f => ordinalsLe e.ordinals f.ordinals).Pairwise
      fun e f => ordinalsLe e.ordinals f.ordinals = true := by
    refine List.pairwise_mergeSort ?_ ?_ es
    · exact fun _ _ _ => ordinalsLe_trans
    · exact fun _ _ => ordinalsLe_total _ _
  have listed : fs.Pairwise fun e f => ordinalsLe e.ordinals f.ordinals = true :=
    order.imp ordinalsLe_of_precedes
  have perm := (es.mergeSort_perm fun e f => ordinalsLe e.ordinals f.ordinals).trans h
  -- positions that are equal are positions of one error
  have distinct : ∀ e ∈ fs, ∀ f ∈ fs, e.ordinals = f.ordinals → e = f := by
    have differ : fs.Pairwise fun e f => e.ordinals = f.ordinals → e = f :=
      order.imp fun hp he => absurd (he ▸ hp) (Precedes.irrefl _)
    have flipped : fs.Pairwise fun e f => f.ordinals = e.ordinals → f = e :=
      differ.imp fun h he => (h he.symm).symm
    exact differ.forall_of_forall_of_flip (fun _ _ _ => rfl) flipped
  unfold inResponseOrder
  congr 1
  refine perm.eq_of_pairwise (fun e f he hf hef hfe => ?_) sorted listed
  exact distinct e (perm.subset he) f hf (ordinalsLe_antisymm hef hfe)

theorem Siblings.step_ne {path : ResponsePath} {places : List Place} (h : Siblings path places)
    {p q : Place} (hp : p ∈ places) (hq : q ∈ places) (hne : p.ordinal ≠ q.ordinal) :
    p.step ≠ q.step := by
  have distinct : places.Pairwise fun p q => p.ordinal ≠ q.ordinal → p.step ≠ q.step :=
    h.order.imp fun hpq _ => hpq.2
  have flipped : places.Pairwise fun p q => q.ordinal ≠ p.ordinal → q.step ≠ p.step :=
    h.order.imp fun hpq _ => hpq.2.symm
  exact distinct.forall_of_forall_of_flip (fun _ _ hne => absurd rfl hne) flipped hp hq hne

namespace Course.Regular

theorem siblings {c : Course} (h : c.Regular) :
    Siblings c.place.path (c.members.map Course.place) := by
  cases h with
  | list hs | object hs => exact hs
  | _ => exact ⟨by simp [Course.members], .nil⟩

theorem members {c : Course} (h : c.Regular) : ∀ d ∈ c.members, d.Regular := by
  cases h with
  | list _ _ hm | object _ _ hm => exact hm
  | _ => simp [Course.members]

end Course.Regular

theorem Earlier.not_prefix {courses : List Course} {p q : List PathElement}
    (h : Earlier courses p q) {path : ResponsePath}
    (siblings : Siblings path (courses.map Course.place)) (regular : ∀ c ∈ courses, c.Regular) :
    ¬ p <+: q ∧ ¬ q <+: p := by
  induction h generalizing path with
  | here hc hd hlt =>
    have hne := siblings.step_ne (List.mem_map_of_mem hc) (List.mem_map_of_mem hd)
      (Nat.ne_of_lt hlt)
    simp [List.cons_prefix_cons, hne, hne.symm]
  | deeper hc _ ih =>
    have hr := regular _ hc
    simpa [List.cons_prefix_cons] using ih hr.siblings hr.members

/-- The error is recorded this far below a path. -/
structure RecordedError.Under (e : RecordedError) (path : ResponsePath) (p : List PathElement)
    (o : List Nat) : Prop where
  elements : e.error.path = some (path.elements ++ p)
  ordinals : e.ordinals = path.ordinals ++ o

theorem RecordedError.Under.step {e : RecordedError} {place : Place} {p : List PathElement}
    {o : List Nat} (h : e.Under place.path p o) :
    e.Under place.parent (place.step :: p) (place.ordinal :: o) := by
  obtain ⟨elements, ordinals⟩ := h
  exact ⟨by simp [elements, Place.path, ResponsePath.child],
    by simp [ordinals, Place.path, ResponsePath.child]⟩

theorem Course.Regular.errors_under {c : Course} (h : c.Regular) :
    ∀ e ∈ c.errors, ∃ p o, e.Under c.place.path p o := by
  have below {path : ResponsePath} {courses : List Course}
      (siblings : Siblings path (courses.map Course.place))
      (each : ∀ d ∈ courses, ∀ e ∈ d.errors, ∃ p o, e.Under d.place.path p o) :
      ∀ e ∈ errorsOf courses, ∃ p o, e.Under path p o := by
    intro e he
    rw [errorsOf_eq] at he
    obtain ⟨d, hd, he⟩ := List.mem_flatMap.mp he
    obtain ⟨p, o, hu⟩ := each d hd e he
    refine ⟨_, _, siblings.parent _ (List.mem_map_of_mem hd) ▸ hu.step⟩
  induction h with
  | @failed place _ e ho hp =>
    intro f hf
    simp only [Course.errors, errorsOf, Fate.errors, List.append_nil, List.mem_singleton] at hf
    subst hf
    exact ⟨[], [], by rw [List.append_nil]; exact hp, by rw [List.append_nil]; exact ho⟩
  | null | leaf => simp [Course.errors, errorsOf, Fate.errors]
  | list hs _ _ ih | object hs _ _ ih =>
    rw [Course.errors_eq]
    exact below hs ih

def InOrder (path : ResponsePath) (courses : List Course) (e f : RecordedError) : Prop :=
  ∃ p q o r, e.Under path p o ∧ f.Under path q r ∧ Precedes o r ∧ Earlier courses p q

private theorem errorsOf_inOrder_of_each {path : ResponsePath} {courses : List Course}
    (siblings : Siblings path (courses.map Course.place)) (regular : ∀ c ∈ courses, c.Regular)
    (each : ∀ c ∈ courses, c.errors.Pairwise (InOrder c.place.path c.members)) :
    (errorsOf courses).Pairwise (InOrder path courses) := by
  have parent {c : Course} (hc : c ∈ courses) : c.place.parent = path :=
    siblings.parent _ (List.mem_map_of_mem hc)
  rw [errorsOf_eq]
  refine List.pairwise_flatMap.mpr ⟨fun c hc => ?_, ?_⟩
  · refine (each c hc).imp fun {e f} ⟨p, q, o, r, he, hf, ho, hp⟩ => ?_
    exact ⟨_, _, _, _, parent hc ▸ he.step, parent hc ▸ hf.step, ho.cons _, .deeper hc hp⟩
  · have order := List.pairwise_map.mp siblings.order
    refine order.imp_of_mem fun {c d} hc hd hlt e he f hf => ?_
    obtain ⟨p, o, hu⟩ := (regular c hc).errors_under e he
    obtain ⟨q, r, hv⟩ := (regular d hd).errors_under f hf
    exact ⟨_, _, _, _, parent hc ▸ hu.step, parent hd ▸ hv.step, Precedes.of_lt hlt.1 _ _,
      .here hc hd hlt.1⟩

theorem Course.Regular.errors_inOrder {c : Course} (h : c.Regular) :
    c.errors.Pairwise (InOrder c.place.path c.members) := by
  induction h with
  | failed | null | leaf => simp [Course.errors, errorsOf, Fate.errors]
  | list hs _ hm ih | object hs _ hm ih =>
    rw [Course.errors_eq]
    exact errorsOf_inOrder_of_each hs hm ih

theorem errorsOf_inOrder {path : ResponsePath} {courses : List Course}
    (siblings : Siblings path (courses.map Course.place)) (regular : ∀ c ∈ courses, c.Regular) :
    (errorsOf courses).Pairwise (InOrder path courses) :=
  errorsOf_inOrder_of_each siblings regular fun c hc => (regular c hc).errors_inOrder

theorem inResponseOrder_errorsOf {path : ResponsePath} {courses : List Course}
    (siblings : Siblings path (courses.map Course.place)) (regular : ∀ c ∈ courses, c.Regular)
    {es : List RecordedError} (hes : es.Perm (errorsOf courses)) :
    inResponseOrder es = (errorsOf courses).map (·.error) := by
  refine inResponseOrder_of_perm hes ?_
  refine (errorsOf_inOrder siblings regular).imp fun ⟨_, _, _, _, he, hf, ho, _⟩ => ?_
  rw [he.ordinals, hf.ordinals]
  exact ho.append _

variable {σ : Type}

namespace Execution

variable {x : Execution σ} {root : ObjectType} {courses : List Course}

theorem RootFollows.inResponseOrder (h : x.RootFollows root courses) {es : List RecordedError}
    (hes : es.Perm (errorsOf courses)) :
    inResponseOrder es = (errorsOf courses).map (·.error) :=
  inResponseOrder_errorsOf h.siblings h.regular hes

end Execution

/-- A run that gets to the fields has courses that explain its response. -/
theorem exists_explains {request : Request σ} {document : Document} {depth : Nat} {s s' : σ}
    {scheduler : Scheduler σ RecordedError Completion} {response : Response} {x : Execution σ}
    {root : ObjectType} (prepared : request.prepare document scheduler = .ok (x, root))
    (run : execute request document depth s scheduler = some (response, s')) :
    ∃ courses, x.Explains root courses response := by
  simp only [execute, prepared, Option.map_eq_some_iff] at run
  obtain ⟨⟨c, es, t⟩, hr, he⟩ := run
  cases he
  obtain ⟨courses, hroot, hc, hes⟩ :=
    Execution.rootFollows_of_completeRoot (Work.mayEnd_of_run hr)
  exact ⟨courses, hroot, hc, hroot.inResponseOrder hes⟩

end GraphQL
