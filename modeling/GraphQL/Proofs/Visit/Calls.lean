import GraphQL.Proofs.Visit.Positions

/-!
The calls of hooks that a walk makes. Main statement: whatever the hooks answer, entered nodes are
closed once each, properly nested; the nodes that an aborted walk leaves open are abandoned at its
end; and every call is told the way to its node.
-/
namespace GraphQL.Visit

open Ast

/-- A call of a hook, with the answer where the hook gives one. -/
inductive Call (ε : Type) where
  | enter (n : Node) (path : List PathSegment) (answer : Except ε Action)
  | leave (n : Node) (path : List PathSegment) (answer : Except ε Action)
  | abandon (n : Node) (path : List PathSegment)

variable {σ ε : Type}

/-- The visitor that also notes every call of its hooks. -/
def Visitor.noting (v : Visitor σ ε) : Visitor (σ × List (Call ε)) ε where
  enter n path s :=
    let (answer, t) := v.enter n path s.1
    (answer, t, s.2 ++ [.enter n path answer])
  leave n path s :=
    let (answer, t) := v.leave n path s.1
    (answer, t, s.2 ++ [.leave n path answer])
  abandon n path s := (v.abandon n path s.1, s.2 ++ [.abandon n path])

/-- A walk may be aborted so because of an answer: at once, or because the edit that the answer asks
for does not fit the slot. -/
def Aborts : Except ε Action → Abort ε → Prop
  | .error e, a => a = .failed (.callback e)
  | .ok .stop, a => a = .stop
  | .ok (.replace m), a => ∃ parent key, a = .failed (.invalidEdit parent key (some m.kind))
  | .ok .delete, a => ∃ parent key, a = .failed (.invalidEdit parent key none)
  | .ok .proceed, _ | .ok .skip, _ => False

namespace Call

def node : Call ε → Node
  | enter n _ _ => n
  | leave n _ _ => n
  | abandon n _ => n

def path : Call ε → List PathSegment
  | enter _ path _ => path
  | leave _ path _ => path
  | abandon _ path => path

def position (c : Call ε) : Position := (c.path, c.node)

def answer? : Call ε → Option (Except ε Action)
  | enter _ _ answer => some answer
  | leave _ _ answer => some answer
  | abandon _ _ => none

def isEnter : Call ε → Bool
  | enter _ _ _ => true
  | _ => false

def isAbandon : Call ε → Bool
  | abandon _ _ => true
  | _ => false

/-- The walk goes below the node, which is to be closed then. -/
def opens : Call ε → Bool
  | enter _ _ (.ok .proceed) => true
  | _ => false

/-- The hook neither skips nor edits nor aborts; a node that is left cannot be skipped. -/
def GoesOn : Call ε → Prop
  | enter _ _ answer => answer = .ok .proceed
  | leave _ _ answer => answer = .ok .proceed ∨ answer = .ok .skip
  | abandon _ _ => True

/-- The call closes the node that was entered at the path. A node may be left with other
children. -/
def Closes (n : Node) (path : List PathSegment) : Call ε → Prop
  | enter _ _ _ => False
  | leave m p _ => p = path ∧ m.kind = n.kind
  | abandon m p => p = path ∧ m = n

/-- The call is about the node as it was, or leaves what became of it. -/
def Concerns (n : Node) : Call ε → Prop
  | enter m _ _ => m = n
  | leave m _ _ => m.kind = n.kind
  | abandon m _ => m = n

/-- The answer is why the walk is aborted. -/
def Causes (c : Call ε) (a : Abort ε) : Prop :=
  ∃ answer, c.answer? = some answer ∧ Aborts answer a

theorem Causes.not_goesOn {c : Call ε} {a : Abort ε} (h : c.Causes a) : ¬ c.GoesOn := by
  intro on
  obtain ⟨answer, asked, aborts⟩ := h
  cases c with
  | enter n path answer =>
    cases asked
    rw [show answer = .ok .proceed from on] at aborts
    exact aborts
  | leave n path answer =>
    cases asked
    rcases on with rfl | rfl <;> exact aborts
  | abandon n path => cases asked

theorem Closes.path_eq {n : Node} {path : List PathSegment} {c : Call ε} (h : c.Closes n path) :
    c.path = path := by
  cases c with
  | enter => exact h.elim
  | leave => exact h.1
  | abandon => exact h.1

theorem Closes.concerns {n : Node} {path : List PathSegment} {c : Call ε} (h : c.Closes n path) :
    c.Concerns n := by
  cases c with
  | enter => exact h.elim
  | leave => exact h.2
  | abandon => exact h.2

theorem Closes.position_eq {n : Node} {path : List PathSegment} {c : Call ε}
    (h : c.Closes n path) (abandons : c.isAbandon = true) : c.position = (path, n) := by
  cases c with
  | abandon m p => exact Prod.ext h.1 h.2
  | _ => cases abandons

theorem Closes.not_enter {n : Node} {path : List PathSegment} {c : Call ε} (h : c.Closes n path) :
    c.isEnter = false := by
  cases c with
  | enter => exact h.elim
  | _ => rfl

end Call

/-- Calls that close all nodes that they open, the last opened first. -/
inductive Nested : List (Call ε) → Prop where
  | nil : Nested []
  | refused {n : Node} {path : List PathSegment} {answer : Except ε Action}
      {rest : List (Call ε)} :
      answer ≠ .ok .proceed → Nested rest → Nested (.enter n path answer :: rest)
  | closed {n : Node} {path : List PathSegment} {inner rest : List (Call ε)} {close : Call ε} :
      Nested inner → close.Closes n path → Nested rest →
      Nested (.enter n path (.ok .proceed) :: (inner ++ close :: rest))

namespace Nested

variable {calls others : List (Call ε)}

theorem append (h : Nested calls) (h' : Nested others) : Nested (calls ++ others) := by
  induction h with
  | nil => exact h'
  | refused hr _ ih => exact .refused hr ih
  | closed hi hc _ _ ih =>
    rw [List.cons_append, List.append_assoc, List.cons_append]
    exact .closed hi hc ih

theorem opened_perm (h : Nested calls) :
    ((calls.filter Call.opens).map Call.path).Perm
      ((calls.filter fun c => !c.isEnter).map Call.path) := by
  induction h with
  | nil => exact .nil
  | @refused n path answer rest hr _ ih =>
    have closed : (Call.enter n path answer).opens = false := by
      rcases answer with e | (_ | _ | _ | _ | _)
      all_goals first | rfl | exact absurd rfl hr
    rwa [List.filter_cons_of_neg (by simp [closed]),
      List.filter_cons_of_neg (by simp [Call.isEnter])]
  | @closed n path inner rest close _ hc _ ih ih' =>
    have enter : close.isEnter = false := hc.not_enter
    have opens : close.opens = false := by
      cases close with
      | enter => exact hc.elim
      | _ => rfl
    rw [List.filter_cons_of_pos rfl, List.filter_cons_of_neg (by simp [Call.isEnter]),
      List.filter_append, List.filter_append, List.filter_cons_of_neg (by simp [opens]),
      List.filter_cons_of_pos (by simp [enter]), List.map_cons, List.map_append, List.map_append,
      List.map_cons, hc.path_eq]
    exact ((ih.append ih').cons path).trans List.perm_middle.symm

/-- An opened node is closed later, and all that is opened in between is closed before. -/
theorem exists_close (h : Nested calls) {before after : List (Call ε)} {n : Node}
    {path : List PathSegment} (hc : calls = before ++ .enter n path (.ok .proceed) :: after) :
    ∃ inner close rest, after = inner ++ close :: rest ∧ Nested inner ∧ close.Closes n path := by
  induction h generalizing before after with
  | nil => simp at hc
  | @refused m p answer tail hr _ ih =>
    rcases before with - | ⟨first, before⟩
    · simp only [List.nil_append, List.cons.injEq, Call.enter.injEq] at hc
      exact absurd hc.1.2.2 hr
    · rw [List.cons_append, List.cons.injEq] at hc
      exact ih hc.2
  | @closed m p body tail close hi hclose _ ih ih' =>
    rcases before with - | ⟨first, before⟩
    · simp only [List.nil_append, List.cons.injEq, Call.enter.injEq] at hc
      obtain ⟨⟨rfl, rfl, -⟩, rfl⟩ := hc
      exact ⟨body, close, tail, rfl, hi, hclose⟩
    · rw [List.cons_append, List.cons.injEq] at hc
      -- the node is opened in the body or in the tail, for the closing call opens nothing
      rcases List.append_eq_append_iff.mp hc.2 with ⟨mid, hb, ht⟩ | ⟨mid, hb, ht⟩
      · rcases mid with - | ⟨x, mid⟩
        · rw [List.nil_append, List.cons.injEq] at ht
          rw [ht.1] at hclose
          exact hclose.elim
        · rw [List.cons_append, List.cons.injEq] at ht
          exact ih' ht.2
      · rcases mid with - | ⟨x, mid⟩
        · rw [List.nil_append, List.cons.injEq] at ht
          rw [← ht.1] at hclose
          exact hclose.elim
        · rw [List.cons_append, List.cons.injEq] at ht
          obtain ⟨rfl, rfl⟩ := ht
          obtain ⟨inner, c, rest, rfl, hn, hcl⟩ := ih hb
          exact ⟨inner, c, rest ++ close :: tail, by simp, hn, hcl⟩

theorem exists_open (h : Nested calls) {c : Call ε} (hc : c ∈ calls) (he : c.isEnter = false) :
    ∃ n, .enter n c.path (.ok .proceed) ∈ calls ∧ c.Closes n c.path := by
  induction h with
  | nil => cases hc
  | refused _ _ ih =>
    rcases List.mem_cons.mp hc with rfl | hc
    · cases he
    · obtain ⟨n, hn, closes⟩ := ih hc
      exact ⟨n, List.mem_cons_of_mem _ hn, closes⟩
  | @closed m p body tail close _ hclose _ ih ih' =>
    rcases List.mem_cons.mp hc with rfl | hc
    · cases he
    rcases List.mem_append.mp hc with hc | hc
    · obtain ⟨n, hn, closes⟩ := ih hc
      exact ⟨n, List.mem_cons_of_mem _ (List.mem_append_left _ hn), closes⟩
    rcases List.mem_cons.mp hc with rfl | hc
    · rw [hclose.path_eq]
      exact ⟨m, List.mem_cons_self, hclose⟩
    · obtain ⟨n, hn, closes⟩ := ih' hc
      exact ⟨n, List.mem_cons_of_mem _ (List.mem_append_right _ (List.mem_cons_of_mem _ hn)),
        closes⟩

end Nested

/-- The nodes open after a call, innermost first. -/
def openAfter (opened : List Position) : Call ε → List Position
  | .enter n path (.ok .proceed) => (path, n) :: opened
  | .enter _ _ _ => opened
  | .leave _ _ _ | .abandon _ _ => opened.tail

def stillOpen (calls : List (Call ε)) : List Position := calls.foldl openAfter []

theorem Nested.eq_nil_of_abandons {calls : List (Call ε)} (h : Nested calls)
    (abandons : ∀ c ∈ calls, c.isAbandon = true) : calls = [] := by
  cases h with
  | nil => rfl
  | refused _ _ => cases abandons _ List.mem_cons_self
  | closed _ _ _ => cases abandons _ List.mem_cons_self

theorem openAfter_proceed (n : Node) (path : List PathSegment) (opened : List Position) :
    openAfter opened (.enter n path (.ok .proceed) : Call ε) = (path, n) :: opened := rfl

theorem openAfter_refused {n : Node} {path : List PathSegment} {answer : Except ε Action}
    (refused : answer ≠ .ok .proceed) (opened : List Position) :
    openAfter opened (.enter n path answer) = opened := by
  rcases answer with e | (_ | _ | _ | _ | _)
  case ok.proceed => exact absurd rfl refused
  all_goals rfl

theorem Call.Closes.openAfter {n : Node} {path : List PathSegment} {c : Call ε}
    (h : c.Closes n path) (p : Position) (opened : List Position) :
    openAfter (p :: opened) c = opened := by
  cases c with
  | enter => exact h.elim
  | leave => rfl
  | abandon => rfl

theorem Nested.foldl_openAfter {calls : List (Call ε)} (h : Nested calls)
    (opened : List Position) : calls.foldl openAfter opened = opened := by
  induction h generalizing opened with
  | nil => rfl
  | refused hr _ ih => rw [List.foldl_cons, openAfter_refused hr, ih]
  | closed _ hc _ ih ih' =>
    rw [List.foldl_cons, openAfter_proceed, List.foldl_append, ih, List.foldl_cons, hc.openAfter,
      ih']

/-- Calls that end in nodes abandoned abandon what is open before, innermost first. -/
theorem Nested.abandoned {calls : List (Call ε)} (h : Nested calls) (opened : List Position)
    {before after : List (Call ε)} (split : calls = before ++ after)
    (abandons : ∀ c ∈ after, c.isAbandon = true) :
    before.foldl openAfter opened = after.map Call.position ++ opened := by
  induction h generalizing opened before after with
  | nil =>
    obtain ⟨rfl, rfl⟩ := List.append_eq_nil_iff.mp split.symm
    rfl
  | @refused n path answer rest hr _ ih =>
    rcases before with - | ⟨first, before⟩
    · rw [List.nil_append] at split
      cases abandons (.enter n path answer) (split ▸ List.mem_cons_self)
    · rw [List.cons_append, List.cons.injEq] at split
      obtain ⟨rfl, split⟩ := split
      rw [List.foldl_cons, openAfter_refused hr]
      exact ih opened split abandons
  | @closed n path inner rest close hi hc hr ih ih' =>
    rcases before with - | ⟨first, before⟩
    · rw [List.nil_append] at split
      cases abandons (.enter n path (.ok .proceed)) (split ▸ List.mem_cons_self)
    rw [List.cons_append, List.cons.injEq] at split
    obtain ⟨rfl, split⟩ := split
    rw [List.foldl_cons, openAfter_proceed]
    -- nodes abandoned inside: then the closing call is the last of all, and abandons too
    have inside : ∀ mid, inner = before ++ mid → after = mid ++ close :: rest →
        before.foldl openAfter ((path, n) :: opened) = after.map Call.position ++ opened := by
      rintro mid hin rfl
      have none : rest = [] := hr.eq_nil_of_abandons fun c hc =>
        abandons c (List.mem_append_right _ (List.mem_cons_of_mem _ hc))
      have position : close.position = (path, n) :=
        hc.position_eq (abandons close (List.mem_append_right _ List.mem_cons_self))
      rw [ih _ hin fun c hc => abandons c (List.mem_append_left _ hc), none]
      simp [position]
    rcases List.append_eq_append_iff.mp split with ⟨mid, rfl, ht⟩ | ⟨mid, hin, ht⟩
    · rcases mid with - | ⟨x, mid⟩
      · exact inside [] (by simp) (by simpa using ht.symm)
      · rw [List.cons_append, List.cons.injEq] at ht
        obtain ⟨rfl, ht⟩ := ht
        rw [List.foldl_append, hi.foldl_openAfter, List.foldl_cons, hc.openAfter]
        exact ih' opened ht abandons
    · exact inside mid hin ht

/-- The positions of the nodes entered, in order. -/
def entered (calls : List (Call ε)) : List Position := (calls.filter Call.isEnter).map Call.position

theorem entered_append (calls others : List (Call ε)) :
    entered (calls ++ others) = entered calls ++ entered others := by
  simp [entered]

theorem entered_enter (n : Node) (path : List PathSegment) (answer : Except ε Action)
    (calls : List (Call ε)) :
    entered (.enter n path answer :: calls) = (path, n) :: entered calls := rfl

theorem entered_close {close : Call ε} (h : close.isEnter = false) (calls : List (Call ε)) :
    entered (calls ++ [close]) = entered calls := by
  rw [entered_append]
  simp [entered, h]

/-- Nodes are abandoned only at the end of a walk that a call has aborted. -/
def Ending : Option (Abort ε) → List (Call ε) → Prop
  | none, calls => ∀ c ∈ calls, c.isAbandon = false
  | some a, calls => ∃ before last after, calls = before ++ last :: after ∧
      (∀ c ∈ before, c.isAbandon = false) ∧ last.Causes a ∧ ∀ c ∈ after, c.isAbandon = true

/-- The calls of a walk over the positions, which is aborted or not. -/
structure Orderly (ps : List Position) (abort : Option (Abort ε)) (calls : List (Call ε)) :
    Prop where
  nested : Nested calls
  entered : (entered calls).Sublist ps
  all : (∀ c ∈ calls, c.GoesOn) → abort = none ∧ Visit.entered calls = ps
  ending : Ending abort calls

namespace Orderly

variable {ps qs : List Position} {abort : Option (Abort ε)} {calls others : List (Call ε)}

theorem nil : Orderly [] (none : Option (Abort ε)) [] :=
  ⟨.nil, .slnil, fun _ => ⟨rfl, rfl⟩, by simp [Ending]⟩

theorem append (h : Orderly ps none calls) (h' : Orderly qs abort others) :
    Orderly (ps ++ qs) abort (calls ++ others) := by
  refine ⟨h.nested.append h'.nested, ?_, fun on => ?_, ?_⟩
  · rw [entered_append]
    exact h.entered.append h'.entered
  · obtain ⟨-, first⟩ := h.all fun c hc => on c (List.mem_append_left _ hc)
    obtain ⟨finished, second⟩ := h'.all fun c hc => on c (List.mem_append_right _ hc)
    exact ⟨finished, by rw [entered_append, first, second]⟩
  · have ending := h'.ending
    cases abort with
    | none =>
      intro c hc
      rcases List.mem_append.mp hc with hc | hc
      · exact h.ending c hc
      · exact ending c hc
    | some a =>
      obtain ⟨before, last, after, rfl, hb, cause, ha⟩ := ending
      refine ⟨calls ++ before, last, after, by simp, fun c hc => ?_, cause, ha⟩
      rcases List.mem_append.mp hc with hc | hc
      · exact h.ending c hc
      · exact hb c hc

theorem cut {a : Abort ε} (h : Orderly ps (some a) calls) (qs : List Position) :
    Orderly (ps ++ qs) (some a) calls :=
  ⟨h.nested, h.entered.trans (List.sublist_append_left ps qs),
    fun on => absurd (h.all on).1 (by simp), h.ending⟩

/-- What the last call asked for aborts the walk. -/
theorem stopped {a : Abort ε} {last : Call ε} (h : Orderly ps none (calls ++ [last]))
    (cause : last.Causes a) (qs : List Position) :
    Orderly (ps ++ qs) (some a) (calls ++ [last]) :=
  ⟨h.nested, h.entered.trans (List.sublist_append_left ps qs),
    fun on => absurd (on last (by simp)) cause.not_goesOn,
    calls, last, [], rfl, fun c hc => h.ending c (by simp [hc]), cause, by simp⟩

theorem refused {n : Node} {path : List PathSegment} {answer : Except ε Action}
    (refuses : answer ≠ .ok .proceed)
    (cause : ∀ a, abort = some a → (Call.enter n path answer).Causes a) :
    Orderly ((path, n) :: ps) abort [.enter n path answer] := by
  refine ⟨.refused refuses .nil, ?_, fun on => ?_, ?_⟩
  · exact (List.nil_sublist ps).cons_cons (path, n)
  · exact absurd (on _ List.mem_cons_self) refuses
  · cases abort with
    | none => simp [Ending, Call.isAbandon]
    | some a => exact ⟨[], _, [], rfl, by simp, cause a rfl, by simp⟩

theorem abandoned {n : Node} {path : List PathSegment} {a : Abort ε}
    (h : Orderly ps (some a) calls) :
    Orderly ((path, n) :: ps) (some a)
      (.enter n path (.ok .proceed) :: (calls ++ [.abandon n path])) := by
  refine ⟨.closed h.nested ⟨rfl, rfl⟩ .nil, ?_, fun on => ?_, ?_⟩
  · rw [entered_enter, entered_close rfl]
    exact h.entered.cons_cons (path, n)
  · have := h.all fun c hc => on c (by simp [hc])
    cases this.1
  · obtain ⟨before, last, after, rfl, hb, cause, ha⟩ := h.ending
    refine ⟨.enter n path (.ok .proceed) :: before, last, after ++ [.abandon n path], by simp,
      ?_, cause, ?_⟩
    · rw [List.forall_mem_cons]
      exact ⟨rfl, hb⟩
    · intro c hc
      rcases List.mem_append.mp hc with hc | hc
      · exact ha c hc
      · rw [List.mem_singleton.mp hc]
        rfl

theorem left {n m : Node} {path : List PathSegment} {answer : Except ε Action}
    (h : Orderly ps none calls) (kind : m.kind = n.kind)
    (cause : ∀ a, abort = some a → (Call.leave m path answer).Causes a) :
    Orderly ((path, n) :: ps) abort
      (.enter n path (.ok .proceed) :: (calls ++ [.leave m path answer])) := by
  refine ⟨.closed h.nested ⟨rfl, kind⟩ .nil, ?_, fun on => ?_, ?_⟩
  · rw [entered_enter, entered_close rfl]
    exact h.entered.cons_cons (path, n)
  · rw [entered_enter, entered_close rfl, (h.all fun c hc => on c (by simp [hc])).2]
    refine ⟨?_, rfl⟩
    cases abort with
    | none => rfl
    | some a => exact absurd (on _ (by simp)) (cause a rfl).not_goesOn
  · have before : ∀ c ∈ (.enter n path (.ok .proceed) : Call ε) :: calls,
        c.isAbandon = false := by
      rw [List.forall_mem_cons]
      exact ⟨rfl, h.ending⟩
    cases abort with
    | none =>
      intro c hc
      rw [← List.cons_append] at hc
      rcases List.mem_append.mp hc with hc | hc
      · exact before c hc
      · rw [List.mem_singleton.mp hc]
        rfl
    | some a =>
      exact ⟨_, _, [], by rw [List.cons_append], before, cause a rfl, by simp⟩

end Orderly

end GraphQL.Visit
