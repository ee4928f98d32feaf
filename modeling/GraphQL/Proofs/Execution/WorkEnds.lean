import GraphQL.Execution.Interleaving
import Mathlib.Data.List.Forall2

/-!
How work can end, whatever states it meets on its way: the results with the errors recorded before
them, and the stops. The ends of joined work are made of ends of its members, under every
scheduler.
-/
namespace GraphQL.Work

variable {σ ε α β : Type}

/-- In some states the work ends in this result, having recorded these errors. -/
def MayEnd : Work σ ε α → α → List ε → Prop
  | done a, b, es => b = a ∧ es = []
  | read next, b, es => ∃ s, (next s).MayEnd b es
  | write _ next, b, es => next.MayEnd b es
  | record e next, b, es => ∃ fs, es = e :: fs ∧ next.MayEnd b fs
  | pause next, b, es => next.MayEnd b es
  | stop, _, _ => False

/-- In some states the work stops without a result. -/
def MayStop : Work σ ε α → Prop
  | done _ => False
  | read next => ∃ s, (next s).MayStop
  | write _ next => next.MayStop
  | record _ next => next.MayStop
  | pause next => next.MayStop
  | stop => True

theorem mayEnd_of_run {w : Work σ ε α} {s s' : σ} {a : α} {es : List ε}
    (h : w.run s = some (a, es, s')) : w.MayEnd a es := by
  induction w generalizing s s' a es with
  | done b =>
    simp only [run, Option.some.injEq, Prod.mk.injEq] at h
    exact ⟨h.1.symm, h.2.1.symm⟩
  | read next ih => exact ⟨s, ih s h⟩
  | write t next ih => exact ih h
  | record e next ih =>
    simp only [run, Option.map_eq_some_iff] at h
    obtain ⟨⟨b, fs, t⟩, hr, he⟩ := h
    cases he
    exact ⟨fs, rfl, ih hr⟩
  | pause next ih => exact ih h
  | stop => cases h

theorem mayStop_of_run {w : Work σ ε α} {s : σ} (h : w.run s = none) : w.MayStop := by
  induction w generalizing s with
  | done b => cases h
  | read next ih => exact ⟨s, ih s h⟩
  | write t next ih => exact ih h
  | record e next ih => exact ih (Option.map_eq_none_iff.mp h)
  | pause next ih => exact ih h
  | stop => trivial

theorem run_map (w : Work σ ε α) (f : α → β) (s : σ) :
    (w.map f).run s = (w.run s).map fun r => (f r.1, r.2) := by
  induction w generalizing s with
  | done a => rfl
  | read next ih => exact ih s s
  | write t next ih => exact ih t
  | record e next ih => simp [map, run, ih, Function.comp_def]
  | pause next ih => exact ih s
  | stop => rfl

theorem run_bind (w : Work σ ε α) (f : α → Work σ ε β) (s : σ) :
    (w.bind f).run s =
      (w.run s).bind fun r => ((f r.1).run r.2.2).map fun q => (q.1, r.2.1 ++ q.2.1, q.2.2) := by
  induction w generalizing s with
  | done a => simp [bind, run]
  | read next ih => exact ih s s
  | write t next ih => exact ih t
  | record e next ih =>
    rw [bind, run, run, ih]
    cases next.run s <;> simp [Function.comp_def]
  | pause next ih => exact ih s
  | stop => rfl

theorem mayEnd_map {w : Work σ ε α} {f : α → β} {b : β} {es : List ε} :
    (w.map f).MayEnd b es ↔ ∃ a, w.MayEnd a es ∧ b = f a := by
  induction w generalizing es with
  | done a => simp only [map, MayEnd]; grind
  | read next ih => simp only [map, MayEnd, ih]; grind
  | write s next ih => simp only [map, MayEnd, ih]
  | record e next ih => simp only [map, MayEnd, ih]; grind
  | pause next ih => simp only [map, MayEnd, ih]
  | stop => simp [map, MayEnd]

theorem mayEnd_bind {w : Work σ ε α} {f : α → Work σ ε β} {b : β} {es : List ε} :
    (w.bind f).MayEnd b es ↔
      ∃ a first rest, w.MayEnd a first ∧ (f a).MayEnd b rest ∧ es = first ++ rest := by
  induction w generalizing es with
  | done a => simp [bind, MayEnd]
  | read next ih => simp only [bind, MayEnd, ih]; grind
  | write s next ih => simp only [bind, MayEnd, ih]
  | record e next ih => simp only [bind, MayEnd, ih]; grind
  | pause next ih => simp only [bind, MayEnd, ih]
  | stop => simp [bind, MayEnd]

theorem mayStop_map {w : Work σ ε α} {f : α → β} : (w.map f).MayStop ↔ w.MayStop := by
  induction w with
  | done a => rfl
  | read next ih => simp only [map, MayStop, ih]
  | write s next ih => exact ih
  | record e next ih => exact ih
  | pause next ih => exact ih
  | stop => rfl

theorem mayStop_bind {w : Work σ ε α} {f : α → Work σ ε β} :
    (w.bind f).MayStop ↔ w.MayStop ∨ ∃ a es, w.MayEnd a es ∧ (f a).MayStop := by
  induction w with
  | done a => simp [bind, MayStop, MayEnd]
  | read next ih => simp only [bind, MayStop, MayEnd, ih]; grind
  | write s next ih => simpa only [bind, MayStop, MayEnd] using ih
  | record e next ih => simp only [bind, MayStop, MayEnd, ih]; grind
  | pause next ih => simpa only [bind, MayStop, MayEnd] using ih
  | stop => simp [bind, MayStop]

theorem mayEnd_lift {w : Work σ Empty α} {a : α} {es : List ε} :
    (w.lift : Work σ ε α).MayEnd a es ↔ es = [] ∧ w.MayEnd a [] := by
  induction w generalizing es with
  | done b => simp only [lift, MayEnd]; grind
  | read next ih => simp only [lift, MayEnd, ih]; grind
  | write s next ih => simp only [lift, MayEnd, ih]
  | record e next ih => exact e.elim
  | pause next ih => simp only [lift, MayEnd, ih]
  | stop => simp [lift, MayEnd]

theorem mayStop_lift {w : Work σ Empty α} : (w.lift : Work σ ε α).MayStop ↔ w.MayStop := by
  induction w with
  | done b => rfl
  | read next ih => simp only [lift, MayStop, ih]
  | write s next ih => exact ih
  | record e next ih => exact e.elim
  | pause next ih => exact ih
  | stop => rfl

theorem mayEnd_update {f : σ → α × σ} {a : α} {es : List ε} :
    (update f : Work σ ε α).MayEnd a es ↔ es = [] ∧ ∃ s, a = (f s).1 := by
  simp only [update, MayEnd]; grind

/-- An end of one of several pieces of work. -/
abbrev IsEnd (w : Work σ ε α) (r : α × List ε) : Prop := w.MayEnd r.1 r.2

theorem forall₂_split {γ δ : Type} {R : γ → δ → Prop} {a : γ} {before after : List γ}
    {rs : List δ} (h : List.Forall₂ R (before ++ a :: after) rs) :
    ∃ left r right, rs = left ++ r :: right ∧ List.Forall₂ R before left ∧ R a r ∧
      List.Forall₂ R after right := by
  induction before generalizing rs with
  | nil =>
    obtain ⟨r, right, hr, hright, rfl⟩ := List.forall₂_cons_left_iff.mp h
    exact ⟨[], r, right, rfl, .nil, hr, hright⟩
  | cons b before ih =>
    obtain ⟨r, rest, hr, hrest, rfl⟩ := List.forall₂_cons_left_iff.mp h
    obtain ⟨left, r', right, rfl, hleft, hr', hright⟩ := ih hrest
    exact ⟨r :: left, r', right, rfl, .cons hr hleft, hr', hright⟩

theorem forall₂_join {γ δ : Type} {R : γ → δ → Prop} {a : γ} {r : δ}
    {before after : List γ} {left right : List δ} (hl : List.Forall₂ R before left) (h : R a r)
    (hr : List.Forall₂ R after right) :
    List.Forall₂ R (before ++ a :: after) (left ++ r :: right) := by
  induction hl with
  | nil => exact .cons h hr
  | cons hb _ ih => exact .cons hb ih

/-- Interleaved work ends in the results of ends of all its members; their errors are recorded in
some order. -/
theorem Interleaves.ends {works : List (Work σ ε α)} {w : Work σ ε (List α)}
    (h : Interleaves works w) {as : List α} {es : List ε} (hw : w.MayEnd as es) :
    ∃ rs : List (α × List ε), List.Forall₂ IsEnd works rs ∧ as = rs.map (·.1) ∧
      es.Perm (rs.flatMap (·.2)) := by
  -- each action is given back to the member that took it
  induction h generalizing as es with
  | done bs =>
    obtain ⟨rfl, rfl⟩ := hw
    refine ⟨as.map fun a => (a, []), ?_, by simp [Function.comp_def], by simp⟩
    simp only [List.forall₂_map_left_iff, List.forall₂_map_right_iff]
    exact List.forall₂_same.mpr fun a _ => ⟨rfl, rfl⟩
  | read before after _ ih =>
    obtain ⟨s, hw⟩ := hw
    obtain ⟨rs, hrs, ha, he⟩ := ih s hw
    obtain ⟨left, r, right, rfl, hl, hr, hright⟩ := forall₂_split hrs
    exact ⟨_, forall₂_join (R := IsEnd) hl ⟨s, hr⟩ hright, ha, he⟩
  | write before after _ ih =>
    obtain ⟨rs, hrs, ha, he⟩ := ih hw
    obtain ⟨left, r, right, rfl, hl, hr, hright⟩ := forall₂_split hrs
    exact ⟨_, forall₂_join (R := IsEnd) hl hr hright, ha, he⟩
  | @record before after e _ _ _ ih =>
    obtain ⟨fs, rfl, hw⟩ := hw
    obtain ⟨rs, hrs, ha, he⟩ := ih hw
    obtain ⟨left, r, right, rfl, hl, hr, hright⟩ := forall₂_split hrs
    refine ⟨left ++ (r.1, e :: r.2) :: right,
      forall₂_join (R := IsEnd) hl ⟨r.2, rfl, hr⟩ hright, by simpa using ha, ?_⟩
    simp only [List.flatMap_append, List.flatMap_cons, List.cons_append] at he ⊢
    exact (he.cons e).trans List.perm_middle.symm
  | resume before after _ ih =>
    obtain ⟨rs, hrs, ha, he⟩ := ih hw
    obtain ⟨left, r, right, rfl, hl, hr, hright⟩ := forall₂_split hrs
    exact ⟨_, forall₂_join (R := IsEnd) hl hr hright, ha, he⟩
  | pause _ ih => exact ih hw
  | stop => exact hw.elim

/-- Interleaved work stops only where one of its members does. -/
theorem Interleaves.stops {works : List (Work σ ε α)} {w : Work σ ε (List α)}
    (h : Interleaves works w) (hw : w.MayStop) : ∃ v ∈ works, v.MayStop := by
  have replace {before after : List (Work σ ε α)} {v v' : Work σ ε α}
      (hv : v.MayStop → v'.MayStop) (h : ∃ u ∈ before ++ v :: after, u.MayStop) :
      ∃ u ∈ before ++ v' :: after, u.MayStop := by
    obtain ⟨u, hu, hs⟩ := h
    rcases List.mem_append.mp hu with hu | hu
    · exact ⟨u, by simp [hu], hs⟩
    rcases List.mem_cons.mp hu with rfl | hu
    · exact ⟨v', by simp, hv hs⟩
    · exact ⟨u, by simp [hu], hs⟩
  induction h with
  | done => exact hw.elim
  | read before after _ ih =>
    obtain ⟨s, hw⟩ := hw
    exact replace (fun h => ⟨s, h⟩) (ih s hw)
  | @write before after s next _ _ ih => exact replace (v := next) id (ih hw)
  | @record before after e next _ _ ih => exact replace (v := next) id (ih hw)
  | @resume before after next _ _ ih => exact replace (v := next) id (ih hw)
  | pause _ ih => exact ih hw
  | stop before after => exact ⟨.stop, by simp, trivial⟩

end GraphQL.Work
