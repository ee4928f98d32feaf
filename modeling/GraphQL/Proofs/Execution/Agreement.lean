import GraphQL.Proofs.Execution.WorkEnds

/-!
Work that comes to one result whatever states it meets, and works that come to the same. Joining
keeps agreement, whichever schedulers do it.
-/
namespace GraphQL.Work

variable {σ τ ε α β : Type}

/-- Every run comes to this: the result with the errors in some order, or a stop. -/
structure Gives (w : Work σ ε α) (r : Option (α × List ε)) : Prop where
  ends : ∀ a es, w.MayEnd a es → ∃ fs, r = some (a, fs) ∧ es.Perm fs
  stops : w.MayStop → r = none

/-- Both come to the same, in whatever states. -/
def Agree (w : Work σ ε α) (v : Work τ ε α) : Prop := ∃ r, w.Gives r ∧ v.Gives r

theorem gives_done (a : α) : (done a : Work σ ε α).Gives (some (a, [])) := by
  refine ⟨?_, fun h => h.elim⟩
  rintro b es ⟨rfl, rfl⟩
  exact ⟨[], rfl, .refl _⟩

theorem gives_stop : (stop : Work σ ε α).Gives none := ⟨fun _ _ h => h.elim, fun _ => rfl⟩

theorem Gives.record {w : Work σ ε α} {a : α} {es : List ε} (h : w.Gives (some (a, es))) (e : ε) :
    (Work.record e w).Gives (some (a, e :: es)) := by
  refine ⟨?_, fun hs => absurd (h.stops hs) (by simp)⟩
  rintro b fs ⟨gs, rfl, hw⟩
  obtain ⟨_, hr, hp⟩ := h.ends b gs hw
  cases hr
  exact ⟨_, rfl, hp.cons e⟩

theorem Gives.map {w : Work σ ε α} {r : Option (α × List ε)} (h : w.Gives r) (f : α → β) :
    (w.map f).Gives (r.map fun p => (f p.1, p.2)) := by
  refine ⟨?_, fun hs => by rw [h.stops (mayStop_map.mp hs)]; rfl⟩
  intro b es hw
  obtain ⟨a, ha, rfl⟩ := mayEnd_map.mp hw
  obtain ⟨fs, rfl, hp⟩ := h.ends a es ha
  exact ⟨fs, rfl, hp⟩

theorem Gives.bind {w : Work σ ε α} {r : Option (α × List ε)} (h : w.Gives r)
    {f : α → Work σ ε β} {g : α → Option (β × List ε)} (hf : ∀ a, (f a).Gives (g a)) :
    (w.bind f).Gives (r.bind fun p => (g p.1).map fun q => (q.1, p.2 ++ q.2)) := by
  constructor
  · intro b es hw
    obtain ⟨a, first, rest, ha, hb, rfl⟩ := mayEnd_bind.mp hw
    obtain ⟨fs, rfl, hp⟩ := h.ends a first ha
    obtain ⟨gs, hg, hq⟩ := (hf a).ends b rest hb
    exact ⟨fs ++ gs, by simp [hg], hp.append hq⟩
  · intro hs
    rcases mayStop_bind.mp hs with hs | ⟨a, es, ha, hs⟩
    · rw [h.stops hs]
      rfl
    · obtain ⟨fs, rfl, -⟩ := h.ends a es ha
      simp [(hf a).stops hs]

private theorem mapM_map_some (gs : List α) : (gs.map some).mapM id = some gs := by
  induction gs with
  | nil => rfl
  | cons g gs ih => simp [ih]

private theorem mapM_eq_none {rs : List (Option α)} (h : none ∈ rs) : rs.mapM id = none := by
  induction rs with
  | nil => cases h
  | cons r rs ih =>
    rcases List.mem_cons.mp h with rfl | hr
    · rfl
    · have rest := ih hr
      cases r <;> simp [rest]

private theorem ends_of_gives {works : List (Work σ ε α)} {rs : List (Option (α × List ε))}
    (each : List.Forall₂ Gives works rs) {ends : List (α × List ε)}
    (hends : List.Forall₂ IsEnd works ends) :
    ∃ gs : List (α × List ε), rs = gs.map some ∧ gs.map (·.1) = ends.map (·.1) ∧
      (ends.flatMap (·.2)).Perm (gs.flatMap (·.2)) := by
  induction each generalizing ends with
  | nil =>
    cases hends
    exact ⟨[], rfl, rfl, .refl _⟩
  | cons hr _ ih =>
    obtain ⟨end_, rest, he, hrest, rfl⟩ := List.forall₂_cons_left_iff.mp hends
    obtain ⟨gs, rfl, ha, hp⟩ := ih hrest
    obtain ⟨fs, rfl, hq⟩ := hr.ends end_.1 end_.2 he
    exact ⟨(end_.1, fs) :: gs, rfl, by simp [ha], hq.append hp⟩

private theorem none_mem_of_gives {works : List (Work σ ε α)} {rs : List (Option (α × List ε))}
    (each : List.Forall₂ Gives works rs) {v : Work σ ε α} (hv : v ∈ works) (hs : v.MayStop) :
    none ∈ rs := by
  induction each with
  | nil => cases hv
  | cons hr _ ih =>
    rcases List.mem_cons.mp hv with rfl | hv
    · rw [hr.stops hs]
      exact List.mem_cons_self
    · exact List.mem_cons_of_mem _ (ih hv)

/-- Interleaved work comes to the results of all its members. -/
theorem Interleaves.gives {works : List (Work σ ε α)} {w : Work σ ε (List α)}
    (h : Interleaves works w) {rs : List (Option (α × List ε))}
    (each : List.Forall₂ Gives works rs) :
    w.Gives ((rs.mapM id).map fun gs => (gs.map (·.1), gs.flatMap (·.2))) := by
  constructor
  · intro as es hw
    obtain ⟨ends, hends, rfl, hp⟩ := h.ends hw
    obtain ⟨gs, rfl, ha, hq⟩ := ends_of_gives each hends
    exact ⟨gs.flatMap (·.2), by rw [mapM_map_some, ← ha]; rfl, hp.trans hq⟩
  · intro hs
    obtain ⟨v, hv, hs⟩ := h.stops hs
    rw [mapM_eq_none (none_mem_of_gives each hv hs)]
    rfl

namespace Agree

theorem of_gives {w : Work σ ε α} {v : Work τ ε α} {r : Option (α × List ε)} (hw : w.Gives r)
    (hv : v.Gives r) : Agree w v := ⟨r, hw, hv⟩

theorem done (a : α) : Agree (Work.done a : Work σ ε α) (Work.done a : Work τ ε α) :=
  ⟨_, gives_done a, gives_done a⟩

theorem stop : Agree (Work.stop : Work σ ε α) (Work.stop : Work τ ε α) :=
  ⟨_, gives_stop, gives_stop⟩

theorem map {w : Work σ ε α} {v : Work τ ε α} (h : Agree w v) (f : α → β) :
    Agree (w.map f) (v.map f) := by
  obtain ⟨r, hw, hv⟩ := h
  exact ⟨_, hw.map f, hv.map f⟩

theorem bind {w : Work σ ε α} {v : Work τ ε α} (h : Agree w v) {f : α → Work σ ε β}
    {g : α → Work τ ε β} (hf : ∀ a, Agree (f a) (g a)) : Agree (w.bind f) (v.bind g) := by
  obtain ⟨r, hw, hv⟩ := h
  choose rs hrs using hf
  exact ⟨_, hw.bind fun a => (hrs a).1, hv.bind fun a => (hrs a).2⟩

theorem join {works : List (Work σ ε α)} {others : List (Work τ ε α)}
    (h : List.Forall₂ Agree works others) (first : Scheduler σ ε α) (second : Scheduler τ ε α) :
    Agree (first.join works) (second.join others) := by
  have all : ∃ rs, List.Forall₂ Gives works rs ∧ List.Forall₂ Gives others rs := by
    clear first second
    induction h with
    | nil => exact ⟨[], .nil, .nil⟩
    | cons h _ ih =>
      obtain ⟨r, hw, hv⟩ := h
      obtain ⟨rs, hf, hg⟩ := ih
      exact ⟨r :: rs, .cons hw hf, .cons hv hg⟩
  obtain ⟨rs, hf, hg⟩ := all
  exact ⟨_, (first.interleaves _).gives hf, (second.interleaves _).gives hg⟩

theorem run {w : Work σ ε α} {v : Work τ ε α} (h : Agree w v) (s : σ) (t : τ) :
    (w.run s = none ∧ v.run t = none) ∨ ∃ a es s' fs t', w.run s = some (a, es, s') ∧
      v.run t = some (a, fs, t') ∧ es.Perm fs := by
  obtain ⟨r, hw, hv⟩ := h
  rcases hr : w.run s with - | ⟨a, es, s'⟩ <;> rcases hr' : v.run t with - | ⟨b, fs, t'⟩
  · exact .inl ⟨rfl, rfl⟩
  · obtain ⟨_, he, -⟩ := hv.ends b fs (mayEnd_of_run hr')
    rw [hw.stops (mayStop_of_run hr)] at he
    cases he
  · obtain ⟨_, he, -⟩ := hw.ends a es (mayEnd_of_run hr)
    rw [hv.stops (mayStop_of_run hr')] at he
    cases he
  · obtain ⟨gs, rfl, hp⟩ := hw.ends a es (mayEnd_of_run hr)
    obtain ⟨_, he, hq⟩ := hv.ends b fs (mayEnd_of_run hr')
    cases he
    exact .inr ⟨a, es, s', fs, t', rfl, rfl, hp.trans hq.symm⟩

end Agree

end GraphQL.Work
