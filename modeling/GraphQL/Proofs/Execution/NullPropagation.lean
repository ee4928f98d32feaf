import GraphQL.Proofs.Execution.ResponseOrder

/-!
Nulls and errors of a response. An error leaves a null at the nearest position that may be null,
or no data at all; a null that nothing resolved to has an error at its position or below.
-/
namespace GraphQL

open Ast TypeSystem

namespace Json

def child? : Json → PathElement → Option Json
  | .object entries, .key name => Entries.get? entries name
  | .array items, .index i => items[i]?
  | _, _ => none

def at? : Json → List PathElement → Option Json
  | v, [] => some v
  | v, step :: rest => (v.child? step).bind fun w => w.at? rest

/-- There is a null on the way along the path, at the latest at its end. -/
def MeetsNull (v : Json) (path : List PathElement) : Prop :=
  ∃ p, p <+: path ∧ v.at? p = some .null

theorem meetsNull_null (path : List PathElement) : MeetsNull .null path :=
  ⟨[], List.nil_prefix, rfl⟩

theorem MeetsNull.child {v w : Json} {step : PathElement} {path : List PathElement}
    (h : w.MeetsNull path) (hc : v.child? step = some w) : v.MeetsNull (step :: path) := by
  obtain ⟨p, hp, hn⟩ := h
  exact ⟨step :: p, List.cons_prefix_cons.mpr ⟨rfl, hp⟩, by simp [at?, hc, hn]⟩

end Json

/-- The position that a path leads to. -/
inductive Below : List Course → List PathElement → Course → Prop where
  | here {courses : List Course} {c : Course} : c ∈ courses → Below courses [c.place.step] c
  | deeper {courses : List Course} {c d : Course} {path : List PathElement} :
      c ∈ courses → Below c.members path d → Below courses (c.place.step :: path) d

/-- The second path is the longest prefix of the first that is a position of a nullable type. -/
structure NearestNullable (courses : List Course) (p q : List PathElement) : Prop where
  isPrefix : q <+: p
  nullable : ∃ c, Below courses q c ∧ c.place.type.isNonNull = false
  nearest : ∀ r c, r <+: p → q.length < r.length → Below courses r c →
    c.place.type.isNonNull = true

namespace Below

variable {courses : List Course} {path : List PathElement} {c : Course}

theorem cons_iff {step : PathElement} :
    Below courses (step :: path) c ↔
      ∃ d ∈ courses, d.place.step = step ∧ (path = [] ∧ c = d ∨ Below d.members path c) := by
  constructor
  · intro h
    cases h with
    | here hc => exact ⟨c, hc, rfl, .inl ⟨rfl, rfl⟩⟩
    | deeper hd h => exact ⟨_, hd, rfl, .inr h⟩
  · rintro ⟨d, hd, rfl, ⟨rfl, rfl⟩ | h⟩
    · exact .here hd
    · exact .deeper hd h

theorem ne_nil (h : Below courses path c) : path ≠ [] := by cases h <;> simp

theorem errors (h : Below courses path c) {e : RecordedError} (he : e ∈ c.errors) :
    e ∈ errorsOf courses := by
  induction h with
  | here hc =>
    rw [errorsOf_eq]
    exact List.mem_flatMap.mpr ⟨_, hc, he⟩
  | deeper hc _ ih =>
    rw [errorsOf_eq]
    refine List.mem_flatMap.mpr ⟨_, hc, ?_⟩
    rw [Course.errors_eq]
    exact List.mem_append_right _ (ih he)

end Below

theorem Siblings.eq_of_step {path : ResponsePath} {courses : List Course}
    (h : Siblings path (courses.map Course.place)) {c d : Course} (hc : c ∈ courses)
    (hd : d ∈ courses) (hs : c.place.step = d.place.step) : c = d := by
  have differ : courses.Pairwise fun c d => c.place.step = d.place.step → c = d :=
    (List.pairwise_map.mp h.order).imp fun hcd he => absurd he hcd.2
  have flipped : courses.Pairwise fun c d => d.place.step = c.place.step → d = c :=
    (List.pairwise_map.mp h.order).imp fun hcd he => absurd he.symm hcd.2
  exact differ.forall_of_forall_of_flip (fun _ _ _ => rfl) flipped hc hd hs

/-- Courses of the fields of an object or the items of a list, in order. -/
structure Members (path : ResponsePath) (courses : List Course) : Prop where
  siblings : Siblings path (courses.map Course.place)
  regular : ∀ c ∈ courses, c.Regular

theorem Course.Regular.asMembers {c : Course} (h : c.Regular) : Members c.place.path c.members :=
  ⟨h.siblings, h.members⟩

theorem Members.elements {path : ResponsePath} {courses : List Course} (h : Members path courses)
    {p : List PathElement} {c : Course} (hb : Below courses p c) :
    c.Regular ∧ c.place.path.elements = path.elements ++ p := by
  induction hb generalizing path with
  | @here courses c hc =>
    refine ⟨h.regular _ hc, ?_⟩
    simp [Place.path, ResponsePath.child, h.siblings.parent _ (List.mem_map_of_mem hc)]
  | @deeper courses d c p hd _ ih =>
    obtain ⟨hr, he⟩ := ih (h.regular _ hd).asMembers
    refine ⟨hr, ?_⟩
    rw [he, Place.path, ResponsePath.child, h.siblings.parent _ (List.mem_map_of_mem hd),
      List.append_assoc]
    rfl

/-- A value with the completions of courses as its members. -/
def Json.Holds (v : Json) (courses : List Course) : Prop :=
  ∀ c ∈ courses, ∃ w, c.completion = some w ∧ v.child? c.place.step = some w

private theorem get?_of_forall₂ {courses : List Course} {values : List Json}
    (h : List.Forall₂ (fun c v => c.completion = some v) courses values)
    (distinct : (courseKeys courses).Nodup) {c : Course} (hc : c ∈ courses) :
    ∃ w, c.completion = some w ∧
      Entries.get? ((courseKeys courses).zip values) c.place.key = some w := by
  induction h with
  | nil => cases hc
  | @cons d v courses values hd _ ih =>
    obtain ⟨fresh, distinct⟩ := List.nodup_cons.mp distinct
    rcases List.mem_cons.mp hc with rfl | hc
    · exact ⟨v, hd, by simp [courseKeys, Entries.get?]⟩
    · obtain ⟨w, hw, hg⟩ := ih distinct hc
      have hne : d.place.key ≠ c.place.key := by
        intro he
        exact fresh (List.mem_map.mpr ⟨c, hc, he.symm⟩)
      exact ⟨w, hw, by simpa [courseKeys, Entries.get?, hne] using hg⟩

theorem Siblings.objectOf_holds {path : ResponsePath} {courses : List Course}
    (h : Siblings path (courses.map Course.place))
    (keys : ∀ c ∈ courses, c.place.step = .key c.place.key) {v : Json}
    (hv : objectOf courses = some v) : v.Holds courses := by
  have distinct : (courseKeys courses).Nodup := by
    refine List.pairwise_map.mpr ((List.pairwise_map.mp h.order).imp_of_mem ?_)
    intro c d hc hd hcd hk
    exact hcd.2 (by rw [keys c hc, keys d hd, hk])
  obtain ⟨values, hvs, rfl⟩ := Option.map_eq_some_iff.mp hv
  intro c hc
  obtain ⟨w, hw, hg⟩ := get?_of_forall₂ (completions_eq_some.mp hvs) distinct hc
  exact ⟨w, hw, by rw [keys c hc]; exact hg⟩

theorem Course.Regular.holds {c : Course} (h : c.Regular) {v : Json} (hv : c.raw = some v) :
    v.Holds c.members := by
  cases h with
  | failed | null | leaf => exact fun d hd => by cases hd
  | list hs steps =>
    obtain ⟨values, hvs, rfl⟩ := Option.map_eq_some_iff.mp hv
    intro d hd
    obtain ⟨i, hi, rfl⟩ := List.mem_iff_getElem.mp hd
    have all := completions_eq_some.mp hvs
    have hi' : i < values.length := all.length_eq ▸ hi
    refine ⟨values[i], (List.forall₂_iff_get.mp all).2 i hi hi', ?_⟩
    rw [steps i _ (List.getElem?_eq_getElem hi)]
    exact List.getElem?_eq_getElem hi'
  | object hs keys => exact hs.objectOf_holds keys hv

theorem Course.completion_cases (c : Course) :
    (∃ v, c.raw = some v ∧ c.completion = some v) ∨
      c.raw = none ∧ c.completion = if c.place.type.isNonNull then none else some .null := by
  rw [completion_eq]
  rcases c.raw with - | v
  · refine .inr ⟨rfl, ?_⟩
    cases h : c.place.type.isNonNull <;> simp [Completion.absorb, h]
  · exact .inl ⟨v, rfl, by simp [Completion.absorb]⟩

/-- Where the members complete to no values, nothing is there but a null that travels up. -/
theorem Course.Regular.raw_eq_none {c : Course} (h : c.Regular)
    (hm : completions c.members = none) :
    c.raw = none := by
  cases h with
  | failed | null | leaf => cases hm
  | list | object => simp_all [raw, fate, Fate.complete]

theorem Course.errors_ne_nil (c : Course) (h : c.raw = none) : c.errors ≠ [] := by
  induction c using Course.induction with
  | step c ih =>
    have below (hm : completions c.members = none) : errorsOf c.members ≠ [] := by
      obtain ⟨d, hd, hn⟩ := completions_eq_none hm
      have hr : d.raw = none := by
        rcases d.completion_cases with ⟨v, -, hv⟩ | ⟨hr, -⟩
        · rw [hn] at hv
          cases hv
        · exact hr
      obtain ⟨e, he⟩ := List.exists_mem_of_ne_nil _ (ih d hd hr)
      rw [errorsOf_eq]
      exact List.ne_nil_of_mem (List.mem_flatMap.mpr ⟨d, hd, he⟩)
    rw [errors_eq]
    obtain ⟨place, resolved, fate, members⟩ := c
    cases fate with
    | failed e => simp [Course.fate, Fate.errors]
    | null | leaf => cases h
    | list | object =>
      refine List.append_ne_nil_of_right_ne_nil _ (below ?_)
      exact Option.map_eq_none_iff.mp h

theorem objectOf_errors {courses : List Course} (h : objectOf courses = none) :
    errorsOf courses ≠ [] := by
  obtain ⟨c, hc, hn⟩ := completions_eq_none (Option.map_eq_none_iff.mp h)
  rcases c.completion_cases with ⟨v, -, hv⟩ | ⟨hr, -⟩
  · rw [hn] at hv
    cases hv
  · obtain ⟨e, he⟩ := List.exists_mem_of_ne_nil _ (c.errors_ne_nil hr)
    rw [errorsOf_eq]
    exact List.ne_nil_of_mem (List.mem_flatMap.mpr ⟨c, hc, he⟩)

theorem Course.Regular.resolved_null {c : Course} (h : c.Regular) (hv : c.raw = some .null) :
    c.resolved = .ok .null := by
  cases h with
  | failed => cases hv
  | null => rfl
  | leaf hne => exact absurd (Option.some.inj hv) hne
  | list | object => simp [raw, fate, Fate.complete] at hv

theorem Members.completion_of_at {path : ResponsePath} {courses : List Course}
    (h : Members path courses) {p : List PathElement} {c : Course} (hb : Below courses p c)
    {v w : Json} (hv : v.Holds courses) (hw : v.at? p = some w) : c.completion = some w := by
  induction hb generalizing path v with
  | here hc =>
    obtain ⟨u, hu, hs⟩ := hv _ hc
    simp only [Json.at?, hs, Option.bind_some, Option.some.injEq] at hw
    rw [hu, hw]
  | @deeper courses d c p hd hb ih =>
    obtain ⟨u, hu, hs⟩ := hv _ hd
    simp only [Json.at?, hs, Option.bind_some] at hw
    have regular := h.regular _ hd
    rcases d.completion_cases with ⟨r, hr, hc⟩ | ⟨-, hc⟩
    · obtain rfl : r = u := Option.some.inj (hc.symm.trans hu)
      exact ih regular.asMembers (regular.holds hr) hw
    · -- nothing is below a null
      obtain rfl : u = .null := by
        split at hc
        · rw [hc] at hu
          cases hu
        · exact Option.some.inj (hu.symm.trans hc)
      cases p with
      | nil => exact absurd rfl hb.ne_nil
      | cons => cases hw

def AllNonNull (courses : List Course) (p : List PathElement) : Prop :=
  ∀ r c, r <+: p → Below courses r c → c.place.type.isNonNull = true

namespace NearestNullable

theorem unique {courses : List Course} {p q r : List PathElement}
    (hq : NearestNullable courses p q) (hr : NearestNullable courses p r) : q = r := by
  have atLeast {q r : List PathElement} (hq : NearestNullable courses p q)
      (hr : NearestNullable courses p r) : r.length ≤ q.length := by
    by_contra hlt
    obtain ⟨c, hb, hn⟩ := hr.nullable
    rw [hq.nearest r c hr.isPrefix (by omega) hb] at hn
    cases hn
  exact (List.prefix_of_prefix_length_le hq.isPrefix hr.isPrefix (atLeast hr hq)).eq_of_length
    (Nat.le_antisymm (atLeast hr hq) (atLeast hq hr))

end NearestNullable

section

variable {path : ResponsePath} {courses : List Course}
  (siblings : Siblings path (courses.map Course.place)) {d : Course} (hd : d ∈ courses)

include siblings hd

theorem Siblings.below_iff {p : List PathElement} {c : Course} :
    Below courses (d.place.step :: p) c ↔ p = [] ∧ c = d ∨ Below d.members p c := by
  constructor
  · intro h
    obtain ⟨e, he, hs, h⟩ := Below.cons_iff.mp h
    rwa [siblings.eq_of_step he hd hs] at h
  · exact fun h => Below.cons_iff.mpr ⟨d, hd, rfl, h⟩

theorem AllNonNull.cons (hn : d.place.type.isNonNull = true) {p : List PathElement}
    (h : AllNonNull d.members p) : AllNonNull courses (d.place.step :: p) := by
  intro r c hr hb
  cases r with
  | nil => exact absurd rfl hb.ne_nil
  | cons step r =>
    obtain ⟨rfl, below⟩ := List.cons_prefix_cons.mp hr
    rcases (siblings.below_iff hd).mp hb with ⟨-, rfl⟩ | hb
    · exact hn
    · exact h r c below hb

theorem NearestNullable.here (hn : d.place.type.isNonNull = false) {p : List PathElement}
    (h : AllNonNull d.members p) : NearestNullable courses (d.place.step :: p) [d.place.step] := by
  refine ⟨List.cons_prefix_cons.mpr ⟨rfl, List.nil_prefix⟩, ⟨d, .here hd, hn⟩, ?_⟩
  intro r c hr hlt hb
  cases r with
  | nil => simp at hlt
  | cons step r =>
    obtain ⟨rfl, below⟩ := List.cons_prefix_cons.mp hr
    rcases (siblings.below_iff hd).mp hb with ⟨rfl, -⟩ | hb
    · simp at hlt
    · exact h r c below hb

theorem NearestNullable.cons {p q : List PathElement} (h : NearestNullable d.members p q) :
    NearestNullable courses (d.place.step :: p) (d.place.step :: q) := by
  obtain ⟨c, hb, hn⟩ := h.nullable
  refine ⟨List.cons_prefix_cons.mpr ⟨rfl, h.isPrefix⟩, ⟨c, .deeper hd hb, hn⟩, ?_⟩
  intro r c hr hlt hb
  cases r with
  | nil => simp at hlt
  | cons step r =>
    obtain ⟨rfl, below⟩ := List.cons_prefix_cons.mp hr
    rcases (siblings.below_iff hd).mp hb with ⟨rfl, -⟩ | hb
    · simp at hlt
    · exact h.nearest r c below (by simpa using hlt) hb

end

/-- What a failure leaves: no values if no position above it may be null, else a null at the
nearest that may, or above. -/
def Propagates (courses : List Course) (p : List PathElement) : Prop :=
  AllNonNull courses p ∧ completions courses = none ∨
    ∃ q, NearestNullable courses p q ∧ ∀ v : Json, v.Holds courses → v.MeetsNull q

theorem Siblings.propagates {path : ResponsePath} {courses : List Course}
    (siblings : Siblings path (courses.map Course.place)) {d : Course} (hd : d ∈ courses)
    (hr : d.raw = none) {p : List PathElement} (h : AllNonNull d.members p) :
    Propagates courses (d.place.step :: p) := by
  rcases d.completion_cases with ⟨v, hv, -⟩ | ⟨-, hc⟩
  · rw [hr] at hv
    cases hv
  rcases hn : d.place.type.isNonNull with - | - <;> rw [hn] at hc
  · refine .inr ⟨_, .here siblings hd hn h, fun v hv => ?_⟩
    obtain ⟨w, hw, hs⟩ := hv d hd
    obtain rfl := Option.some.inj (hc.symm.trans hw)
    exact (Json.meetsNull_null []).child hs
  · refine .inl ⟨.cons siblings hd hn h, ?_⟩
    rcases hcs : completions courses with - | values
    · rfl
    · obtain ⟨v, hv⟩ := completions_ne_none hcs hd
      rw [hc] at hv
      cases hv

theorem Members.propagates {path : ResponsePath} {courses : List Course} (h : Members path courses)
    {p : List PathElement} {c : Course} (hb : Below courses p c) (hc : c.raw = none) :
    Propagates courses p := by
  induction hb generalizing path with
  | here hd =>
    exact h.siblings.propagates hd hc fun r e hr hb => absurd (List.prefix_nil.mp hr) hb.ne_nil
  | @deeper courses d c p hd _ ih =>
    have regular := h.regular d hd
    rcases ih regular.asMembers hc with ⟨nonNull, hn⟩ | ⟨q, hq, meets⟩
    · exact h.siblings.propagates hd (regular.raw_eq_none hn) nonNull
    · refine .inr ⟨_, hq.cons h.siblings hd, fun v hv => ?_⟩
      obtain ⟨w, hw, hs⟩ := hv d hd
      refine Json.MeetsNull.child ?_ hs
      rcases d.completion_cases with ⟨u, hu, hc⟩ | ⟨-, hc⟩
      · obtain rfl := Option.some.inj (hc.symm.trans hw)
        exact meets u (regular.holds hu)
      · split at hc
        · rw [hc] at hw
          cases hw
        · obtain rfl := Option.some.inj (hc.symm.trans hw)
          exact Json.meetsNull_null q

/-- Every error is that of a position where a null starts to travel up. -/
theorem Members.exists_failed {path : ResponsePath} {courses : List Course}
    (h : Members path courses) {e : RecordedError} (he : e ∈ errorsOf courses) :
    ∃ p c, Below courses p c ∧ c.fate = .failed e := by
  have each (c : Course) (regular : c.Regular) :
      ∀ e ∈ c.errors, c.fate = .failed e ∨ ∃ p d, Below c.members p d ∧ d.fate = .failed e := by
    intro e he
    induction regular with
    | failed =>
      simp only [Course.errors, errorsOf, Fate.errors, List.append_nil, List.mem_singleton] at he
      exact .inl (he ▸ rfl)
    | null | leaf => simp [Course.errors, errorsOf, Fate.errors] at he
    | list _ _ _ ih | object _ _ _ ih =>
      rw [Course.errors_eq] at he
      simp only [Course.fate, Fate.errors, List.nil_append, errorsOf_eq] at he
      obtain ⟨d, hd, he⟩ := List.mem_flatMap.mp he
      rcases ih d hd he with hf | ⟨p, f, hb, hf⟩
      · exact .inr ⟨_, d, .here hd, hf⟩
      · exact .inr ⟨_, f, .deeper hd hb, hf⟩
  rw [errorsOf_eq] at he
  obtain ⟨c, hc, he⟩ := List.mem_flatMap.mp he
  rcases each c (h.regular c hc) e he with hf | ⟨p, d, hb, hf⟩
  · exact ⟨_, c, .here hc, hf⟩
  · exact ⟨_, d, .deeper hc hb, hf⟩

/-- The nulls and the errors of a response account for each other. -/
structure Accounts (courses : List Course) (response : Response) : Prop where
  /-- Data is missing only where something failed. -/
  noData : response.data = none → response.errors ≠ []
  /-- Each error is that of a failed position. It has left a null at the nearest nullable position,
  or above it, or else no data. -/
  errors : ∀ e ∈ response.errors, ∃ p c f, e.path = some p ∧ Below courses p c ∧
    c.fate = .failed f ∧ f.error = e ∧
    (∀ q, NearestNullable courses p q → (response.data.getD .null).MeetsNull q) ∧
    ((∀ q, ¬ NearestNullable courses p q) → response.data = none)
  /-- A null at a position is what was resolved, or there is an error at that position or below. -/
  nulls : ∀ p c d, Below courses p c → response.data = some d → d.at? p = some .null →
    c.resolved = .ok .null ∨ ∃ e ∈ response.errors, ∃ q, e.path = some q ∧ p <+: q

variable {σ : Type}

namespace Execution

variable {x : Execution σ} {root : ObjectType} {courses : List Course} {response : Response}

theorem RootFollows.members (h : x.RootFollows root courses) : Members {} courses :=
  ⟨h.siblings, h.regular⟩

theorem RootFollows.holds (h : x.RootFollows root courses) {d : Json}
    (hd : objectOf courses = some d) : d.Holds courses := by
  refine h.siblings.objectOf_holds (fun c hc => ?_) hd
  exact step_of_selected (fun p hp => h.sublist.subset hp) c.place (List.mem_map_of_mem hc)

theorem Explains.accounts (h : x.Explains root courses response) : Accounts courses response := by
  have members := h.root.members
  refine ⟨fun hn => ?_, fun e he => ?_, fun p c d hb hd hnull => ?_⟩
  · rw [h.errors]
    simpa using objectOf_errors (h.data ▸ hn)
  · rw [h.errors] at he
    obtain ⟨f, hf, rfl⟩ := List.mem_map.mp he
    obtain ⟨p, c, hb, hfate⟩ := members.exists_failed hf
    obtain ⟨regular, elements⟩ := members.elements hb
    have raw : c.raw = none := by rw [Course.raw, hfate]; rfl
    have path : f.error.path = some p := by
      cases regular with
      | failed _ hp =>
        cases hfate
        exact hp.trans (congrArg some elements)
      | _ => cases hfate
    refine ⟨p, c, f, path, hb, hfate, rfl, fun q hq => ?_, fun hq => ?_⟩
    · rcases members.propagates hb raw with ⟨-, hn⟩ | ⟨q', hq', meets⟩
      · have none : response.data = none := by rw [h.data, objectOf, hn]; rfl
        rw [none]
        exact Json.meetsNull_null q
      · obtain rfl := hq.unique hq'
        rcases hd : response.data with - | d
        · exact Json.meetsNull_null q
        · exact meets d (h.root.holds (h.data ▸ hd))
    · rcases members.propagates hb raw with ⟨-, hn⟩ | ⟨q', hq', -⟩
      · rw [h.data, objectOf, hn]
        rfl
      · exact absurd hq' (hq q')
  · have completion := members.completion_of_at hb (h.root.holds (h.data ▸ hd)) hnull
    obtain ⟨regular, elements⟩ := members.elements hb
    rcases c.completion_cases with ⟨v, hv, hc⟩ | ⟨hr, -⟩
    · obtain rfl := Option.some.inj (hc.symm.trans completion)
      exact .inl (regular.resolved_null hv)
    · obtain ⟨f, hf⟩ := List.exists_mem_of_ne_nil _ (c.errors_ne_nil hr)
      obtain ⟨q, o, hu⟩ := regular.errors_under f hf
      refine .inr ⟨f.error, ?_, _, hu.elements, ?_⟩
      · rw [h.errors]
        exact List.mem_map_of_mem (hb.errors hf)
      · rw [elements]
        exact List.prefix_append p q

end Execution

/-- Whatever the resolvers do, the nulls and the errors of a run that gets to the fields account for
each other, for the courses of the run and all others with this response. -/
theorem execute_accounts {request : Request σ} {document : Document} {depth : Nat} {s s' : σ}
    {scheduler : Scheduler σ RecordedError Completion} {response : Response} {x : Execution σ}
    {root : ObjectType} (prepared : request.prepare document scheduler = .ok (x, root))
    (run : execute request document depth s scheduler = some (response, s')) :
    (∃ courses, x.Explains root courses response) ∧
      ∀ courses, x.Explains root courses response → Accounts courses response :=
  ⟨exists_explains prepared run, fun _ h => h.accounts⟩

namespace Count

def position : Position := ⟨1, 1⟩

def field : TypeSystem.Field := ⟨position, none, "count", [], .nonNull (.named "Int"), []⟩

def schema : Schema where
  types := [("Query", .object ⟨position, none, "Query", [], [], [field]⟩),
    ("Int", .scalar ⟨position, none, "Int", []⟩)]
  directives := []
  query := "Query"
  mutation := none
  subscription := none

def document : Document :=
  ⟨[.operation ⟨.query, none, [], [], ⟨[.field { name := ⟨"count", none⟩ }], none⟩, none⟩], none⟩

/-- A request on a root value that has this count; nothing is registered. -/
def request (value : Json) : Request Unit where
  schema := schema
  resolvers := {}
  rootValue := .object [("count", value)]

/-- The answer to a count that is null. -/
def response : Response :=
  ⟨none, [{ message := "Cannot return null for non-nullable field Query.count."
            path := some [.key "count"] }]⟩

end Count

theorem execute_accounts_count :
    ∃ x root, (Count.request .null).prepare Count.document = .ok (x, root) ∧
      execute (Count.request .null) Count.document 0 () = some (Count.response, ()) ∧
      (∃ courses, x.Explains root courses Count.response) ∧
      ∀ courses, x.Explains root courses Count.response → Accounts courses Count.response := by
  have run : execute (Count.request .null) Count.document 0 () = some (Count.response, ()) := by
    have sorted (e : RecordedError) : inResponseOrder [e] = [e.error] :=
      inResponseOrder_of_perm (.refl _) (List.pairwise_singleton _ _)
    rw [Count.response, ← sorted ⟨[0], _⟩]
    rfl
  exact ⟨_, _, rfl, run, execute_accounts rfl run⟩

end GraphQL
