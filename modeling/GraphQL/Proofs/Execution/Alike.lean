import GraphQL.Proofs.Execution.NullPropagation

/-!
Courses that differ at one path of the response and below it only. Where the position at that path
may be null, their data and their errors differ there only.
-/
namespace GraphQL

open Ast TypeSystem

/-- The values are the same but for what stands at the path, which both of them have. -/
inductive Json.SameBut : List PathElement → Json → Json → Prop where
  | refl {p : List PathElement} {v : Json} : SameBut p v v
  | here {v w : Json} : SameBut [] v w
  | key {key : String} {p : List PathElement} {v w : Json} {before after : Entries Json} :
      SameBut p v w →
      SameBut (.key key :: p) (.object (before ++ (key, v) :: after))
        (.object (before ++ (key, w) :: after))
  | index {p : List PathElement} {v w : Json} {before after : List Json} :
      SameBut p v w →
      SameBut (.index before.length :: p) (.array (before ++ v :: after))
        (.array (before ++ w :: after))

/-- The error is neither that of the position at the path nor of one below it. -/
def GraphQLError.isOutside (p : List PathElement) (e : GraphQLError) : Bool :=
  !e.path.any p.isPrefixOf

structure Response.SameBut (p : List PathElement) (first second : Response) : Prop where
  data : Option.Rel (Json.SameBut p) first.data second.data
  errors : first.errors.filter (·.isOutside p) = second.errors.filter (·.isOutside p)

theorem Members.tail {path : ResponsePath} {c : Course} {cs : List Course}
    (h : Members path (c :: cs)) : Members path cs :=
  ⟨h.siblings.sublist (List.sublist_cons_self ..),
    fun d hd => h.regular d (List.mem_cons_of_mem _ hd)⟩

/-- Courses at the same places that differ at the path and below it only. -/
inductive Alike (p : List PathElement) : List Course → List Course → Prop where
  | nil : Alike p [] []
  | here {c d : Course} {cs ds : List Course} :
      c.place = d.place → c.place.path.elements = p → Alike p cs ds → Alike p (c :: cs) (d :: ds)
  | away {c d : Course} {cs ds : List Course} :
      c.place = d.place → c.resolved = d.resolved → c.fate = d.fate →
      Alike p c.members d.members → Alike p cs ds → Alike p (c :: cs) (d :: ds)

/-- The position at the path, if there is one among the courses or below, may be null. -/
def NullableAt (p : List PathElement) (courses : List Course) : Prop :=
  ∀ q c, Below courses q c → c.place.path.elements = p → c.place.type.isNonNull = false

variable {p : List PathElement}

theorem alike_of_places {cs ds : List Course} (places : cs.map Course.place = ds.map Course.place)
    (each : ∀ c ∈ cs, ∀ d ∈ ds, c.place = d.place → c.place.path.elements ≠ p →
      c.resolved = d.resolved ∧ c.fate = d.fate ∧ Alike p c.members d.members) : Alike p cs ds := by
  induction cs generalizing ds with
  | nil =>
    obtain rfl := List.map_eq_nil_iff.mp places.symm
    exact .nil
  | cons c cs ih =>
    obtain _ | ⟨d, ds⟩ := ds
    · cases places
    obtain ⟨place, places⟩ := List.cons.inj places
    have others := ih places fun c hc d hd =>
      each c (List.mem_cons_of_mem _ hc) d (List.mem_cons_of_mem _ hd)
    by_cases hp : c.place.path.elements = p
    · exact .here place hp others
    · obtain ⟨resolved, fate, members⟩ := each c List.mem_cons_self d List.mem_cons_self place hp
      exact .away place resolved fate members others

namespace NullableAt

variable {c : Course} {cs : List Course}

theorem head (h : NullableAt p (c :: cs)) (hp : c.place.path.elements = p) :
    c.place.type.isNonNull = false := h _ c (.here List.mem_cons_self) hp

theorem members (h : NullableAt p (c :: cs)) : NullableAt p c.members :=
  fun _ d hd => h _ d (.deeper List.mem_cons_self hd)

theorem tail (h : NullableAt p (c :: cs)) : NullableAt p cs := by
  intro q d hd
  cases hd with
  | here hd => exact h _ d (.here (List.mem_cons_of_mem _ hd))
  | deeper he hd => exact h _ d (.deeper (List.mem_cons_of_mem _ he) hd)

end NullableAt

theorem completions_cons_eq_some {c : Course} {cs : List Course} {values : List Json} :
    completions (c :: cs) = some values ↔
      ∃ v vs, c.completion = some v ∧ completions cs = some vs ∧ values = v :: vs := by
  rw [completions_eq_some, List.forall₂_cons_left_iff]
  simp only [← completions_eq_some]

theorem completions_isNone_cons (c : Course) (cs : List Course) :
    (completions (c :: cs)).isNone = (c.completion.isNone || (completions cs).isNone) := by
  rw [completions]
  cases c.completion <;> cases completions cs <;> rfl

theorem Course.completion_isSome {c : Course} (h : c.place.type.isNonNull = false) :
    c.completion.isNone = false := by
  rcases c.completion_cases with ⟨v, -, hc⟩ | ⟨-, hc⟩
  · rw [hc]
    rfl
  · rw [hc, h]
    rfl

theorem Fate.complete_isNone (fate : Fate) (keys keys' : List String)
    {values values' : Option (List Json)} (h : values.isNone = values'.isNone) :
    (fate.complete keys values).isNone = (fate.complete keys' values').isNone := by
  cases fate with
  | failed | null | leaf => rfl
  | list | object => simpa only [complete, Option.isNone_map] using h

/-- A null travels up from both courses or from neither. -/
theorem Course.completion_isNone_eq {c d : Course} (place : c.place = d.place)
    (fate : c.fate = d.fate)
    (members : (completions c.members).isNone = (completions d.members).isNone) :
    c.completion.isNone = d.completion.isNone := by
  have raw : c.raw.isNone = d.raw.isNone := by
    rw [Course.raw, Course.raw, fate]
    exact d.fate.complete_isNone _ _ members
  rw [completion_eq, completion_eq, place]
  unfold Completion.absorb
  rw [raw]
  split
  · rfl
  · exact raw

namespace Alike

variable {cs ds : List Course}

theorem places (h : Alike p cs ds) : cs.map Course.place = ds.map Course.place := by
  induction h with
  | nil => rfl
  | here place _ _ ih | away place _ _ _ _ _ ih => rw [List.map_cons, List.map_cons, place, ih]

theorem courseKeys (h : Alike p cs ds) : courseKeys cs = courseKeys ds := by
  simpa [GraphQL.courseKeys, Function.comp_def] using congrArg (List.map Place.key) h.places

theorem completions_isNone (h : Alike p cs ds) (nullable : NullableAt p cs) :
    (completions cs).isNone = (completions ds).isNone := by
  induction h with
  | nil => rfl
  | here place hp _ ih =>
    have absorbs := nullable.head hp
    rw [completions_isNone_cons, completions_isNone_cons, Course.completion_isSome absorbs,
      Course.completion_isSome (place ▸ absorbs), ih nullable.tail]
  | away place _ fate _ _ ihm ih =>
    rw [completions_isNone_cons, completions_isNone_cons,
      Course.completion_isNone_eq place fate (ihm nullable.members), ih nullable.tail]

end Alike

theorem Course.Regular.errors_inside {c : Course} (h : c.Regular)
    (hp : p <+: c.place.path.elements) : c.errors.filter (·.error.isOutside p) = [] := by
  refine List.filter_eq_nil_iff.mpr fun e he => ?_
  obtain ⟨q, _, hu⟩ := h.errors_under e he
  have inside : p.isPrefixOf (c.place.path.elements ++ q) = true :=
    List.isPrefixOf_iff_prefix.mpr (hp.trans (List.prefix_append _ q))
  simp [GraphQLError.isOutside, hu.elements, inside]

theorem Alike.errors {cs ds : List Course} (h : Alike p cs ds) (regular : ∀ c ∈ cs, c.Regular)
    (regular' : ∀ d ∈ ds, d.Regular) :
    (errorsOf cs).filter (·.error.isOutside p) = (errorsOf ds).filter (·.error.isOutside p) := by
  induction h with
  | nil => rfl
  | here place hp _ ih =>
    obtain ⟨hc, regular⟩ := List.forall_mem_cons.mp regular
    obtain ⟨hd, regular'⟩ := List.forall_mem_cons.mp regular'
    rw [errorsOf, errorsOf, List.filter_append, List.filter_append,
      hc.errors_inside (hp ▸ List.prefix_rfl), hd.errors_inside (hp ▸ place ▸ List.prefix_rfl),
      ih regular regular']
  | away place _ fate _ _ ihm ih =>
    obtain ⟨hc, regular⟩ := List.forall_mem_cons.mp regular
    obtain ⟨hd, regular'⟩ := List.forall_mem_cons.mp regular'
    rw [errorsOf, errorsOf, Course.errors_eq, Course.errors_eq, fate]
    simp only [List.filter_append]
    rw [ihm hc.members hd.members, ih regular regular']

/-- The values of the course differ at the path only. -/
def Course.Apart (p : List PathElement) (c : Course) (v w : Json) : Prop :=
  v = w ∨ ∃ rest, p = c.place.path.elements ++ rest ∧ v.SameBut rest w

/-- The values of courses differ at the path only, hence those of at most one course. -/
def CoursesApart (p : List PathElement) (courses : List Course) (vs ws : List Json) : Prop :=
  vs = ws ∨ ∃ before v w after c rest, vs = before ++ v :: after ∧ ws = before ++ w :: after ∧
    courses[before.length]? = some c ∧ p = c.place.path.elements ++ rest ∧ v.SameBut rest w

namespace CoursesApart

variable {c : Course} {cs : List Course} {v w : Json} {vs ws : List Json}

theorem tail (h : CoursesApart p cs vs ws) : CoursesApart p (c :: cs) (v :: vs) (v :: ws) := by
  rcases h with rfl | ⟨before, v', w', after, d, rest, rfl, rfl, hd, he, same⟩
  · exact .inl rfl
  · exact .inr ⟨v :: before, v', w', after, d, rest, rfl, rfl, hd, he, same⟩

theorem cons {path : ResponsePath} (siblings : Siblings path ((c :: cs).map Course.place))
    (head : c.Apart p v w) (h : CoursesApart p cs vs ws) :
    CoursesApart p (c :: cs) (v :: vs) (w :: ws) := by
  rcases head with rfl | ⟨rest, rfl, same⟩
  · exact h.tail
  rcases h with rfl | ⟨before, _, _, _, d, rest', -, -, hd, he, -⟩
  · exact .inr ⟨[], v, w, vs, c, rest, rfl, rfl, rfl, rfl, same⟩
  · -- the path cannot lead to two siblings
    have mem : d ∈ cs := List.mem_of_getElem? hd
    have parent {e : Course} (he : e ∈ c :: cs) :
        e.place.path.elements = path.elements ++ [e.place.step] := by
      rw [Place.path, siblings.parent _ (List.mem_map_of_mem he)]
      rfl
    rw [parent List.mem_cons_self, parent (List.mem_cons_of_mem _ mem), List.append_assoc,
      List.append_assoc] at he
    have step : c.place.step = d.place.step := (List.cons.inj (List.append_cancel_left he)).1
    exact absurd step ((List.pairwise_cons.mp siblings.order).1 _ (List.mem_map_of_mem mem)).2

/-- What differs among the values of siblings is below their common path. -/
theorem exists_child {path : ResponsePath} (siblings : Siblings path (cs.map Course.place))
    (h : CoursesApart p cs vs ws) :
    vs = ws ∨ ∃ before v w after c rest, vs = before ++ v :: after ∧ ws = before ++ w :: after ∧
      cs[before.length]? = some c ∧ p = path.elements ++ c.place.step :: rest ∧
      v.SameBut rest w := by
  rcases h with rfl | ⟨before, v, w, after, c, rest, hv, hw, hc, he, same⟩
  · exact .inl rfl
  · refine .inr ⟨before, v, w, after, c, rest, hv, hw, hc, ?_, same⟩
    rw [he, Place.path, siblings.parent _ (List.mem_map_of_mem (List.mem_of_getElem? hc))]
    simp [ResponsePath.child]

theorem object {path : ResponsePath} (siblings : Siblings path (cs.map Course.place))
    (keys : ∀ c ∈ cs, c.place.step = .key c.place.key) (h : CoursesApart p cs vs ws) :
    Json.object ((courseKeys cs).zip vs) = .object ((courseKeys cs).zip ws) ∨
      ∃ rest, p = path.elements ++ rest ∧
        Json.SameBut rest (.object ((courseKeys cs).zip vs)) (.object ((courseKeys cs).zip ws)) := by
  rcases h.exists_child siblings with rfl | ⟨before, v, w, after, c, rest, rfl, rfl, hc, he, same⟩
  · exact .inl rfl
  · refine .inr ⟨_, he, ?_⟩
    obtain ⟨hi, rfl⟩ := List.getElem?_eq_some_iff.mp hc
    have split : courseKeys cs = (courseKeys cs).take before.length ++
        cs[before.length].place.key :: (courseKeys cs).drop (before.length + 1) := by
      have hk : before.length < (courseKeys cs).length := by simpa [courseKeys] using hi
      conv_lhs => rw [← List.take_append_drop before.length (courseKeys cs),
        List.drop_eq_getElem_cons hk]
      simp [courseKeys]
    have taken : ((courseKeys cs).take before.length).length = before.length := by
      simp [courseKeys, Nat.le_of_lt hi]
    rw [keys _ (List.getElem_mem hi), split, List.zip_append taken, List.zip_append taken]
    exact .key same

theorem array {path : ResponsePath} (siblings : Siblings path (cs.map Course.place))
    (steps : ∀ (i : Nat) (d : Course), cs[i]? = some d → d.place.step = .index i)
    (h : CoursesApart p cs vs ws) :
    Json.array vs = .array ws ∨
      ∃ rest, p = path.elements ++ rest ∧ Json.SameBut rest (.array vs) (.array ws) := by
  rcases h.exists_child siblings with rfl | ⟨before, v, w, after, c, rest, rfl, rfl, hc, he, same⟩
  · exact .inl rfl
  · refine .inr ⟨_, he, ?_⟩
    rw [steps _ _ hc]
    exact .index same

end CoursesApart

theorem Course.Regular.apart {c d : Course} (regular : c.Regular) (place : c.place = d.place)
    (fate : c.fate = d.fate) (keys : courseKeys c.members = courseKeys d.members)
    (none : (completions c.members).isNone = (completions d.members).isNone)
    (members : ∀ vs ws, completions c.members = some vs → completions d.members = some ws →
      CoursesApart p c.members vs ws) {v w : Json} (hv : c.completion = some v)
    (hw : d.completion = some w) : c.Apart p v w := by
  have raw : c.raw.isNone = d.raw.isNone := by
    rw [raw, raw, fate]
    exact d.fate.complete_isNone _ _ none
  rcases c.completion_cases with ⟨v', hr, hc⟩ | ⟨hr, hc⟩ <;>
    rcases d.completion_cases with ⟨w', hr', hd⟩ | ⟨hr', hd⟩ <;> rw [hr, hr'] at raw
  · obtain rfl := Option.some.inj (hc.symm.trans hv)
    obtain rfl := Option.some.inj (hd.symm.trans hw)
    unfold Course.raw at hr hr'
    rw [← fate, ← keys] at hr'
    cases regular with
    | failed => cases hr
    | null | leaf => exact .inl (Option.some.inj (hr.symm.trans hr'))
    | list siblings steps =>
      obtain ⟨vs, hvs, rfl⟩ := Option.map_eq_some_iff.mp hr
      obtain ⟨ws, hws, rfl⟩ := Option.map_eq_some_iff.mp hr'
      exact (members vs ws hvs hws).array siblings steps
    | object siblings keyed =>
      obtain ⟨vs, hvs, rfl⟩ := Option.map_eq_some_iff.mp hr
      obtain ⟨ws, hws, rfl⟩ := Option.map_eq_some_iff.mp hr'
      exact (members vs ws hvs hws).object siblings keyed
  · cases raw
  · cases raw
  · rw [← place, ← hc] at hd
    exact .inl (Option.some.inj (hv.symm.trans (hd.symm.trans hw)))

namespace Alike

variable {cs ds : List Course}

theorem apart (h : Alike p cs ds) {path : ResponsePath} (all : Members path cs)
    (nullable : NullableAt p cs) {vs ws : List Json} (hvs : completions cs = some vs)
    (hws : completions ds = some ws) : CoursesApart p cs vs ws := by
  induction h generalizing path vs ws with
  | nil =>
    cases hvs
    cases hws
    exact .inl rfl
  | @here c d cs ds place hp _ ih =>
    obtain ⟨v, vs, hv, rest, rfl⟩ := completions_cons_eq_some.mp hvs
    obtain ⟨w, ws, hw, rest', rfl⟩ := completions_cons_eq_some.mp hws
    refine .cons all.siblings (.inr ⟨[], by rw [hp, List.append_nil], .here⟩) ?_
    exact ih all.tail nullable.tail rest rest'
  | @away c d cs ds place _ fate hm _ ihm ih =>
    obtain ⟨v, vs, hv, rest, rfl⟩ := completions_cons_eq_some.mp hvs
    obtain ⟨w, ws, hw, rest', rfl⟩ := completions_cons_eq_some.mp hws
    have regular := all.regular c List.mem_cons_self
    refine .cons all.siblings (regular.apart place fate hm.courseKeys
      (hm.completions_isNone nullable.members) (fun _ _ => ihm regular.asMembers nullable.members)
      hv hw) ?_
    exact ih all.tail nullable.tail rest rest'

theorem objectOf (h : Alike p cs ds) (all : Members {} cs) (nullable : NullableAt p cs)
    (keys : ∀ c ∈ cs, c.place.step = .key c.place.key) :
    Option.Rel (Json.SameBut p) (objectOf cs) (objectOf ds) := by
  have isNone := h.completions_isNone nullable
  unfold GraphQL.objectOf
  rw [← h.courseKeys]
  rcases hvs : completions cs with - | vs <;> rcases hws : completions ds with - | ws <;>
    rw [hvs, hws] at isNone
  · exact .none
  · cases isNone
  · cases isNone
  · refine .some ?_
    rcases (h.apart all nullable hvs hws).object all.siblings keys with same | ⟨rest, rfl, same⟩
    · dsimp only
      rw [same]
      exact .refl
    · exact same

end Alike

end GraphQL
