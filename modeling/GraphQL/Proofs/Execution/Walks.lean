import GraphQL.Execution.Collection
import Mathlib.Data.List.Nodup

/-!
Collecting fields as a depth-first walk over the places where selections stand. A walk that follows
each fragment at its first spread passes every place that the selections lead to, and passes it
once; the included fields on its way are those that are collected.

Main statements: `Walk.passes`, `Walk.nodup`.
-/
namespace GraphQL

open Ast

/-- Where a selection stands. -/
structure Site where
  /-- The fragment that it is in; `none` if it is in the selections given. -/
  fragment : Option String
  /-- The numbers of the selections on the way down to it, the inline fragments that it is in. -/
  way : List Nat := []
deriving DecidableEq

/-- The site of a selection among those that stand below a site. -/
def Site.member (site : Site) (k : Nat) : Site := ⟨site.fragment, site.way ++ [k]⟩

theorem Site.member_inj {site other : Site} {k l : Nat} :
    site.member k = other.member l ↔ site = other ∧ k = l := by
  obtain ⟨fragment, way⟩ := site
  obtain ⟨fragment', way'⟩ := other
  simp [member, and_assoc]

namespace SelectionScope

variable (scope : SelectionScope)

/-- The selections of an inline fragment that is included and applies. -/
def entered? : Selection → Option (List Selection)
  | .inlineFragment f =>
    if isIncluded f.directives scope.vars && f.typeCondition.all scope.applies then
      some f.selectionSet.selections
    else none
  | _ => none

/-- The fragment of an included spread, by its name, if it is defined and applies. -/
def followed? : Selection → Option (String × FragmentDefinition)
  | .spread t =>
    if isIncluded t.directives scope.vars then
      ((scope.fragments.get? t.name.value).filter fun f => scope.applies f.typeCondition).map
        (t.name.value, ·)
    else none
  | _ => none

def taken? : Selection → Option Ast.Field
  | .field f => if isIncluded f.directives scope.vars then some f else none
  | _ => none

def taken (tour : List (Site × Selection)) : List (Site × Ast.Field) :=
  tour.filterMap fun p => (scope.taken? p.2).map (p.1, ·)

/-- A selection and its site that selections lead to, through inline fragments that are entered and
spreads that are followed. -/
inductive Reachable (selections : List Selection) : Site → Selection → Prop where
  | given {s : Selection} {k : Nat} :
      (s, k) ∈ selections.zipIdx → Reachable selections (Site.member ⟨none, []⟩ k) s
  | enter {site : Site} {t s : Selection} {inner : List Selection} {k : Nat} :
      Reachable selections site t → scope.entered? t = some inner → (s, k) ∈ inner.zipIdx →
      Reachable selections (site.member k) s
  | follow {site : Site} {t s : Selection} {name : String} {f : FragmentDefinition} {k : Nat} :
      Reachable selections site t → scope.followed? t = some (name, f) →
      (s, k) ∈ f.selectionSet.selections.zipIdx →
      Reachable selections (Site.member ⟨some name, []⟩ k) s

/-- A depth-first walk over numbered selections below a site and all that they lead to. It starts
with names of fragments that were followed before, and ends with all that have been then; a
fragment is followed at its first spread or, `again`, at every one. -/
inductive Walk (again : Bool) :
    Site → List (Selection × Nat) → List String → List (Site × Selection) → List String → Prop where
  | nil {site : Site} {before : List String} : Walk again site [] before [] before
  | stay {site : Site} {s : Selection} {k : Nat} {rest : List (Selection × Nat)}
      {before last : List String} {tour : List (Site × Selection)} :
      scope.entered? s = none →
      (∀ name f, scope.followed? s = some (name, f) → again = false ∧ name ∈ before) →
      Walk again site rest before tour last →
      Walk again site ((s, k) :: rest) before ((site.member k, s) :: tour) last
  | enter {site : Site} {s : Selection} {k : Nat} {rest : List (Selection × Nat)}
      {inner : List Selection} {before between last : List String}
      {within tour : List (Site × Selection)} :
      scope.entered? s = some inner →
      Walk again (site.member k) inner.zipIdx before within between →
      Walk again site rest between tour last →
      Walk again site ((s, k) :: rest) before ((site.member k, s) :: (within ++ tour)) last
  | follow {site : Site} {s : Selection} {k : Nat} {rest : List (Selection × Nat)}
      {name : String} {f : FragmentDefinition} {before between last : List String}
      {within tour : List (Site × Selection)} :
      scope.followed? s = some (name, f) → again = true ∨ name ∉ before →
      Walk again ⟨some name, []⟩ f.selectionSet.selections.zipIdx (name :: before) within between →
      Walk again site rest between tour last →
      Walk again site ((s, k) :: rest) before ((site.member k, s) :: (within ++ tour)) last

variable {scope}

theorem followed?_eq_some {s : Selection} {name : String} {f : FragmentDefinition} :
    scope.followed? s = some (name, f) ↔ ∃ t, s = .spread t ∧ t.name.value = name ∧
      isIncluded t.directives scope.vars = true ∧ scope.fragments.get? name = some f ∧
      scope.applies f.typeCondition = true := by
  cases s with
  | field f => simp [followed?]
  | inlineFragment f => simp [followed?]
  | spread t =>
    simp only [followed?, Option.ite_none_right_eq_some, Option.map_eq_some_iff,
      Option.filter_eq_some_iff, Prod.mk.injEq, Selection.spread.injEq]
    constructor
    · rintro ⟨included, g, ⟨found, applies⟩, rfl, rfl⟩
      exact ⟨t, rfl, rfl, included, found, applies⟩
    · rintro ⟨t, rfl, rfl, included, found, applies⟩
      exact ⟨included, f, ⟨found, applies⟩, rfl, rfl⟩

theorem get?_of_followed? {s : Selection} {name : String} {f : FragmentDefinition}
    (h : scope.followed? s = some (name, f)) : scope.fragments.get? name = some f := by
  obtain ⟨t, -, -, -, found, -⟩ := followed?_eq_some.mp h
  exact found

theorem entered?_of_followed? {s : Selection} {e : String × FragmentDefinition}
    (h : scope.followed? s = some e) : scope.entered? s = none := by
  obtain ⟨t, rfl, -⟩ := followed?_eq_some.mp h
  rfl

theorem entered?_eq_some {s : Selection} {inner : List Selection} :
    scope.entered? s = some inner ↔ ∃ f, s = .inlineFragment f ∧
      (isIncluded f.directives scope.vars = true ∧ f.typeCondition.all scope.applies = true) ∧
      f.selectionSet.selections = inner := by
  cases s with
  | field f => simp [entered?]
  | spread t => simp [entered?]
  | inlineFragment f =>
    simp only [entered?, Option.ite_none_right_eq_some, Bool.and_eq_true, Option.some.injEq,
      Selection.inlineFragment.injEq, exists_eq_left']

theorem taken?_eq_some {s : Selection} {f : Ast.Field} :
    scope.taken? s = some f ↔ s = .field f ∧ isIncluded f.directives scope.vars = true := by
  cases s with
  | field g =>
    simp only [taken?, Option.ite_none_right_eq_some, Option.some.injEq, Selection.field.injEq]
    constructor
    · rintro ⟨included, rfl⟩
      exact ⟨rfl, included⟩
    · rintro ⟨rfl, included⟩
      exact ⟨included, rfl⟩
  | spread t => simp [taken?]
  | inlineFragment g => simp [taken?]

theorem mem_taken {tour : List (Site × Selection)} {site : Site} {f : Ast.Field} :
    (site, f) ∈ scope.taken tour ↔
      (site, .field f) ∈ tour ∧ isIncluded f.directives scope.vars = true := by
  simp only [taken, List.mem_filterMap, Option.map_eq_some_iff, Prod.mk.injEq, Prod.exists,
    taken?_eq_some]
  constructor
  · rintro ⟨_, _, hmem, _, ⟨rfl, included⟩, rfl, rfl⟩
    exact ⟨hmem, included⟩
  · rintro ⟨hmem, included⟩
    exact ⟨site, _, hmem, f, ⟨rfl, included⟩, rfl, rfl⟩

theorem taken_sublist (tour : List (Site × Selection)) :
    ((scope.taken tour).map Prod.fst).Sublist (tour.map Prod.fst) := by
  induction tour with
  | nil => exact .slnil
  | cons p tour ih =>
    rw [taken, List.filterMap_cons]
    cases scope.taken? p.2 with
    | none => exact .cons _ ih
    | some f => exact .cons_cons _ ih

namespace Walk

variable {again : Bool} {site : Site} {numbered : List (Selection × Nat)}
  {before last : List String} {tour : List (Site × Selection)}

theorem subset (h : scope.Walk again site numbered before tour last) : before ⊆ last := by
  induction h with
  | nil => exact fun _ h => h
  | stay _ _ _ ih => exact ih
  | enter _ _ _ inner rest => exact fun _ h => rest (inner h)
  | follow _ _ _ _ inner rest => exact fun _ h => rest (inner (List.mem_cons_of_mem _ h))

theorem unique {before' last' : List String} {tour' : List (Site × Selection)}
    (h : scope.Walk again site numbered before tour last)
    (h' : scope.Walk again site numbered before' tour' last')
    (same : again = true ∨ before = before') :
    tour = tour' ∧ (again = true ∨ last = last') := by
  induction h generalizing before' tour' last' with
  | nil =>
    cases h'
    exact ⟨rfl, same⟩
  | stay stays known _ ih =>
    cases h' with
    | stay _ _ rest =>
      obtain ⟨rfl, last⟩ := ih rest same
      exact ⟨rfl, last⟩
    | enter enters => simp [stays] at enters
    | follow follows new =>
      obtain ⟨once, hmem⟩ := known _ _ follows
      obtain rfl := same.resolve_left (by simp [once])
      exact absurd hmem (new.resolve_left (by simp [once]))
  | enter enters _ _ inner rest =>
    cases h' with
    | stay stays => simp [enters] at stays
    | enter enters' inner' rest' =>
      obtain rfl := Option.some.inj (enters.symm.trans enters')
      obtain ⟨rfl, between⟩ := inner inner' same
      obtain ⟨rfl, last⟩ := rest rest' between
      exact ⟨rfl, last⟩
    | follow follows => simp [entered?_of_followed? follows] at enters
  | @follow site s k rest name f before between last within tour follows new _ _ inner later =>
    cases h' with
    | stay _ known =>
      obtain ⟨once, hmem⟩ := known _ _ follows
      obtain rfl := same.resolve_left (by simp [once])
      exact absurd hmem (new.resolve_left (by simp [once]))
    | enter enters => simp [entered?_of_followed? follows] at enters
    | follow follows' _ inner' later' =>
      cases follows.symm.trans follows'
      obtain ⟨rfl, between⟩ := inner inner' (same.imp_right (congrArg (name :: ·)))
      obtain ⟨rfl, last⟩ := later later' between
      exact ⟨rfl, last⟩

theorem reachable {selections : List Selection}
    (h : scope.Walk again site numbered before tour last)
    (start : ∀ s k, (s, k) ∈ numbered → scope.Reachable selections (site.member k) s) :
    ∀ p ∈ tour, scope.Reachable selections p.1 p.2 := by
  induction h with
  | nil => exact fun p hp => nomatch hp
  | stay _ _ _ ih =>
    intro p hp
    rcases List.mem_cons.mp hp with rfl | hp
    · exact start _ _ List.mem_cons_self
    · exact ih (fun s k hs => start s k (List.mem_cons_of_mem _ hs)) p hp
  | enter enters _ _ inner rest =>
    have here := start _ _ List.mem_cons_self
    intro p hp
    rcases List.mem_cons.mp hp with rfl | hp
    · exact here
    rcases List.mem_append.mp hp with hp | hp
    · exact inner (fun s k hs => .enter here enters hs) p hp
    · exact rest (fun s k hs => start s k (List.mem_cons_of_mem _ hs)) p hp
  | follow follows _ _ _ inner rest =>
    have here := start _ _ List.mem_cons_self
    intro p hp
    rcases List.mem_cons.mp hp with rfl | hp
    · exact here
    rcases List.mem_append.mp hp with hp | hp
    · exact inner (fun s k hs => .follow here follows hs) p hp
    · exact rest (fun s k hs => start s k (List.mem_cons_of_mem _ hs)) p hp

/-- The selections of the fragment of a name are all on a tour. -/
def Covered (scope : SelectionScope) (tour : List (Site × Selection)) (name : String) : Prop :=
  ∀ f, scope.fragments.get? name = some f →
    ∀ s k, (s, k) ∈ f.selectionSet.selections.zipIdx → (Site.member ⟨some name, []⟩ k, s) ∈ tour

theorem Covered.mono {tour' : List (Site × Selection)} {name : String}
    (h : Covered scope tour name) (hs : tour ⊆ tour') : Covered scope tour' name :=
  fun f hf s k hk => hs (h f hf s k hk)

/-- What a walk leaves no gap in: its own selections, those of inline fragments that it enters, and
those of fragments that it is the first to follow. -/
structure Closed (scope : SelectionScope) (site : Site) (numbered : List (Selection × Nat))
    (before : List String) (tour : List (Site × Selection)) (last : List String) : Prop where
  own : ∀ s k, (s, k) ∈ numbered → (site.member k, s) ∈ tour
  inner : ∀ at' t inner s k, (at', t) ∈ tour → scope.entered? t = some inner →
    (s, k) ∈ inner.zipIdx → (at'.member k, s) ∈ tour
  spread : ∀ at' t name f, (at', t) ∈ tour → scope.followed? t = some (name, f) → name ∈ last
  fragment : ∀ name ∈ last, name ∈ before ∨ Covered scope tour name

theorem Closed.nil (scope : SelectionScope) (site : Site) (before : List String) :
    Closed scope site [] before [] before :=
  ⟨nofun, nofun, nofun, fun _ h => .inl h⟩

/-- What follows a selection leaves no gap if neither what it leads to does nor what comes after. -/
theorem Closed.cons {s : Selection} {k : Nat} {site' : Site}
    {numbered' : List (Selection × Nat)} {before' between : List String}
    {within : List (Site × Selection)} (inner : Closed scope site' numbered' before' within between)
    (rest : Closed scope site numbered between tour last) (grows : between ⊆ last)
    (enters : ∀ l, scope.entered? s = some l →
      ∀ t j, (t, j) ∈ l.zipIdx → ((site.member k).member j, t) ∈ within)
    (follows : ∀ name f, scope.followed? s = some (name, f) → name ∈ last)
    (covers : ∀ name ∈ between, name ∈ before ∨ Covered scope within name) :
    Closed scope site ((s, k) :: numbered) before ((site.member k, s) :: (within ++ tour))
      last := by
  have hwithin : within ⊆ (site.member k, s) :: (within ++ tour) :=
    fun _ h => List.mem_cons_of_mem _ (List.mem_append_left _ h)
  have htour : tour ⊆ (site.member k, s) :: (within ++ tour) :=
    fun _ h => List.mem_cons_of_mem _ (List.mem_append_right _ h)
  refine ⟨?own, ?inner, ?spread, ?fragment⟩
  case own =>
    intro t j ht
    rcases List.mem_cons.mp ht with heq | ht
    · cases heq
      exact List.mem_cons_self
    · exact htour (rest.own t j ht)
  case inner =>
    intro at' t l t' j ht enters' hj
    rcases List.mem_cons.mp ht with heq | ht
    · cases heq
      exact hwithin (enters l enters' t' j hj)
    rcases List.mem_append.mp ht with ht | ht
    · exact hwithin (inner.inner at' t l t' j ht enters' hj)
    · exact htour (rest.inner at' t l t' j ht enters' hj)
  case spread =>
    intro at' t name f ht follows'
    rcases List.mem_cons.mp ht with heq | ht
    · cases heq
      exact follows name f follows'
    rcases List.mem_append.mp ht with ht | ht
    · exact grows (inner.spread at' t name f ht follows')
    · exact rest.spread at' t name f ht follows'
  case fragment =>
    intro name hname
    rcases rest.fragment name hname with hname | covered
    · exact (covers name hname).imp_right fun h => h.mono hwithin
    · exact .inr (covered.mono htour)

theorem closed (h : scope.Walk again site numbered before tour last) :
    Closed scope site numbered before tour last := by
  induction h with
  | nil => exact .nil ..
  | @stay site s k rest before last tour stays known walk ih =>
    refine (Closed.nil scope site before).cons ih walk.subset ?_
      (fun name f follows => walk.subset (known name f follows).2) fun _ h => .inl h
    intro l enters
    simp [stays] at enters
  | enter enters _ later inner rest =>
    refine inner.cons rest later.subset ?_ ?_ inner.fragment
    · intro l enters'
      obtain rfl := Option.some.inj (enters.symm.trans enters')
      exact inner.own
    · intro name f follows
      simp [entered?_of_followed? follows] at enters
  | @follow site s k rest name f before between last within tour follows _ walk later inner ih =>
    refine inner.cons ih later.subset ?_ ?_ ?_
    · intro l enters
      simp [entered?_of_followed? follows] at enters
    · intro name' f' follows'
      cases follows.symm.trans follows'
      exact later.subset (walk.subset List.mem_cons_self)
    · intro name' hname
      rcases inner.fragment name' hname with hname | covered
      · rcases List.mem_cons.mp hname with rfl | hname
        · -- the fragment just followed is covered by the walk through it
          right
          intro g hg
          rw [get?_of_followed? follows] at hg
          cases hg
          exact inner.own
        · exact .inl hname
      · exact .inr covered

theorem passes {selections : List Selection} {s : Selection}
    (h : scope.Walk again ⟨none, []⟩ selections.zipIdx [] tour last)
    (hs : scope.Reachable selections site s) : (site, s) ∈ tour := by
  have closed := h.closed
  induction hs with
  | given hk => exact closed.own _ _ hk
  | enter _ enters hk ih => exact closed.inner _ _ _ _ _ ih enters hk
  | @follow site t s name f k _ follows hk ih =>
    rcases closed.fragment name (closed.spread _ _ _ _ ih follows) with none | covered
    · cases none
    · exact covered f (get?_of_followed? follows) s k hk

/-- The sites at and below some of the selections that stand below a site. -/
def Below (site : Site) (numbers : List Nat) (at' : Site) : Prop :=
  at'.fragment = site.fragment ∧ ∃ k ∈ numbers, site.way ++ [k] <+: at'.way

/-- The sites in fragments that were followed since. -/
def Since (before last : List String) (at' : Site) : Prop :=
  ∃ name, at'.fragment = some name ∧ name ∈ last ∧ name ∉ before

theorem Below.mono {numbers others : List Nat} {at' : Site} (h : Below site numbers at')
    (hs : numbers ⊆ others) : Below site others at' := by
  obtain ⟨hf, k, hk, hp⟩ := h
  exact ⟨hf, k, hs hk, hp⟩

theorem Below.self (site : Site) (k : Nat) : Below site [k] (site.member k) :=
  ⟨rfl, k, List.mem_cons_self, List.prefix_refl _⟩

theorem Below.of_member {k : Nat} {numbers : List Nat} {at' : Site}
    (h : Below (site.member k) numbers at') : Below site [k] at' := by
  obtain ⟨hf, j, -, hp⟩ := h
  exact ⟨hf, k, List.mem_cons_self, (List.prefix_append _ _).trans hp⟩

theorem Below.ne_member {k : Nat} {numbers : List Nat} {at' : Site}
    (h : Below (site.member k) numbers at') : at' ≠ site.member k := by
  rintro rfl
  obtain ⟨-, j, -, hp⟩ := h
  have longer := hp.length_le
  rw [List.length_append, List.length_singleton] at longer
  omega

theorem Below.number_eq {k : Nat} {numbers : List Nat} {at' : Site} (h : Below site [k] at')
    (h' : Below site numbers at') : k ∈ numbers := by
  obtain ⟨-, j, hj, hp⟩ := h
  obtain ⟨-, i, hi, hp'⟩ := h'
  obtain rfl := List.mem_singleton.mp hj
  obtain heq | heq := List.prefix_or_prefix_of_prefix hp hp' <;>
    · have := List.append_cancel_left (heq.eq_of_length (by simp))
      simp_all

theorem Since.mono {before' last' : List String} {at' : Site} (h : Since before last at')
    (hb : before' ⊆ before) (hl : last ⊆ last') : Since before' last' at' := by
  obtain ⟨name, hf, hmem, hn⟩ := h
  exact ⟨name, hf, hl hmem, fun h => hn (hb h)⟩

/-- A walk stays below its selections and in fragments that it is the first to follow. -/
theorem sites (h : scope.Walk false site numbered before tour last) :
    ∀ p ∈ tour, Below site (numbered.map Prod.snd) p.1 ∨ Since before last p.1 := by
  have head {site at' : Site} {s : Selection} {k : Nat} {rest : List (Selection × Nat)}
      (h : Below site [k] at') : Below site (((s, k) :: rest).map Prod.snd) at' :=
    h.mono (by simp)
  induction h with
  | nil => exact fun p hp => nomatch hp
  | stay _ _ _ ih =>
    intro p hp
    rcases List.mem_cons.mp hp with rfl | hp
    · exact .inl (head (.self ..))
    · exact (ih p hp).imp_left fun h => h.mono (by simp)
  | enter _ walk later inner rest =>
    intro p hp
    rcases List.mem_cons.mp hp with rfl | hp
    · exact .inl (head (.self ..))
    rcases List.mem_append.mp hp with hp | hp
    · exact (inner p hp).imp (fun h => head h.of_member) fun h => h.mono (fun _ h => h) later.subset
    · exact (rest p hp).imp (fun h => h.mono (by simp)) fun h => h.mono walk.subset fun _ h => h
  | follow _ new walk later inner rest =>
    have before_sub := List.Subset.trans (List.subset_cons_self _ _) walk.subset
    intro p hp
    rcases List.mem_cons.mp hp with rfl | hp
    · exact .inl (head (.self ..))
    rcases List.mem_append.mp hp with hp | hp
    · right
      rcases inner p hp with below | since
      · exact ⟨_, below.1, later.subset (walk.subset List.mem_cons_self), new.resolve_left nofun⟩
      · exact since.mono (List.subset_cons_self _ _) later.subset
    · exact (rest p hp).imp (fun h => h.mono (by simp)) fun h => h.mono before_sub fun _ h => h

/-- What a selection leads to and what comes after it share no site with each other and with the
selection itself. -/
theorem nodup_cons {s : Selection} {k : Nat} {numbers : List Nat} {between : List String}
    {within : List (Site × Selection)} (hk : k ∉ numbers)
    (known : ∀ name, site.fragment = some name → name ∈ before) (grows : before ⊆ between)
    (inner : ∀ p ∈ within, (∃ js, Below (site.member k) js p.1) ∨ Since before between p.1)
    (rest : ∀ p ∈ tour, Below site numbers p.1 ∨ Since between last p.1)
    (hwithin : (within.map Prod.fst).Nodup) (htour : (tour.map Prod.fst).Nodup) :
    (((site.member k, s) :: (within ++ tour)).map Prod.fst).Nodup := by
  have apart {names others : List String} {ks : List Nat} {at' : Site} (hb : Below site ks at')
      (hs : Since names others at') (hn : before ⊆ names) : False := by
    obtain ⟨name, hf, -, hnew⟩ := hs
    exact hnew (hn (known name (hb.1.symm.trans hf)))
  simp only [List.map_cons, List.map_append, List.nodup_cons, List.nodup_append, List.mem_append,
    List.mem_map]
  refine ⟨?_, hwithin, htour, ?_⟩
  · rintro (⟨p, hp, heq⟩ | ⟨p, hp, heq⟩)
    · rcases inner p hp with ⟨js, below⟩ | since
      · exact below.ne_member heq
      · exact apart (heq ▸ Below.self site k) since fun _ h => h
    · rcases rest p hp with below | since
      · exact hk ((heq ▸ Below.self site k : Below site [k] p.1).number_eq below)
      · exact apart (heq ▸ Below.self site k) since grows
  · rintro at' ⟨p, hp, rfl⟩ _ ⟨q, hq, rfl⟩ heq
    rcases inner p hp with ⟨js, below⟩ | since
    · rcases rest q hq with below' | since'
      · exact hk (below.of_member.number_eq (heq ▸ below'))
      · exact apart below.of_member (heq ▸ since') grows
    · rcases rest q hq with below' | since'
      · exact apart below' (heq ▸ since) fun _ h => h
      · obtain ⟨name, hf, hmem, -⟩ := since
        obtain ⟨name', hf', -, hnew⟩ := since'
        rw [heq, hf'] at hf
        cases hf
        exact hnew hmem

theorem nodup_zipIdx (selections : List Selection) :
    (selections.zipIdx.map Prod.snd).Nodup := by
  rw [List.zipIdx_map_snd]
  exact List.nodup_range'

theorem nodup (h : scope.Walk false site numbered before tour last)
    (numbers : (numbered.map Prod.snd).Nodup)
    (known : ∀ name, site.fragment = some name → name ∈ before) :
    (tour.map Prod.fst).Nodup := by
  induction h with
  | nil => exact .nil
  | stay _ _ walk ih =>
    obtain ⟨hk, numbers⟩ := List.nodup_cons.mp numbers
    change (((_, _) :: ([] ++ _)).map Prod.fst).Nodup
    exact nodup_cons hk known (fun _ h => h) nofun walk.sites .nil (ih numbers known)
  | enter _ walk later inner rest =>
    obtain ⟨hk, numbers⟩ := List.nodup_cons.mp numbers
    refine nodup_cons hk known walk.subset ?_ later.sites (inner (nodup_zipIdx _) known)
      (rest numbers fun name h => walk.subset (known name h))
    exact fun p hp => (walk.sites p hp).imp_left fun h => ⟨_, h⟩
  | follow _ new walk later inner rest =>
    have before_sub := List.Subset.trans (List.subset_cons_self _ _) walk.subset
    obtain ⟨hk, numbers⟩ := List.nodup_cons.mp numbers
    refine nodup_cons hk known before_sub ?_ later.sites (inner (nodup_zipIdx _) ?_)
      (rest numbers fun name h => before_sub (known name h))
    · intro p hp
      right
      rcases walk.sites p hp with below | since
      · exact ⟨_, below.1, walk.subset List.mem_cons_self, new.resolve_left nofun⟩
      · exact since.mono (List.subset_cons_self _ _) fun _ h => h
    · intro name' h
      cases h
      exact List.mem_cons_self

end Walk

end SelectionScope

end GraphQL
