import GraphQL.Proofs.Execution.Collected
import GraphQL.Proofs.Execution.Walks
import Mathlib.Data.List.Induction

/-!
Collecting fields takes the walk that follows each fragment at its first spread, and groups the
included fields that this passes by response key. The bound on chains of spreads is never felt:
only fragments that were not followed before are, and there are no more of these than the table
has.

Main statements: `exists_walk`, `collectThrough_eq`.
-/
namespace GraphQL

open Ast

def gather (entries : Entries (List Ast.Field)) (f : Ast.Field) : Entries (List Ast.Field) :=
  entries.modify f.responseKey [] (· ++ [f])

/-- Fields by response key: the keys in the order of their first fields, the fields of each in
order. -/
def grouped (fields : List Ast.Field) : Entries (List Ast.Field) :=
  (fields.map (·.responseKey)).eraseDups.map fun key =>
    (key, fields.filter (·.responseKey = key))

theorem grouped_keys (fields : List Ast.Field) :
    (grouped fields).keys = (fields.map (·.responseKey)).eraseDups := by
  simp [grouped, Entries.keys, Function.comp_def]

theorem Entries.modify_map {α : Type} {keys : List String} (nodup : keys.Nodup) (g : String → α)
    (key : String) (empty : α) (change : α → α) :
    Entries.modify (keys.map fun k => (k, g k)) key empty change =
      if key ∈ keys then keys.map fun k => (k, if k = key then change (g k) else g k)
      else (keys.map fun k => (k, g k)) ++ [(key, change empty)] := by
  induction keys with
  | nil => rfl
  | cons k rest ih =>
    obtain ⟨hk, nodup⟩ := List.nodup_cons.mp nodup
    rw [List.map_cons, modify]
    by_cases h : k = key
    · subst h
      rw [if_pos rfl, if_pos List.mem_cons_self, List.map_cons, if_pos rfl]
      congr 1
      refine List.map_congr_left fun j hj => ?_
      rw [if_neg (fun h : j = k => hk (h ▸ hj))]
    · rw [if_neg h, ih nodup]
      by_cases hmem : key ∈ rest
      · simp [hmem, h]
      · simp [hmem, Ne.symm h]

/-- Adding fields one after another groups them. -/
theorem grouped_eq_foldl (fields : List Ast.Field) : grouped fields = fields.foldl gather [] := by
  have nodup (fields : List Ast.Field) : (fields.foldl gather []).keys.Nodup := by
    induction fields using List.reverseRecOn with
    | nil => exact .nil
    | append_singleton fields f ih =>
      rw [List.foldl_append]
      exact Entries.nodup_modify ih f.responseKey [] _
  induction fields using List.reverseRecOn with
  | nil => rfl
  | append_singleton fields f ih =>
    have keys := nodup fields
    rw [← ih, grouped_keys] at keys
    rw [List.foldl_append, ← ih]
    change _ = Entries.modify (grouped fields) f.responseKey [] (· ++ [f])
    rw [grouped, grouped, Entries.modify_map keys, List.map_append, List.eraseDups_append]
    by_cases hmem : f.responseKey ∈ fields.map (·.responseKey)
    · rw [if_pos (List.mem_eraseDups.mpr hmem)]
      have old : [f.responseKey].removeAll (fields.map (·.responseKey)) = [] := by
        simpa [List.removeAll] using hmem
      rw [List.map_singleton, old, List.eraseDups_nil, List.append_nil]
      refine List.map_congr_left fun key _ => ?_
      by_cases hkey : f.responseKey = key
      · simp [hkey]
      · simp [hkey, Ne.symm hkey]
    · rw [if_neg (fun h => hmem (List.mem_eraseDups.mp h))]
      have new : [f.responseKey].removeAll (fields.map (·.responseKey)) = [f.responseKey] := by
        simpa [List.removeAll] using hmem
      rw [List.map_singleton, new, List.eraseDups_cons, List.map_append]
      have none : fields.filter (·.responseKey = f.responseKey) = [] := by
        refine List.filter_eq_nil_iff.mpr fun g hg h => hmem ?_
        exact List.mem_map.mpr ⟨g, hg, by simpa using h⟩
      congr 1
      · refine List.map_congr_left fun key hkey => ?_
        have hne : f.responseKey ≠ key := by
          rintro rfl
          exact hmem (List.mem_eraseDups.mp hkey)
        simp [hne]
      · simp [none]

/-- What holds of the selections in inline fragments and of those that come after holds of all. -/
theorem Ast.Selection.inline_induction {P : List Selection → Prop} (nil : P [])
    (cons : ∀ s rest, (∀ f, s = .inlineFragment f → P f.selectionSet.selections) → P rest →
      P (s :: rest)) : ∀ selections, P selections
  | [] => nil
  | .field f :: rest => cons _ rest nofun (inline_induction nil cons rest)
  | .spread t :: rest => cons _ rest nofun (inline_induction nil cons rest)
  | .inlineFragment ⟨condition, directives, ⟨selections, setLoc⟩, loc⟩ :: rest => by
    refine cons _ rest (fun f hf => ?_) (inline_induction nil cons rest)
    cases hf
    exact inline_induction nil cons selections

namespace SelectionScope

variable {scope : SelectionScope}

def unfollowed (scope : SelectionScope) (names : List String) : Nat :=
  (scope.fragments.filter (·.1 ∉ names)).length

theorem unfollowed_nil (scope : SelectionScope) : scope.unfollowed [] = scope.fragments.length := by
  simp [unfollowed]

theorem unfollowed_subset {names others : List String} (h : names ⊆ others) :
    scope.unfollowed others ≤ scope.unfollowed names := by
  refine (List.monotone_filter_right _ fun e he => ?_).length_le
  simp only [decide_eq_true_eq] at he ⊢
  exact fun hmem => he (h hmem)

theorem unfollowed_cons {names : List String} {name : String} {f : FragmentDefinition}
    (hf : scope.fragments.get? name = some f) (h : name ∉ names) :
    scope.unfollowed (name :: names) < scope.unfollowed names := by
  have without : scope.fragments.filter (·.1 ∉ name :: names) =
      (scope.fragments.filter (·.1 ∉ names)).filter (·.1 ≠ name) := by
    rw [List.filter_filter]
    refine List.filter_congr fun e _ => ?_
    simp [not_or]
  rw [unfollowed, without]
  refine List.length_filter_lt_length_iff_exists.mpr ⟨(name, f), ?_, by simp⟩
  exact List.mem_filter.mpr ⟨Entries.mem_of_get? hf, by simpa using h⟩

/-- The names of the fragments met are those followed, as far as the fragments are defined and
apply. -/
def Knows (scope : SelectionScope) (c : Collected) (names : List String) : Prop :=
  ∀ name f, scope.fragments.get? name = some f → scope.applies f.typeCondition = true →
    (name ∈ c.visited ↔ name ∈ names)

theorem Knows.of_visited {c c' : Collected} {names : List String} (h : scope.Knows c names)
    (hv : c'.visited = c.visited) : scope.Knows c' names := by
  intro name f hf ha
  rw [hv]
  exact h name f hf ha

theorem Knows.cons {c : Collected} {names : List String} (h : scope.Knows c names)
    (name : String) : scope.Knows { c with visited := name :: c.visited } (name :: names) := by
  intro other f hf ha
  simp [h other f hf ha]

section

variable {follow : FragmentDefinition → Collected → Collected} {s : Selection} {c : Collected}
  {before : List String}

theorem collectSelection_entered {inner : List Selection} (h : scope.entered? s = some inner) :
    collectSelection scope follow s c = collectSelections scope follow inner c := by
  obtain ⟨⟨condition, directives, ⟨selections, setLoc⟩, loc⟩, rfl, enters, rfl⟩ :=
    entered?_eq_some.mp h
  rw [collectSelection, collectInline, if_pos (Bool.and_eq_true_iff.mpr enters), collectSet]

theorem collectSelection_followed {name : String} {f : FragmentDefinition}
    (h : scope.followed? s = some (name, f)) (knows : scope.Knows c before) (new : name ∉ before) :
    collectSelection scope follow s c = follow f { c with visited := name :: c.visited } := by
  obtain ⟨t, rfl, rfl, included, found, applies⟩ := followed?_eq_some.mp h
  have unmet : t.name.value ∉ c.visited := fun hmem => new ((knows _ f found applies).mp hmem)
  rw [collectSelection, collectSpread]
  simp [unmet, included, found, applies]

theorem collectSelection_stays (stays : scope.entered? s = none)
    (known : ∀ name f, scope.followed? s = some (name, f) → name ∈ before)
    (knows : scope.Knows c before) :
    scope.Knows (collectSelection scope follow s c) before ∧
      (collectSelection scope follow s c).fields =
        (scope.taken? s).toList.foldl gather c.fields := by
  cases s with
  | field f =>
    rw [collectSelection]
    by_cases included : isIncluded f.directives scope.vars = true
    · rw [if_pos included, taken?, if_pos included]
      exact ⟨knows.of_visited rfl, rfl⟩
    · rw [if_neg included, taken?, if_neg included]
      exact ⟨knows, rfl⟩
  | inlineFragment f =>
    obtain ⟨condition, directives, selections, loc⟩ := f
    rw [collectSelection, collectInline, if_neg]
    · exact ⟨knows, rfl⟩
    · intro enters
      simp [entered?, enters] at stays
  | spread t =>
    rw [collectSelection, collectSpread]
    dsimp only
    split
    · exact ⟨knows, rfl⟩
    rename_i hs
    simp only [Bool.or_eq_true, List.contains_iff_mem, Bool.not_eq_true', not_or,
      Bool.not_eq_false] at hs
    obtain ⟨unmet, included⟩ := hs
    -- the fragment is undefined or does not apply, else it would have been met
    have strays (f : FragmentDefinition) (found : scope.fragments.get? t.name.value = some f) :
        scope.applies f.typeCondition = false := by
      refine Bool.eq_false_iff.mpr fun applies => unmet ?_
      refine (knows _ f found applies).mpr (known _ f ?_)
      exact followed?_eq_some.mpr ⟨t, rfl, rfl, included, found, applies⟩
    have knows' : scope.Knows { c with visited := t.name.value :: c.visited } before := by
      intro name f found applies
      have hne : name ≠ t.name.value := by
        rintro rfl
        simp [strays f found] at applies
      simp [hne, knows name f found applies]
    split
    · rename_i f found
      rw [if_neg (by simp [strays f found])]
      exact ⟨knows', rfl⟩
    · exact ⟨knows', rfl⟩

end

/-- What is collected goes on by the fields on a walk. -/
def WalksTo (scope : SelectionScope) (site : Site) (numbered : List (Selection × Nat))
    (before : List String) (c c' : Collected) : Prop :=
  ∃ tour last, scope.Walk false site numbered before tour last ∧ scope.Knows c' last ∧
    c'.fields = ((scope.taken tour).map Prod.snd).foldl gather c.fields

theorem taken_cons (site : Site) (s : Selection) (tour : List (Site × Selection)) :
    scope.taken ((site, s) :: tour) =
      ((scope.taken? s).map (site, ·)).toList ++ scope.taken tour := by
  rw [taken, List.filterMap_cons]
  cases scope.taken? s <;> rfl

theorem taken_append (tour tour' : List (Site × Selection)) :
    scope.taken (tour ++ tour') = scope.taken tour ++ scope.taken tour' :=
  List.filterMap_append

theorem taken?_of_entered? {s : Selection} {inner : List Selection}
    (h : scope.entered? s = some inner) : scope.taken? s = none := by
  obtain ⟨f, rfl, -⟩ := entered?_eq_some.mp h
  rfl

theorem taken?_of_followed? {s : Selection} {e : String × FragmentDefinition}
    (h : scope.followed? s = some e) : scope.taken? s = none := by
  obtain ⟨t, rfl, -⟩ := followed?_eq_some.mp h
  rfl

/-- Collecting from selections takes a walk if following fragments does. -/
theorem exists_walk_of_follow {follow : FragmentDefinition → Collected → Collected} {bound : Nat}
    (follows : ∀ name f before c, scope.fragments.get? name = some f → name ∉ before →
      scope.unfollowed before ≤ bound → scope.Knows c (name :: before) →
      scope.WalksTo ⟨some name, []⟩ f.selectionSet.selections.zipIdx (name :: before) c
        (follow f c))
    (selections : List Selection) (site : Site) (k : Nat) (before : List String) (c : Collected)
    (knows : scope.Knows c before) (enough : scope.unfollowed before ≤ bound) :
    scope.WalksTo site (selections.zipIdx k) before c
      (collectSelections scope follow selections c) := by
  induction selections using Selection.inline_induction generalizing site k before c with
  | nil => exact ⟨[], before, .nil, knows, rfl⟩
  | cons s rest inside ih =>
    rw [List.zipIdx_cons, collectSelections]
    -- the walk below the selection, if there is one, and the walk that comes after it
    have after {names : List String} {c' : Collected} (sub : before ⊆ names)
        (knows' : scope.Knows c' names) :=
      ih site (k + 1) names c' knows' (Nat.le_trans (unfollowed_subset sub) enough)
    cases enters : scope.entered? s with
    | some inner =>
      obtain ⟨f, rfl, -, rfl⟩ := entered?_eq_some.mp enters
      rw [collectSelection_entered enters]
      obtain ⟨within, between, walk, knows', fields⟩ :=
        inside f rfl (site.member k) 0 before c knows enough
      obtain ⟨tour, last, later, knows'', fields'⟩ := after walk.subset knows'
      refine ⟨_, last, .enter enters walk later, knows'', ?_⟩
      rw [fields', fields, taken_cons, taken?_of_entered? enters, taken_append]
      simp
    | none =>
      by_cases new : ∃ name f, scope.followed? s = some (name, f) ∧ name ∉ before
      · obtain ⟨name, f, leads, new⟩ := new
        rw [collectSelection_followed leads knows new]
        obtain ⟨within, between, walk, knows', fields⟩ :=
          follows name f before _ (get?_of_followed? leads) new enough (knows.cons name)
        obtain ⟨tour, last, later, knows'', fields'⟩ :=
          after (List.Subset.trans (List.subset_cons_self _ _) walk.subset) knows'
        refine ⟨_, last, .follow leads (.inr new) walk later, knows'', ?_⟩
        rw [fields', fields, taken_cons, taken?_of_followed? leads, taken_append]
        simp
      · have known (name : String) (f : FragmentDefinition)
            (leads : scope.followed? s = some (name, f)) : name ∈ before := by
          by_contra hn
          exact new ⟨name, f, leads, hn⟩
        obtain ⟨knows', fields⟩ := collectSelection_stays enters known knows
        obtain ⟨tour, last, later, knows'', fields'⟩ := after (fun _ h => h) knows'
        refine ⟨_, last, .stay enters (fun name f h => ⟨rfl, known name f h⟩) later, knows'', ?_⟩
        rw [fields', fields, taken_cons]
        cases scope.taken? s <;> rfl

/-- Collecting from selections takes a walk if chains of spreads may be as long as there are
fragments not followed before. -/
theorem exists_walk (depth : Nat) (selections : List Selection) (site : Site) (k : Nat)
    (before : List String) (c : Collected) (knows : scope.Knows c before)
    (enough : scope.unfollowed before ≤ depth) :
    scope.WalksTo site (selections.zipIdx k) before c
      (collectSelections scope (collectFragment scope depth) selections c) := by
  induction depth generalizing selections site k before c with
  | zero =>
    refine exists_walk_of_follow ?_ selections site k before c knows enough
    intro name f before c found new none
    have fewer := unfollowed_cons found new
    omega
  | succ depth ih =>
    refine exists_walk_of_follow ?_ selections site k before c knows enough
    intro name f before c found new few knows
    have fewer := unfollowed_cons found new
    obtain ⟨fragmentName, condition, directives, ⟨selections, setLoc⟩, loc⟩ := f
    rw [collectFragment, collectSet]
    exact ih selections _ 0 _ c knows (by omega)

end SelectionScope

section

variable (scope : SelectionScope) (sets : List SelectionSet)

/-- Selection sets as selections: inline fragments without a condition, which are all entered. -/
def asSelections : List Selection :=
  sets.map fun set => .inlineFragment ⟨none, [], set, none⟩

def collectThrough (depth : Nat) : Entries (List Ast.Field) :=
  (sets.foldl (fun c set => collectSet scope (collectFragment scope depth) set c) {}).fields

def SelectionScope.Tours (again : Bool) (tour : List (Site × Selection)) : Prop :=
  ∃ last, scope.Walk again ⟨none, []⟩ (asSelections sets).zipIdx [] tour last

variable {scope sets}

theorem collectSelections_asSelections (follow : FragmentDefinition → Collected → Collected)
    (c : Collected) : collectSelections scope follow (asSelections sets) c =
      sets.foldl (fun c set => collectSet scope follow set c) c := by
  induction sets generalizing c with
  | nil => rfl
  | cons set rest ih =>
    change collectSelections scope follow (_ :: asSelections rest) c = _
    rw [collectSelections, collectSelection, collectInline, ih]
    rfl

/-- Longer chains of spreads collect no more: there is one tour, and what is collected are the
included fields on it. -/
theorem collectThrough_eq (sets : List SelectionSet) {depth : Nat}
    (enough : scope.fragments.length ≤ depth) :
    ∃ tour, scope.Tours sets false tour ∧
      collectThrough scope sets depth = grouped ((scope.taken tour).map Prod.snd) := by
  have knows : scope.Knows {} [] := fun name f _ _ => Iff.rfl
  rw [← scope.unfollowed_nil] at enough
  obtain ⟨tour, last, walk, -, fields⟩ :=
    SelectionScope.exists_walk depth (asSelections sets) ⟨none, []⟩ 0 [] {} knows enough
  refine ⟨tour, ⟨last, walk⟩, ?_⟩
  rw [grouped_eq_foldl, collectThrough, ← collectSelections_asSelections]
  exact fields

theorem SelectionScope.Tours.unique {again : Bool} {tour tour' : List (Site × Selection)}
    (h : scope.Tours sets again tour) (h' : scope.Tours sets again tour') : tour = tour' := by
  obtain ⟨_, walk⟩ := h
  obtain ⟨_, walk'⟩ := h'
  exact (walk.unique walk' (.inr rfl)).1

/-- A tour passes what the selection sets lead to. -/
theorem SelectionScope.Tours.mem_iff {tour : List (Site × Selection)}
    (h : scope.Tours sets false tour) {site : Site} {s : Selection} :
    (site, s) ∈ tour ↔ scope.Reachable (asSelections sets) site s := by
  obtain ⟨_, walk⟩ := h
  exact ⟨walk.reachable (fun _ _ => .given) _, walk.passes⟩

theorem SelectionScope.Tours.nodup {tour : List (Site × Selection)}
    (h : scope.Tours sets false tour) : (tour.map Prod.fst).Nodup := by
  obtain ⟨_, walk⟩ := h
  exact walk.nodup (Walk.nodup_zipIdx _) nofun

end

end GraphQL
