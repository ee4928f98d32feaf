import GraphQL.Proofs.Execution.WalkOfCollection
import Mathlib.Logic.Relation

/-!
The fields collected are those reachable, each occurrence once and in the order of the walk. Where
the spreads have no cycle, this is what remains of following every spread every time once
occurrences that came before are removed.

Main statement: `collectFields_reachable`.
-/
namespace GraphQL

open Ast

section Firsts

variable {α : Type}

/-- Without the occurrences whose site was seen before. -/
def firsts : List Site → List (Site × α) → List (Site × α)
  | _, [] => []
  | seen, p :: rest =>
    if p.1 ∈ seen then firsts seen rest else p :: firsts (seen ++ [p.1]) rest

theorem firsts_append (seen : List Site) (ps qs : List (Site × α)) :
    firsts seen (ps ++ qs) =
      firsts seen ps ++ firsts (seen ++ (firsts seen ps).map Prod.fst) qs := by
  induction ps generalizing seen with
  | nil => simp [firsts]
  | cons p ps ih =>
    rw [List.cons_append, firsts, firsts]
    by_cases h : p.1 ∈ seen
    · rw [if_pos h, if_pos h, ih]
    · rw [if_neg h, if_neg h, ih]
      simp

theorem firsts_of_seen {seen : List Site} {ps : List (Site × α)} (h : ∀ p ∈ ps, p.1 ∈ seen) :
    firsts seen ps = [] := by
  induction ps with
  | nil => rfl
  | cons p ps ih =>
    rw [firsts, if_pos (h p List.mem_cons_self)]
    exact ih fun q hq => h q (List.mem_cons_of_mem _ hq)

theorem firsts_of_nodup {seen : List Site} {ps : List (Site × α)}
    (h : (seen ++ ps.map Prod.fst).Nodup) : firsts seen ps = ps := by
  induction ps generalizing seen with
  | nil => rfl
  | cons p ps ih =>
    rw [List.map_cons, ← List.singleton_append, ← List.append_assoc] at h
    have new : p.1 ∉ seen := by
      have apart := (List.nodup_append.mp (List.nodup_append.mp h).1).2.2
      exact fun hmem => apart p.1 hmem p.1 List.mem_cons_self rfl
    rw [firsts, if_neg new, ih h]

theorem mem_firsts {seen : List Site} {ps : List (Site × α)} :
    ∀ p ∈ ps, p.1 ∈ seen ++ (firsts seen ps).map Prod.fst := by
  induction ps generalizing seen with
  | nil => exact nofun
  | cons p ps ih =>
    intro q hq
    rw [firsts]
    rcases List.mem_cons.mp hq with rfl | hq
    · split
      · exact List.mem_append_left _ ‹_›
      · simp
    · split
      · exact ih q hq
      · have later : q.1 ∈ (seen ++ [p.1]) ++ (firsts (seen ++ [p.1]) ps).map Prod.fst := ih q hq
        simpa [List.append_assoc] using later

end Firsts

namespace SelectionScope

variable (scope : SelectionScope)

/-- A spread among the selections, or in an inline fragment that is entered, is followed to the
fragment of a name. -/
inductive LeadsTo (name : String) : List Selection → Prop where
  | here {selections : List Selection} {s : Selection} {f : FragmentDefinition} :
      s ∈ selections → scope.followed? s = some (name, f) → LeadsTo name selections
  | inner {selections inner : List Selection} {s : Selection} :
      s ∈ selections → scope.entered? s = some inner → LeadsTo name inner →
      LeadsTo name selections

/-- A spread in the first fragment is followed to the second. -/
def Follows (name other : String) : Prop :=
  ∃ f, scope.fragments.get? name = some f ∧ scope.LeadsTo other f.selectionSet.selections

def Acyclic : Prop := ∀ name, ¬ Relation.TransGen scope.Follows name name

/-- Selections lead to a fragment at last, through any number of others. -/
def Arrives (selections : List Selection) (name : String) : Prop :=
  ∃ first, scope.LeadsTo first selections ∧ Relation.ReflTransGen scope.Follows first name

variable {scope}

theorem LeadsTo.mono {name : String} {selections others : List Selection}
    (h : scope.LeadsTo name selections) (hs : selections ⊆ others) :
    scope.LeadsTo name others := by
  cases h with
  | here hmem follows => exact .here (hs hmem) follows
  | inner hmem enters h => exact .inner (hs hmem) enters h

namespace Arrives

variable {selections : List Selection} {name : String} {s : Selection}

theorem mono {others : List Selection} (h : scope.Arrives selections name)
    (hs : selections ⊆ others) : scope.Arrives others name := by
  obtain ⟨first, leads, way⟩ := h
  exact ⟨first, leads.mono hs, way⟩

theorem enter {inner : List Selection} (hmem : s ∈ selections)
    (enters : scope.entered? s = some inner) (h : scope.Arrives inner name) :
    scope.Arrives selections name := by
  obtain ⟨first, leads, way⟩ := h
  exact ⟨first, .inner hmem enters leads, way⟩

theorem here {f : FragmentDefinition} (hmem : s ∈ selections)
    (follows : scope.followed? s = some (name, f)) : scope.Arrives selections name :=
  ⟨name, .here hmem follows, .refl⟩

theorem follow {other : String} {f : FragmentDefinition} (hmem : s ∈ selections)
    (follows : scope.followed? s = some (other, f))
    (h : scope.Arrives f.selectionSet.selections name) : scope.Arrives selections name := by
  obtain ⟨first, leads, way⟩ := h
  exact ⟨other, .here hmem follows, .head ⟨f, get?_of_followed? follows, leads⟩ way⟩

theorem not_self (acyclic : scope.Acyclic) {f : FragmentDefinition}
    (hf : scope.fragments.get? name = some f) : ¬ scope.Arrives f.selectionSet.selections name := by
  rintro ⟨first, leads, way⟩
  exact acyclic name (.head' ⟨f, hf, leads⟩ way)

end Arrives

/-- Without cycles every spread can be followed every time: the fragments on the path to it are all
different. -/
theorem exists_full_walk (acyclic : scope.Acyclic) (path : List String)
    (selections : List Selection) (apart : ∀ name ∈ path, ¬ scope.Arrives selections name)
    (site : Site) (k : Nat) (before : List String) :
    ∃ tour last, scope.Walk true site (selections.zipIdx k) before tour last := by
  induction hn : scope.unfollowed path using Nat.strongRecOn
    generalizing path selections site k before with
  | ind n byPath =>
  subst hn
  induction selections using Selection.inline_induction generalizing site k before with
  | nil => exact ⟨[], before, .nil⟩
  | cons s rest inside ih =>
    rw [List.zipIdx_cons]
    have after := ih fun name hname h => apart name hname (h.mono (List.subset_cons_self _ _))
    have here : s ∈ s :: rest := List.mem_cons_self
    cases enters : scope.entered? s with
    | some inner =>
      obtain ⟨f, rfl, -, rfl⟩ := entered?_eq_some.mp enters
      obtain ⟨within, between, walk⟩ :=
        inside f rfl (fun name hname h => apart name hname (.enter here enters h))
          (site.member k) 0 before
      obtain ⟨tour, last, later⟩ := after site (k + 1) between
      exact ⟨_, last, .enter enters walk later⟩
    | none =>
      cases follows : scope.followed? s with
      | some e =>
        obtain ⟨name, f⟩ := e
        have found := get?_of_followed? follows
        have new : name ∉ path := fun hmem => apart name hmem (.here here follows)
        have inner : ∀ other ∈ name :: path, ¬ scope.Arrives f.selectionSet.selections other := by
          intro other hother
          rcases List.mem_cons.mp hother with rfl | hother
          · exact Arrives.not_self acyclic found
          · exact fun h => apart other hother (.follow here follows h)
        obtain ⟨within, between, walk⟩ :=
          byPath _ (unfollowed_cons found new) (name :: path) _ inner ⟨some name, []⟩ 0
            (name :: before) rfl
        obtain ⟨tour, last, later⟩ := after site (k + 1) between
        exact ⟨_, last, .follow follows (.inl rfl) walk later⟩
      | none =>
        obtain ⟨tour, last, later⟩ := after site (k + 1) before
        exact ⟨_, last, .stay enters (by simp [follows]) later⟩

/-- All fields that a fragment leads to, if every spread is followed every time, were seen. -/
def Finished (scope : SelectionScope) (seen : List Site) (name : String) : Prop :=
  ∀ f, scope.fragments.get? name = some f → ∀ before tour last,
    scope.Walk true ⟨some name, []⟩ f.selectionSet.selections.zipIdx before tour last →
      ∀ p ∈ scope.taken tour, p.1 ∈ seen

theorem Finished.mono {seen seen' : List Site} {name : String} (h : scope.Finished seen name)
    (hs : seen ⊆ seen') : scope.Finished seen' name :=
  fun f hf before tour last walk p hp => hs (h f hf before tour last walk p hp)

/-- A fragment is finished once its first full walk has been taken, for there is no other. -/
theorem Finished.of_walk {seen : List Site} {name : String} {f : FragmentDefinition}
    {any any' : List String} {full : List (Site × Selection)} {kept : List (Site × Ast.Field)}
    (found : scope.fragments.get? name = some f)
    (walk : scope.Walk true ⟨some name, []⟩ f.selectionSet.selections.zipIdx any full any')
    (first : firsts seen (scope.taken full) = kept) :
    scope.Finished (seen ++ kept.map Prod.fst) name := by
  intro g hg _ again _ walk' p hp
  rw [found] at hg
  cases hg
  obtain ⟨rfl, -⟩ := walk'.unique walk (.inl rfl)
  rw [← first]
  exact mem_firsts p hp

section Joined

variable {before between last : List String} {seen : List Site}
  {taken taken' kept kept' : List (Site × Ast.Field)}

/-- Fragments followed since are finished once the fields have been taken. -/
def Finishes (scope : SelectionScope) (before last : List String) (seen : List Site)
    (kept : List (Site × Ast.Field)) : Prop :=
  ∀ name ∈ last, name ∈ before ∨ scope.Finished (seen ++ kept.map Prod.fst) name

theorem firsts_join (first : firsts seen taken = kept)
    (finishes : scope.Finishes before between seen kept)
    (rest : firsts (seen ++ kept.map Prod.fst) taken' = kept' ∧
      scope.Finishes between last (seen ++ kept.map Prod.fst) kept') :
    firsts seen (taken ++ taken') = kept ++ kept' ∧
      scope.Finishes before last seen (kept ++ kept') := by
  obtain ⟨second, later⟩ := rest
  refine ⟨by rw [firsts_append, first, second], ?_⟩
  intro name hname
  rw [List.map_append, ← List.append_assoc]
  rcases later name hname with hname | finished
  · exact (finishes name hname).imp_right fun h => h.mono (List.subset_append_left _ _)
  · exact .inr finished

/-- What is finished stays so, and what selections do not lead to, fewer of them do not lead to. -/
theorem Finishes.known {selections others : List Selection}
    (finishes : scope.Finishes before between seen kept)
    (known : ∀ name ∈ before, scope.Finished seen name ∨ ¬ scope.Arrives selections name)
    (hs : others ⊆ selections) :
    ∀ name ∈ between, scope.Finished (seen ++ kept.map Prod.fst) name ∨
      ¬ scope.Arrives others name := by
  intro name hname
  rcases finishes name hname with hname | finished
  · exact (known name hname).imp (fun h => h.mono (List.subset_append_left _ _))
      fun h arrives => h (arrives.mono hs)
  · exact .inl finished

end Joined

/-- Without cycles, the walk that follows each fragment once takes the fields that the full walk
takes first. A fragment that is not followed again has been finished, or it is one that the
selections do not lead to. -/
theorem firsts_taken (acyclic : scope.Acyclic) {site : Site} {numbered : List (Selection × Nat)}
    {before last any any' : List String} {tour full : List (Site × Selection)} {seen : List Site}
    (h : scope.Walk false site numbered before tour last)
    (hfull : scope.Walk true site numbered any full any')
    (nodup : (seen ++ (scope.taken tour).map Prod.fst).Nodup)
    (known : ∀ name ∈ before,
      scope.Finished seen name ∨ ¬ scope.Arrives (numbered.map Prod.fst) name) :
    firsts seen (scope.taken full) = scope.taken tour ∧
      scope.Finishes before last seen (scope.taken tour) := by
  induction h generalizing any any' full seen with
  | nil =>
    cases hfull
    exact ⟨rfl, fun _ h => .inl h⟩
  | @stay site s k rest before last tour stays once walk ih =>
    have sub := List.subset_cons_self s (rest.map Prod.fst)
    rw [taken_cons, List.map_append, ← List.append_assoc] at nodup
    have finishes : scope.Finishes before before seen
        ((scope.taken? s).map (site.member k, ·)).toList := fun _ h => .inl h
    cases hfull with
    | stay _ _ walk' =>
      rw [taken_cons, taken_cons]
      have first := firsts_of_nodup (List.nodup_append.mp nodup).1
      exact firsts_join first finishes (ih walk' nodup (finishes.known known sub))
    | enter enters => simp [stays] at enters
    | @follow _ _ _ _ name f _ between _ within _ follows _ walk' later' =>
      -- the fragment was finished, so following it again gives nothing new
      have finished : scope.Finished seen name :=
        (known name (once name f follows).2).resolve_right fun h =>
          h (.here List.mem_cons_self follows)
      have none := firsts_of_seen (finished f (get?_of_followed? follows) _ _ _ walk')
      rw [taken?_of_followed? follows] at nodup finishes
      rw [taken_cons, taken_cons, taken?_of_followed? follows, Option.map_none,
        Option.toList_none, List.nil_append, taken_append]
      exact firsts_join none finishes (ih later' nodup (finishes.known known sub))
  | @enter site s k rest inner before between last within tour enters walk later ih ih' =>
    have sub := List.subset_cons_self s (rest.map Prod.fst)
    have stays := taken?_of_entered? enters
    rw [taken_cons, stays, Option.map_none, Option.toList_none, List.nil_append, taken_append,
      List.map_append, ← List.append_assoc] at nodup
    cases hfull with
    | stay stays => simp [enters] at stays
    | follow follows => simp [entered?_of_followed? follows] at enters
    | enter enters' walk' later' =>
      obtain rfl := Option.some.inj (enters.symm.trans enters')
      have known' : ∀ name ∈ before, scope.Finished seen name ∨
          ¬ scope.Arrives (inner.zipIdx.map Prod.fst) name := by
        rw [List.zipIdx_map_fst]
        exact fun name hname => (known name hname).imp_right fun h arrives =>
          h (.enter List.mem_cons_self enters arrives)
      obtain ⟨first, finishes⟩ := ih walk' (List.nodup_append.mp nodup).1 known'
      rw [taken_cons, taken_cons, stays, Option.map_none, Option.toList_none, List.nil_append,
        List.nil_append, taken_append, taken_append]
      exact firsts_join first finishes (ih' later' nodup (finishes.known known sub))
  | @follow site s k rest name f before between last within tour follows new walk later ih ih' =>
    have sub := List.subset_cons_self s (rest.map Prod.fst)
    have stays := taken?_of_followed? follows
    rw [taken_cons, stays, Option.map_none, Option.toList_none, List.nil_append, taken_append,
      List.map_append, ← List.append_assoc] at nodup
    cases hfull with
    | stay _ once => exact nomatch (once name f follows).1
    | enter enters => simp [entered?_of_followed? follows] at enters
    | follow follows' _ walk' later' =>
      cases follows.symm.trans follows'
      have found := get?_of_followed? follows
      have known' : ∀ other ∈ name :: before, scope.Finished seen other ∨
          ¬ scope.Arrives (f.selectionSet.selections.zipIdx.map Prod.fst) other := by
        rw [List.zipIdx_map_fst]
        intro other hother
        rcases List.mem_cons.mp hother with rfl | hother
        · -- the fragment is not finished yet, but within it there is no way back to it
          exact .inr (Arrives.not_self acyclic found)
        · exact (known other hother).imp_right fun h arrives =>
            h (.follow List.mem_cons_self follows arrives)
      obtain ⟨first, finishes⟩ := ih walk' (List.nodup_append.mp nodup).1 known'
      have finishes : scope.Finishes before between seen (scope.taken within) := by
        intro other hother
        rcases finishes other hother with hother | finished
        · rcases List.mem_cons.mp hother with rfl | hother
          · exact .inr (.of_walk found walk' first)
          · exact .inl hother
        · exact .inr finished
      rw [taken_cons, taken_cons, stays, Option.map_none, Option.toList_none, List.nil_append,
        List.nil_append, taken_append, taken_append]
      exact firsts_join first finishes (ih' later' nodup (finishes.known known sub))

end SelectionScope

/-- Collecting fields, for every schema, table of fragments, variables and runtime type, cyclic
spreads included: a longer bound on chains of spreads changes nothing, and there is a tour of the
selection sets that follows each fragment at its first included spread, whose included fields are
collected, by response key. They are the included fields at all sites that the selection sets lead
to, each site once, where a site is a place in one of the given sets or in a fragment. Where the
spreads that are followed have no cycle, they are also what is left of the fields of the tour that
follows every spread every time without those whose site came before. -/
theorem collectFields_reachable (scope : SelectionScope) (sets : List SelectionSet) :
    (∀ depth, scope.fragments.length ≤ depth →
      collectThrough scope sets depth = collectFields scope sets) ∧
    ∃ tour, scope.Tours sets false tour ∧
      collectFields scope sets = grouped ((scope.taken tour).map Prod.snd) ∧
      ((scope.taken tour).map Prod.fst).Nodup ∧
      (∀ site f, (site, f) ∈ scope.taken tour ↔
        scope.Reachable (asSelections sets) site (.field f) ∧
          isIncluded f.directives scope.vars = true) ∧
      (scope.Acyclic → ∃ full, scope.Tours sets true full ∧
        scope.taken tour = firsts [] (scope.taken full)) := by
  obtain ⟨tour, tours, collected⟩ :=
    collectThrough_eq sets (Nat.le_refl scope.fragments.length)
  have once : ((scope.taken tour).map Prod.fst).Nodup :=
    tours.nodup.sublist (SelectionScope.taken_sublist tour)
  refine ⟨?longer, tour, tours, collected, once, ?all, ?acyclic⟩
  case longer =>
    intro depth enough
    obtain ⟨tour', tours', collected'⟩ := collectThrough_eq sets enough
    rw [collected', tours'.unique tours, ← collected]
    rfl
  case all =>
    intro site f
    rw [SelectionScope.mem_taken, tours.mem_iff]
  case acyclic =>
    intro acyclic
    obtain ⟨last, walk⟩ := tours
    obtain ⟨full, last', whole⟩ := SelectionScope.exists_full_walk acyclic [] (asSelections sets)
      nofun ⟨none, []⟩ 0 []
    refine ⟨full, ⟨last', whole⟩, ?_⟩
    exact (SelectionScope.firsts_taken acyclic walk whole once nofun).1.symm

namespace Diamond

def fieldDefinition (name : String) : TypeSystem.Field :=
  ⟨⟨1, 1⟩, none, name, [], .named "Int", []⟩

/-- `type Query { a: Int b: Int }` -/
def query : TypeSystem.TypeDefinition :=
  .object ⟨⟨1, 1⟩, none, "Query", [], [], [fieldDefinition "a", fieldDefinition "b"]⟩

def spread (name : String) : Selection := .spread ⟨⟨name, none⟩, [], none⟩

def field (name : String) : Selection := .field { name := ⟨name, none⟩ }

def fragment (name : String) (selections : List Selection) : String × FragmentDefinition :=
  (name, ⟨⟨name, none⟩, ⟨⟨"Query", none⟩, none⟩, [], ⟨selections, none⟩, none⟩)

/-- `fragment A on Query { ...C } fragment B on Query { ...C a } fragment C on Query { b }` -/
def scope : SelectionScope where
  schema := ⟨[("Query", query)], [], "Query", none, none⟩
  fragments := [fragment "A" [spread "C"], fragment "B" [spread "C", field "a"],
    fragment "C" [field "b"]]
  vars := []
  runtimeType := query

/-- `{ ...A ...B }` -/
def set : SelectionSet := ⟨[spread "A", spread "B"], none⟩

theorem acyclic : scope.Acyclic := by
  have follows {name other : String} (h : scope.Follows name other) :
      name ≠ "C" ∧ other = "C" := by
    obtain ⟨f, found, leads⟩ := h
    have entry := Entries.mem_of_get? found
    simp only [scope, fragment, List.mem_cons, Prod.mk.injEq, List.not_mem_nil, or_false] at entry
    rcases leads with ⟨hs, hf⟩ | ⟨hs, enters, -⟩
    · obtain ⟨t, rfl, rfl, -⟩ := SelectionScope.followed?_eq_some.mp hf
      rcases entry with ⟨rfl, rfl⟩ | ⟨rfl, rfl⟩ | ⟨rfl, rfl⟩ <;>
        simp [spread, field] at hs <;> simp [hs]
    · obtain ⟨g, rfl, -⟩ := SelectionScope.entered?_eq_some.mp enters
      rcases entry with ⟨rfl, rfl⟩ | ⟨rfl, rfl⟩ | ⟨rfl, rfl⟩ <;> simp [spread, field] at hs
  intro name way
  obtain ⟨_, first, -⟩ := Relation.TransGen.head'_iff.mp way
  obtain ⟨_, -, last⟩ := Relation.TransGen.tail'_iff.mp way
  exact (follows first).1 (follows last).2

end Diamond

/-- Both routes to the third fragment are followed in the full tour, and one of them counts. -/
theorem collectFields_reachable_diamond :
    Diamond.scope.Acyclic ∧ ∃ tour full, Diamond.scope.Tours [Diamond.set] true full ∧
      Diamond.scope.taken tour = firsts [] (Diamond.scope.taken full) ∧
      collectFields Diamond.scope [Diamond.set] =
        grouped ((Diamond.scope.taken tour).map Prod.snd) := by
  obtain ⟨-, tour, -, collected, -, -, removed⟩ :=
    collectFields_reachable Diamond.scope [Diamond.set]
  obtain ⟨full, tours, same⟩ := removed Diamond.acyclic
  exact ⟨Diamond.acyclic, tour, full, tours, same, collected⟩

namespace Skipped

/-- `a @skip(if: true)` -/
def field : Ast.Field where
  name := ⟨"a", none⟩
  directives := [⟨⟨"skip", none⟩, [⟨⟨"if", none⟩, .boolean true none, none⟩], none⟩]

/-- `{ a @skip(if: true) }` -/
def set : SelectionSet := ⟨[.field field], none⟩

def scope : SelectionScope := { Diamond.scope with fragments := [] }

end Skipped

/-- A skipped field is not collected, though no fragment at all has to be entered to come to it. -/
theorem skipped_reachable_uncollected :
    Skipped.scope.Reachable (asSelections [Skipped.set]) ⟨none, [0, 0]⟩ (.field Skipped.field) ∧
      collectFields Skipped.scope [Skipped.set] = [] := by
  refine ⟨?_, rfl⟩
  have given : Skipped.scope.Reachable (asSelections [Skipped.set]) ⟨none, [0]⟩
      (.inlineFragment ⟨none, [], Skipped.set, none⟩) := .given List.mem_cons_self
  exact .enter given rfl List.mem_cons_self

end GraphQL
