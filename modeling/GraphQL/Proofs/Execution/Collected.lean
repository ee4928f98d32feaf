import GraphQL.Execution.Collection

/-!
What collecting the fields of selections meets on its way, and what of it is collected.
-/
namespace GraphQL

open Ast TypeSystem

def Ast.Selection.directives : Selection → List Ast.Directive
  | .field f => f.directives
  | .spread s => s.directives
  | .inlineFragment f => f.directives

namespace Entries

variable {α : Type}

theorem keys_modify (entries : Entries α) (key : String) (empty : α) (f : α → α) :
    (entries.modify key empty f).keys =
      if key ∈ entries.keys then entries.keys else entries.keys ++ [key] := by
  induction entries with
  | nil => simp [modify, keys]
  | cons entry rest ih =>
    obtain ⟨k, v⟩ := entry
    by_cases hk : k = key
    · simp [modify, keys, hk]
    · simp only [keys] at ih
      simp only [modify, hk, keys, if_false, List.map_cons, List.mem_cons, Ne.symm hk, false_or, ih]
      split <;> simp_all

theorem get?_modify (entries : Entries α) (key other : String) (empty : α) (change : α → α) :
    (entries.modify key empty change).get? other =
      if key = other then some (change ((entries.get? key).getD empty))
      else entries.get? other := by
  induction entries with
  | nil => simp [modify, get?]
  | cons e rest ih =>
    obtain ⟨k, v⟩ := e
    by_cases hk : k = key
    · subst hk
      by_cases ho : k = other <;> simp [modify, get?, ho]
    · by_cases ho : k = other
      · subst ho
        simp [modify, get?, hk, Ne.symm hk]
      · simp [modify, get?, hk, ho, ih]

/-- Changing what stands under a key, before or after all values are mapped. -/
theorem map_modify {β : Type} (g : α → β) {key : String} {empty : α} {change : α → α}
    {empty' : β} {change' : β → β} (start : g empty = empty')
    (step : ∀ v, g (change v) = change' (g v)) (entries : Entries α) :
    modify (entries.map fun e => (e.1, g e.2)) key empty' change' =
      (entries.modify key empty change).map fun e => (e.1, g e.2) := by
  induction entries with
  | nil => simp [modify, step, start]
  | cons e rest ih =>
    rw [List.map_cons, modify, modify]
    split
    · simp [step]
    · rw [ih, List.map_cons]

theorem nodup_modify {entries : Entries α} (h : entries.keys.Nodup) (key : String) (empty : α)
    (f : α → α) : (entries.modify key empty f).keys.Nodup := by
  rw [keys_modify]
  split
  · exact h
  · rename_i hk
    refine List.nodup_append.mpr ⟨h, by simp, ?_⟩
    intro k hmem k' hk' heq
    rw [List.mem_singleton.mp hk'] at heq
    exact hk (heq ▸ hmem)

theorem forall_modify {P : String × α → Prop} {entries : Entries α} {key : String} {empty : α}
    {f : α → α} (h : ∀ e ∈ entries, P e) (new : P (key, f empty))
    (changed : ∀ v, (key, v) ∈ entries → P (key, f v)) :
    ∀ e ∈ entries.modify key empty f, P e := by
  induction entries with
  | nil => simpa [modify] using new
  | cons entry rest ih =>
    obtain ⟨k, v⟩ := entry
    unfold modify
    split
    · rename_i hk
      subst hk
      intro e he
      rcases List.mem_cons.mp he with rfl | he
      · exact changed v List.mem_cons_self
      · exact h e (List.mem_cons_of_mem _ he)
    · intro e he
      rcases List.mem_cons.mp he with rfl | he
      · exact h _ List.mem_cons_self
      · exact ih (fun e he => h e (List.mem_cons_of_mem _ he))
          (fun v hv => changed v (List.mem_cons_of_mem _ hv)) e he

end Entries

namespace SelectionScope

variable (scope : SelectionScope)

/-- Collecting the fields of the first selections meets the second: one of them that is included,
or one in a fragment that is met and applies. -/
inductive Meets : List Selection → Selection → Prop where
  | here {selections : List Selection} {s : Selection} :
      s ∈ selections → isIncluded s.directives scope.vars = true → Meets selections s
  | inline {selections : List Selection} {f : InlineFragment} {s : Selection} :
      Meets selections (.inlineFragment f) → f.typeCondition.all scope.applies = true →
      Meets f.selectionSet.selections s → Meets selections s
  | spread {selections : List Selection} {t : FragmentSpread} {f : FragmentDefinition}
      {s : Selection} :
      Meets selections (.spread t) → scope.fragments.get? t.name.value = some f →
      scope.applies f.typeCondition = true → Meets f.selectionSet.selections s →
      Meets selections s

variable {scope}

theorem Meets.mono {selections others : List Selection} {s : Selection}
    (h : scope.Meets selections s) (hs : ∀ t ∈ selections, t ∈ others) : scope.Meets others s := by
  induction h with
  | here hmem hi => exact .here (hs _ hmem) hi
  | inline _ ha hin ih _ => exact .inline (ih hs) ha hin
  | spread _ hf ha hin ih _ => exact .spread (ih hs) hf ha hin

end SelectionScope

section

variable {scope : SelectionScope} {follow : FragmentDefinition → Collected → Collected}
  {P : Collected → Prop} {Q : Ast.Field → Prop}

/-- A property of what is collected that neither a fragment nor a field of some kind breaks. -/
structure Collected.Preserves (P : Collected → Prop) (Q : Ast.Field → Prop) : Prop where
  visit : ∀ (c : Collected) (name : String), P c → P { c with visited := name :: c.visited }
  field : ∀ (c : Collected) (f : Ast.Field), Q f → P c → P (c.addField f)

/-- All fields that selections meet are of a kind. -/
def SelectionScope.AllMet (scope : SelectionScope) (Q : Ast.Field → Prop)
    (selections : List Selection) : Prop :=
  ∀ f, scope.Meets selections (.field f) → Q f

theorem collectSpread_preserves (preserves : Collected.Preserves P Q)
    (follows : ∀ f c, scope.AllMet Q f.selectionSet.selections → P c → P (follow f c))
    (s : FragmentSpread) (c : Collected) (all : scope.AllMet Q [.spread s]) (h : P c) :
    P (collectSpread scope follow s c) := by
  unfold collectSpread
  dsimp only
  split
  · exact h
  rename_i hs
  have included : isIncluded s.directives scope.vars = true := by
    simp only [Bool.or_eq_true, Bool.not_eq_true', not_or, Bool.not_eq_false] at hs
    exact hs.2
  have visited := preserves.visit c s.name.value h
  split
  · rename_i f hf
    split
    · rename_i ha
      refine follows f _ (fun g hg => all g ?_) visited
      exact .spread (.here List.mem_cons_self included) hf ha hg
    · exact visited
  · exact visited

mutual

theorem collectSet_preserves (preserves : Collected.Preserves P Q)
    (follows : ∀ f c, scope.AllMet Q f.selectionSet.selections → P c → P (follow f c)) :
    ∀ (set : SelectionSet) (c : Collected), scope.AllMet Q set.selections → P c →
      P (collectSet scope follow set c)
  | ⟨selections, _⟩, c, all, h => by
    rw [collectSet]
    exact collectSelections_preserves preserves follows selections c all h

theorem collectSelections_preserves (preserves : Collected.Preserves P Q)
    (follows : ∀ f c, scope.AllMet Q f.selectionSet.selections → P c → P (follow f c)) :
    ∀ (selections : List Selection) (c : Collected), scope.AllMet Q selections → P c →
      P (collectSelections scope follow selections c)
  | [], c, _, h => by
    rw [collectSelections]
    exact h
  | s :: rest, c, all, h => by
    rw [collectSelections]
    refine collectSelections_preserves preserves follows rest _
      (fun f hf => all f (hf.mono fun _ => List.mem_cons_of_mem _)) ?_
    exact collectSelection_preserves preserves follows s c
      (fun f hf => all f (hf.mono (by simp))) h

theorem collectSelection_preserves (preserves : Collected.Preserves P Q)
    (follows : ∀ f c, scope.AllMet Q f.selectionSet.selections → P c → P (follow f c)) :
    ∀ (s : Selection) (c : Collected), scope.AllMet Q [s] → P c →
      P (collectSelection scope follow s c)
  | .field f, c, all, h => by
    rw [collectSelection]
    split
    · rename_i hi
      exact preserves.field c f (all f (.here List.mem_cons_self hi)) h
    · exact h
  | .spread s, c, all, h => by
    rw [collectSelection]
    exact collectSpread_preserves preserves follows s c all h
  | .inlineFragment f, c, all, h => by
    rw [collectSelection]
    exact collectInline_preserves preserves follows f c all h

theorem collectInline_preserves (preserves : Collected.Preserves P Q)
    (follows : ∀ f c, scope.AllMet Q f.selectionSet.selections → P c → P (follow f c)) :
    ∀ (f : InlineFragment) (c : Collected), scope.AllMet Q [.inlineFragment f] → P c →
      P (collectInline scope follow f c)
  | ⟨condition, directives, selections, loc⟩, c, all, h => by
    rw [collectInline]
    split
    · rename_i hi
      obtain ⟨hi, ha⟩ := Bool.and_eq_true_iff.mp hi
      refine collectSet_preserves preserves follows selections c (fun g hg => all g ?_) h
      exact .inline (.here List.mem_cons_self hi) ha hg
    · exact h

end

theorem collectFragment_preserves (preserves : Collected.Preserves P Q) (depth : Nat)
    (f : FragmentDefinition) (c : Collected)
    (all : scope.AllMet Q f.selectionSet.selections) (h : P c) :
    P (collectFragment scope depth f c) := by
  induction depth generalizing f c with
  | zero => exact h
  | succ depth ih =>
    exact collectSet_preserves preserves (fun g c hg hc => ih g c hg hc) f.selectionSet c all h

theorem collectFields_preserves (scope : SelectionScope)
    (preserves : Collected.Preserves P Q) (start : P {})
    (sets : List SelectionSet) (all : ∀ set ∈ sets, scope.AllMet Q set.selections) :
    ∃ c, P c ∧ c.fields = collectFields scope sets := by
  refine ⟨_, ?_, rfl⟩
  suffices h : ∀ c, P c →
      P (sets.foldl (fun c set =>
        collectSet scope (collectFragment scope scope.fragments.length) set c) c) from h {} start
  induction sets with
  | nil => exact fun c h => h
  | cons set rest ih =>
    intro c h
    refine ih (fun s hs => all s (List.mem_cons_of_mem _ hs)) _ ?_
    exact collectSet_preserves preserves
      (fun f c hf hc => collectFragment_preserves preserves _ f c hf hc) set c
      (all set List.mem_cons_self) h

end

/-- Each response key is collected once. -/
theorem collectFields_keys_nodup (scope : SelectionScope) (sets : List SelectionSet) :
    (collectFields scope sets).keys.Nodup := by
  have preserves : Collected.Preserves (fun c => c.fields.keys.Nodup) fun _ => True :=
    ⟨fun _ _ h => h, fun c f _ h => Entries.nodup_modify h f.responseKey [] _⟩
  obtain ⟨c, h, hc⟩ := collectFields_preserves scope preserves .nil sets
    fun _ _ _ _ => trivial
  exact hc ▸ h

/-- The nodes of a response key: there is one, all of them have that key, and selections meet
them. -/
theorem collectFields_nodes {scope : SelectionScope} {sets : List SelectionSet} {key : String}
    {nodes : List Ast.Field} (h : (key, nodes) ∈ collectFields scope sets) :
    nodes ≠ [] ∧ ∀ f ∈ nodes, f.responseKey = key ∧
      ∃ set ∈ sets, scope.Meets set.selections (.field f) := by
  let Q (f : Ast.Field) : Prop := ∃ set ∈ sets, scope.Meets set.selections (.field f)
  let P (e : String × List Ast.Field) : Prop := e.2 ≠ [] ∧ ∀ f ∈ e.2, f.responseKey = e.1 ∧ Q f
  have preserves : Collected.Preserves (fun c => ∀ e ∈ c.fields, P e) Q := by
    refine ⟨fun _ _ h => h, fun c f hf h => ?_⟩
    refine Entries.forall_modify h ⟨by simp, by simpa using hf⟩ fun v hv => ⟨by simp, ?_⟩
    intro g hg
    rcases List.mem_append.mp hg with hg | hg
    · exact (h _ hv).2 g hg
    · rw [List.mem_singleton.mp hg]
      exact ⟨rfl, hf⟩
  obtain ⟨c, hP, hc⟩ := collectFields_preserves scope preserves (by simp) sets
    fun set hset f hf => ⟨set, hset, hf⟩
  exact hP _ (hc ▸ h)

end GraphQL
