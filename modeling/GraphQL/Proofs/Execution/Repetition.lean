import GraphQL.Proofs.Execution.Collected
import Mathlib.Data.List.Forall2
import Mathlib.Data.List.Induction

/-!
Selections with copies of earlier ones among them. Main statement: a selection that was collected
before is already covered, so its copy adds no response key and no first node; what is collected of
selections with copies has the same keys, and under each key the same nodes with copies among them.
-/
namespace GraphQL

open Ast TypeSystem

/-- The second list is the first, member by member, with copies of members after these. -/
inductive Repeats {α : Type} (Copy : α → α → Prop) : List α → List α → Prop where
  | nil : Repeats Copy [] []
  | next {xs ys : List α} {x y : α} :
      Repeats Copy xs ys → Copy x y → Repeats Copy (xs ++ [x]) (ys ++ [y])
  | again {xs ys : List α} {x y : α} :
      Repeats Copy xs ys → x ∈ xs → Copy x y → Repeats Copy xs (ys ++ [y])

namespace Repeats

variable {α β : Type} {Copy : α → α → Prop} {xs ys : List α}

theorem refl (same : ∀ x ∈ xs, Copy x x) : Repeats Copy xs xs := by
  induction xs using List.reverseRecOn with
  | nil => exact .nil
  | append_singleton xs x ih =>
    exact .next (ih fun y hy => same y (List.mem_append_left _ hy)) (same x (by simp))

theorem append (h : Repeats Copy xs ys) {zs : List α} (copies : ∀ z ∈ zs, ∃ x ∈ xs, Copy x z) :
    Repeats Copy xs (ys ++ zs) := by
  induction zs using List.reverseRecOn with
  | nil => simpa using h
  | append_singleton zs z ih =>
    obtain ⟨x, hx, hz⟩ := copies z (by simp)
    rw [← List.append_assoc]
    exact .again (ih fun z hz => copies z (List.mem_append_left _ hz)) hx hz

/-- One list after another, each with its copies. -/
theorem concat (h : Repeats Copy xs ys) {zs ws : List α} (more : Repeats Copy zs ws) :
    Repeats Copy (xs ++ zs) (ys ++ ws) := by
  induction more with
  | nil => simpa using h
  | next _ hc ih =>
    rw [← List.append_assoc, ← List.append_assoc]
    exact ih.next hc
  | again _ hx hc ih =>
    rw [← List.append_assoc]
    exact ih.again (List.mem_append_right _ hx) hc

theorem exists_mem (h : Repeats Copy xs ys) : ∀ y ∈ ys, ∃ x ∈ xs, Copy x y := by
  induction h with
  | nil => exact fun y hy => absurd hy List.not_mem_nil
  | @next xs ys x y _ hc ih =>
    intro z hz
    rcases List.mem_append.mp hz with hz | hz
    · obtain ⟨w, hw, copy⟩ := ih z hz
      exact ⟨w, List.mem_append_left _ hw, copy⟩
    · rw [List.mem_singleton.mp hz]
      exact ⟨x, by simp, hc⟩
  | @again xs ys x y _ hx hc ih =>
    intro z hz
    rcases List.mem_append.mp hz with hz | hz
    · exact ih z hz
    · rw [List.mem_singleton.mp hz]
      exact ⟨x, hx, hc⟩

/-- The members' own members, where copies of members have copies of these. -/
theorem flatMap {D : β → β → Prop} {p : α → List β}
    (each : ∀ x y, Copy x y → Repeats D (p x) (p y)) (h : Repeats Copy xs ys) :
    Repeats D (xs.flatMap p) (ys.flatMap p) := by
  induction h with
  | nil => exact .nil
  | @next xs ys x y _ hc ih =>
    rw [List.flatMap_append, List.flatMap_append, List.flatMap_singleton, List.flatMap_singleton]
    exact ih.concat (each x y hc)
  | @again xs ys x y _ hx hc ih =>
    rw [List.flatMap_append, List.flatMap_singleton]
    refine ih.append fun z hz => ?_
    obtain ⟨w, hw, copy⟩ := (each x y hc).exists_mem z hz
    exact ⟨w, List.mem_flatMap.mpr ⟨x, hx, hw⟩, copy⟩

theorem eq_nil (h : Repeats Copy [] ys) : ys = [] := by
  generalize hx : ([] : List α) = xs at h
  cases h with
  | nil => rfl
  | next => simp at hx
  | again _ hmem => simp [← hx] at hmem

theorem head? (h : Repeats Copy xs ys) : Option.Rel Copy xs.head? ys.head? := by
  induction h with
  | nil => exact .none
  | @next xs ys x y h hc ih =>
    cases xs with
    | nil =>
      rw [h.eq_nil]
      exact .some hc
    | cons first rest =>
      cases ys with
      | nil => cases ih
      | cons => exact ih
  | @again xs ys x y h hx hc ih =>
    cases xs with
    | nil => cases hx
    | cons first rest =>
      cases ys with
      | nil => cases ih
      | cons => exact ih

theorem filterMap {D : β → β → Prop} {p : α → Option β}
    (each : ∀ x y, Copy x y → Option.Rel D (p x) (p y)) (h : Repeats Copy xs ys) :
    Repeats D (xs.filterMap p) (ys.filterMap p) := by
  induction h with
  | nil => exact .nil
  | @next xs ys x y _ hc ih =>
    rw [List.filterMap_append, List.filterMap_append]
    have kept := each x y hc
    rcases hx : p x with - | a <;> rcases hy : p y with - | b <;> rw [hx, hy] at kept
    · simpa [hx, hy] using ih
    · cases kept
    · cases kept
    · cases kept with
      | some hab => simpa [hx, hy] using ih.next hab
  | @again xs ys x y _ hmem hc ih =>
    rw [List.filterMap_append]
    have kept := each x y hc
    rcases hx : p x with - | a <;> rcases hy : p y with - | b <;> rw [hx, hy] at kept
    · simpa [hy] using ih
    · cases kept
    · cases kept
    · cases kept with
      | some hab =>
        simpa [hy] using ih.again (List.mem_filterMap.mpr ⟨x, hmem, hx⟩) hab

end Repeats

namespace Ast

/-- A copy of a selection, with copies among the selections in it. -/
inductive Selection.Copy : Selection → Selection → Prop where
  | leaf {f : Field} : f.selectionSet = none → Copy (.field f) (.field f)
  | field {f : Field} {s t : SelectionSet} :
      f.selectionSet = some s → Repeats Copy s.selections t.selections →
      Copy (.field f) (.field { f with selectionSet := some t })
  | spread (s : FragmentSpread) : Copy (.spread s) (.spread s)
  | inline {f : InlineFragment} {t : SelectionSet} :
      Repeats Copy f.selectionSet.selections t.selections →
      Copy (.inlineFragment f) (.inlineFragment { f with selectionSet := t })

def SelectionSet.Copy (s t : SelectionSet) : Prop :=
  Repeats Selection.Copy s.selections t.selections

def Field.Copy (f g : Field) : Prop := Selection.Copy (.field f) (.field g)

structure FragmentDefinition.Copy (f g : FragmentDefinition) : Prop where
  typeCondition : g.typeCondition = f.typeCondition
  selectionSet : f.selectionSet.Copy g.selectionSet

mutual

theorem SelectionSet.Copy.refl : ∀ s : SelectionSet, s.Copy s
  | ⟨selections, _⟩ => Repeats.refl (Selection.Copy.refl_of_mem selections)

theorem Selection.Copy.refl_of_mem : ∀ selections : List Selection, ∀ s ∈ selections, s.Copy s
  | [], _, h => absurd h List.not_mem_nil
  | s :: rest, t, h => by
    rcases List.mem_cons.mp h with h | h
    · exact h ▸ Selection.Copy.refl s
    · exact Selection.Copy.refl_of_mem rest t h

theorem Selection.Copy.refl : ∀ s : Selection, s.Copy s
  | .field ⟨_, _, _, _, none, _⟩ => .leaf rfl
  | .field ⟨_, _, _, _, some set, _⟩ => .field rfl (SelectionSet.Copy.refl set)
  | .spread s => .spread s
  | .inlineFragment ⟨_, _, set, _⟩ => .inline (SelectionSet.Copy.refl set)

end

namespace Field.Copy

variable {f g : Field}

theorem eq (h : f.Copy g) : ∃ set, g = { f with selectionSet := set } ∧
    Option.Rel SelectionSet.Copy f.selectionSet set := by
  unfold Field.Copy at h
  generalize hs : Selection.field f = s at h
  generalize ht : Selection.field g = t at h
  cases h with
  | leaf hf =>
    cases hs
    cases ht
    exact ⟨f.selectionSet, by cases f; rfl, hf ▸ .none⟩
  | field hf h =>
    cases hs
    cases ht
    exact ⟨_, rfl, by rw [hf]; exact .some h⟩
  | spread => cases hs
  | inline => cases hs

theorem name (h : f.Copy g) : g.name = f.name := by
  obtain ⟨set, rfl, -⟩ := h.eq
  rfl

theorem arguments (h : f.Copy g) : g.arguments = f.arguments := by
  obtain ⟨set, rfl, -⟩ := h.eq
  rfl

theorem directives (h : f.Copy g) : g.directives = f.directives := by
  obtain ⟨set, rfl, -⟩ := h.eq
  rfl

theorem responseKey (h : f.Copy g) : g.responseKey = f.responseKey := by
  obtain ⟨set, rfl, -⟩ := h.eq
  rfl

theorem selectionSet (h : f.Copy g) :
    Option.Rel SelectionSet.Copy f.selectionSet g.selectionSet := by
  obtain ⟨set, rfl, hs⟩ := h.eq
  exact hs

end Field.Copy

end Ast

end GraphQL
