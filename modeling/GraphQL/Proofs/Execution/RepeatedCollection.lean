import GraphQL.Proofs.Execution.Repetition
import GraphQL.Proofs.Input.Filling

/-!
Collecting the fields of selections with copies among them. Main statement: a selection that was
collected is covered, so that its copy adds neither a response key nor a first node; what is
collected has the same keys, and under each key the same nodes with copies among them.
-/
namespace GraphQL

open Ast TypeSystem

namespace Entries.Related

variable {α β : Type} {R : String → α → β → Prop} {first : Entries α} {second : Entries β}

theorem modify (h : Related R first second) (key : String) {empty : α} {empty' : β}
    {change : α → α} {change' : β → β} (start : R key (change empty) (change' empty'))
    (step : ∀ v w, R key v w → R key (change v) (change' w)) :
    Related R (first.modify key empty change) (second.modify key empty' change') := by
  induction h with
  | nil => exact .cons ⟨rfl, start⟩ .nil
  | @cons e d first second he rest ih =>
    rw [Entries.modify, Entries.modify, ← he.1]
    split
    · rename_i hk
      exact .cons ⟨rfl, hk ▸ step _ _ (hk ▸ he.2)⟩ rest
    · exact .cons ⟨rfl, he.2⟩ ih

theorem modify_right (h : Related R first second) {key : String} {v : α} {empty' : β}
    {change' : β → β} (present : first.get? key = some v)
    (step : ∀ w, R key v w → R key v (change' w)) :
    Related R first (second.modify key empty' change') := by
  induction h with
  | nil => cases present
  | @cons e d first second he rest ih =>
    rw [Entries.get?] at present
    rw [Entries.modify, ← he.1]
    split
    · rename_i hk
      rw [if_pos hk] at present
      cases present
      exact .cons ⟨rfl, hk ▸ step _ (hk ▸ he.2)⟩ rest
    · rename_i hk
      rw [if_neg hk] at present
      exact .cons ⟨rfl, he.2⟩ (ih present)

theorem rel_get? (h : Related R first second) (key : String) :
    Option.Rel (R key) (first.get? key) (second.get? key) := by
  induction h with
  | nil => exact .none
  | @cons e d first second he rest ih =>
    rw [Entries.get?, Entries.get?, ← he.1]
    split
    · rename_i hk
      exact .some (hk ▸ he.2)
    · exact ih

end Entries.Related

namespace Collected

def nodes (c : Collected) (key : String) : List Ast.Field := (c.fields.get? key).getD []

theorem nodes_addField (c : Collected) (f : Ast.Field) (key : String) :
    (c.addField f).nodes key =
      if f.responseKey = key then c.nodes key ++ [f] else c.nodes key := by
  unfold nodes addField
  rw [Entries.get?_modify]
  split
  · rename_i h
    rw [h]
    rfl
  · rfl

/-- All that is collected in the first is collected in the second. -/
structure Within (c d : Collected) : Prop where
  visited : ∀ name ∈ c.visited, name ∈ d.visited
  nodes : ∀ key, ∀ f ∈ c.nodes key, f ∈ d.nodes key

theorem Within.refl (c : Collected) : c.Within c := ⟨fun _ h => h, fun _ _ h => h⟩

theorem preserves_within (c : Collected) : Collected.Preserves (c.Within ·) fun _ => True where
  visit _ _ h := ⟨fun n hn => List.mem_cons_of_mem _ (h.visited n hn), h.nodes⟩
  field d f _ h := by
    refine ⟨h.visited, fun key g hg => ?_⟩
    rw [nodes_addField]
    split
    · exact List.mem_append_left _ (h.nodes key g hg)
    · exact h.nodes key g hg

end Collected

namespace SelectionScope

variable (scope : SelectionScope)

/-- Nothing that the selection asks for itself is missing; a fragment that it spreads was met. -/
inductive Covers (c : Collected) : Selection → Prop where
  | skipped {s : Selection} : isIncluded s.directives scope.vars = false → Covers c s
  | field {f : Ast.Field} : f ∈ c.nodes f.responseKey → Covers c (.field f)
  | spread {s : FragmentSpread} : s.name.value ∈ c.visited → Covers c (.spread s)
  | apart {f : InlineFragment} :
      f.typeCondition.all scope.applies = false → Covers c (.inlineFragment f)
  | inline {f : InlineFragment} :
      (∀ s ∈ f.selectionSet.selections, Covers c s) → Covers c (.inlineFragment f)

variable {scope}

theorem Covers.mono {c d : Collected} (within : c.Within d) {s : Selection}
    (h : scope.Covers c s) : scope.Covers d s := by
  induction h with
  | skipped h => exact .skipped h
  | field h => exact .field (within.nodes _ _ h)
  | spread h => exact .spread (within.visited _ h)
  | apart h => exact .apart h
  | inline _ ih => exact .inline ih

end SelectionScope

/-- The first follows fragments without taking away what is collected. -/
def Widens (follow : FragmentDefinition → Collected → Collected) : Prop :=
  ∀ f (c d : Collected), c.Within d → c.Within (follow f d)

section

variable {scope : SelectionScope} {follow : FragmentDefinition → Collected → Collected}

theorem within_collectSelections (widens : Widens follow) (selections : List Selection)
    (c : Collected) : c.Within (collectSelections scope follow selections c) :=
  collectSelections_preserves c.preserves_within (fun f d _ h => widens f c d h) selections c
    (fun _ _ => trivial) (.refl c)

theorem collectFragment_widens (scope : SelectionScope) (depth : Nat) :
    Widens (collectFragment scope depth) := fun f c d h =>
  collectFragment_preserves c.preserves_within depth f d (fun _ _ => trivial) h

mutual

theorem covers_collectSelection (widens : Widens follow) : ∀ (s : Selection) (c : Collected),
    scope.Covers (collectSelection scope follow s c) s
  | .field f, c => by
    rw [collectSelection]
    split
    · exact .field (by simp [Collected.nodes_addField])
    · rename_i h
      exact .skipped (Bool.eq_false_iff.mpr h)
  | .spread s, c => by
    rw [collectSelection, collectSpread]
    dsimp only
    split
    · rename_i h
      rcases Bool.or_eq_true_iff.mp h with h | h
      · exact .spread (by simpa using h)
      · exact .skipped ((Bool.not_eq_true' _).mp h)
    · have met : s.name.value ∈ s.name.value :: c.visited := List.mem_cons_self
      split
      · split
        · rename_i f _ _
          exact .spread ((widens f _ _ (.refl _)).visited _ met)
        · exact .spread met
      · exact .spread met
  | .inlineFragment ⟨condition, directives, ⟨selections, loc⟩, loc'⟩, c => by
    rw [collectSelection, collectInline]
    split
    · rw [collectSet]
      exact .inline (covers_collectSelections widens selections c)
    · rename_i h
      rcases Bool.and_eq_false_iff.mp (Bool.eq_false_iff.mpr h) with h | h
      · exact .skipped h
      · exact .apart h

theorem covers_collectSelections (widens : Widens follow) :
    ∀ (selections : List Selection) (c : Collected), ∀ s ∈ selections,
      scope.Covers (collectSelections scope follow selections c) s
  | [], _, _, h => absurd h List.not_mem_nil
  | s :: rest, c, t, h => by
    rw [collectSelections]
    rcases List.mem_cons.mp h with h | h
    · rw [h]
      exact (covers_collectSelection widens s c).mono (within_collectSelections widens rest _)
    · exact covers_collectSelections widens rest _ t h

end

end

/-- What is collected of selections with copies among them: the same fragments are met, and copies
stand among the nodes only. -/
structure Collected.Copy (c d : Collected) : Prop where
  visited : d.visited = c.visited
  fields : Entries.Related (fun _ => Repeats Field.Copy) c.fields d.fields

namespace Collected.Copy

variable {c d : Collected} {f g : Ast.Field}

theorem addField (h : c.Copy d) (copy : f.Copy g) : (c.addField f).Copy (d.addField g) where
  visited := h.visited
  fields := by
    unfold Collected.addField
    rw [copy.responseKey]
    exact h.fields.modify f.responseKey (Repeats.nil.next copy) fun _ _ nodes => nodes.next copy

theorem addField_again (h : c.Copy d) (present : f ∈ c.nodes f.responseKey) (copy : f.Copy g) :
    c.Copy (d.addField g) where
  visited := h.visited
  fields := by
    unfold Collected.addField
    rw [copy.responseKey]
    unfold nodes at present
    cases found : c.fields.get? f.responseKey with
    | none => simp [found] at present
    | some nodes =>
      rw [found, Option.getD_some] at present
      exact h.fields.modify_right found fun _ same => same.again present copy

end Collected.Copy

section

variable {scope : SelectionScope} {fragments : Entries FragmentDefinition}
  {follow other : FragmentDefinition → Collected → Collected}

theorem collectSelections_append (first second : List Selection) (c : Collected) :
    collectSelections scope follow (first ++ second) c =
      collectSelections scope follow second (collectSelections scope follow first c) := by
  induction first generalizing c with
  | nil => rw [List.nil_append, collectSelections]
  | cons s first ih => rw [List.cons_append, collectSelections, collectSelections, ih]

theorem collectSelections_singleton (s : Selection) (c : Collected) :
    collectSelections scope follow [s] c = collectSelection scope follow s c := by
  rw [collectSelections, collectSelections]

theorem collectField_again {f g : Ast.Field} (copy : f.Copy g) {c d : Collected}
    (covers : scope.Covers c (.field f)) (h : c.Copy d) :
    c.Copy (collectSelection { scope with fragments } other (.field g) d) := by
  rw [collectSelection, copy.directives]
  split
  · rename_i included
    cases covers with
    | skipped skipped => exact absurd included (Bool.eq_false_iff.mp skipped)
    | field present => exact h.addField_again present copy
  · exact h

mutual

/-- Nothing but copies of nodes comes of a copy of a selection that is covered. -/
theorem collectSelection_again {s t : Selection} (copy : s.Copy t) : ∀ c d : Collected,
    scope.Covers c s → c.Copy d →
      c.Copy (collectSelection { scope with fragments } other t d) :=
  match copy with
  | .leaf hf => fun c d covers h => collectField_again (.leaf hf) covers h
  | .field hf inner => fun c d covers h => collectField_again (.field hf inner) covers h
  | .spread s => fun c d covers h => by
    rw [collectSelection, collectSpread]
    dsimp only
    have skip :
        (d.visited.contains s.name.value || !isIncluded s.directives scope.vars) = true := by
      rw [h.visited]
      cases covers with
      | skipped skipped =>
        have skipped : isIncluded s.directives scope.vars = false := skipped
        simp [skipped]
      | spread met => simp [met]
    rw [if_pos skip]
    exact h
  | @Selection.Copy.inline ⟨condition, directives, ⟨selections, loc⟩, loc'⟩ ⟨copies, loc''⟩ inner =>
      fun c d covers h => by
    rw [collectSelection, collectInline]
    split
    · rename_i taken
      obtain ⟨included, applies⟩ := Bool.and_eq_true_iff.mp taken
      rw [collectSet]
      cases covers with
      | skipped skipped => exact absurd included (Bool.eq_false_iff.mp skipped)
      | apart apart => exact absurd applies (Bool.eq_false_iff.mp apart)
      | inline covers => exact collectSelections_again inner c d covers h
    · exact h

theorem collectSelections_again {ss ts : List Selection} (copies : Repeats Selection.Copy ss ts) :
    ∀ c d : Collected, (∀ s ∈ ss, scope.Covers c s) → c.Copy d →
      c.Copy (collectSelections { scope with fragments } other ts d) :=
  match copies with
  | .nil => fun c d _ h => by
    rw [collectSelections]
    exact h
  | .next before copy => fun c d covers h => by
    rw [collectSelections_append, collectSelections_singleton]
    exact collectSelection_again copy c _ (covers _ (by simp))
      (collectSelections_again before c d (fun s hs => covers s (List.mem_append_left _ hs)) h)
  | .again before hs copy => fun c d covers h => by
    rw [collectSelections_append, collectSelections_singleton]
    exact collectSelection_again copy c _ (covers _ hs)
      (collectSelections_again before c d covers h)

end

/-- The second table has copies of the fragments, and these are followed by the second function as
the fragments are by the first. -/
structure FollowsCopies (table fragments : Entries FragmentDefinition)
    (follow other : FragmentDefinition → Collected → Collected) : Prop where
  tables : Entries.Related (fun _ => FragmentDefinition.Copy) table fragments
  follows : ∀ f g, f.Copy g → ∀ c d : Collected, c.Copy d → (follow f c).Copy (other g d)
  widens : Widens follow

theorem collectSpread_copy (same : FollowsCopies scope.fragments fragments follow other)
    (s : FragmentSpread) {c d : Collected} (h : c.Copy d) :
    (collectSpread scope follow s c).Copy (collectSpread { scope with fragments } other s d) := by
  have visit : Collected.Copy { c with visited := s.name.value :: c.visited }
      { d with visited := s.name.value :: d.visited } :=
    ⟨congrArg (s.name.value :: ·) h.visited, h.fields⟩
  have found := same.tables.rel_get? s.name.value
  unfold collectSpread
  dsimp only
  rw [h.visited] at visit ⊢
  split
  · exact h
  generalize scope.fragments.get? s.name.value = first at found ⊢
  generalize fragments.get? s.name.value = second at found ⊢
  cases found with
  | none => exact visit
  | @some f g copy =>
    have applies : SelectionScope.applies { scope with fragments } g.typeCondition =
        scope.applies f.typeCondition := by
      rw [copy.typeCondition]
      rfl
    dsimp only
    rw [applies]
    split
    · exact same.follows f g copy _ _ visit
    · exact visit

mutual

theorem collectSelection_copy (same : FollowsCopies scope.fragments fragments follow other)
    {s t : Selection}
    (copy : s.Copy t) : ∀ c d : Collected, c.Copy d →
      (collectSelection scope follow s c).Copy
        (collectSelection { scope with fragments } other t d) :=
  match copy with
  | .leaf hf => fun c d h => by
    rw [collectSelection, collectSelection]
    dsimp only
    split
    · exact h.addField (.leaf hf)
    · exact h
  | .field hf inner => fun c d h => by
    rw [collectSelection, collectSelection]
    dsimp only
    split
    · exact h.addField (.field hf inner)
    · exact h
  | .spread s => fun c d h => by
    rw [collectSelection, collectSelection]
    exact collectSpread_copy same s h
  | @Selection.Copy.inline ⟨condition, directives, ⟨selections, loc⟩, loc'⟩ ⟨copies, loc''⟩ inner =>
      fun c d h => by
    rw [collectSelection, collectSelection, collectInline, collectInline, collectSet, collectSet]
    have applies : condition.all (SelectionScope.applies { scope with fragments }) =
        condition.all scope.applies := rfl
    dsimp only
    rw [applies]
    split
    · exact collectSelections_copy same inner c d h
    · exact h

/-- Selections with copies among them are collected as they are without. -/
theorem collectSelections_copy (same : FollowsCopies scope.fragments fragments follow other)
    {ss ts : List Selection}
    (copies : Repeats Selection.Copy ss ts) : ∀ c d : Collected, c.Copy d →
      (collectSelections scope follow ss c).Copy
        (collectSelections { scope with fragments } other ts d) :=
  match copies with
  | .nil => fun c d h => by
    rw [collectSelections, collectSelections]
    exact h
  | .next before copy => fun c d h => by
    rw [collectSelections_append, collectSelections_append, collectSelections_singleton,
      collectSelections_singleton]
    exact collectSelection_copy same copy _ _
      (collectSelections_copy same before c d h)
  | .again before hs copy => fun c d h => by
    rw [collectSelections_append, collectSelections_singleton]
    exact collectSelection_again copy _ _ (covers_collectSelections same.widens _ c _ hs)
      (collectSelections_copy same before c d h)

end

theorem collectSet_copy (same : FollowsCopies scope.fragments fragments follow other)
    {s t : SelectionSet}
    (copy : s.Copy t) {c d : Collected} (h : c.Copy d) :
    (collectSet scope follow s c).Copy (collectSet { scope with fragments } other t d) := by
  obtain ⟨ss, loc⟩ := s
  obtain ⟨ts, loc'⟩ := t
  rw [collectSet, collectSet]
  exact collectSelections_copy same copy c d h

theorem collectFragment_copy
    (tables : Entries.Related (fun _ => FragmentDefinition.Copy) scope.fragments fragments) (depth : Nat) :
    FollowsCopies scope.fragments fragments (collectFragment scope depth)
      (collectFragment { scope with fragments } depth) := by
  refine ⟨tables, ?_, collectFragment_widens scope depth⟩
  induction depth with
  | zero => exact fun _ _ _ _ _ h => h
  | succ depth ih =>
    exact fun f g copy c d h =>
      collectSet_copy ⟨tables, ih, collectFragment_widens scope depth⟩ copy.selectionSet h

theorem foldl_collectSet (sets : List SelectionSet) (c : Collected) :
    sets.foldl (fun c set => collectSet scope follow set c) c =
      collectSelections scope follow (sets.flatMap (·.selections)) c := by
  induction sets generalizing c with
  | nil => rw [List.foldl_nil, List.flatMap_nil, collectSelections]
  | cons set sets ih =>
    obtain ⟨selections, loc⟩ := set
    rw [List.foldl_cons, List.flatMap_cons, collectSelections_append, collectSet, ih]

/-- Of sets with copies among them the same keys are collected, in the same order, and under each
key the same nodes with copies among them. -/
theorem collectFields_copy
    (tables : Entries.Related (fun _ => FragmentDefinition.Copy) scope.fragments fragments)
    {sets others : List SelectionSet} (copies : Repeats SelectionSet.Copy sets others) :
    Entries.Related (fun _ => Repeats Field.Copy) (collectFields scope sets)
      (collectFields { scope with fragments } others) := by
  have selections : Repeats Selection.Copy (sets.flatMap (·.selections))
      (others.flatMap (·.selections)) := copies.flatMap fun _ _ copy => copy
  have all := collectSelections_copy (collectFragment_copy tables scope.fragments.length)
    selections {} {} ⟨rfl, .nil⟩
  unfold collectFields
  dsimp only
  rw [foldl_collectSet, foldl_collectSet, ← tables.length_eq]
  exact all.fields

end

end GraphQL
