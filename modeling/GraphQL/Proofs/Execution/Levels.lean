import GraphQL.Proofs.Execution.Collected
import GraphQL.Validation.Fragments
import Mathlib.Logic.Relation

/-!
How deep selections ask for fields within fields when fragments are followed. The bound counts the
levels of a selection set and of every fragment that can be reached from it; each field of a
collected selection set is one level closer to the leaves, as long as no fragment is spread again
within one of its own fields.
-/
namespace GraphQL

open Ast Validation

mutual

/-- How deep fields nest in a selection set; the fragments that it spreads do not count. -/
def levelsOf : SelectionSet → Nat
  | ⟨selections, _⟩ => selectionsLevels selections

def selectionsLevels : List Selection → Nat
  | [] => 0
  | s :: rest => max (selectionLevels s) (selectionsLevels rest)

def selectionLevels : Selection → Nat
  | .field f => fieldLevels f
  | .spread _ => 0
  | .inlineFragment f => inlineLevels f

def fieldLevels : Field → Nat
  | ⟨_, _, _, _, selectionSet, _⟩ => optionalLevels selectionSet + 1

def inlineLevels : InlineFragment → Nat
  | ⟨_, _, selectionSet, _⟩ => levelsOf selectionSet

def optionalLevels : Option SelectionSet → Nat
  | none => 0
  | some selectionSet => levelsOf selectionSet

end

def totalLevels : List SelectionSet → Nat
  | [] => 0
  | set :: rest => levelsOf set + totalLevels rest

def fragmentSets (fragments : Entries FragmentDefinition) : List SelectionSet :=
  fragments.map (·.2.selectionSet)

/-- The levels of all operations and fragments of a document. -/
def Ast.Document.levels (document : Document) : Nat :=
  totalLevels (document.operations.map (·.selectionSet)) +
    totalLevels (fragmentSets (fragmentTable document))

section Graph

variable (fragments : Entries FragmentDefinition)

/-- A selection is one of others, or one in an inline fragment among them. -/
inductive Occurs (s : Selection) : List Selection → Prop where
  | here {selections : List Selection} : s ∈ selections → Occurs s selections
  | inline {selections : List Selection} {f : InlineFragment} :
      .inlineFragment f ∈ selections → Occurs s f.selectionSet.selections → Occurs s selections

/-- The first fragment spreads the second, at any depth. -/
def Spreads (name other : String) : Prop :=
  ∃ f, fragments.get? name = some f ∧ other ∈ spreadsOf f.selectionSet

/-- The first fragment spreads the second within one of its fields. -/
def Nests (name other : String) : Prop :=
  ∃ f g set, fragments.get? name = some f ∧ Occurs (.field g) f.selectionSet.selections ∧
    g.selectionSet = some set ∧ other ∈ spreadsOf set

/-- Some fragment is spread within one of its own fields, directly or through other fragments. -/
def SelfNested : Prop :=
  ∃ name other, Nests fragments name other ∧
    Relation.ReflTransGen (Spreads fragments) other name

/-- Following spreads from one of the first names leads to the second. -/
def Reaches (names : List String) (name : String) : Prop :=
  ∃ first ∈ names, Relation.ReflTransGen (Spreads fragments) first name

/-- Collecting fields of the selections, and of those of their fields in turn, goes down at most
`n` levels: theirs and those of fragments that cover all that they reach. -/
def Within (n : Nat) (selections : List Selection) : Prop :=
  ∃ rest : Entries FragmentDefinition,
    (∀ name f, Reaches fragments (selectionsSpreads selections) name →
      fragments.get? name = some f → (name, f) ∈ rest) ∧
    selectionsLevels selections + totalLevels (fragmentSets rest) ≤ n

end Graph

theorem levelsOf_eq (set : SelectionSet) : levelsOf set = selectionsLevels set.selections := by
  obtain ⟨selections, loc⟩ := set
  rw [levelsOf]

theorem spreadsOf_eq (set : SelectionSet) : spreadsOf set = selectionsSpreads set.selections := by
  obtain ⟨selections, loc⟩ := set
  rw [spreadsOf]

theorem inlineLevels_eq (f : InlineFragment) :
    inlineLevels f = selectionsLevels f.selectionSet.selections := by
  obtain ⟨condition, directives, set, loc⟩ := f
  rw [inlineLevels, levelsOf_eq]

theorem inlineSpreads_eq (f : InlineFragment) :
    inlineSpreads f = selectionsSpreads f.selectionSet.selections := by
  obtain ⟨condition, directives, set, loc⟩ := f
  rw [inlineSpreads, spreadsOf_eq]

theorem levelsOf_of_field {f : Field} {set : SelectionSet} (h : f.selectionSet = some set) :
    fieldLevels f = levelsOf set + 1 := by
  obtain ⟨aliasName, name, arguments, directives, selectionSet, loc⟩ := f
  obtain rfl : selectionSet = some set := h
  rw [fieldLevels, optionalLevels]

theorem spreadsOf_of_field {f : Field} {set : SelectionSet} (h : f.selectionSet = some set) :
    fieldSpreads f = spreadsOf set := by
  obtain ⟨aliasName, name, arguments, directives, selectionSet, loc⟩ := f
  obtain rfl : selectionSet = some set := h
  rw [fieldSpreads, optionalSpreads]

theorem fieldLevels_pos (f : Field) : 0 < fieldLevels f := by
  obtain ⟨aliasName, name, arguments, directives, selectionSet, loc⟩ := f
  rw [fieldLevels]
  omega

theorem selectionLevels_le {s : Selection} {selections : List Selection} (h : s ∈ selections) :
    selectionLevels s ≤ selectionsLevels selections := by
  induction selections with
  | nil => cases h
  | cons t rest ih =>
    rw [selectionsLevels]
    rcases List.mem_cons.mp h with rfl | h
    · exact Nat.le_max_left ..
    · exact Nat.le_trans (ih h) (Nat.le_max_right ..)

theorem mem_selectionsSpreads {selections : List Selection} {name : String} :
    name ∈ selectionsSpreads selections ↔ ∃ s ∈ selections, name ∈ selectionSpreads s := by
  induction selections with
  | nil => simp [selectionsSpreads]
  | cons s rest ih => simp [selectionsSpreads, ih]

namespace Occurs

variable {s : Selection} {selections : List Selection}

theorem trans {f : InlineFragment} (outer : Occurs (.inlineFragment f) selections)
    (inner : Occurs s f.selectionSet.selections) : Occurs s selections := by
  induction outer with
  | here h => exact .inline h inner
  | inline h _ ih => exact .inline h ih

theorem levels_le (h : Occurs s selections) : selectionLevels s ≤ selectionsLevels selections := by
  induction h with
  | here h => exact selectionLevels_le h
  | @inline selections f h _ ih =>
    have outer := selectionLevels_le h
    rw [selectionLevels, inlineLevels_eq] at outer
    exact Nat.le_trans ih outer

theorem spreads (h : Occurs s selections) {name : String} (hn : name ∈ selectionSpreads s) :
    name ∈ selectionsSpreads selections := by
  induction h with
  | here h => exact mem_selectionsSpreads.mpr ⟨s, h, hn⟩
  | @inline selections f h _ ih =>
    refine mem_selectionsSpreads.mpr ⟨.inlineFragment f, h, ?_⟩
    rw [selectionSpreads, inlineSpreads_eq]
    exact ih

end Occurs

section Graph

variable {fragments : Entries FragmentDefinition}

theorem Reaches.trans {names others : List String} {name : String}
    (h : Reaches fragments names name) (each : ∀ n ∈ names, Reaches fragments others n) :
    Reaches fragments others name := by
  obtain ⟨first, hf, way⟩ := h
  obtain ⟨earlier, he, before⟩ := each first hf
  exact ⟨earlier, he, before.trans way⟩

theorem Reaches.here {names : List String} {name : String} (h : name ∈ names) :
    Reaches fragments names name :=
  ⟨name, h, .refl⟩

theorem Reaches.spread {names : List String} {name other : String} {f : FragmentDefinition}
    (h : Reaches fragments names name) (hf : fragments.get? name = some f)
    (ho : other ∈ spreadsOf f.selectionSet) : Reaches fragments names other := by
  obtain ⟨first, hfirst, way⟩ := h
  exact ⟨first, hfirst, way.tail ⟨f, hf, ho⟩⟩

/-- What collecting meets occurs in the selections themselves or in a fragment that they reach. -/
theorem SelectionScope.Meets.occurs {scope : SelectionScope} {selections : List Selection}
    {s : Selection} (h : scope.Meets selections s) :
    Occurs s selections ∨ ∃ name f, Reaches scope.fragments (selectionsSpreads selections) name ∧
      scope.fragments.get? name = some f ∧ Occurs s f.selectionSet.selections := by
  -- selections that occur in the first ones reach no more than these
  have widen {selections others : List Selection} {s : Selection}
      (reached : ∀ n ∈ selectionsSpreads selections,
        Reaches scope.fragments (selectionsSpreads others) n)
      (h : ∃ name f, Reaches scope.fragments (selectionsSpreads selections) name ∧
        scope.fragments.get? name = some f ∧ Occurs s f.selectionSet.selections) :
      ∃ name f, Reaches scope.fragments (selectionsSpreads others) name ∧
        scope.fragments.get? name = some f ∧ Occurs s f.selectionSet.selections := by
    obtain ⟨name, f, hr, hf, ho⟩ := h
    exact ⟨name, f, hr.trans reached, hf, ho⟩
  induction h with
  | here h _ => exact .inl (.here h)
  | @inline selections f s _ _ _ outer inner =>
    rcases outer with outer | ⟨name, g, hr, hg, outer⟩
    · rcases inner with inner | inner
      · exact .inl (outer.trans inner)
      · refine .inr (widen ?_ inner)
        intro n hn
        apply Reaches.here
        apply outer.spreads
        rwa [selectionSpreads, inlineSpreads_eq]
    · rcases inner with inner | inner
      · exact .inr ⟨name, g, hr, hg, outer.trans inner⟩
      · refine .inr (widen ?_ inner)
        intro n hn
        apply hr.spread hg
        rw [spreadsOf_eq]
        apply outer.spreads
        rwa [selectionSpreads, inlineSpreads_eq]
  | @spread selections t f s _ hf _ _ outer inner =>
    have named : t.name.value ∈ selectionSpreads (.spread t) := by simp [selectionSpreads]
    have reached : Reaches scope.fragments (selectionsSpreads selections) t.name.value := by
      rcases outer with outer | ⟨name, g, hr, hg, outer⟩
      · exact .here (outer.spreads named)
      · apply hr.spread hg
        rw [spreadsOf_eq]
        exact outer.spreads named
    rcases inner with inner | inner
    · exact .inr ⟨_, f, reached, hf, inner⟩
    · refine .inr (widen ?_ inner)
      intro n hn
      apply reached.spread hf
      rwa [spreadsOf_eq]

theorem levelsOf_le_total {set : SelectionSet} {sets : List SelectionSet} (h : set ∈ sets) :
    levelsOf set ≤ totalLevels sets := by
  induction sets with
  | nil => cases h
  | cons first rest ih =>
    rw [totalLevels]
    rcases List.mem_cons.mp h with rfl | h
    · omega
    · have later := ih h
      omega

theorem totalLevels_sublist {sets others : List SelectionSet} (h : sets.Sublist others) :
    totalLevels sets ≤ totalLevels others := by
  induction h with
  | slnil => exact Nat.le_refl _
  | cons set _ ih =>
    rw [totalLevels]
    omega
  | cons_cons set _ ih =>
    rw [totalLevels, totalLevels]
    omega

/-- Without the fragments of a name there are fewer levels. -/
theorem totalLevels_filter {rest : Entries FragmentDefinition} {name : String}
    {f : FragmentDefinition} (h : (name, f) ∈ rest) :
    totalLevels (fragmentSets (rest.filter (·.1 ≠ name))) + levelsOf f.selectionSet ≤
      totalLevels (fragmentSets rest) := by
  induction rest with
  | nil => cases h
  | cons entry rest ih =>
    have split (entries : Entries FragmentDefinition) :
        totalLevels (fragmentSets (entry :: entries)) =
          levelsOf entry.2.selectionSet + totalLevels (fragmentSets entries) := rfl
    rw [split]
    rcases List.mem_cons.mp h with rfl | h
    · have fewer := totalLevels_sublist
        ((List.filter_sublist (p := fun e => decide (e.1 ≠ name)) (l := rest)).map (·.2.selectionSet))
      change totalLevels (fragmentSets _) ≤ totalLevels (fragmentSets _) at fewer
      rw [List.filter_cons_of_neg (by simp)]
      dsimp only
      omega
    · have shorter := ih h
      by_cases hn : entry.1 = name
      · rw [List.filter_cons_of_neg (by simpa using hn)]
        omega
      · rw [List.filter_cons_of_pos (by simpa using hn), split]
        omega

theorem within_total (fragments : Entries FragmentDefinition) (selections : List Selection) :
    Within fragments (selectionsLevels selections + totalLevels (fragmentSets fragments))
      selections :=
  ⟨fragments, fun _ _ _ hf => Entries.mem_of_get? hf, Nat.le_refl _⟩

theorem Within.mono {n m : Nat} {selections : List Selection} (h : Within fragments n selections)
    (hnm : n ≤ m) : Within fragments m selections := by
  obtain ⟨rest, covers, hn⟩ := h
  exact ⟨rest, covers, Nat.le_trans hn hnm⟩

theorem Within.of_meets {scope : SelectionScope} (unnested : ¬ SelfNested scope.fragments)
    {n : Nat} {selections : List Selection} (h : Within scope.fragments n selections)
    {f : Field} (meets : scope.Meets selections (.field f)) :
    0 < n ∧ ∀ set, f.selectionSet = some set →
      Within scope.fragments (n - 1) set.selections := by
  obtain ⟨rest, covers, bound⟩ := h
  have pos := fieldLevels_pos f
  rcases meets.occurs with occurs | ⟨name, g, reached, hg, occurs⟩
  · have levels := occurs.levels_le
    rw [selectionLevels] at levels
    refine ⟨by omega, ?_⟩
    intro set hset
    refine ⟨rest, ?_, ?_⟩
    · intro other k hr hk
      apply covers other k _ hk
      apply hr.trans
      intro first hfirst
      apply Reaches.here
      apply occurs.spreads
      rwa [selectionSpreads, spreadsOf_of_field hset, spreadsOf_eq]
    · rw [levelsOf_of_field hset, levelsOf_eq] at levels
      omega
  · have levels := occurs.levels_le
    rw [selectionLevels, ← levelsOf_eq] at levels
    have total := totalLevels_filter (covers name g reached hg)
    refine ⟨by omega, ?_⟩
    intro set hset
    -- the fragment of the field is not reached again from within the field
    refine ⟨rest.filter (·.1 ≠ name), ?_, ?_⟩
    · intro other k hr hk
      have nested : other ≠ name := by
        rintro rfl
        obtain ⟨first, hfirst, way⟩ := hr
        rw [← spreadsOf_eq] at hfirst
        exact unnested ⟨other, first, ⟨g, f, set, hg, occurs, hset, hfirst⟩, way⟩
      have remains : (other, k) ∈ rest := by
        apply covers other k _ hk
        apply hr.trans
        intro first hfirst
        apply reached.spread hg
        rw [spreadsOf_eq]
        apply occurs.spreads
        rwa [selectionSpreads, spreadsOf_of_field hset, spreadsOf_eq]
      exact List.mem_filter.mpr ⟨remains, by simpa using nested⟩
    · rw [levelsOf_of_field hset, levelsOf_eq] at levels
      omega

end Graph

end GraphQL
