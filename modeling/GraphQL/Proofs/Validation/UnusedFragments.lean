import GraphQL.Proofs.Execution.Levels
import GraphQL.Proofs.Validation.Known

/-!
Fragments that are used. Main statement: the rule on unused fragments reports the definitions whose
names are not used, in their order, where what is used is spread in an operation, or in the first
fragment of a name that is used.
-/
namespace GraphQL

open Ast Validation

/-- The name is spread at some depth of the selection set; fragments that it spreads do not count. -/
inductive Ast.SelectionSet.SpreadsName (name : String) : SelectionSet → Prop where
  | spread {set : SelectionSet} {s : FragmentSpread} :
      .spread s ∈ set.selections → s.name.value = name → SpreadsName name set
  | field {set inner : SelectionSet} {f : Field} :
      .field f ∈ set.selections → f.selectionSet = some inner → SpreadsName name inner →
      SpreadsName name set
  | inlineFragment {set : SelectionSet} {f : InlineFragment} :
      .inlineFragment f ∈ set.selections → SpreadsName name f.selectionSet → SpreadsName name set

/-- The first fragment of the name. -/
def firstOf (fragments : List FragmentDefinition) (name : String) : Option FragmentDefinition :=
  fragments.find? (·.name.value = name)

/-- The least set with the names that are spread in operations and, with each name, the names that
are spread in its first fragment. -/
inductive Ast.Document.Uses (document : Document) : String → Prop where
  | operation {o : OperationDefinition} {name : String} :
      o ∈ document.operations → o.selectionSet.SpreadsName name → Uses document name
  | fragment {name other : String} {f : FragmentDefinition} :
      Uses document name → firstOf document.fragments name = some f →
      f.selectionSet.SpreadsName other → Uses document other

namespace Validation

theorem mem_spreadsOf_of_spreadsName {name : String} {set : SelectionSet}
    (h : set.SpreadsName name) : name ∈ spreadsOf set := by
  induction h with
  | spread hs named =>
    rw [spreadsOf_eq]
    exact mem_selectionsSpreads.mpr ⟨_, hs, List.mem_singleton.mpr named.symm⟩
  | field hf some _ ih =>
    rw [spreadsOf_eq]
    refine mem_selectionsSpreads.mpr ⟨_, hf, ?_⟩
    rw [selectionSpreads, spreadsOf_of_field some]
    exact ih
  | inlineFragment hf _ ih =>
    rw [spreadsOf_eq]
    refine mem_selectionsSpreads.mpr ⟨_, hf, ?_⟩
    rw [selectionSpreads, inlineSpreads_eq, ← spreadsOf_eq]
    exact ih

mutual

theorem spreadsName_of_mem {name : String} :
    ∀ set : SelectionSet, name ∈ spreadsOf set → set.SpreadsName name
  | ⟨selections, loc⟩, h => by
    obtain ⟨s, hs, hn⟩ := mem_selectionsSpreads.mp h
    exact spreadsName_of_selections selections hs hn ⟨selections, loc⟩ hs

theorem spreadsName_of_selections {name : String} :
    ∀ (selections : List Selection) {s : Selection}, s ∈ selections → name ∈ selectionSpreads s →
      ∀ set : SelectionSet, s ∈ set.selections → set.SpreadsName name
  | .spread s :: rest, _, .head _, hn, set, hs => .spread hs (List.mem_singleton.mp hn).symm
  | .field ⟨_, _, _, _, none, _⟩ :: rest, _, .head _, hn, set, hs => by cases hn
  | .field ⟨_, _, _, _, some inner, _⟩ :: rest, _, .head _, hn, set, hs =>
    .field hs rfl (spreadsName_of_mem inner hn)
  | .inlineFragment ⟨_, _, inner, _⟩ :: rest, _, .head _, hn, set, hs =>
    .inlineFragment hs (spreadsName_of_mem inner hn)
  | _ :: rest, _, .tail _ h, hn, set, hs => spreadsName_of_selections rest h hn set hs

end

theorem mem_spreadsOf {name : String} {set : SelectionSet} :
    name ∈ spreadsOf set ↔ set.SpreadsName name :=
  ⟨spreadsName_of_mem set, mem_spreadsOf_of_spreadsName⟩

section

variable {unseen : List FragmentDefinition} {name other : String} {f : FragmentDefinition}

theorem firstOf_otherFragments :
    firstOf (otherFragments unseen name) other =
      if other = name then none else firstOf unseen other := by
  unfold firstOf otherFragments
  split_ifs with same
  · rw [List.find?_eq_none]
    simp [same]
  · rw [List.find?_filter]
    congr
    funext f
    by_cases named : f.name.value = other <;> simp [named, same]

theorem reachedFragments_of_absent (h : firstOf unseen name = none) (pending : List String) :
    reachedFragments unseen (name :: pending) = reachedFragments unseen pending := by
  rw [reachedFragments]
  split
  · rfl
  · rename_i found
    cases h.symm.trans found

theorem reachedFragments_of_first (h : firstOf unseen name = some f) (pending : List String) :
    reachedFragments unseen (name :: pending) =
      name :: reachedFragments (otherFragments unseen name)
        (spreadsOf f.selectionSet ++ pending) :=
  reachedFragments_of_find h pending

theorem reachedFragments_names (unseen : List FragmentDefinition) (pending : List String) :
    (reachedFragments unseen pending).Nodup ∧
      ∀ n ∈ reachedFragments unseen pending, (firstOf unseen n).isSome = true := by
  induction unseen, pending using reachedFragments.induct with
  | case1 unseen => simp [reachedFragments]
  | case2 unseen name pending absent ih =>
    rw [reachedFragments_of_absent absent]
    exact ih
  | case3 unseen name pending f found _ ih =>
    rw [reachedFragments_of_first found]
    obtain ⟨nodup, named⟩ := ih
    have others : ∀ n ∈ reachedFragments (otherFragments unseen name)
        (spreadsOf f.selectionSet ++ pending), n ≠ name ∧ (firstOf unseen n).isSome = true := by
      intro n hn
      have := named n hn
      rw [firstOf_otherFragments] at this
      split_ifs at this with same
      · cases this
      · exact ⟨same, this⟩
    refine ⟨List.nodup_cons.mpr ⟨fun again => (others name again).1 rfl, nodup⟩, ?_⟩
    exact List.forall_mem_cons.mpr ⟨Option.isSome_of_eq_some found, fun n hn => (others n hn).2⟩

theorem of_mem_reachedFragments {S : String → Prop} {pending : List String}
    (start : ∀ n ∈ pending, S n)
    (step : ∀ n f, S n → firstOf unseen n = some f → ∀ m ∈ spreadsOf f.selectionSet, S m) :
    ∀ n ∈ reachedFragments unseen pending, S n := by
  induction unseen, pending using reachedFragments.induct with
  | case1 unseen => simp [reachedFragments]
  | case2 unseen name pending absent ih =>
    rw [reachedFragments_of_absent absent]
    exact ih (List.forall_mem_cons.mp start).2 step
  | case3 unseen name pending f found _ ih =>
    rw [reachedFragments_of_first found]
    obtain ⟨here, later⟩ := List.forall_mem_cons.mp start
    refine List.forall_mem_cons.mpr ⟨here, ih ?_ fun n g hn first => step n g hn ?_⟩
    · exact List.forall_mem_append.mpr ⟨step name f here found, later⟩
    · rw [firstOf_otherFragments] at first
      split_ifs at first
      exact first

/-- Pending names of fragments are reached, and with each name those that its fragment spreads. -/
theorem reachedFragments_closed (unseen : List FragmentDefinition) (pending : List String) :
    (∀ n ∈ pending, (firstOf unseen n).isSome = true → n ∈ reachedFragments unseen pending) ∧
      ∀ n ∈ reachedFragments unseen pending, ∀ f, firstOf unseen n = some f →
        ∀ m ∈ spreadsOf f.selectionSet, (firstOf unseen m).isSome = true →
          m ∈ reachedFragments unseen pending := by
  induction unseen, pending using reachedFragments.induct with
  | case1 unseen => simp [reachedFragments]
  | case2 unseen name pending absent ih =>
    rw [reachedFragments_of_absent absent]
    refine ⟨List.forall_mem_cons.mpr ⟨fun some => ?_, ih.1⟩, ih.2⟩
    rw [show firstOf unseen name = none from absent] at some
    cases some
  | case3 unseen name pending f found _ ih =>
    rw [reachedFragments_of_first found]
    obtain ⟨starts, closed⟩ := ih
    -- The fragment of `name` is seen from here on: the name itself stands at the head, and all
    -- other names of fragments are left to the rest of the search.
    have fresh {m : String} (some : (firstOf unseen m).isSome = true)
        (later : (firstOf (otherFragments unseen name) m).isSome = true →
          m ∈ reachedFragments (otherFragments unseen name) (spreadsOf f.selectionSet ++ pending)) :
        m ∈ name :: reachedFragments (otherFragments unseen name)
          (spreadsOf f.selectionSet ++ pending) := by
      by_cases same : m = name
      · exact List.mem_cons.mpr (.inl same)
      · rw [firstOf_otherFragments, if_neg same] at later
        exact List.mem_cons_of_mem _ (later some)
    constructor
    · intro n hn some
      rcases List.mem_cons.mp hn with rfl | hn
      · exact List.mem_cons_self
      · exact fresh some (starts n (List.mem_append_right _ hn))
    · intro n hn g first m hm some
      by_cases same : n = name
      · subst same
        cases found.symm.trans first
        exact fresh some (starts m (List.mem_append_left _ hm))
      · have member := (List.mem_cons.mp hn).resolve_left same
        refine fresh some (closed n member g ?_ m hm)
        rw [firstOf_otherFragments, if_neg same]
        exact first

end

/-- A defined name is reached from the operations if and only if it is used. -/
theorem mem_reachedFragments_iff {document : Document} {name : String}
    (defined : (firstOf document.fragments name).isSome = true) :
    name ∈ reachedFragments document.fragments
        (document.operations.flatMap fun o => spreadsOf o.selectionSet) ↔ document.Uses name := by
  constructor
  · refine of_mem_reachedFragments ?_ ?_ name
    · intro n hn
      obtain ⟨o, ho, hn⟩ := List.mem_flatMap.mp hn
      exact .operation ho (mem_spreadsOf.mp hn)
    · intro n f used first m hm
      exact .fragment used first (mem_spreadsOf.mp hm)
  · obtain ⟨starts, closed⟩ := reachedFragments_closed document.fragments
      (document.operations.flatMap fun o => spreadsOf o.selectionSet)
    intro used
    induction used with
    | operation ho spread =>
      exact starts _ (List.mem_flatMap.mpr ⟨_, ho, mem_spreadsOf.mpr spread⟩) defined
    | fragment _ first spread ih =>
      exact closed _ (ih (Option.isSome_of_eq_some first)) _ first _ (mem_spreadsOf.mpr spread)
        defined

open Classical in
/-- The rule reports each definition whose name is not used, in the order of the document. Its
search follows the first definition of a name at most once. -/
theorem noUnusedFragments_check (context : ValidationContext) :
    noUnusedFragments.check context =
        (context.document.fragments.filter fun f => ¬ context.document.Uses f.name.value).map
          (fun f => ⟨startOf f.loc, "Fragment \"" ++ f.name.value ++ "\" is never used.",
            "NoUnusedFragments"⟩) ∧
      (reachedFragments context.document.fragments
        (context.document.operations.flatMap fun o => spreadsOf o.selectionSet)).Nodup := by
  refine ⟨?_, (reachedFragments_names _ _).1⟩
  have unused : ∀ f ∈ context.document.fragments,
      (!(reachedFragments context.document.fragments
        (context.document.operations.flatMap fun o => spreadsOf o.selectionSet)).contains
          f.name.value) = decide (¬ context.document.Uses f.name.value) := by
    intro f hf
    have defined : (firstOf context.document.fragments f.name.value).isSome = true :=
      List.find?_isSome.mpr ⟨f, hf, by simp⟩
    rw [← mem_reachedFragments_iff defined]
    simp
  unfold noUnusedFragments ruleOf
  simp only [List.map_map, List.filter_congr unused]
  rfl

end Validation

end GraphQL
