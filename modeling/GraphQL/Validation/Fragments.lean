import GraphQL.Validation.Rule

/-!
Rules on fragments: they are on composite types, those spread are defined, and those defined are
used.
-/
namespace GraphQL.Validation

open Ast Visit

/-- A condition on a type that exists and has no fields to select. -/
def conditionViolation (schema : Schema) (fragment : Option String) (condition : NamedType) :
    List Violation :=
  if (schema.type? condition.name.value).any fun t => !t.isComposite then
    [.conditionNotComposite fragment condition.name.value]
  else []

def fragmentsOnCompositeTypes : ValidationRule :=
  NodeCheck.rule "FragmentsOnCompositeTypes" fun context _ n _ =>
    match n with
    | .selection (.inlineFragment f) =>
      match f.typeCondition with
      | some condition => conditionViolation context.schema none condition
      | none => []
    | .definition (.fragment d) =>
      conditionViolation context.schema (some d.name.value) d.typeCondition
    | _ => []

def knownFragmentNames : ValidationRule :=
  NodeCheck.rule "KnownFragmentNames" fun context _ n _ =>
    match n with
    | .selection (.spread s) =>
      if (context.fragment? s.name.value).isNone then [.unknownFragment s.name.value] else []
    | _ => []

mutual

/-- The names of the fragments spread at any depth of a selection set. -/
def spreadsOf : SelectionSet → List String
  | ⟨selections, _⟩ => selectionsSpreads selections

def selectionsSpreads : List Selection → List String
  | [] => []
  | s :: rest => selectionSpreads s ++ selectionsSpreads rest

def selectionSpreads : Selection → List String
  | .field f => fieldSpreads f
  | .spread s => [s.name.value]
  | .inlineFragment f => inlineSpreads f

def fieldSpreads : Field → List String
  | ⟨_, _, _, _, selectionSet, _⟩ => optionalSpreads selectionSet

def inlineSpreads : InlineFragment → List String
  | ⟨_, _, selectionSet, _⟩ => spreadsOf selectionSet

def optionalSpreads : Option SelectionSet → List String
  | none => []
  | some selectionSet => spreadsOf selectionSet

end

/-- The fragments of other names. -/
def otherFragments (fragments : List FragmentDefinition) (name : String) :
    List FragmentDefinition :=
  fragments.filter (·.name.value ≠ name)

theorem otherFragments_length {fragments : List FragmentDefinition} {name : String}
    {f : FragmentDefinition} (h : fragments.find? (·.name.value = name) = some f) :
    (otherFragments fragments name).length < fragments.length := by
  refine List.length_filter_lt_length_iff_exists.2 ⟨f, List.mem_of_find?_eq_some h, ?_⟩
  simpa using List.find?_some h

/-- The names reached from the pending ones through the spreads of fragments; `unseen` holds the
fragments whose names were not reached yet. -/
def reachedFragments (unseen : List FragmentDefinition) : List String → List String
  | [] => []
  | name :: pending =>
    match h : unseen.find? (·.name.value = name) with
    | none => reachedFragments unseen pending
    | some f =>
      have := otherFragments_length h
      name ::
        reachedFragments (otherFragments unseen name) (spreadsOf f.selectionSet ++ pending)
termination_by pending => (unseen.length, pending.length)

def noUnusedFragments : ValidationRule :=
  ruleOf "NoUnusedFragments" fun context =>
    let fragments := context.document.fragments
    let used := reachedFragments fragments
      (context.document.operations.flatMap fun o => spreadsOf o.selectionSet)
    (fragments.filter fun f => !used.contains f.name.value).map fun f =>
      ⟨startOf f.loc, .unusedFragment f.name.value⟩

end GraphQL.Validation
