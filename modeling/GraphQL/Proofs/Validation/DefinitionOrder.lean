import GraphQL.Proofs.Schema.Construction
import GraphQL.Proofs.Validation.UnusedFragments
import Mathlib.Data.Finset.Card
import Mathlib.Data.List.Perm.Basic

/-!
The order of the definitions of a document. Main statement: where no two fragments share a name,
each of the default rules reports as many errors in every order, and the same ones except that the
rule on operation names may choose others of one name to report.
-/
namespace GraphQL

open Ast Visit

/-- The second document has the definitions of the first in some order. -/
structure Ast.Document.Reordered (d d' : Document) : Prop where
  definitions : d'.definitions.Perm d.definitions
  loc : d'.loc = d.loc

namespace Ast.Document

/-- No two fragments have the same name. -/
def DistinctFragments (d : Document) : Prop := (d.fragments.map (·.name.value)).Nodup

namespace Reordered

variable {d d' : Document}

protected theorem refl (d : Document) : d.Reordered d := ⟨.refl _, rfl⟩

protected theorem symm (h : d.Reordered d') : d'.Reordered d := ⟨h.definitions.symm, h.loc.symm⟩

theorem operations (h : d.Reordered d') : d'.operations.Perm d.operations :=
  h.definitions.filterMap _

theorem fragments (h : d.Reordered d') : d'.fragments.Perm d.fragments :=
  h.definitions.filterMap _

theorem distinctFragments (h : d.Reordered d') (distinct : d.DistinctFragments) :
    d'.DistinctFragments :=
  (h.fragments.map _).nodup_iff.mpr distinct

end Reordered

end Ast.Document

namespace Validation

section

variable {schema : Schema} {d d' : Document}

def toDefinition (d : Document) (i : Option Nat) : PathSegment := ⟨.document d, "definitions", i⟩

/-- The check finds nothing at a document, and what it finds in a definition is the same wherever
the definition stands. -/
structure NodeCheck.Local (check : NodeCheck) : Prop where
  root : ∀ context c d path, check context c (.document d) path = []
  inside : ∀ {schema : Schema} {d d' : Document}, d.Reordered d' → ∀ c n way i j,
    check ⟨schema, d⟩ c n (toDefinition d i :: way) =
      check ⟨schema, d'⟩ c n (toDefinition d' j :: way)

theorem nearestLocation_inside (h : d.Reordered d') (n : Node) (way : List PathSegment)
    (i j : Option Nat) :
    nearestLocation n (toDefinition d i :: way) = nearestLocation n (toDefinition d' j :: way) := by
  simp only [nearestLocation, List.reverse_cons, List.findSome?_append, List.findSome?_cons,
    toDefinition, Node.loc, h.loc]

namespace NodeCheck

variable {check : NodeCheck}

/-- What a check finds in the tree of one definition. -/
def inDefinition (check : NodeCheck) (context : ValidationContext) (t : Tree) : List Finding :=
  (visits context.schema {} [toDefinition context.document none] t).flatMap (check.at context)

theorem Local.flatMap_visits (isLocal : check.Local) (h : d.Reordered d') (t : Tree)
    (i j : Option Nat) :
    (visits schema {} [toDefinition d i] t).flatMap (check.at ⟨schema, d⟩) =
      (visits schema {} [toDefinition d' j] t).flatMap (check.at ⟨schema, d'⟩) := by
  rw [visits_cons, visits_cons, List.flatMap_map, List.flatMap_map]
  congr 1
  funext v
  simp only [NodeCheck.at, Visited.below, isLocal.inside h _ _ _ i j,
    nearestLocation_inside h _ _ i j]

theorem flatMap_itemsVisits {c : TypeContext} {parent : Node} {slot : Slot} {items : List Tree}
    {found : Visited → List Finding} {each : Tree → List Finding}
    (same : ∀ t ∈ items, ∀ i,
      (visits schema c [⟨parent, slot.key, itemIndex slot i⟩] t).flatMap found = each t) (i : Nat) :
    (itemsVisits schema c [] parent slot i items).flatMap found = items.flatMap each := by
  induction items generalizing i with
  | nil => simp [itemsVisits]
  | cons t rest ih =>
    rw [List.forall_mem_cons] at same
    rw [itemsVisits, List.flatMap_append, List.nil_append, same.1 i, ih same.2, List.flatMap_cons]

/-- What a local check finds in a document it finds in the definitions, one after another. -/
theorem Local.findings_eq (isLocal : check.Local) (context : ValidationContext) :
    check.findings context =
      context.document.definitions.flatMap fun definition =>
        check.inDefinition context definition.tree := by
  obtain ⟨schema, d⟩ := context
  have root : check.at ⟨schema, d⟩ ⟨{}, .document d, []⟩ = [] := by
    rw [NodeCheck.at, isLocal.root, List.map_nil]
  have each : (itemsVisits schema {} [] (.document d) (.many "definitions" .definition) 0
        (d.definitions.map Definition.tree)).flatMap (check.at ⟨schema, d⟩) =
      (d.definitions.map Definition.tree).flatMap (check.inDefinition ⟨schema, d⟩) :=
    flatMap_itemsVisits (fun t _ i => isLocal.flatMap_visits (.refl d) t (some i) none) 0
  have whole : visits schema {} [] d.tree = ⟨{}, .document d, []⟩ ::
      (itemsVisits schema {} [] (.document d) (.many "definitions" .definition) 0
        (d.definitions.map Definition.tree) ++ []) := rfl
  rw [NodeCheck.findings_eq, whole, List.flatMap_cons, root, List.append_nil, List.nil_append,
    each, List.flatMap_map]

end NodeCheck

/-- Where no two fragments share a name, the rule reports the same errors in every order of the
definitions. -/
def OrderFree (rule : ValidationRule) : Prop :=
  ∀ ⦃schema : Schema⦄ ⦃d d' : Document⦄, d.Reordered d' → d.DistinctFragments →
    (rule.check ⟨schema, d'⟩).Perm (rule.check ⟨schema, d⟩)

theorem NodeCheck.Local.orderFree {check : NodeCheck} (isLocal : check.Local) {code : String} :
    OrderFree (check.rule code) := by
  intro schema d d' h _
  refine List.Perm.map _ ?_
  rw [isLocal.findings_eq, isLocal.findings_eq]
  exact h.definitions.flatMap fun definition _ =>
    .of_eq (isLocal.flatMap_visits h definition.tree none none).symm

/-- A check may look neither at the document nor at the ancestors of a node. -/
theorem NodeCheck.orderFree_of_node {check : NodeCheck} {code : String}
    (root : ∀ context c d path, check context c (.document d) path = [])
    (same : ∀ schema d d' c n path path',
      check ⟨schema, d⟩ c n path = check ⟨schema, d'⟩ c n path') :
    OrderFree (check.rule code) :=
  Local.orderFree ⟨root, fun _ _ _ _ _ _ => same _ _ _ _ _ _ _⟩

theorem inTypeSystem_inside (d : Document) (i : Option Nat) (way : List PathSegment) :
    inTypeSystem (toDefinition d i :: way) = inTypeSystem way := by
  simp [inTypeSystem, toDefinition]

theorem directiveLocation_inside (d d' : Document) (way : List PathSegment) (i j : Option Nat) :
    directiveLocation (toDefinition d i :: way) = directiveLocation (toDefinition d' j :: way) := by
  simp only [directiveLocation, List.reverse_cons]
  -- the location of an input value is told by the ancestor around it, which may be the document
  rcases way.reverse with - | ⟨owner, - | ⟨outer, rest⟩⟩ <;> rfl

theorem fragment?_eq_firstOf (context : ValidationContext) (name : String) :
    context.fragment? name = firstOf context.document.fragments name :=
  Entries.get?_named (fun f : FragmentDefinition => f.name.value) _ _

theorem firstOf_isNone_reordered (h : d.Reordered d') (name : String) :
    (firstOf d.fragments name).isNone = (firstOf d'.fragments name).isNone := by
  rw [Bool.eq_iff_iff, Option.isNone_iff_eq_none, Option.isNone_iff_eq_none, firstOf, firstOf,
    List.find?_eq_none, List.find?_eq_none]
  simp only [h.fragments.mem_iff]

theorem knownTypeNames_orderFree : OrderFree knownTypeNames :=
  NodeCheck.Local.orderFree
    ⟨fun _ _ _ _ => rfl, fun _ _ _ _ _ _ => by simp only [inTypeSystem_inside]⟩

theorem knownFragmentNames_orderFree : OrderFree knownFragmentNames :=
  NodeCheck.Local.orderFree
    ⟨fun _ _ _ _ => rfl, fun h _ _ _ _ _ => by
      simp only [fragment?_eq_firstOf, firstOf_isNone_reordered h]⟩

theorem knownDirectives_orderFree : OrderFree knownDirectives :=
  NodeCheck.Local.orderFree
    ⟨fun _ _ _ _ => rfl, fun {_ d d'} _ _ _ way i j => by
      simp only [directiveLocation_inside d d' way i j]⟩

theorem knownArgumentNames_orderFree : OrderFree knownArgumentNames :=
  NodeCheck.Local.orderFree
    ⟨fun _ _ _ _ => rfl, fun _ _ _ way _ _ => by
      rw [List.getLast?_cons, List.getLast?_cons]
      cases way.getLast? <;> rfl⟩

theorem executableDefinitions_orderFree : OrderFree executableDefinitions :=
  fun _ _ _ h _ => ((h.definitions.filter _).map _).map _

theorem loneAnonymousOperation_orderFree : OrderFree loneAnonymousOperation := by
  intro schema d d' h _
  refine List.Perm.map _ ?_
  dsimp only
  rw [h.operations.length_eq]
  split
  · exact .refl _
  · exact (h.operations.filter _).map _

theorem firstOf_reordered (h : d.Reordered d') (distinct : d.DistinctFragments) (name : String) :
    firstOf d'.fragments name = firstOf d.fragments name := by
  ext f
  rw [firstOf, firstOf, find?_name_eq_some (h.distinctFragments distinct),
    find?_name_eq_some distinct, h.fragments.mem_iff]

theorem uses_reordered (h : d.Reordered d') (distinct : d.DistinctFragments) {name : String}
    (used : d.Uses name) : d'.Uses name := by
  induction used with
  | operation ho spread => exact .operation (h.operations.mem_iff.mpr ho) spread
  | fragment _ first spread ih =>
    exact .fragment ih ((firstOf_reordered h distinct _).trans first) spread

theorem uses_reordered_iff (h : d.Reordered d') (distinct : d.DistinctFragments) {name : String} :
    d'.Uses name ↔ d.Uses name :=
  ⟨uses_reordered h.symm (h.distinctFragments distinct), uses_reordered h distinct⟩

theorem reached_reordered (h : d.Reordered d') (distinct : d.DistinctFragments)
    {f : FragmentDefinition} (hf : f ∈ d.fragments) :
    f.name.value ∈ reachedFragments d'.fragments
        (d'.operations.flatMap fun o => spreadsOf o.selectionSet) ↔
      f.name.value ∈ reachedFragments d.fragments
        (d.operations.flatMap fun o => spreadsOf o.selectionSet) := by
  have defined : (firstOf d.fragments f.name.value).isSome = true :=
    List.find?_isSome.mpr ⟨f, hf, by simp⟩
  rw [mem_reachedFragments_iff defined, mem_reachedFragments_iff, uses_reordered_iff h distinct]
  rwa [firstOf_reordered h distinct]

theorem noUnusedFragments_orderFree : OrderFree noUnusedFragments := by
  intro schema d d' h distinct
  refine List.Perm.map _ (List.Perm.map _ ((h.fragments.filter _).trans (.of_eq ?_)))
  refine List.filter_congr fun f hf => ?_
  rw [Bool.eq_iff_iff]
  simp only [Bool.not_eq_true', List.contains_eq_mem, decide_eq_false_iff_not,
    reached_reordered h distinct hf]

def operationNames (operations : List OperationDefinition) : List String :=
  operations.filterMap fun d => d.name.map (·.value)

/-- Of the operations with one name that is not known yet all but the first are reported, and of
those with a known one all. -/
theorem duplicateOperations_length (known : Entries (List GraphQL.Position))
    (operations : List OperationDefinition) :
    (duplicateOperations known operations).length +
        ((operationNames operations).toFinset.filter fun name => known.get? name = none).card =
      (operationNames operations).length := by
  induction operations generalizing known with
  | nil => rfl
  | cons d rest ih =>
    cases named : d.name with
    | none => simpa [duplicateOperations, operationNames, named] using ih known
    | some name =>
      have names : operationNames (d :: rest) = name.value :: operationNames rest := by
        simp [operationNames, named]
      rw [names, List.toFinset_cons, List.length_cons]
      cases first : known.get? name.value with
      | some _ =>
        have later := ih known
        rw [Finset.filter_insert, if_neg (by simp [first])]
        simp only [duplicateOperations, named, first, List.length_cons]
        omega
      | none =>
        have later := ih (known.insert name.value (startOf d.loc))
        have unknown : (operationNames rest).toFinset.filter (fun other =>
              (known.insert name.value (startOf d.loc)).get? other = none) =
            ((insert name.value (operationNames rest).toFinset).filter fun other =>
              known.get? other = none).erase name.value := by
          ext other
          by_cases same : name.value = other
          · simp [Entries.get?_insert, same]
          · simp [Entries.get?_insert, same, Ne.symm same]
        have member : name.value ∈ (insert name.value (operationNames rest).toFinset).filter
            fun other => known.get? other = none := by
          simp [first]
        have size := Finset.card_erase_add_one member
        rw [unknown] at later
        simp only [duplicateOperations, named, first]
        omega

theorem uniqueOperationNames_length (context : ValidationContext) :
    (uniqueOperationNames.check context).length +
        (operationNames context.document.operations).toFinset.card =
      (operationNames context.document.operations).length := by
  have count := duplicateOperations_length [] context.document.operations
  simpa [uniqueOperationNames, ruleOf, Entries.get?] using count

theorem uniqueOperationNames_reordered (h : d.Reordered d') :
    (uniqueOperationNames.check ⟨schema, d'⟩).length =
      (uniqueOperationNames.check ⟨schema, d⟩).length := by
  have names : (operationNames d'.operations).Perm (operationNames d.operations) :=
    h.operations.filterMap _
  have count := uniqueOperationNames_length ⟨schema, d⟩
  have count' := uniqueOperationNames_length ⟨schema, d'⟩
  dsimp only at count count'
  rw [names.length_eq, List.toFinset_eq_of_perm _ _ names] at count'
  omega

/-- One rule alone may report other errors in another order. -/
theorem orderFree_of_mem {rule : ValidationRule} (h : rule ∈ defaultRules) :
    rule = uniqueOperationNames ∨ OrderFree rule := by
  simp only [defaultRules, List.mem_cons, List.not_mem_nil, or_false] at h
  rcases h with rfl | rfl | rfl | rfl | rfl | rfl | rfl | rfl | rfl | rfl | rfl | rfl | rfl
  · exact .inr executableDefinitions_orderFree
  · exact .inl rfl
  · exact .inr loneAnonymousOperation_orderFree
  · exact .inr knownTypeNames_orderFree
  · exact .inr (NodeCheck.orderFree_of_node (fun _ _ _ _ => rfl) fun _ _ _ _ _ _ _ => rfl)
  · exact .inr (NodeCheck.orderFree_of_node (fun _ _ _ _ => rfl) fun _ _ _ _ _ _ _ => rfl)
  · exact .inr (NodeCheck.orderFree_of_node (fun _ _ _ _ => rfl) fun _ _ _ _ _ _ _ => rfl)
  · exact .inr (NodeCheck.orderFree_of_node (fun _ _ _ _ => rfl) fun _ _ _ _ _ _ _ => rfl)
  · exact .inr knownFragmentNames_orderFree
  · exact .inr noUnusedFragments_orderFree
  · exact .inr knownArgumentNames_orderFree
  · exact .inr knownDirectives_orderFree
  · exact .inr (NodeCheck.orderFree_of_node (fun _ _ _ _ => rfl) fun _ _ _ _ _ _ _ => rfl)

theorem length_reordered (h : d.Reordered d') (distinct : d.DistinctFragments)
    {rule : ValidationRule} (hr : rule ∈ defaultRules) :
    (rule.check ⟨schema, d'⟩).length = (rule.check ⟨schema, d⟩).length := by
  rcases orderFree_of_mem hr with rfl | free
  · exact uniqueOperationNames_reordered h
  · exact (free h distinct).length_eq

/-- Where no two fragments of a document share a name, the order of its definitions is of no
account: each of the default rules reports as many errors in any order, all but the rule on the
names of operations report the same errors, and the document is accepted in one order if and only
if it is in the other. -/
theorem validate_reordered (schema : Schema) (h : d.Reordered d') (distinct : d.DistinctFragments) :
    (∀ rule ∈ defaultRules,
      (rule.check ⟨schema, d'⟩).length = (rule.check ⟨schema, d⟩).length ∧
        (rule.code ≠ "UniqueOperationNames" →
          (rule.check ⟨schema, d'⟩).Perm (rule.check ⟨schema, d⟩))) ∧
      (validate schema d' defaultRules = [] ↔ validate schema d defaultRules = []) := by
  refine ⟨fun rule hr => ⟨length_reordered h distinct hr, fun code => ?_⟩, ?_⟩
  · rcases orderFree_of_mem hr with rfl | free
    · exact absurd rfl code
    · exact free h distinct
  · simp only [validate, List.flatMap_eq_nil_iff]
    refine forall₂_congr fun rule hr => ?_
    rw [← List.length_eq_zero_iff, ← List.length_eq_zero_iff, length_reordered h distinct hr]

end

namespace Twins

def schema : Schema where
  types := [("Query", .object ⟨⟨1, 1⟩, none, "Query", [], [], []⟩)]
  directives := []
  query := "Query"
  mutation := none
  subscription := none

def selections : SelectionSet := ⟨[.field { name := ⟨"__typename", none⟩ }], none⟩

def lineStart (line : Nat) : Option Location := some ⟨0, 0, line, 1⟩

/-- `query A { __typename }` -/
def operation (line : Nat) : OperationDefinition :=
  ⟨.query, some ⟨"A", none⟩, [], [], selections, lineStart line⟩

def fragment (name : String) (set : SelectionSet) (line : Nat) : FragmentDefinition :=
  ⟨⟨name, none⟩, ⟨⟨"Query", none⟩, none⟩, [], set, lineStart line⟩

/-- `{ ...G }` -/
def spread : SelectionSet := ⟨[.spread { name := ⟨"G", none⟩ }], none⟩

/-- Two operations of one name and two fragments that neither uses, one spread in the other. -/
def document : Document :=
  ⟨[.operation (operation 1), .operation (operation 2), .fragment (fragment "F" spread 3),
    .fragment (fragment "G" selections 4)], none⟩

def reversed : Document := ⟨document.definitions.reverse, none⟩

end Twins

theorem validate_reversed_twins :
    Twins.document.Reordered Twins.reversed ∧ Twins.document.DistinctFragments ∧
      (∀ rule ∈ defaultRules,
        (rule.check ⟨Twins.schema, Twins.reversed⟩).length =
            (rule.check ⟨Twins.schema, Twins.document⟩).length ∧
          (rule.code ≠ "UniqueOperationNames" →
            (rule.check ⟨Twins.schema, Twins.reversed⟩).Perm
              (rule.check ⟨Twins.schema, Twins.document⟩))) ∧
      (validate Twins.schema Twins.reversed defaultRules = [] ↔
        validate Twins.schema Twins.document defaultRules = []) := by
  have reordered : Twins.document.Reordered Twins.reversed := ⟨List.reverse_perm _, rfl⟩
  have distinct : Twins.document.DistinctFragments := by
    change ["F", "G"].Nodup
    decide
  exact ⟨reordered, distinct, validate_reordered Twins.schema reordered distinct⟩

-- The rule on the names of operations is rightly set apart: it names the first place first.
example :
    (duplicateOperations [] Twins.document.operations).map (·.locations) = [[⟨1, 1⟩, ⟨2, 1⟩]] ∧
      (duplicateOperations [] Twins.reversed.operations).map (·.locations) =
        [[⟨2, 1⟩, ⟨1, 1⟩]] := by
  decide

end Validation

end GraphQL
