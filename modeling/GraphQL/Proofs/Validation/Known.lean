import GraphQL.Proofs.Visit.Visits
import GraphQL.Validation.Plan

/-!
What an accepted document is known to select: fields that the type around them has, unless their
names are reserved, and fragments that are defined.
-/
namespace GraphQL.Validation

open Ast TypeSystem Visit

/-- A check that finds nothing in a document finds nothing at any visit. -/
theorem NodeCheck.none_at {check : NodeCheck} {code : String}
    {context : ValidationContext} (h : (check.rule code).check context = []) :
    ∀ v ∈ visits context.schema {} [] context.document.tree,
      check context v.context v.node v.path = [] := by
  intro v hv
  have none : check.findings context = [] := List.map_eq_nil_iff.mp h
  rw [findings_eq] at none
  exact List.map_eq_nil_iff.mp (List.flatMap_eq_nil_iff.mp none v hv)

/-- The composite type whose fields are selected where values of a type are expected. -/
def parentOf (schema : Schema) (type : Option TypeRef) : Option TypeDefinition :=
  (type.bind schema.core?).filter (·.isComposite)

def fieldType (schema : Schema) (parent : Option TypeDefinition) (name : String) : Option TypeRef :=
  (parent.bind fun p => schema.field? p name).bind fun f => TypeContext.outputType? schema f.type

/-- The type that a fragment narrows another to. -/
def narrowed (schema : Schema) (type : Option TypeRef) (condition : Option NamedType) :
    Option TypeRef :=
  let named : Option TypeRef := match condition with
    | some t => some (.named t.name.value)
    | none => type.map fun t => .named t.coreName
  named.bind (TypeContext.outputType? schema)

theorem type?_inlineFragment (schema : Schema) (c : TypeContext) (f : InlineFragment) :
    (c.enter schema (.selection (.inlineFragment f))).type? =
      narrowed schema c.type? f.typeCondition := by
  obtain ⟨condition, directives, set, loc⟩ := f
  cases condition <;> rfl

/-- A field of this name is known on the type, or its name is reserved. -/
def NameKnown (schema : Schema) (parent : Option TypeDefinition) (name : String) : Prop :=
  ∀ p, parent = some p → schema.field? p name = none → name.startsWith "__" = true

section

variable (schema : Schema) (fragments : Entries FragmentDefinition)

mutual

def SetKnown (type : Option TypeRef) : SelectionSet → Prop
  | ⟨selections, _⟩ => SelectionsKnown type selections

def SelectionsKnown (type : Option TypeRef) : List Selection → Prop
  | [] => True
  | s :: rest => SelectionKnown type s ∧ SelectionsKnown type rest

def SelectionKnown (type : Option TypeRef) : Selection → Prop
  | .field f => FieldKnown type f
  | .spread s => (fragments.get? s.name.value).isSome = true
  | .inlineFragment f => InlineKnown type f

def FieldKnown (type : Option TypeRef) : Ast.Field → Prop
  | ⟨_, name, _, _, set, _⟩ =>
    NameKnown schema (parentOf schema type) name.value ∧
      OptionalKnown (fieldType schema (parentOf schema type) name.value) set

def InlineKnown (type : Option TypeRef) : InlineFragment → Prop
  | ⟨condition, _, set, _⟩ => SetKnown (narrowed schema type condition) set

def OptionalKnown (type : Option TypeRef) : Option SelectionSet → Prop
  | none => True
  | some set => SetKnown type set

end

end

section

variable {schema : Schema} {fragments : Entries FragmentDefinition} {type : Option TypeRef}

theorem FieldKnown.name {f : Ast.Field} (h : FieldKnown schema fragments type f) :
    NameKnown schema (parentOf schema type) f.name.value := by
  obtain ⟨_, name, _, _, set, _⟩ := f
  rw [FieldKnown] at h
  exact h.1

theorem FieldKnown.selectionSet {f : Ast.Field} (h : FieldKnown schema fragments type f)
    {set : SelectionSet} (hs : f.selectionSet = some set) :
    SetKnown schema fragments (fieldType schema (parentOf schema type) f.name.value) set := by
  obtain ⟨_, name, _, _, _, _⟩ := f
  cases hs
  rw [FieldKnown, OptionalKnown] at h
  exact h.2

theorem SetKnown.selections {set : SelectionSet} (h : SetKnown schema fragments type set) :
    SelectionsKnown schema fragments type set.selections := by
  obtain ⟨selections, _⟩ := set
  rwa [SetKnown] at h

end

/-- What two of the rules accept of a visit. -/
structure Accepts (schema : Schema) (fragments : Entries FragmentDefinition) (v : Visited) :
    Prop where
  field : ∀ f parent, v.node = .selection (.field f) → v.context.parent? = some parent →
    v.context.field? = none → f.name.value.startsWith "__" = true
  spread : ∀ s, v.node = .selection (.spread s) → (fragments.get? s.name.value).isSome = true

section

variable {schema : Schema} {fragments : Entries FragmentDefinition}

mutual

theorem setKnown_of_accepts : ∀ (set : SelectionSet) (c : TypeContext) (path : List PathSegment),
    (∀ v ∈ visits schema c path set.tree, Accepts schema fragments v) →
    SetKnown schema fragments c.type? set
  | ⟨selections, loc⟩, c, path, h => by
    rw [SelectionSet.tree] at h
    rw [SetKnown]
    refine selectionsKnown_of_accepts selections
      (c.enter schema (.selectionSet ⟨selections, loc⟩)) rfl fun t ht => ?_
    exact forall_visits_child h (Nat.le_of_eq rfl) List.mem_cons_self ht

theorem selectionsKnown_of_accepts : ∀ (selections : List Selection) (c : TypeContext),
    c.parent? = parentOf schema c.type? →
    (∀ t ∈ selectionTrees selections,
      ∃ p, ∀ v ∈ visits schema c p t, Accepts schema fragments v) →
    SelectionsKnown schema fragments c.type? selections
  | [], _, _, _ => by
    rw [SelectionsKnown]
    trivial
  | s :: rest, c, hc, h => by
    rw [selectionTrees] at h
    rw [SelectionsKnown]
    obtain ⟨p, hp⟩ := h _ List.mem_cons_self
    exact ⟨selectionKnown_of_accepts s c p hc hp,
      selectionsKnown_of_accepts rest c hc fun t ht => h t (List.mem_cons_of_mem _ ht)⟩

theorem selectionKnown_of_accepts : ∀ (s : Selection) (c : TypeContext) (path : List PathSegment),
    c.parent? = parentOf schema c.type? →
    (∀ v ∈ visits schema c path s.tree, Accepts schema fragments v) →
    SelectionKnown schema fragments c.type? s
  | .field f, c, path, hc, h => by
    rw [Selection.tree] at h
    rw [SelectionKnown]
    exact fieldKnown_of_accepts f c path hc h
  | .spread s, c, path, _, h => by
    rw [Selection.tree, FragmentSpread.tree] at h
    rw [SelectionKnown]
    exact (forall_visits_self h).spread s rfl
  | .inlineFragment f, c, path, _, h => by
    rw [Selection.tree] at h
    rw [SelectionKnown]
    exact inlineKnown_of_accepts f c path h

theorem fieldKnown_of_accepts : ∀ (f : Ast.Field) (c : TypeContext) (path : List PathSegment),
    c.parent? = parentOf schema c.type? →
    (∀ v ∈ visits schema c path f.tree, Accepts schema fragments v) →
    FieldKnown schema fragments c.type? f
  | ⟨aliasName, name, arguments, directives, set, loc⟩, c, path, hc, h => by
    rw [Field.tree] at h
    rw [FieldKnown]
    constructor
    · intro parent hp hf
      refine (forall_visits_self h).field _ parent rfl (hc.trans hp) ?_
      change (c.parent?.bind fun p => schema.field? p name.value) = none
      rw [hc, hp]
      exact hf
    · have type : (c.enter schema
          (.selection (.field ⟨aliasName, name, arguments, directives, set, loc⟩))).type? =
          fieldType schema (parentOf schema c.type?) name.value := by
        rw [← hc]
        rfl
      rw [← type]
      refine optionalKnown_of_accepts set _ fun t ht => ?_
      exact forall_visits_child h (Nat.le_of_eq rfl) (by simp) ht

theorem optionalKnown_of_accepts : ∀ (set : Option SelectionSet) (c : TypeContext),
    (∀ t ∈ selectionSetTrees set, ∃ p, ∀ v ∈ visits schema c p t, Accepts schema fragments v) →
    OptionalKnown schema fragments c.type? set
  | none, _, _ => by
    rw [OptionalKnown]
    trivial
  | some set, c, h => by
    rw [selectionSetTrees] at h
    rw [OptionalKnown]
    obtain ⟨p, hp⟩ := h _ List.mem_cons_self
    exact setKnown_of_accepts set c p hp

theorem inlineKnown_of_accepts : ∀ (f : InlineFragment) (c : TypeContext)
    (path : List PathSegment),
    (∀ v ∈ visits schema c path f.tree, Accepts schema fragments v) →
    InlineKnown schema fragments c.type? f
  | ⟨condition, directives, set, loc⟩, c, path, h => by
    rw [InlineFragment.tree] at h
    rw [InlineKnown]
    rw [← type?_inlineFragment schema c ⟨condition, directives, set, loc⟩]
    obtain ⟨p, hp⟩ := forall_visits_child h (Nat.le_of_eq rfl) (by simp)
      (List.mem_singleton_self set.tree)
    exact setKnown_of_accepts set _ p hp

end

theorem accepts_of_validate {document : Document} (h : validate schema document defaultRules = []) :
    ∀ v ∈ visits schema {} [] document.tree, Accepts schema (fragmentTable document) v := by
  have rule {r : ValidationRule} (hr : r ∈ defaultRules) : r.check ⟨schema, document⟩ = [] :=
    List.flatMap_eq_nil_iff.mp h r hr
  have fields := NodeCheck.none_at (rule (r := fieldsOnCorrectType) (by simp [defaultRules]))
  have spreads := NodeCheck.none_at (rule (r := knownFragmentNames) (by simp [defaultRules]))
  intro v hv
  constructor
  · intro f parent hn hp hf
    have := fields v hv
    rw [hn, hp, hf] at this
    simpa using this
  · intro s hn
    have := spreads v hv
    rw [hn] at this
    rcases hf : (fragmentTable document).get? s.name.value with - | f
    · simp [ValidationContext.fragment?, hf] at this
    · rfl

theorem operation_known {document : Document} (h : validate schema document defaultRules = [])
    {d : OperationDefinition} (hd : d ∈ document.operations) :
    SetKnown schema (fragmentTable document)
      ((schema.root? d.operation).map fun t => .named t.name) d.selectionSet := by
  obtain ⟨definition, hmem, he⟩ := List.mem_filterMap.mp hd
  cases definition <;> cases he
  obtain ⟨p, hp⟩ := forall_visits_child (accepts_of_validate h) (Nat.le_of_eq rfl)
    List.mem_cons_self (List.mem_map_of_mem hmem)
  obtain ⟨q, hq⟩ := forall_visits_child hp (Nat.le_of_eq rfl)
    (by simp [Definition.childTrees]) (List.mem_singleton_self d.selectionSet.tree)
  exact setKnown_of_accepts d.selectionSet _ q hq

theorem fragment_known {document : Document} (h : validate schema document defaultRules = [])
    {d : FragmentDefinition} (hd : d ∈ document.fragments) (type : Option TypeRef) :
    SetKnown schema (fragmentTable document) (narrowed schema type (some d.typeCondition))
      d.selectionSet := by
  obtain ⟨definition, hmem, he⟩ := List.mem_filterMap.mp hd
  cases definition <;> cases he
  obtain ⟨p, hp⟩ := forall_visits_child (accepts_of_validate h) (Nat.le_of_eq rfl)
    List.mem_cons_self (List.mem_map_of_mem hmem)
  obtain ⟨q, hq⟩ := forall_visits_child hp (Nat.le_of_eq rfl)
    (by simp [Definition.childTrees]) (List.mem_singleton_self d.selectionSet.tree)
  exact setKnown_of_accepts d.selectionSet _ q hq

end

/-- A pending name of a fragment is reached, and what the fragment spreads is pending. -/
theorem reachedFragments_of_find {unseen : List FragmentDefinition} {name : String}
    {f : FragmentDefinition} (h : unseen.find? (·.name.value = name) = some f)
    (pending : List String) :
    reachedFragments unseen (name :: pending) =
      name :: reachedFragments (otherFragments unseen name)
        (spreadsOf f.selectionSet ++ pending) := by
  rw [reachedFragments]
  split
  · simp_all
  · rename_i g hg
    obtain rfl : f = g := Option.some.inj (h.symm.trans hg)
    rfl

theorem eq_noUnusedFragments {rule : ValidationRule} (h : rule ∈ defaultRules)
    (code : rule.code = "NoUnusedFragments") : rule = noUnusedFragments := by
  simp only [defaultRules, List.mem_cons, List.not_mem_nil, or_false] at h
  rcases h with rfl | rfl | rfl | rfl | rfl | rfl | rfl | rfl | rfl | rfl | rfl | rfl | rfl
  all_goals first | rfl | exact absurd code (by decide)

/-- A document that uses all its fragments is accepted if the rules on its nodes accept it. These
can be run, while the search for unused fragments ends by a measure. -/
theorem validate_of_used {schema : Schema} {document : Document}
    (used : noUnusedFragments.check ⟨schema, document⟩ = [])
    (others : ∀ rule ∈ defaultRules, rule.code ≠ "NoUnusedFragments" →
      (rule.check ⟨schema, document⟩).isEmpty = true) :
    validate schema document defaultRules = [] := by
  apply List.flatMap_eq_nil_iff.mpr
  intro rule hrule
  by_cases code : rule.code = "NoUnusedFragments"
  · rw [eq_noUnusedFragments hrule code]
    exact used
  · exact List.isEmpty_iff.mp (others rule hrule code)

end GraphQL.Validation
