import GraphQL.Proofs.Validation.Known
import GraphQL.Proofs.Visit.LiteralVisits
import Mathlib.Data.List.Induction

/-!
What a schema says at a node of a document, read off the nodes around it without any stacks. Main
statement: the type that a visitor is told of a literal is the one that the nearest list, input
field, argument or variable around it asks for.
-/
namespace GraphQL.Validation

open Ast TypeSystem Visit

/-- The nodes around the end of a way, innermost first. -/
def around (way : List PathSegment) : List Node := (ancestors way).reverse

theorem around_append_singleton (way : List PathSegment) (segment : PathSegment) :
    around (way ++ [segment]) = segment.parent :: around way := by
  simp [around]

variable (schema : Schema)

mutual

/-- The output type that the nearest field, fragment or operation gives. -/
def outputAround : List Node → Option TypeRef
  | [] => none
  | n :: outer =>
    match n with
    | .selection (.field f) => fieldType schema (parentAround outer) f.name.value
    | .selection (.inlineFragment f) => narrowed schema (outputAround outer) f.typeCondition
    | .definition (.operation d) => (schema.root? d.operation).map fun t => .named t.name
    | .definition (.fragment d) => narrowed schema none (some d.typeCondition)
    | _ => outputAround outer

def parentAround : List Node → Option TypeDefinition
  | [] => none
  | n :: outer =>
    match n with
    | .selectionSet _ => parentOf schema (outputAround outer)
    | _ => parentAround outer

end

/-- The definition of the nearest field, if that field and the type around it are known. -/
def fieldAround : List Node → Option TypeSystem.Field
  | [] => none
  | n :: outer =>
    match n with
    | .selection (.field f) =>
      (parentAround schema outer).bind fun parent => schema.field? parent f.name.value
    | _ => fieldAround outer

/-- The tops of the stacks are what the nearest nodes give. -/
theorem type?_parent?_reverse (nodes : List Node) :
    (contextAt schema nodes.reverse).type? = outputAround schema nodes ∧
      (contextAt schema nodes.reverse).parent? = parentAround schema nodes := by
  induction nodes with
  | nil => simp only [outputAround, parentAround]; exact ⟨rfl, rfl⟩
  | cons n outer ih =>
    obtain ⟨type, parent⟩ := ih
    rw [List.reverse_cons, contextAt_append_singleton]
    cases n with
    | selectionSet s =>
      simp only [outputAround, parentAround]
      exact ⟨type, congrArg (parentOf schema) type⟩
    | selection s =>
      cases s with
      | field f =>
        simp only [outputAround, parentAround]
        exact ⟨congrArg (fieldType schema · f.name.value) parent, parent⟩
      | spread s =>
        simp only [outputAround, parentAround]
        exact ⟨type, parent⟩
      | inlineFragment f =>
        simp only [outputAround, parentAround, ← type]
        exact ⟨type?_inlineFragment schema _ f, parent⟩
    | definition d =>
      cases d <;> simp only [outputAround, parentAround]
      case operation d => exact ⟨rfl, parent⟩
      case fragment d => exact ⟨rfl, parent⟩
      all_goals exact ⟨type, parent⟩
    | value v =>
      simp only [outputAround, parentAround]
      cases v <;> exact ⟨type, parent⟩
    | _ =>
      simp only [outputAround, parentAround]
      exact ⟨type, parent⟩

theorem field?_reverse (nodes : List Node) :
    (contextAt schema nodes.reverse).field? = fieldAround schema nodes := by
  induction nodes with
  | nil => rfl
  | cons n outer ih =>
    have parent := (type?_parent?_reverse schema outer).2
    rw [List.reverse_cons, contextAt_append_singleton]
    cases n with
    | selection s =>
      cases s with
      | field f =>
        rw [fieldAround, ← parent]
        rfl
      | _ => exact ih
    | definition d => cases d <;> exact ih
    | value v => cases v <;> exact ih
    | _ => exact ih

theorem parent?_contextAt (way : List PathSegment) :
    (contextAt schema (ancestors way)).parent? = parentAround schema (around way) := by
  rw [← (type?_parent?_reverse schema (around way)).2, around, List.reverse_reverse]

theorem field?_contextAt (way : List PathSegment) :
    (contextAt schema (ancestors way)).field? = fieldAround schema (around way) := by
  rw [← field?_reverse, around, List.reverse_reverse]

/-- The definition that an argument is looked up in, given the nodes around it: that of a directive
which holds it and is known, else that of the nearest field. -/
def consulted : List Node → Option (List InputValue)
  | [] => none
  | n :: outer =>
    match n with
    | .directive d =>
      match schema.directive? d.name.value with
      | some definition => some definition.arguments
      | none => (fieldAround schema outer).map (·.arguments)
    | _ => (fieldAround schema (n :: outer)).map (·.arguments)

def arguments? (c : TypeContext) : Option (List InputValue) :=
  match c.directive with
  | some d => some d.arguments
  | none => c.field?.map (·.arguments)

/-- The type of an argument among those declared, if it is an input type. -/
def argumentType (declared : List InputValue) (name : String) : Option TypeRef :=
  (declared.find? (·.name = name)).bind fun d => TypeContext.inputTypeOf? schema d.type

def wanted : List Node → Option TypeRef
  | [] => none
  | n :: outer =>
    match n with
    | .argument a =>
      (consulted schema outer).bind fun declared => argumentType schema declared a.name.value
    | .variableDefinition d => TypeContext.inputTypeOf? schema d.type.toTypeRef
    | .value (.list _ _) => itemType schema (wanted outer)
    | .objectField f => inputFieldType schema (wanted outer) f.name.value
    | _ => wanted outer

theorem kind_of_argument_slot {k : Kind} {slot : Slot} (hs : slot ∈ k.slots)
    (ht : slot.takes.has .argument = true) : k = .field ∨ k = .directive := by
  have all : ∀ k ∈ Kind.all, ∀ slot ∈ k.slots, slot.takes.has .argument = true →
      k = .field ∨ k = .directive := by
    decide +kernel
  exact all k k.mem_all slot hs ht

theorem field_or_directive_of_kind {n : Node} (h : n.kind = .field ∨ n.kind = .directive) :
    (∃ f, n = .selection (.field f)) ∨ ∃ d, n = .directive d := by
  cases n with
  | directive d => exact .inr ⟨d, rfl⟩
  | selection s =>
    cases s with
    | field f => exact .inl ⟨f, rfl⟩
    | _ => simp [Node.kind, Selection.kind] at h
  | definition d => cases d <;> simp [Node.kind, Definition.kind] at h
  | value v => cases v <;> simp [Node.kind, Value.kind] at h
  | type t => cases t <;> simp [Node.kind, TypeNode.kind] at h
  | _ => simp [Node.kind] at h

variable {document : Document} {t : Tree} {way : List PathSegment}

theorem holder_of_argument (leads : Leads document.tree way t) (ht : t.node.kind = .argument) :
    ∃ outer segment u, way = outer ++ [segment] ∧ segment.parent = u.node ∧
      Leads document.tree outer u ∧
      ((∃ f, u.node = .selection (.field f)) ∨ ∃ d, u.node = .directive d) := by
  rcases List.eq_nil_or_concat' way with rfl | ⟨outer, segment, rfl⟩
  · cases leads
    cases ht
  · obtain ⟨u, b, i, first, hb, hi, rfl⟩ := leads.last
    have above := first.grammatical document.taken.2
    have takes := above.takes hb (List.mem_of_getElem? hi)
    rw [ht] at takes
    exact ⟨outer, _, u, rfl, rfl, first,
      field_or_directive_of_kind (kind_of_argument_slot (above.mem_slots hb) takes)⟩

/-- The directive that is known below a directive. -/
theorem directive_contextAt (outer : List PathSegment) {segment : PathSegment} {d : Ast.Directive}
    (h : segment.parent = .directive d) :
    (contextAt schema (ancestors (outer ++ [segment]))).directive =
      schema.directive? d.name.value := by
  rw [ancestors_append_singleton, contextAt_append_singleton, h]
  rfl

/-- Where an argument is entered, it is looked up in the definition that the nodes around it
determine. -/
theorem arguments?_contextAt (leads : Leads document.tree way t) (ht : t.node.kind = .argument) :
    arguments? (contextAt schema (ancestors way)) = consulted schema (around way) := by
  obtain ⟨outer, segment, u, rfl, parent, above, holder⟩ := holder_of_argument leads ht
  have field := field?_contextAt schema (outer ++ [segment])
  rw [around_append_singleton, parent] at field ⊢
  rcases holder with ⟨f, hf⟩ | ⟨d, hd⟩
  · have ready : (contextAt schema (ancestors outer)).Ready u.node.kind :=
      ready_contextAt above document.taken.2
    have none : (contextAt schema (ancestors (outer ++ [segment]))).directive = none := by
      rw [ancestors_append_singleton, contextAt_append_singleton, parent, hf]
      rw [hf] at ready
      exact ready.directive_eq_none rfl
    rw [arguments?, none, field, hf]
    rfl
  · rw [arguments?, directive_contextAt schema outer (parent.trans hd), field, hd, consulted]
    cases schema.directive? d.name.value <;> rfl

/-- The type that a visitor is told of a literal is the one that the nodes around it ask for. -/
theorem inputType?_contextAt (leads : Leads document.tree way t) :
    (contextAt schema (ancestors way)).inputType? = wanted schema (around way) := by
  induction way using List.reverseRecOn generalizing t with
  | nil => rfl
  | append_singleton outer segment ih =>
    obtain ⟨u, b, i, above, -, -, rfl⟩ := leads.last
    have type := ih above
    rw [ancestors_append_singleton, contextAt_append_singleton, around_append_singleton]
    dsimp only
    cases hn : u.node with
    | argument a =>
      have consulted := arguments?_contextAt schema above (by rw [hn]; rfl)
      rw [wanted, ← consulted]
      exact Option.bind_assoc _ _ _
    | variableDefinition d => rfl
    | objectField f =>
      rw [wanted, ← type]
      rfl
    | value v =>
      cases v with
      | list values loc =>
        rw [wanted, ← type]
        rfl
      | _ => exact type
    | selection s => cases s <;> exact type
    | definition d => cases d <;> exact type
    | _ => exact type

end GraphQL.Validation
