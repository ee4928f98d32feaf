import GraphQL.Ast.Located
import GraphQL.Schema.Basic
import GraphQL.Visit.Walk

/-!
What a schema says about the node being visited. Entering a node pushes on stacks what is known
there, `none` included, and leaving it pops as much.
-/
namespace GraphQL.Visit

open Ast TypeSystem

/-- Stacks have their top first. -/
structure TypeContext where
  types : List (Option TypeRef) := []
  parents : List (Option TypeDefinition) := []
  inputTypes : List (Option TypeRef) := []
  fields : List (Option TypeSystem.Field) := []
  defaults : List (Option Literal) := []
  directive : Option TypeSystem.DirectiveDefinition := none
  argument : Option InputValue := none
  enumValue : Option TypeSystem.EnumValue := none

namespace TypeContext

/-- The output type here. -/
def type? (c : TypeContext) : Option TypeRef := c.types.head?.join

/-- The composite type whose fields are selected here. -/
def parent? (c : TypeContext) : Option TypeDefinition := c.parents.head?.join

def inputType? (c : TypeContext) : Option TypeRef := c.inputTypes.head?.join

/-- The input type one level out, such as the list type of an item. -/
def parentInputType? (c : TypeContext) : Option TypeRef := c.inputTypes.tail.head?.join

def field? (c : TypeContext) : Option TypeSystem.Field := c.fields.head?.join

def default? (c : TypeContext) : Option Literal := c.defaults.head?.join

/-- Nothing is known, as before the first node and after the last. -/
def isBalanced (c : TypeContext) : Bool :=
  c.types.isEmpty && c.parents.isEmpty && c.inputTypes.isEmpty && c.fields.isEmpty &&
    c.defaults.isEmpty && c.directive.isNone && c.argument.isNone && c.enumValue.isNone

variable (schema : Schema)

def outputType? (type : TypeRef) : Option TypeRef :=
  if schema.isOutputType type then some type else none

def inputTypeOf? (type : TypeRef) : Option TypeRef :=
  if schema.isInputType type then some type else none

def enterSelectionSet (c : TypeContext) : TypeContext :=
  { c with parents := ((c.type?.bind schema.core?).filter (·.isComposite)) :: c.parents }

def enterField (name : String) (c : TypeContext) : TypeContext :=
  let field := c.parent?.bind fun parent => schema.field? parent name
  { c with
    fields := field :: c.fields
    types := field.bind (fun f => outputType? schema f.type) :: c.types }

def enterDirective (name : String) (c : TypeContext) : TypeContext :=
  { c with directive := schema.directive? name }

def enterOperation (operation : OperationType) (c : TypeContext) : TypeContext :=
  { c with types := (schema.root? operation).map (fun t => .named t.name) :: c.types }

/-- A fragment without a condition has the type around it, without wrappers. -/
def enterInlineFragment (condition : Option NamedType) (c : TypeContext) : TypeContext :=
  let type : Option TypeRef := match condition with
    | some t => some (.named t.name.value)
    | none => c.type?.map fun t => TypeRef.named t.coreName
  { c with types := type.bind (outputType? schema) :: c.types }

def enterFragment (condition : NamedType) (c : TypeContext) : TypeContext :=
  { c with types := outputType? schema (.named condition.name.value) :: c.types }

def enterVariableDefinition (type : TypeNode) (c : TypeContext) : TypeContext :=
  { c with inputTypes := inputTypeOf? schema type.toTypeRef :: c.inputTypes }

/-- An argument belongs to the directive around it if that is known, else to the field. -/
def enterArgument (name : String) (c : TypeContext) : TypeContext :=
  let arguments : Option (List InputValue) := match c.directive with
    | some d => some d.arguments
    | none => c.field?.map (·.arguments)
  let argument := arguments.bind fun arguments => arguments.find? (·.name = name)
  { c with
    argument
    defaults := argument.bind (·.default) :: c.defaults
    inputTypes := argument.bind (fun a => inputTypeOf? schema a.type) :: c.inputTypes }

def enterList (c : TypeContext) : TypeContext :=
  let item := c.inputType?.map fun type =>
    match type.nullable with
    | .list item => item
    | other => other
  { c with
    defaults := none :: c.defaults
    inputTypes := item.bind (inputTypeOf? schema) :: c.inputTypes }

def enterObjectField (name : String) (c : TypeContext) : TypeContext :=
  let field := (c.inputType?.bind schema.core?).bind (·.inputField? name)
  { c with
    defaults := field.bind (·.default) :: c.defaults
    inputTypes := field.bind (fun f => inputTypeOf? schema f.type) :: c.inputTypes }

def enterEnumValue (name : String) (c : TypeContext) : TypeContext :=
  { c with enumValue := (c.inputType?.bind schema.core?).bind (·.enumValue? name) }

def enter (n : Node) (c : TypeContext) : TypeContext :=
  match n with
  | .selectionSet _ => c.enterSelectionSet schema
  | .selection (.field f) => c.enterField schema f.name.value
  | .directive d => c.enterDirective schema d.name.value
  | .definition (.operation d) => c.enterOperation schema d.operation
  | .selection (.inlineFragment f) => c.enterInlineFragment schema f.typeCondition
  | .definition (.fragment d) => c.enterFragment schema d.typeCondition
  | .variableDefinition d => c.enterVariableDefinition schema d.type
  | .argument a => c.enterArgument schema a.name.value
  | .value (.list _ _) => c.enterList schema
  | .objectField f => c.enterObjectField schema f.name.value
  | .value (.enum name _) => c.enterEnumValue schema name
  | _ => c

def popType (c : TypeContext) : TypeContext := { c with types := c.types.tail }

def popInput (c : TypeContext) : TypeContext :=
  { c with inputTypes := c.inputTypes.tail, defaults := c.defaults.tail }

def leave (n : Node) (c : TypeContext) : TypeContext :=
  match n with
  | .selectionSet _ => { c with parents := c.parents.tail }
  | .selection (.field _) => { c.popType with fields := c.fields.tail }
  | .directive _ => { c with directive := none }
  | .definition (.operation _) | .selection (.inlineFragment _) | .definition (.fragment _) =>
    c.popType
  | .variableDefinition _ => { c with inputTypes := c.inputTypes.tail }
  | .argument _ => { c.popInput with argument := none }
  | .value (.list _ _) | .objectField _ => c.popInput
  | .value (.enum _ _) => { c with enumValue := none }
  | _ => c

end TypeContext

variable {σ ε : Type}

/-- A visitor whose hooks see the type context of the node. -/
structure TypedVisitor (σ ε : Type) where
  enter : TypeContext → Node → List PathSegment → σ → Except ε Action × σ :=
    fun _ _ _ s => (.ok .proceed, s)
  leave : TypeContext → Node → List PathSegment → σ → Except ε Action × σ :=
    fun _ _ _ s => (.ok .proceed, s)
  abandon : TypeContext → Node → List PathSegment → σ → σ := fun _ _ _ s => s

def isProceed : Except ε Action → Bool
  | .ok .proceed => true
  | _ => false

/-- Keeps the context in step with the walk: it enters a node before the hook and leaves it after
the leaving hook, or at once when the walk does not go below. -/
def TypedVisitor.toVisitor (schema : Schema) (v : TypedVisitor σ ε) :
    Visitor (TypeContext × σ) ε where
  enter n path s :=
    let c := s.1.enter schema n
    let (action, t) := v.enter c n path s.2
    (action, if isProceed action then (c, t) else (c.leave n, t))
  leave n path s :=
    let (action, t) := v.leave s.1 n path s.2
    (action, s.1.leave n, t)
  abandon n path s := (s.1.leave n, v.abandon s.1 n path s.2)

end GraphQL.Visit
