import GraphQL.Ast.Located
import GraphQL.Ast.Printer

/-!
Executable documents without spans: each node with its own lemmas on what is left of it.
-/
namespace GraphQL

namespace Ast

def Name.bare (n : Name) : Name := ⟨n.value, none⟩

def Variable.bare (v : Variable) : Variable := ⟨v.name.bare, none⟩

def StringValue.bare (s : StringValue) : StringValue := ⟨s.value, s.block, none⟩

def NamedType.bare (t : NamedType) : NamedType := ⟨t.name.bare, none⟩

mutual

/-- The literal without spans. -/
def Value.bare : Value → Value
  | .variable v => .variable v.bare
  | .int text _ => .int text none
  | .float text _ => .float text none
  | .string s => .string s.bare
  | .boolean b _ => .boolean b none
  | .null _ => .null none
  | .enum name _ => .enum name none
  | .list values _ => .list (bareValues values) none
  | .object fields _ => .object (bareObjectFields fields) none

def ObjectField.bare : ObjectField → ObjectField
  | ⟨name, value, _⟩ => ⟨name.bare, value.bare, none⟩

def bareValues : List Value → List Value
  | [] => []
  | v :: rest => v.bare :: bareValues rest

def bareObjectFields : List ObjectField → List ObjectField
  | [] => []
  | f :: rest => f.bare :: bareObjectFields rest

end

def TypeNode.bare : TypeNode → TypeNode
  | .named t => .named t.bare
  | .list item _ => .list item.bare none
  | .nonNull inner _ => .nonNull inner.bare none

def Argument.bare (a : Argument) : Argument := ⟨a.name.bare, a.value.bare, none⟩

def Directive.bare (d : Directive) : Directive := ⟨d.name.bare, d.arguments.map Argument.bare, none⟩

def FragmentSpread.bare (s : FragmentSpread) : FragmentSpread :=
  ⟨s.name.bare, s.directives.map Directive.bare, none⟩

mutual

def SelectionSet.bare : SelectionSet → SelectionSet
  | ⟨selections, _⟩ => ⟨bareSelections selections, none⟩

def Selection.bare : Selection → Selection
  | .field f => .field f.bare
  | .spread s => .spread s.bare
  | .inlineFragment f => .inlineFragment f.bare

def Field.bare : Field → Field
  | ⟨aliasName, name, arguments, directives, selectionSet, _⟩ =>
    ⟨aliasName.map Name.bare, name.bare, arguments.map Argument.bare,
      directives.map Directive.bare, bareSelectionSet selectionSet, none⟩

def InlineFragment.bare : InlineFragment → InlineFragment
  | ⟨condition, directives, selectionSet, _⟩ =>
    ⟨condition.map NamedType.bare, directives.map Directive.bare, selectionSet.bare, none⟩

def bareSelections : List Selection → List Selection
  | [] => []
  | s :: rest => s.bare :: bareSelections rest

def bareSelectionSet : Option SelectionSet → Option SelectionSet
  | none => none
  | some s => some s.bare

end

def VariableDefinition.bare (d : VariableDefinition) : VariableDefinition :=
  ⟨d.var.bare, d.type.bare, d.defaultValue.map Value.bare, d.directives.map Directive.bare, none⟩

def OperationDefinition.bare (d : OperationDefinition) : OperationDefinition :=
  ⟨d.operation, d.name.map Name.bare, d.variableDefinitions.map VariableDefinition.bare,
    d.directives.map Directive.bare, d.selectionSet.bare, none⟩

def FragmentDefinition.bare (d : FragmentDefinition) : FragmentDefinition :=
  ⟨d.name.bare, d.typeCondition.bare, d.directives.map Directive.bare, d.selectionSet.bare, none⟩

def Definition.bare? : Definition → Option Definition
  | .operation d => some (.operation d.bare)
  | .fragment d => some (.fragment d.bare)
  | _ => none

/-- The operations and fragments of a document, without spans. -/
def Document.bare (document : Document) : Document :=
  ⟨document.definitions.filterMap Definition.bare?, none⟩

@[simp]
theorem Name.bare_value (n : Name) : n.bare.value = n.value := rfl

@[simp]
theorem Field.bare_arguments (f : Field) : f.bare.arguments = f.arguments.map Argument.bare := by
  cases f
  rw [bare]

@[simp]
theorem Field.bare_directives (f : Field) :
    f.bare.directives = f.directives.map Directive.bare := by
  cases f
  rw [bare]

@[simp]
theorem Field.bare_name (f : Field) : f.bare.name = f.name.bare := by
  cases f
  rw [bare]

@[simp]
theorem Field.bare_responseKey (f : Field) : f.bare.responseKey = f.responseKey := by
  obtain ⟨aliasName, name, arguments, directives, selectionSet, loc⟩ := f
  rw [bare]
  cases aliasName <;> rfl

@[simp]
theorem Field.bare_selectionSet (f : Field) :
    f.bare.selectionSet = f.selectionSet.map SelectionSet.bare := by
  obtain ⟨aliasName, name, arguments, directives, selectionSet, loc⟩ := f
  rw [bare]
  cases selectionSet <;> rw [bareSelectionSet] <;> rfl

theorem Document.bare_operations (document : Document) :
    document.bare.operations = document.operations.map OperationDefinition.bare := by
  unfold bare operations
  rw [List.filterMap_filterMap, List.map_filterMap]
  congr 1
  funext d
  cases d <;> rfl

theorem Document.bare_fragments (document : Document) :
    document.bare.fragments = document.fragments.map FragmentDefinition.bare := by
  unfold bare fragments
  rw [List.filterMap_filterMap, List.map_filterMap]
  congr 1
  funext d
  cases d <;> rfl

@[simp]
theorem TypeNode.bare_toTypeRef (t : TypeNode) : t.bare.toTypeRef = t.toTypeRef := by
  induction t with
  | named t => rfl
  | list item loc ih => rw [bare, toTypeRef, toTypeRef, ih]
  | nonNull inner loc ih => rw [bare, toTypeRef, toTypeRef, ih]

mutual

theorem Value.bare_print : ∀ v : Value, v.bare.print = v.print
  | .variable _ | .string _ => by
    rw [Value.bare, Value.print, Value.print]
    rfl
  | .int _ _ | .float _ _ | .null _ | .enum _ _ => by rw [Value.bare, Value.print, Value.print]
  | .boolean b _ => by
    cases b <;> rw [Value.bare, Value.print, Value.print]
  | .list values _ => by
    rw [Value.bare, Value.print, Value.print, printValues_bare values]
  | .object fields _ => by
    rw [Value.bare, Value.print, Value.print, printObjectFields_bare fields]

theorem ObjectField.bare_print : ∀ f : ObjectField, f.bare.print = f.print
  | ⟨name, value, _⟩ => by
    rw [ObjectField.bare, ObjectField.print, ObjectField.print, value.bare_print, Name.bare_value]

theorem printValues_bare :
    ∀ values : List Value, printValues (bareValues values) = printValues values
  | [] => by rw [bareValues]
  | v :: rest => by
    rw [bareValues, printValues, printValues, v.bare_print, printValues_bare rest]

theorem printObjectFields_bare : ∀ fields : List ObjectField,
    printObjectFields (bareObjectFields fields) = printObjectFields fields
  | [] => by rw [bareObjectFields]
  | f :: rest => by
    rw [bareObjectFields, printObjectFields, printObjectFields, f.bare_print,
      printObjectFields_bare rest]

end

end Ast

end GraphQL
