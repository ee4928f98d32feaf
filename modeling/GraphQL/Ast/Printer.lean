import GraphQL.Ast.Node
import GraphQL.Json.Text
import GraphQL.Text.Lines

/-!
Source text of nodes. Empty parts leave no separators behind, blocks are indented by two
spaces a level, and block strings are reindented with the text around them.
-/
namespace GraphQL.Ast

/-- Joins the parts that are not empty. -/
def joinParts (separator : String) (parts : List String) : String :=
  separator.intercalate (parts.filter (· ≠ ""))

/-- The text between two others, or nothing if it is empty. -/
def wrap (before inner after : String) : String :=
  if inner = "" then "" else before ++ inner ++ after

/-- The lines of the text, each two spaces to the right. -/
def indent (text : String) : String :=
  String.ofList (joinLines ((splitLines text.toList).map (' ' :: ' ' :: ·)))

/-- The items on lines of their own, in braces; nothing if there are none. -/
def blockOf (items : List String) : String :=
  wrap "\x7b\n" (indent (joinParts "\n" items)) "\n\x7d"

/-- Escapes triple quotes. -/
def escapeTripleQuotes : List Char → List Char
  | [] => []
  | '"' :: '"' :: '"' :: rest => '\\' :: '"' :: '"' :: '"' :: escapeTripleQuotes rest
  | c :: rest => c :: escapeTripleQuotes rest

/-- A block string; one with several lines or a quote at its end stands on lines of its own. -/
def printBlockString (value : String) : String :=
  let escaped := String.ofList (escapeTripleQuotes value.toList)
  if '\n' ∈ value.toList ∨ value.toList.getLast? = some '"' then
    "\"\"\"\n" ++ escaped ++ "\n\"\"\""
  else "\"\"\"" ++ escaped ++ "\"\"\""

def Variable.print (v : Variable) : String := "$" ++ v.name.value

def StringValue.print (s : StringValue) : String :=
  if s.block then printBlockString s.value else quoted s.value

def NamedType.print (t : NamedType) : String := t.name.value

mutual

def Value.print : Value → String
  | .variable v => v.print
  | .int text _ => text
  | .float text _ => text
  | .string s => s.print
  | .boolean true _ => "true"
  | .boolean false _ => "false"
  | .null _ => "null"
  | .enum name _ => name
  | .list values _ => "[" ++ joinParts ", " (printValues values) ++ "]"
  | .object fields _ => "\x7b" ++ joinParts ", " (printObjectFields fields) ++ "\x7d"

def ObjectField.print : ObjectField → String
  | ⟨name, value, _⟩ => name.value ++ ": " ++ value.print

def printValues : List Value → List String
  | [] => []
  | v :: rest => v.print :: printValues rest

def printObjectFields : List ObjectField → List String
  | [] => []
  | f :: rest => f.print :: printObjectFields rest

end

def TypeNode.print : TypeNode → String
  | .named t => t.print
  | .list item _ => "[" ++ item.print ++ "]"
  | .nonNull inner _ => inner.print ++ "!"

def Argument.print (a : Argument) : String := a.name.value ++ ": " ++ a.value.print

def printArguments (arguments : List Argument) : String :=
  wrap "(" (joinParts ", " (arguments.map Argument.print)) ")"

def Directive.print (d : Directive) : String :=
  "@" ++ d.name.value ++ printArguments d.arguments

def printDirectives (directives : List Directive) : String :=
  joinParts " " (directives.map Directive.print)

def printDefault (value : Option Value) : String := (value.map Value.print).getD ""

def FragmentSpread.print (s : FragmentSpread) : String :=
  "..." ++ s.name.value ++ wrap " " (printDirectives s.directives) ""

mutual

def SelectionSet.print : SelectionSet → String
  | ⟨selections, _⟩ => blockOf (printSelections selections)

def Selection.print : Selection → String
  | .field f => f.print
  | .spread s => s.print
  | .inlineFragment f => f.print

def Field.print : Field → String
  | ⟨aliasName, name, arguments, directives, selectionSet, _⟩ =>
    joinParts " "
      [wrap "" ((aliasName.map Name.value).getD "") ": " ++ name.value ++ printArguments arguments,
        printDirectives directives, printSelectionSet selectionSet]

def InlineFragment.print : InlineFragment → String
  | ⟨condition, directives, selectionSet, _⟩ =>
    joinParts " "
      ["...", wrap "on " ((condition.map NamedType.print).getD "") "", printDirectives directives,
        selectionSet.print]

def printSelections : List Selection → List String
  | [] => []
  | s :: rest => s.print :: printSelections rest

def printSelectionSet : Option SelectionSet → String
  | none => ""
  | some s => s.print

end

def VariableDefinition.print (d : VariableDefinition) : String :=
  d.var.print ++ ": " ++ d.type.print ++ wrap " = " (printDefault d.defaultValue) "" ++
    wrap " " (printDirectives d.directives) ""

/-- A query without name, variables and directives is its selection set alone. -/
def OperationDefinition.print (d : OperationDefinition) : String :=
  if d.operation = .query ∧ d.name = none ∧ d.variableDefinitions.isEmpty ∧ d.directives.isEmpty
  then d.selectionSet.print
  else
    joinParts " "
      [d.operation.text,
        (d.name.map Name.value).getD "" ++
          wrap "(" (joinParts ", " (d.variableDefinitions.map VariableDefinition.print)) ")",
        printDirectives d.directives, d.selectionSet.print]

def FragmentDefinition.print (d : FragmentDefinition) : String :=
  "fragment " ++ d.name.value ++ " on " ++ d.typeCondition.print ++ " " ++
    wrap "" (printDirectives d.directives) " " ++ d.selectionSet.print

def OperationTypeDefinition.print (d : OperationTypeDefinition) : String :=
  d.operation.text ++ ": " ++ d.type.print

/-- A definition after its description, which has a line of its own. -/
def describe (description : Option StringValue) (definition : String) : String :=
  match description with
  | some s => s.print ++ "\n" ++ definition
  | none => definition

def InputValueDefinition.print (d : InputValueDefinition) : String :=
  describe d.description <|
    joinParts " "
      [d.name.value ++ ": " ++ d.type.print, wrap "= " (printDefault d.defaultValue) "",
        printDirectives d.directives]

/-- Argument definitions, on lines of their own if one has a description. -/
def printArgumentDefinitions (arguments : List InputValueDefinition) : String :=
  if arguments.any (·.description.isSome) then
    wrap "(\n" (indent (joinParts "\n" (arguments.map InputValueDefinition.print))) "\n)"
  else wrap "(" (joinParts ", " (arguments.map InputValueDefinition.print)) ")"

def FieldDefinition.print (d : FieldDefinition) : String :=
  describe d.description <|
    d.name.value ++ printArgumentDefinitions d.arguments ++ ": " ++ d.type.print ++
      wrap " " (printDirectives d.directives) ""

def EnumValueDefinition.print (d : EnumValueDefinition) : String :=
  describe d.description (joinParts " " [d.name.value, printDirectives d.directives])

def SchemaDefinition.print (d : SchemaDefinition) : String :=
  joinParts " " ["schema", printDirectives d.directives,
    blockOf (d.operationTypes.map OperationTypeDefinition.print)]

def ScalarTypeDefinition.print (d : ScalarTypeDefinition) : String :=
  describe d.description (joinParts " " ["scalar", d.name.value, printDirectives d.directives])

def printInterfaces (interfaces : List NamedType) : String :=
  wrap "implements " (joinParts " & " (interfaces.map NamedType.print)) ""

def ObjectTypeDefinition.print (d : ObjectTypeDefinition) : String :=
  describe d.description <|
    joinParts " " ["type", d.name.value, printInterfaces d.interfaces,
      printDirectives d.directives, blockOf (d.fields.map FieldDefinition.print)]

def InterfaceTypeDefinition.print (d : InterfaceTypeDefinition) : String :=
  describe d.description <|
    joinParts " " ["interface", d.name.value, printInterfaces d.interfaces,
      printDirectives d.directives, blockOf (d.fields.map FieldDefinition.print)]

def UnionTypeDefinition.print (d : UnionTypeDefinition) : String :=
  describe d.description <|
    joinParts " " ["union", d.name.value, printDirectives d.directives,
      wrap "= " (joinParts " | " (d.types.map NamedType.print)) ""]

def EnumTypeDefinition.print (d : EnumTypeDefinition) : String :=
  describe d.description <|
    joinParts " " ["enum", d.name.value, printDirectives d.directives,
      blockOf (d.values.map EnumValueDefinition.print)]

def InputObjectTypeDefinition.print (d : InputObjectTypeDefinition) : String :=
  describe d.description <|
    joinParts " " ["input", d.name.value, printDirectives d.directives,
      blockOf (d.fields.map InputValueDefinition.print)]

def DirectiveDefinition.print (d : DirectiveDefinition) : String :=
  describe d.description <|
    "directive @" ++ d.name.value ++ printArgumentDefinitions d.arguments ++
      (if d.repeatable then " repeatable" else "") ++ " on " ++
      joinParts " | " (d.locations.map Name.value)

def Definition.print : Definition → String
  | operation d => d.print
  | fragment d => d.print
  | schema d => d.print
  | scalar d => d.print
  | object d => d.print
  | interface d => d.print
  | union d => d.print
  | enum d => d.print
  | inputObject d => d.print
  | directive d => d.print

/-- The definitions with a blank line between them. -/
def Document.print (d : Document) : String :=
  "\n\n".intercalate (d.definitions.map Definition.print)

def Node.print : Node → String
  | name n => n.value
  | document d => d.print
  | definition d => d.print
  | variableDefinition d => d.print
  | selectionSet s => s.print
  | selection s => s.print
  | argument a => a.print
  | value v => v.print
  | objectField f => f.print
  | directive d => d.print
  | type t => t.print
  | operationTypeDefinition d => d.print
  | fieldDefinition d => d.print
  | inputValueDefinition d => d.print
  | enumValueDefinition d => d.print

end GraphQL.Ast
