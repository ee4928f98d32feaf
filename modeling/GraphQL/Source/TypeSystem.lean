import GraphQL.Source.Parser

/-!
The grammar of type-system documents.
-/
namespace GraphQL

namespace Parser

open TypeSystem

/-- The 19 places where a directive may stand. -/
def directiveLocations : List String :=
  ["QUERY", "MUTATION", "SUBSCRIPTION", "FIELD", "FRAGMENT_DEFINITION", "FRAGMENT_SPREAD",
    "INLINE_FRAGMENT", "VARIABLE_DEFINITION", "SCHEMA", "SCALAR", "OBJECT", "FIELD_DEFINITION",
    "ARGUMENT_DEFINITION", "INTERFACE", "UNION", "ENUM", "ENUM_VALUE", "INPUT_OBJECT",
    "INPUT_FIELD_DEFINITION"]

def inputValue (budget : Nat) : Parser InputValue := do
  let p ← position
  let description ← description
  let name ← name
  punctuator .colon
  let type ← typeRef budget
  let default ← default budget
  return ⟨p, description, name, type, default, ← directives budget⟩

def argumentDefinitions (budget : Nat) : Parser (List InputValue) :=
  optionalEnclosed .parenLeft .parenRight (inputValue budget) budget

def fieldDefinition (budget : Nat) : Parser Field := do
  let p ← position
  let description ← description
  let name ← name
  let arguments ← argumentDefinitions budget
  punctuator .colon
  let type ← typeRef budget
  return ⟨p, description, name, arguments, type, ← directives budget⟩

def enumValueDefinition (budget : Nat) : Parser EnumValue := do
  let p ← position
  let description ← description
  let name ← name
  return ⟨p, description, name, ← directives budget⟩

def interfaces (budget : Nat) : Parser (List String) := do
  if ← nextIsName "implements" then
    advance
    separated .ampersand name budget
  else return []

def unionMembers (budget : Nat) : Parser (List String) := do
  if ← nextIs .equals then
    advance
    separated .pipe name budget
  else return []

def fieldsBlock (budget : Nat) : Parser (List Field) :=
  optionalEnclosed .braceLeft .braceRight (fieldDefinition budget) budget

/-- A type definition, from its keyword on. -/
def typeDefinition (budget : Nat) (description : Option String) : Parser TypeDefinition := do
  let p ← position
  match ← peek with
  | some (.name "scalar") => do
    advance
    let name ← name
    return .scalar ⟨p, description, name, ← directives budget⟩
  | some (.name "type") => do
    advance
    let name ← name
    let interfaces ← interfaces budget
    let directives ← directives budget
    return .object ⟨p, description, name, interfaces, directives, ← fieldsBlock budget⟩
  | some (.name "interface") => do
    advance
    let name ← name
    let interfaces ← interfaces budget
    let directives ← directives budget
    return .interface ⟨p, description, name, interfaces, directives, ← fieldsBlock budget⟩
  | some (.name "union") => do
    advance
    let name ← name
    let directives ← directives budget
    return .union ⟨p, description, name, directives, ← unionMembers budget⟩
  | some (.name "enum") => do
    advance
    let name ← name
    let directives ← directives budget
    let values ←
      optionalEnclosed .braceLeft .braceRight (enumValueDefinition budget) budget
    return .enum ⟨p, description, name, directives, values⟩
  | some (.name "input") => do
    advance
    let name ← name
    let directives ← directives budget
    let fields ← optionalEnclosed .braceLeft .braceRight (inputValue budget) budget
    return .inputObject ⟨p, description, name, directives, fields⟩
  | _ => fail

/-- An extension adds a directive, or what the kind of type can hold; an interface cannot be
extended by interfaces alone. -/
def addsSomething : TypeDefinition → Bool
  | .scalar t => !t.directives.isEmpty
  | .object t => !t.interfaces.isEmpty || !t.directives.isEmpty || !t.fields.isEmpty
  | .interface t => !t.directives.isEmpty || !t.fields.isEmpty
  | .union t => !t.directives.isEmpty || !t.types.isEmpty
  | .enum t => !t.directives.isEmpty || !t.values.isEmpty
  | .inputObject t => !t.directives.isEmpty || !t.fields.isEmpty

def directiveLocation : Parser String := do
  match ← peek with
  | some (.name text) =>
    if text ∈ directiveLocations then do advance; return text
    else fail
  | _ => fail

def directiveDefinition (budget : Nat) (description : Option String) :
    Parser DirectiveDefinition := do
  let p ← position
  keyword "directive"
  punctuator .at
  let name ← name
  let arguments ← argumentDefinitions budget
  let repeatable ← nextIsName "repeatable"
  if repeatable then advance
  keyword "on"
  let locations ← (do
    match ← peek with
    | some (.name _) | some (.punctuator .pipe) => separated .pipe directiveLocation budget
    | _ => return [] : Parser (List String))
  return ⟨p, description, name, arguments, repeatable, locations⟩

/-- Whether the names are operation names, each at most once. -/
def rootNamesValid (entries : List (String × String)) : Bool :=
  entries.all (fun (name, _) => name ∈ ["query", "mutation", "subscription"]) &&
    (entries.map Prod.fst).eraseDups.length = entries.length

/-- A schema block. A wrong or repeated operation name is an error at its keyword. -/
def schemaDefinition (budget : Nat) : Parser SchemaDefinition := do
  let p ← position
  keyword "schema"
  let directives ← directives budget
  punctuator .braceLeft
  let entry : Parser (String × String) := do
    let operation ← name
    punctuator .colon
    return (operation, ← name)
  let (entries, _) ← itemsUntil .braceRight entry budget
  if rootNamesValid entries then
    return ⟨p, directives, entries.lookup "query", entries.lookup "mutation",
      entries.lookup "subscription"⟩
  else throw (some p)

def typeSystemDefinition (budget : Nat) : Parser Definition := do
  if ← nextIsName "schema" then return .schema (← schemaDefinition budget)
  if ← nextIsName "extend" then
    advance
    let p ← position
    let extension ← typeDefinition budget none
    if addsSomething extension then return .extension extension.name else throw (some p)
  let description ← description
  if ← nextIsName "directive" then return .directive (← directiveDefinition budget description)
  return .type (← typeDefinition budget description)

end Parser

def parseTypeSystem (source : String) : Except Position (List TypeSystem.Definition) :=
  Parser.run source fun budget =>
    Parser.definitions (Parser.typeSystemDefinition budget) budget

end GraphQL
