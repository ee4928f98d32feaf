import GraphQL.Source.Lexer
import GraphQL.Source.Literal
import GraphQL.Source.StringLiteral
import GraphQL.TypeRef
import GraphQL.TypeSystem

/-!
Predictive parsing over a list of tokens, and the parts of the grammar that executable and
type-system documents share. A parse fails at the first token that cannot continue it; where
the tokens end it fails at the place where reading stopped, which is written `none`.
-/
namespace GraphQL

abbrev Parser := StateT (List Lexeme) (Except (Option Position))

namespace Parser

variable {α : Type}

def fail : Parser α := do throw ((← get).head?.map (·.position))

def peek : Parser (Option Token) := do return (← get).head?.map (·.token)

/-- The position of the next token, which must exist. -/
def position : Parser Position := do
  match ← get with
  | lexeme :: _ => pure lexeme.position
  | [] => fail

def advance : Parser Unit := modify List.tail

def nextIs (p : Punctuator) : Parser Bool := do return (← peek) = some (.punctuator p)

def nextIsName (word : String) : Parser Bool := do return (← peek) = some (.name word)

def punctuator (p : Punctuator) : Parser Unit := do
  if ← nextIs p then advance else fail

/-- Passes over the punctuator if it is next. -/
def optional (p : Punctuator) : Parser Unit := do
  if ← nextIs p then advance

def keyword (word : String) : Parser Unit := do
  if ← nextIsName word then advance else fail

def name : Parser String := do
  match ← peek with
  | some (.name text) => do advance; pure text
  | _ => fail

/-- Reads items up to a closing punctuator, and gives its position. -/
def itemsUntil (close : Punctuator) (item : Parser α) : Nat → Parser (List α × Position)
  | 0 => fail
  | budget + 1 => do
    if ← nextIs close then
      let p ← position
      advance
      return ([], p)
    else
      let first ← item
      let (rest, p) ← itemsUntil close item budget
      return (first :: rest, p)

/-- Reads one or more items between two punctuators. -/
def enclosed (opening closing : Punctuator) (item : Parser α) (budget : Nat) :
    Parser (List α × Position) := do
  punctuator opening
  let first ← item
  let (rest, p) ← itemsUntil closing item budget
  return (first :: rest, p)

def optionalEnclosed (opening closing : Punctuator) (item : Parser α) (budget : Nat) :
    Parser (List α) := do
  if ← nextIs opening then return (← enclosed opening closing item budget).1
  return []

/-- Reads items as long as each is announced by a punctuator. -/
def itemsWhile (announcing : Punctuator) (item : Parser α) : Nat → Parser (List α)
  | 0 => return []
  | budget + 1 => do
    if ← nextIs announcing then
      let first ← item
      return first :: (← itemsWhile announcing item budget)
    else return []

/-- Reads one or more items with a separator between them; it may stand before the first, too. -/
def separated (separator : Punctuator) (item : Parser α) (budget : Nat) : Parser (List α) := do
  optional separator
  let first ← item
  let rest ← itemsWhile separator (do punctuator separator; item) budget
  return first :: rest

/-- The value of a string token, which fails at the token if an escape is wrong. -/
def string : Parser String := do
  match ← peek with
  | some (.string raw) =>
    match unescape? raw with
    | some text => do advance; pure (String.ofList text)
    | none => fail
  | some (.blockString raw) => do
    advance
    pure (String.ofList (blockStringValue raw))
  | _ => fail

def description : Parser (Option String) := do
  match ← peek with
  | some (.string _) | some (.blockString _) => return some (← string)
  | _ => return none

/-- An input literal; a constant one has no variables at any depth. -/
def value (constant : Bool) : Nat → Parser Literal
  | 0 => fail
  | budget + 1 => do
    match ← peek with
    | some (.name text) => do
      advance
      return if text = "true" then .boolean true
        else if text = "false" then .boolean false
        else if text = "null" then .null
        else .enum text
    | some (.int text) =>
      match readInt64 text with
      | some n => do advance; pure (.int n)
      | none => fail
    | some (.float text) =>
      match Binary64.ofText? (String.ofList text) with
      | some x => do advance; pure (.float x)
      | none => fail
    | some (.string _) | some (.blockString _) => return .string (← string)
    | some (.punctuator .dollar) =>
      if constant then fail
      else do
        advance
        return .variable (← name)
    | some (.punctuator .bracketLeft) => do
      advance
      return .list (← itemsUntil .bracketRight (value constant budget) budget).1
    | some (.punctuator .braceLeft) => do
      advance
      let field : Parser (String × Literal) := do
        let key ← name
        punctuator .colon
        return (key, ← value constant budget)
      return Literal.ofFields (← itemsUntil .braceRight field budget).1
    | _ => fail

/-- The `= value` of a definition, if there. -/
def default (budget : Nat) : Parser (Option Literal) := do
  if ← nextIs .equals then
    advance
    return some (← value true budget)
  return none

def argument (constant : Bool) (budget : Nat) : Parser (String × Literal) := do
  let key ← name
  punctuator .colon
  return (key, ← value constant budget)

def arguments (constant : Bool) (budget : Nat) : Parser (List (String × Literal)) :=
  optionalEnclosed .parenLeft .parenRight (argument constant budget) budget

def directive (budget : Nat) : Parser TypeSystem.Directive := do
  let p ← position
  punctuator .at
  let name ← name
  return ⟨p, name, ← arguments false budget⟩

def directives (budget : Nat) : Parser (List TypeSystem.Directive) :=
  itemsWhile .at (directive budget) budget

def typeRef : Nat → Parser TypeRef
  | 0 => fail
  | budget + 1 => do
    let core ← (do
      if ← nextIs .bracketLeft then
        advance
        let item ← typeRef budget
        punctuator .bracketRight
        return .list item
      else return .named (← name) : Parser TypeRef)
    if ← nextIs .bang then
      advance
      return .nonNull core
    return core

/-- Reads definitions to the end of the tokens, at least one. -/
def definitions (item : Parser α) : Nat → Parser (List α)
  | 0 => fail
  | budget + 1 => do
    let first ← item
    if (← get).isEmpty then return [first]
    return first :: (← definitions item budget)

/-- Parses a whole text with a budget that its tokens cannot exhaust. -/
def run (source : String) (document : Nat → Parser α) : Except Position α :=
  let lexed := lex source.toList
  match document (lexed.lexemes.length + 1) lexed.lexemes with
  | .error p => .error (p.getD lexed.stop)
  | .ok (result, rest) =>
    match rest with
    | lexeme :: _ => .error lexeme.position
    | [] => if lexed.complete then .ok result else .error lexed.stop

end Parser

end GraphQL
