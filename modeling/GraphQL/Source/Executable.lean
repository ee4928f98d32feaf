import GraphQL.Ast.Located
import GraphQL.Source.Parser

/-!
The grammar of executable documents: operations and fragments.
-/
namespace GraphQL

namespace Parser

open Ast

variable (lines : Option Lines)

/-- The rest of a field after its first name, which stands at `p`. -/
def field (selectionSet : Parser SelectionSet) (budget : Nat) (p : Position) (first : String) :
    Parser Field := do
  let second ← (do
    if ← nextIs .colon then
      advance
      return some (← name)
    else return none : Parser (Option String))
  let arguments ← arguments false budget
  let directives := (← directives budget).map (Directive.located lines)
  let selectionSet ← (do
    if ← nextIs .braceLeft then return some (← selectionSet) else return none :
      Parser (Option SelectionSet))
  return {
    aliasName := second.map fun _ => ⟨first, none⟩
    name := ⟨second.getD first, none⟩
    arguments := argumentsOf arguments
    directives
    selectionSet
    loc := span lines p (selectionSet.bind (·.loc) :: directives.map (·.loc)) }

/-- The rest of an inline fragment, known by the position after its dots. -/
def inlineFragment (selectionSet : Parser SelectionSet) (budget : Nat) (p : Position)
    (typeCondition : Option NamedType) : Parser InlineFragment := do
  let directives := (← directives budget).map (Directive.located lines)
  let selectionSet ← selectionSet
  let start := match lines with
    | some lines => lines.spreadStart p
    | none => p
  return ⟨typeCondition, directives, selectionSet, span lines start [selectionSet.loc]⟩

def selection (selectionSet : Parser SelectionSet) (budget : Nat) : Parser Selection := do
  if ← nextIs .spread then
    advance
    let p ← position
    match ← peek with
    | some (.name text) => do
      advance
      if text = "on" then
        let condition : NamedType := ⟨⟨← name, none⟩, none⟩
        return .inlineFragment (← inlineFragment lines selectionSet budget p (some condition))
      else
        let directives := (← directives budget).map (Directive.located lines)
        return .spread ⟨⟨text, none⟩, directives, span lines p (directives.map (·.loc))⟩
    | _ => return .inlineFragment (← inlineFragment lines selectionSet budget p none)
  else
    let p ← position
    let first ← name
    return .field (← field lines selectionSet budget p first)

def selectionSet : Nat → Parser SelectionSet
  | 0 => fail
  | budget + 1 => do
    let opening ← position
    let (selections, closing) ←
      enclosed .braceLeft .braceRight (selection lines (selectionSet budget) budget) budget
    return ⟨selections, bracketSpan lines opening closing⟩

def variableDefinition (budget : Nat) : Parser VariableDefinition := do
  let p ← position
  punctuator .dollar
  let name ← name
  punctuator .colon
  let type ← typeRef budget
  let default ← default budget
  return ⟨⟨⟨name, none⟩, none⟩, TypeNode.ofTypeRef type, default.map Value.ofLiteral, [],
    span lines p []⟩

/-- An operation after its keyword, which stands at `p`. -/
def operation (budget : Nat) (p : Position) (type : OperationType) :
    Parser OperationDefinition := do
  let name ← (do
    match ← peek with
    | some (.name text) => do advance; return some ⟨text, none⟩
    | _ => return none : Parser (Option Name))
  let vars ←
    optionalEnclosed .parenLeft .parenRight (variableDefinition lines budget) budget
  let directives := (← directives budget).map (Directive.located lines)
  let selectionSet ← selectionSet lines budget
  return ⟨type, name, vars, directives, selectionSet, span lines p [selectionSet.loc]⟩

def fragment (budget : Nat) (p : Position) : Parser FragmentDefinition := do
  let name ← name
  keyword "on"
  let condition ← Parser.name
  let directives := (← directives budget).map (Directive.located lines)
  let selectionSet ← selectionSet lines budget
  return ⟨⟨name, none⟩, ⟨⟨condition, none⟩, none⟩, directives, selectionSet,
    span lines p [selectionSet.loc]⟩

/-- An operation, a fragment, or a selection set alone, which is a query. -/
def executableDefinition (budget : Nat) : Parser Definition := do
  if ← nextIs .braceLeft then
    let selectionSet ← selectionSet lines budget
    return .operation ⟨.query, none, [], [], selectionSet, selectionSet.loc⟩
  let p ← position
  if ← nextIsName "fragment" then
    advance
    return .fragment (← fragment lines budget p)
  match ← peek with
  | some (.name text) =>
    match OperationType.ofText? text with
    | some type => do
      advance
      return .operation (← operation lines budget p type)
    | none => fail
  | _ => fail

end Parser

def parseExecutable (source : String) (located : Bool := true) : Except Position Ast.Document :=
  let lines := if located then some (Lines.ofText source.toList) else none
  (Parser.run source fun budget =>
    Parser.definitions (Parser.executableDefinition lines budget) budget).map
      fun definitions => ⟨definitions, Ast.documentSpan lines⟩

end GraphQL
