import GraphQL.Ast.Basic
import GraphQL.Error
import GraphQL.Number.Decimal
import GraphQL.Source.Token

/-!
Nodes from unchecked text: names, enum values, number literals and non-null types.
-/
namespace GraphQL.Ast

def Name.ofText? (text : String) : Except AstError Name :=
  if isName text then .ok ⟨text, none⟩ else .error (.invalidName text)

/-- An optional minus, then zero or digits without a leading zero. -/
def isIntLiteral (text : String) : Bool :=
  let digits := match text.toList with
    | '-' :: rest => rest
    | cs => cs
  !digits.isEmpty && digits.all isAsciiDigit && (digits = ['0'] || digits.head? != some '0')

def Value.ofIntText? (text : String) : Except AstError Value :=
  if isIntLiteral text then .ok (.int text none) else .error (.invalidInt text)

def Value.ofInt (n : Int) : Value := .int (integerText n) none

/-- Reads as a finite number, has a point or an exponent, and starts with neither point nor plus. -/
def isFloatLiteral (text : String) : Bool :=
  (match Binary64.ofText? text with
    | some x => x.isFinite
    | none => false) &&
  text.toList.any (fun c => c = '.' || c = 'e' || c = 'E') &&
  text.toList.head? != some '.' && text.toList.head? != some '+'

def Value.ofFloatText? (text : String) : Except AstError Value :=
  if isFloatLiteral text then .ok (.float text none) else .error (.invalidFloat text)

def Value.ofEnumName? (text : String) : Except AstError Value :=
  if !isName text then .error (.invalidName text)
  else if text = "true" ∨ text = "false" ∨ text = "null" then .error (.invalidEnumValue text)
  else .ok (.enum text none)

/-- A non-null type, unless the type is non-null already. -/
def TypeNode.nonNull? (inner : TypeNode) : Except AstError TypeNode :=
  if inner.isNonNull then .error .nestedNonNull else .ok (.nonNull inner none)

end GraphQL.Ast
