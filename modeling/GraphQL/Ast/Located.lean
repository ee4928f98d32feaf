import GraphQL.Ast.Basic
import GraphQL.TypeSystem

/-!
Nodes for what the source holds: spans from positions, and nodes for literals, type references
and directives. Without lines no node has a span.
-/
namespace GraphQL.Ast

/-- Floats are positional from 10^-4 up to 10^16 and have an unsigned exponent outside. -/
def floatLayout : DecimalLayout := ⟨-4, 16, false, false⟩

def floatText : Binary64 → String
  | .finite x => floatLayout.text x
  | .infinite true => "-inf"
  | .infinite false => "inf"
  | .nan => "NaN"

/-- The furthest end of some spans, at least `start`. -/
def furthestEnd (start : Nat) : List (Option Location) → Nat
  | [] => start
  | none :: rest => furthestEnd start rest
  | some loc :: rest => furthestEnd (max start loc.stop) rest

/-- The span from a position to the furthest end of the children. -/
def span (lines : Option Lines) (p : Position) (children : List (Option Location)) :
    Option Location :=
  lines.map fun lines =>
    ⟨lines.offset p, furthestEnd (lines.offset p) children, p.line, p.column⟩

/-- The span of a bracketed group, its closing bracket included. -/
def bracketSpan (lines : Option Lines) (opening closing : Position) : Option Location :=
  lines.map fun lines =>
    ⟨lines.offset opening, min (lines.offset closing + 1) lines.size, opening.line, opening.column⟩

def documentSpan (lines : Option Lines) : Option Location :=
  lines.map fun lines => ⟨0, lines.size, 1, 1⟩

mutual

def Value.ofLiteral : Literal → Value
  | .variable name => .variable ⟨⟨name, none⟩, none⟩
  | .int n => .int (integerText n) none
  | .float x => .float (floatText x) none
  | .string text => .string ⟨text, false, none⟩
  | .boolean value => .boolean value none
  | .null => .null none
  | .enum name => .enum name none
  | .list items => .list (valuesOfLiterals items) none
  | .object fields => .object (fieldsOfLiterals fields) none

def valuesOfLiterals : List Literal → List Value
  | [] => []
  | item :: rest => Value.ofLiteral item :: valuesOfLiterals rest

def fieldsOfLiterals : List (String × Literal) → List ObjectField
  | [] => []
  | (name, value) :: rest => ⟨⟨name, none⟩, Value.ofLiteral value, none⟩ :: fieldsOfLiterals rest

end

def TypeNode.ofTypeRef : TypeRef → TypeNode
  | .named name => .named ⟨⟨name, none⟩, none⟩
  | .list item => .list (ofTypeRef item) none
  | .nonNull inner => .nonNull (ofTypeRef inner) none

def TypeNode.toTypeRef : TypeNode → TypeRef
  | .named t => .named t.name.value
  | .list item _ => .list item.toTypeRef
  | .nonNull inner _ => .nonNull inner.toTypeRef

theorem TypeNode.toTypeRef_ofTypeRef (t : TypeRef) : (ofTypeRef t).toTypeRef = t := by
  induction t with
  | named name => rfl
  | list item ih => simp [ofTypeRef, toTypeRef, ih]
  | nonNull inner ih => simp [ofTypeRef, toTypeRef, ih]

def argumentsOf (arguments : List (String × Literal)) : List Argument :=
  arguments.map fun (name, value) => ⟨⟨name, none⟩, Value.ofLiteral value, none⟩

def Directive.located (lines : Option Lines) (d : TypeSystem.Directive) : Directive :=
  ⟨⟨d.name, none⟩, argumentsOf d.arguments, span lines d.position []⟩

/-- Where a span starts, if there is one. -/
def startOf (loc : Option Location) : List Position :=
  (loc.map fun loc => (⟨loc.line, loc.column⟩ : Position)).toList

end GraphQL.Ast
