import GraphQL.Ast.Basic
import GraphQL.Schema.Basic

/-!
The fields that selections ask of an object, grouped by response key in the order of first
occurrence. Fragments are followed once each, and selections that are skipped or on another type
are left out.
-/
namespace GraphQL

open Ast TypeSystem

/-- The condition that the first directive of a name sets; `none` unless its `if` argument is a
Boolean literal or a variable with a Boolean value. -/
def directiveCondition (directives : List Ast.Directive) (vars : Entries Json)
    (name : String) : Option Bool := do
  let d ← directives.find? (·.name.value = name)
  let a ← d.arguments.find? (·.name.value = "if")
  match a.value with
  | .boolean b _ => some b
  | .variable v => (vars.get? v.name.value).bind Json.bool?
  | _ => none

/-- Whether the directives of a selection include it: it is neither skipped nor not included. -/
def isIncluded (directives : List Ast.Directive) (vars : Entries Json) : Bool :=
  directiveCondition directives vars "skip" ≠ some true &&
    directiveCondition directives vars "include" ≠ some false

structure SelectionScope where
  schema : Schema
  fragments : Entries FragmentDefinition
  vars : Entries Json
  runtimeType : TypeDefinition

/-- Fragments by name; of several with one name the first counts. -/
def fragmentTable (document : Document) : Entries FragmentDefinition :=
  document.fragments.map fun f => (f.name.value, f)

/-- Whether a fragment on this type applies to values of the runtime type. -/
def SelectionScope.applies (scope : SelectionScope) (condition : NamedType) : Bool :=
  match scope.schema.type? condition.name.value with
  | none => false
  | some type =>
    type.name = scope.runtimeType.name ||
      match type with
      | .interface t => scope.runtimeType.interfaces.any (· = t.name)
      | .union t => t.types.any (· = scope.runtimeType.name)
      | _ => false

/-- The fields of each response key, and the names of the fragments met. -/
structure Collected where
  fields : Entries (List Ast.Field) := []
  visited : List String := []

def Collected.addField (c : Collected) (f : Ast.Field) : Collected :=
  { c with fields := c.fields.modify f.responseKey [] (· ++ [f]) }

section

variable (scope : SelectionScope) (follow : FragmentDefinition → Collected → Collected)

def collectSpread (s : FragmentSpread) (c : Collected) : Collected :=
  let name := s.name.value
  if c.visited.contains name || !isIncluded s.directives scope.vars then c
  else
    let c := { c with visited := name :: c.visited }
    match scope.fragments.get? name with
    | some f => if scope.applies f.typeCondition then follow f c else c
    | none => c

mutual

def collectSet : SelectionSet → Collected → Collected
  | ⟨selections, _⟩, c => collectSelections selections c

def collectSelections : List Selection → Collected → Collected
  | [], c => c
  | s :: rest, c => collectSelections rest (collectSelection s c)

def collectSelection : Selection → Collected → Collected
  | .field f, c => if isIncluded f.directives scope.vars then c.addField f else c
  | .spread s, c => collectSpread scope follow s c
  | .inlineFragment f, c => collectInline f c

def collectInline : InlineFragment → Collected → Collected
  | ⟨condition, directives, selections, _⟩, c =>
    if isIncluded directives scope.vars && condition.all scope.applies then
      collectSet selections c
    else c

end

end

/-- The selections of a fragment, spreads in it followed through at most `depth` fragments. -/
def collectFragment (scope : SelectionScope) : Nat → FragmentDefinition → Collected → Collected
  | 0, _, c => c
  | depth + 1, f, c => collectSet scope (collectFragment scope depth) f.selectionSet c

/-- The fields that selection sets ask of an object. Each fragment is followed once, so no chain
of spreads is longer than the table of fragments. -/
def collectFields (scope : SelectionScope) (sets : List SelectionSet) : Entries (List Ast.Field) :=
  let follow := collectFragment scope scope.fragments.length
  (sets.foldl (fun c selections => collectSet scope follow selections c) {}).fields

end GraphQL
