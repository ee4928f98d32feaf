import GraphQL.Ast.OfTypeSystem
import GraphQL.Source.Executable
import GraphQL.Source.TypeSystem

/-!
Documents from source text.
-/
namespace GraphQL

/-- Parses operations and fragments, with spans if `located`. -/
def parseQuery (source : String) (located : Bool := true) : Except SyntaxError Ast.Document :=
  (parseExecutable source located).mapError fun p => .parse (parseFailure "query" p)

/-- Parses the definitions of a type system, with spans if `located`. -/
def parseSchema (source : String) (located : Bool := true) : Except SyntaxError Ast.Document := do
  let definitions ← (parseTypeSystem source).mapError fun p =>
    SyntaxError.parse (parseFailure "schema" p)
  let lines := if located then some (Lines.ofText source.toList) else none
  (Ast.Document.ofTypeSystem lines definitions).mapError .node

end GraphQL
