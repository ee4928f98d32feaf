import GraphQL.Proofs.Source.SchemaParsed
import GraphQL.Proofs.Source.SchemaText

/-!
Printing and parsing type systems. Main statement: the printed text of a document of a type system
that was parsed is parsed to the document again, unless it has a schema block without root types or
literals whose text does not read back.
-/
namespace GraphQL

open Ast

/-- A parsed document of a type system is what its printed text is parsed to. -/
theorem parseSchema_print {source : String} {d : Document}
    (h : parseSchema source false = .ok d)
    (rooted : ∀ s, .schema s ∈ d.definitions → s.operationTypes ≠ [])
    (printable : (Node.document d).Printable) : parseSchema d.print false = .ok d :=
  (declares_of_parseSchema h).parse_print rooted printable

/-- A type system as it may be written. -/
def looseSchema : String :=
  "schema\x7bmutation:M query:Q\x7ddirective @a on
\"\"\"
  A query.
\"\"\"
type Q implements & I @a\x7bf(\"\\\"\" x:Int=15e-10,y:[E!]):U\x7d
union U=|Q|M enum E\x7bA B @a\x7dinput P\x7by:P=\x7bx:2,w:[null]\x7d\x7d
directive @d repeatable on FIELD|QUERY"

def neatSchema : String :=
  "schema \x7b
  query: Q
  mutation: M
\x7d

directive @a on \n
\"A query.\"
type Q implements I @a \x7b
  f(
    \"\\\"\"
    x: Int = 1.5e-9
    y: [E!]
  ): U
\x7d

union U = Q | M

enum E \x7b
  A
  B @a
\x7d

input P \x7b
  y: P = \x7bw: [null], x: 2\x7d
\x7d

directive @d repeatable on FIELD | QUERY"

def Ast.Definition.isRooted : Definition → Bool
  | .schema d => !d.operationTypes.isEmpty
  | _ => true

theorem parseSchema_print_looseSchema :
    ∃ d, parseSchema looseSchema false = .ok d ∧
      (∀ s, .schema s ∈ d.definitions → s.operationTypes ≠ []) ∧
      (Node.document d).Printable ∧ d.print = neatSchema ∧ parseSchema d.print false = .ok d := by
  have found : (parseSchema looseSchema false).toOption.any fun d =>
      d.definitions.all Definition.isRooted ∧ (Node.document d).Printable ∧
        d.print = neatSchema := by decide +kernel
  obtain ⟨d, parsed, plain⟩ := (Option.any_eq_true _ _).mp found
  obtain ⟨all, printable, text⟩ := of_decide_eq_true plain
  replace parsed : parseSchema looseSchema false = .ok d := by
    revert parsed
    cases parseSchema looseSchema false <;> simp [Except.toOption]
  have rooted : ∀ s, .schema s ∈ d.definitions → s.operationTypes ≠ [] := fun s hs none => by
    have some := List.all_eq_true.mp all _ hs
    rw [Definition.isRooted, none] at some
    cases some
  exact ⟨d, parsed, rooted, printable, text, parseSchema_print parsed rooted printable⟩

end GraphQL
