import GraphQL.Proofs.Source.DocumentText
import GraphQL.Proofs.Source.Parsed

/-!
Printing and parsing. Main statement: the printed text of a document that was parsed is parsed to
the document again, unless it has literals whose text does not read back.
-/
namespace GraphQL

open Ast

/-- A parsed document is what its printed text is parsed to. -/
theorem parseQuery_print {source : String} {d : Document} (h : parseQuery source false = .ok d)
    (printable : (Node.document d).Printable) : parseQuery d.print false = .ok d :=
  (fits_of_parseQuery h).parse_print printable

/-- A query as it may be written. -/
def looseQuery : String :=
  "query Q($v: [Int!] = [1 null]) @d(x: -15e-10) \x7b
    a: f(o: \x7bs: \"\\u0022\\n\", k: $v\x7d) \x7b ... \x7b ...F \x7d \x7d \x7d"

def neatQuery : String :=
  "query Q($v: [Int!] = [1, null]) @d(x: -1.5e-9) \x7b
  a: f(o: \x7bk: $v, s: \"\\\"\\n\"\x7d) \x7b
    ... \x7b
      ...F
    \x7d
  \x7d
\x7d"

theorem parseQuery_print_looseQuery :
    ∃ d, parseQuery looseQuery false = .ok d ∧ (Node.document d).Printable ∧
      d.print = neatQuery ∧ parseQuery d.print false = .ok d := by
  have found : (parseQuery looseQuery false).toOption.any
      fun d => (Node.document d).Printable ∧ d.print = neatQuery := by decide +kernel
  obtain ⟨d, parsed, plain⟩ := (Option.any_eq_true _ _).mp found
  obtain ⟨printable, text⟩ := of_decide_eq_true plain
  replace parsed : parseQuery looseQuery false = .ok d := by
    revert parsed
    cases parseQuery looseQuery false <;> simp [Except.toOption]
  exact ⟨d, parsed, printable, text, parseQuery_print parsed printable⟩

end GraphQL
