import GraphQL.Proofs.Source.BlockNodes

/-!
Block strings read back. Main statement: a block string is read as its value, printed alone or
anywhere inside a node, if and only if its value is kept.
-/
namespace GraphQL

open Ast

/-- The block strings of a printed node are read as their values if and only if all are kept. -/
theorem Ast.Node.shows_iff {n : Node} (spelled : n.Spelled) (fits : n.nesting ≤ nestingLimit) :
    (lex n.print.toList).Shows n.blockStrings ↔
      ∀ value ∈ n.blockStrings, KeptInBlock value :=
  Writes.shows_iff (n.lays spelled fits) Position.start (Nat.le_refl _)

/-- A printed block string is read as one token with its value if and only if that is kept. -/
theorem lex_printBlockString {value : String} (noReturn : '\r' ∉ value.toList) :
    ((lex (printBlockString value).toList).complete = true ∧
        ∃ raw, (lex (printBlockString value).toList).lexemes.map (·.token) = [.blockString raw] ∧
          blockStringValue raw = value.toList) ↔ KeptInBlock value := by
  generalize htext : (printBlockString value).toList = text
  have writes : Writes nestingLimit nestingLimit text [value] := by
    have all := @Writes.block nestingLimit nestingLimit 0 value [] [] noReturn .nil
    rwa [indented_zero, List.append_nil, htext] at all
  constructor
  · rintro ⟨complete, raw, tokens, same⟩
    have shows : (lex text).Shows [value] := by
      refine ⟨complete, ?_⟩
      have values : (lex text).blockValues =
          ((lex text).lexemes.map (·.token)).filterMap Token.blockValue? := by
        rw [List.filterMap_map]
        rfl
      rw [values, tokens]
      simp [Token.blockValue?, same]
    exact (writes.shows_iff Position.start (Nat.le_refl _)).mp shows value List.mem_cons_self
  · intro kept
    obtain ⟨raw, scan, same⟩ := kept.scan noReturn 0 []
    rw [indented_zero, htext] at scan
    obtain ⟨budget, length⟩ : ∃ budget, text.length = budget + 1 := by
      have some := indented_printBlockString_ne_nil 0 value
      rw [indented_zero, htext] at some
      exact ⟨text.length - 1, by have := List.length_pos_iff.mpr some; omega⟩
    have nests : nestingAfter? nestingLimit (.blockString raw) = some nestingLimit := rfl
    have tokens := lexFrom_token (List.append_nil text).symm (by simpa using scan) nests
      Position.start (budget + 1)
    rw [lex, length, tokens]
    exact ⟨rfl, raw, rfl, same⟩

/-- A block string is read as its value, printed alone or anywhere inside a node whose other block
strings are, if and only if its value is kept. -/
theorem Ast.StringValue.blockPrint_readsBack {s : StringValue} (block : s.block = true)
    (noReturn : '\r' ∉ s.value.toList) :
    (((lex s.print.toList).complete = true ∧
        ∃ raw, (lex s.print.toList).lexemes.map (·.token) = [.blockString raw] ∧
          blockStringValue raw = s.value.toList) ↔ KeptInBlock s.value) ∧
      ∀ n : Node, s.value ∈ n.blockStrings → n.Spelled → n.nesting ≤ nestingLimit →
        (∀ other ∈ n.blockStrings, other ≠ s.value → KeptInBlock other) →
        ((lex n.print.toList).Shows n.blockStrings ↔ KeptInBlock s.value) := by
  constructor
  · rw [StringValue.print, if_pos block]
    exact lex_printBlockString noReturn
  · intro n member spelled fits others
    rw [Node.shows_iff spelled fits]
    refine ⟨fun all => all s.value member, fun kept value hv => ?_⟩
    by_cases same : value = s.value
    · exact same ▸ kept
    · exact others value hv same

/-- Two paragraphs, the second of them indented and with quotes at its end. -/
def paragraphs : StringValue := ⟨"The user.\n\n  Known as \"\"\"id\"\"\"", true, none⟩

/-- A field that takes the paragraphs for an argument, in two selection sets, and a type with a
field that they describe. -/
def paragraphsInside : Document :=
  let argument : Argument := ⟨⟨"text", none⟩, .string paragraphs, none⟩
  let inner : Field := ⟨none, ⟨"inner", none⟩, [argument], [], none, none⟩
  let outer : Field := ⟨none, ⟨"outer", none⟩, [], [], some ⟨[.field inner], none⟩, none⟩
  let described : FieldDefinition :=
    ⟨some paragraphs, ⟨"name", none⟩, [], .named ⟨⟨"String", none⟩, none⟩, [], none⟩
  ⟨[.operation ⟨.query, none, [], [], ⟨[.field outer], none⟩, none⟩,
    .object ⟨none, ⟨"User", none⟩, [], [], [described], none⟩], none⟩

theorem Ast.StringValue.blockPrint_readsBack_inside :
    paragraphs.block = true ∧ '\r' ∉ paragraphs.value.toList ∧ KeptInBlock paragraphs.value ∧
      ((lex paragraphs.print.toList).complete = true ∧
        ∃ raw, (lex paragraphs.print.toList).lexemes.map (·.token) = [.blockString raw] ∧
          blockStringValue raw = paragraphs.value.toList) ∧
      (Node.document paragraphsInside).blockStrings = [paragraphs.value, paragraphs.value] ∧
      (lex paragraphsInside.print.toList).Shows [paragraphs.value, paragraphs.value] := by
  have noReturn : '\r' ∉ paragraphs.value.toList := by decide +kernel
  have kept : KeptInBlock paragraphs.value := by decide +kernel
  have values : (Node.document paragraphsInside).blockStrings =
      [paragraphs.value, paragraphs.value] := rfl
  have readsBack := Ast.StringValue.blockPrint_readsBack (s := paragraphs) rfl noReturn
  refine ⟨rfl, noReturn, kept, readsBack.1.mpr kept, values, ?_⟩
  rw [← values]
  refine (readsBack.2 (.document paragraphsInside) ?_ ?_ ?_ ?_).mpr kept
  · rw [values]
    exact List.mem_cons_self
  · decide +kernel
  · decide +kernel
  · rw [values]
    intro other ho different
    simp [different] at ho

/-- A backslash before the closing quotes, blank lines at the ends and common indentation are lost
to values that are printed as block strings. -/
theorem printBlockString_lost :
    (lex (printBlockString "a\\").toList).complete = false ∧
      ∀ lost ∈ [(" ", ""), ("\na", "a"), ("a\n", "a"), ("  a\n  b", "a\nb"), ("  a\"", "a\"")],
        (lex (printBlockString lost.1).toList).Shows [lost.2] := by
  decide +kernel

end GraphQL
