import GraphQL.Proofs.Validation.LiteralAgreement

/-!
Literals in documents and the types wanted where they are written. Main statement: the rule on
literals reports nothing at a literal and inside it if and only if the literal has a value at its
type, as long as object literals name defined fields, each once, and input object types have no
field twice with different types.
-/
namespace GraphQL.Validation

open Ast TypeSystem Visit

section

variable {schema : Schema}

def literalErrors (context : ValidationContext) (v : Visited) : List ValidationError :=
  (literalCheck.at context v).map fun f => ⟨f.locations, f.violation.message, "ValuesOfCorrectType"⟩

theorem valuesOfCorrectType_check (context : ValidationContext) :
    valuesOfCorrectType.check context =
      (visits context.schema {} [] context.document.tree).flatMap (literalErrors context) := by
  have findings := NodeCheck.findings_eq literalCheck context
  change (literalCheck.findings context).map _ = _
  rw [findings, List.map_flatMap]
  rfl

/-- An object literal for an input object type names defined fields, each once. -/
def NamesFieldsOnce (schema : Schema) (v : Visited) : Prop :=
  ∀ literal, v.node.value? = some literal →
    NamesOnce (v.context.inputType?.bind schema.core?) literal

instance (schema : Schema) (v : Visited) : Decidable (NamesFieldsOnce schema v) :=
  decidable_of_iff (∀ literal ∈ v.node.value?.toList,
    NamesOnce (v.context.inputType?.bind schema.core?) literal) (by simp [NamesFieldsOnce])

theorem reads_quiet (document : Document) :
    Reads schema (fun v => literalErrors ⟨schema, document⟩ v = []) (Quiet schema) := by
  have errors : ∀ v : Visited, literalErrors ⟨schema, document⟩ v = [] ↔
      literalCheck ⟨schema, document⟩ v.context v.node v.path = [] := by
    intro v
    simp [literalErrors, NodeCheck.at]
  constructor
  · intro c n path
    rw [errors]
    rfl
  · intro c f path
    rw [errors]
    rfl
  · intro c v path
    rw [errors, literalCheck_enter, Quiet]

theorem reads_constant : Reads schema (fun v => v.node.kind ≠ .variable) Constant :=
  ⟨fun _ _ _ => by simp [Node.kind], fun _ _ _ => by simp [Node.kind], fun _ _ _ => Iff.rfl⟩

theorem reads_distinct : Reads schema (NamesFieldsOnce schema) (Distinct schema) := by
  constructor
  · intro c n path literal hn
    cases hn
  · intro c f path literal hn
    cases hn
  · intro c v path
    have same : NamesOnce ((c.enter schema (.value v)).inputType?.bind schema.core?) v ↔
        Distinct schema c.inputType? v := by
      cases v <;> rfl
    rw [← same]
    exact ⟨fun h => h v rfl, fun h literal hl => by cases hl; exact h⟩

/-- A literal without variables that is written where an input type is wanted has a value at it if
the rule on literals reports nothing there and inside, unless an input object type has a field
twice with different types; and the other way round, if object literals name defined fields, each
once. -/
theorem literals_agree {definitions : List TypeSystem.Definition}
    (built : Schema.ofDefinitions definitions = .ok schema)
    (inputFields : ∀ name t, schema.type? name = some (.inputObject t) →
      ∀ d ∈ t.fields, InputType schema d.type)
    {document : Document} {way : List PathSegment} {literal : Value} {type : TypeRef}
    (written : Written schema document.tree way literal type) (input : InputType schema type)
    (constant : AtOrInside schema document.tree way fun v => v.node.kind ≠ .variable) :
    valuesOfCorrectType.check ⟨schema, document⟩ =
        (visits schema {} [] document.tree).flatMap (literalErrors ⟨schema, document⟩) ∧
      (FieldsConsistent schema →
        AtOrInside schema document.tree way
          (fun v => literalErrors ⟨schema, document⟩ v = []) →
        (literalValue schema [] literal type).isSome = true) ∧
      (AtOrInside schema document.tree way (NamesFieldsOnce schema) →
        (literalValue schema [] literal type).isSome = true →
        AtOrInside schema document.tree way
          fun v => literalErrors ⟨schema, document⟩ v = []) := by
  have grammatical : document.tree.Grammatical := document.taken.2
  have expected := written.inputType?_eq grammatical input
  have below : ∀ {Q : Visited → Prop} {P : Option TypeRef → Value → Prop}, Reads schema Q P →
      (AtOrInside schema document.tree way Q ↔ Throughout schema P (some type) literal) := by
    intro Q P reads
    rw [AtOrInside, forall_visits_below grammatical written.leads, visits_iff_throughout reads,
      expected]
  rw [below reads_constant] at constant
  rw [below (reads_quiet document), below reads_distinct]
  have agree := agrees ⟨Schema.ofDefinitions_namesOwn built, inputFields⟩ literal type input
    constant
  exact ⟨valuesOfCorrectType_check ⟨schema, document⟩, agree.1, agree.2⟩

end

namespace Points

def source : Position := ⟨1, 1⟩

def inputValue (name : String) (type : TypeRef) : InputValue :=
  ⟨source, none, name, type, none, []⟩

/-- `type Query { near(p: Point): Int }` -/
def query : ObjectType :=
  ⟨source, none, "Query", [], [],
    [⟨source, none, "near", [inputValue "p" (.named "Point")], .named "Int", []⟩]⟩

/-- `input Point { x: Int! tags: [String!] inner: Point }` -/
def point : InputObjectType :=
  ⟨source, none, "Point", [],
    [inputValue "x" (.nonNull (.named "Int")), inputValue "tags" (.list (.nonNull (.named "String"))),
      inputValue "inner" (.named "Point")]⟩

/-- `input Point { x: Int x: String }` -/
def twice : InputObjectType :=
  ⟨source, none, "Point", [], [inputValue "x" (.named "Int"), inputValue "x" (.named "String")]⟩

def definitions (point : InputObjectType) : List TypeSystem.Definition :=
  [.type (.object query), .type (.inputObject point)]

def schema (point : InputObjectType) : Schema where
  types := [("Query", .object query), ("Point", .inputObject point)] ++
    builtinScalars.map fun t => (t.name, .scalar t)
  directives := builtinDirectives.map fun d => (d.name, d)
  query := "Query"
  mutation := none
  subscription := none

def objectField (name : String) (value : Value) : ObjectField := ⟨⟨name, none⟩, value, none⟩

/-- `{ x: 1 }` -/
def bare : Value := .object [objectField "x" (.int "1")]

/-- `{ x: 1, tags: "a", inner: { x: 2, tags: ["b"] } }` -/
def literal : Value :=
  .object [objectField "x" (.int "1"), objectField "tags" (.string ⟨"a", false, none⟩),
    objectField "inner" (.object [objectField "x" (.int "2"),
      objectField "tags" (.list [.string ⟨"b", false, none⟩])])]

def near (literal : Value) : Ast.Field :=
  ⟨none, ⟨"near", none⟩, [⟨⟨"p", none⟩, literal, none⟩], [], none, none⟩

def set (literal : Value) : SelectionSet := ⟨[.field (near literal)], none⟩

def operation (literal : Value) : OperationDefinition := ⟨.query, none, [], [], set literal, none⟩

/-- `{ near(p: literal) }` -/
def document (literal : Value) : Document := ⟨[.operation (operation literal)], none⟩

def way (literal : Value) : List PathSegment :=
  [⟨.document (document literal), "definitions", some 0⟩,
    ⟨.definition (.operation (operation literal)), "selection_set", none⟩,
    ⟨.selectionSet (set literal), "selections", some 0⟩,
    ⟨.selection (.field (near literal)), "arguments", some 0⟩,
    ⟨.argument ⟨⟨"p", none⟩, literal, none⟩, "value", none⟩]

theorem leads (literal : Value) :
    Leads (document literal).tree
      [⟨.document (document literal), "definitions", some 0⟩,
        ⟨.definition (.operation (operation literal)), "selection_set", none⟩,
        ⟨.selectionSet (set literal), "selections", some 0⟩] (near literal).tree :=
  .down (b := ⟨.many "definitions" .definition, [(Definition.operation (operation literal)).tree]⟩)
    (i := 0) (.head _) rfl
    (.down (b := ⟨.selectionSet, [(set literal).tree]⟩) (i := 0)
      (.tail _ (.tail _ (.tail _ (.head _)))) rfl
      (.down (b := ⟨.many "selections" .selection, [(near literal).tree]⟩) (i := 0)
        (.head _) rfl .here))

theorem written (point : InputObjectType) (literal : Value) :
    Written (schema point) (document literal).tree (way literal) literal (.named "Point") :=
  .fieldArgument (d := inputValue "p" (.named "Point")) (i := 0) (leads literal) rfl
    (show _ = some (.object query) from rfl) rfl rfl

theorem input_point (point : InputObjectType) : InputType (schema point) (.named "Point") :=
  ⟨rfl, trivial⟩

theorem eq_point {point : InputObjectType} {name : String} {t : InputObjectType}
    (h : (schema point).type? name = some (.inputObject t)) : t = point := by
  have := Entries.mem_of_get? h
  have both : name = "Point" ∧ t = point := by simpa [schema, builtinScalars] using this
  exact both.2

theorem inputFields (name : String) (t : InputObjectType)
    (h : (schema point).type? name = some (.inputObject t)) :
    ∀ d ∈ t.fields, InputType (schema point) d.type := by
  rw [eq_point h]
  have x : InputType (schema point) (.nonNull (.named "Int")) := ⟨rfl, rfl, trivial⟩
  have tags : InputType (schema point) (.list (.nonNull (.named "String"))) := ⟨rfl, rfl, trivial⟩
  have inner : InputType (schema point) (.named "Point") := input_point point
  exact List.forall_mem_cons.mpr ⟨x, List.forall_mem_cons.mpr ⟨tags,
    List.forall_mem_singleton.mpr inner⟩⟩

theorem inputFields_twice (name : String) (t : InputObjectType)
    (h : (schema twice).type? name = some (.inputObject t)) :
    ∀ d ∈ t.fields, InputType (schema twice) d.type := by
  rw [eq_point h]
  have int : InputType (schema twice) (.named "Int") := ⟨rfl, trivial⟩
  have string : InputType (schema twice) (.named "String") := ⟨rfl, trivial⟩
  exact List.forall_mem_cons.mpr ⟨int, List.forall_mem_singleton.mpr string⟩

theorem consistent : FieldsConsistent (schema point) := by
  intro name t h
  rw [eq_point h]
  decide

/-- The visits of `{ near(p: { x: 1, tags: "a", inner: { x: 2, tags: ["b"] } }) }`. -/
theorem visits_literal :
    ∀ v ∈ visits (schema point) {} [] (document literal).tree,
      v.node.kind ≠ .variable ∧ NamesFieldsOnce (schema point) v ∧
        (literalErrors ⟨schema point, document literal⟩ v).isEmpty = true := by
  decide +kernel

/-- The visits of `{ near(p: { x: 1 }) }` where a point has two fields `x`. -/
theorem visits_bare :
    ∀ v ∈ visits (schema twice) {} [] (document bare).tree,
      v.node.kind ≠ .variable ∧
        (literalErrors ⟨schema twice, document bare⟩ v).isEmpty = true := by
  decide +kernel

end Points

theorem literals_agree_points :
    Schema.ofDefinitions (Points.definitions Points.point) = .ok (Points.schema Points.point) ∧
      Written (Points.schema Points.point) (Points.document Points.literal).tree
        (Points.way Points.literal) Points.literal (.named "Point") ∧
      InputType (Points.schema Points.point) (.named "Point") ∧
      AtOrInside (Points.schema Points.point) (Points.document Points.literal).tree
        (Points.way Points.literal) (fun v => v.node.kind ≠ .variable) ∧
      valuesOfCorrectType.check ⟨Points.schema Points.point, Points.document Points.literal⟩ = [] ∧
      (literalValue (Points.schema Points.point) [] Points.literal (.named "Point")).isSome = true ∧
      AtOrInside (Points.schema Points.point) (Points.document Points.literal).tree
        (Points.way Points.literal)
        fun v => literalErrors ⟨Points.schema Points.point, Points.document Points.literal⟩ v = [] := by
  have built : Schema.ofDefinitions (Points.definitions Points.point) =
    .ok (Points.schema Points.point) := rfl
  have written := Points.written Points.point Points.literal
  have input := Points.input_point Points.point
  have constant : AtOrInside (Points.schema Points.point) (Points.document Points.literal).tree
      (Points.way Points.literal) fun v => v.node.kind ≠ .variable :=
    fun v hv _ => (Points.visits_literal v hv).1
  have quiet : ∀ v ∈ visits (Points.schema Points.point) {} [] (Points.document Points.literal).tree,
      literalErrors ⟨Points.schema Points.point, Points.document Points.literal⟩ v = [] :=
    fun v hv => List.isEmpty_iff.mp (Points.visits_literal v hv).2.2
  obtain ⟨reported, some_of_quiet, quiet_of_some⟩ :=
    literals_agree built Points.inputFields written input constant
  have some := some_of_quiet Points.consistent fun v hv _ => quiet v hv
  refine ⟨built, written, input, constant, ?_, some,
    quiet_of_some (fun v hv _ => (Points.visits_literal v hv).2.1) some⟩
  rw [reported]
  exact List.flatMap_eq_nil_iff.mpr quiet

/-- Where a point has two fields `x` of different types, the rule looks at the first of them only,
and the literal `{ x: 1 }` that it accepts has no value. -/
theorem accepted_without_value :
    Schema.ofDefinitions (Points.definitions Points.twice) = .ok (Points.schema Points.twice) ∧
      (∀ name t, (Points.schema Points.twice).type? name = some (.inputObject t) →
        ∀ d ∈ t.fields, InputType (Points.schema Points.twice) d.type) ∧
      Written (Points.schema Points.twice) (Points.document Points.bare).tree
        (Points.way Points.bare) Points.bare (.named "Point") ∧
      InputType (Points.schema Points.twice) (.named "Point") ∧
      AtOrInside (Points.schema Points.twice) (Points.document Points.bare).tree
        (Points.way Points.bare) (fun v => v.node.kind ≠ .variable) ∧
      AtOrInside (Points.schema Points.twice) (Points.document Points.bare).tree
        (Points.way Points.bare)
        (fun v => literalErrors ⟨Points.schema Points.twice, Points.document Points.bare⟩ v = []) ∧
      literalValue (Points.schema Points.twice) [] Points.bare (.named "Point") = none :=
  ⟨rfl, Points.inputFields_twice, Points.written Points.twice Points.bare,
    Points.input_point Points.twice, fun v hv _ => (Points.visits_bare v hv).1,
    fun v hv _ => List.isEmpty_iff.mp (Points.visits_bare v hv).2, rfl⟩

end GraphQL.Validation
