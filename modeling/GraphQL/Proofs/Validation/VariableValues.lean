import GraphQL.Input.Variables
import GraphQL.Proofs.Source.LiteralText
import GraphQL.Proofs.Source.Yields
import GraphQL.Proofs.Validation.Known
import GraphQL.Proofs.Validation.Literals

/-!
The variables of accepted operations. Main statement: for an operation of an accepted document
nothing is wrong with a variable but what the caller gives for it, or fails to give, unless an input
object type has a field twice with different types.
-/
namespace GraphQL

open Ast

/-- What is wrong is the value that is given for the variable, or that none is given. -/
def VariableProblem.OfGiven : VariableProblem → Prop
  | .notAnInputType _ | .invalidDefault _ => False
  | .missing _ | .nullNotAllowed _ | .invalidValue _ => True

def variableProblems (schema : Schema) (given : Entries Json) (d : VariableDefinition) :
    List VariableProblem :=
  match variableValue schema d (given.get? d.var.name.value) with
  | .ok _ => []
  | .error problems => problems

def variableErrors (schema : Schema) (given : Entries Json) (d : VariableDefinition) :
    List CoercionError :=
  (variableProblems schema given d).map fun problem =>
    ⟨problem.message d.var.name.value, startOf d.loc⟩

def variableEntry (schema : Schema) (given : Entries Json) (d : VariableDefinition) :
    Option (String × Json) :=
  match variableValue schema d (given.get? d.var.name.value) with
  | .ok (some value) => some (d.var.name.value, value)
  | _ => none

namespace Validation

open TypeSystem Visit

variable {schema : Schema}

/-- The variables have values unless something is reported about one of them, and then all that is
reported is the error. -/
theorem variableValuesFrom_eq_insert (schema : Schema) (given : Entries Json)
    (ds : List VariableDefinition) (built : Entries Json) (errors : List CoercionError) :
    variableValuesFrom schema given built errors ds =
      if (errors ++ ds.flatMap (variableErrors schema given)).isEmpty then
        .ok ((ds.filterMap (variableEntry schema given)).foldl
          (fun built e => built.insert e.1 e.2) built)
      else .error (errors ++ ds.flatMap (variableErrors schema given)) := by
  induction ds generalizing built errors with
  | nil => simp [variableValuesFrom]
  | cons d rest ih =>
    rw [List.flatMap_cons, ← List.append_assoc, variableValuesFrom, List.filterMap_cons]
    rcases hv : variableValue schema d (given.get? d.var.name.value) with problems | value
    · have here : variableErrors schema given d = problems.map fun problem =>
          ⟨problem.message d.var.name.value, startOf d.loc⟩ := by
        simp [variableErrors, variableProblems, hv]
      simp only [here, variableEntry, hv]
      exact ih built _
    · have here : variableErrors schema given d = [] := by
        simp [variableErrors, variableProblems, hv]
      rw [here, List.append_nil]
      cases value with
      | none =>
        simp only [variableEntry, hv]
        exact ih built errors
      | some value =>
        simp only [variableEntry, hv, List.foldl_cons]
        exact ih (built.insert d.var.name.value value) errors

theorem variableValuesFrom_eq (schema : Schema) (given : Entries Json)
    (ds : List VariableDefinition) (built : Entries Json) (errors : List CoercionError) :
    ∃ values, variableValuesFrom schema given built errors ds =
      if (errors ++ ds.flatMap (variableErrors schema given)).isEmpty then .ok values
      else .error (errors ++ ds.flatMap (variableErrors schema given)) :=
  ⟨_, variableValuesFrom_eq_insert schema given ds built errors⟩

variable {d : VariableDefinition}

def DefaultValued (schema : Schema) (d : VariableDefinition) : Prop :=
  ∀ v, d.defaultValue = some v → (literalValue schema [] v d.type.toTypeRef).isSome = true

theorem ofGiven_of_input {given : Entries Json} (input : schema.isInputType d.type.toTypeRef = true)
    (valued : DefaultValued schema d) :
    ∀ problem ∈ variableProblems schema given d, problem.OfGiven := by
  unfold variableProblems variableValue
  dsimp only
  rw [input, Bool.not_true, if_neg Bool.false_ne_true]
  cases given.get? d.var.name.value with
  | none =>
    cases hd : d.defaultValue with
    | none => cases d.type.toTypeRef.isNonNull <;> simp [VariableProblem.OfGiven]
    | some v =>
      obtain ⟨value, some⟩ := Option.isSome_iff_exists.mp (valued v hd)
      simp [some]
  | some value =>
    dsimp only
    split_ifs
    · simp [VariableProblem.OfGiven]
    · cases coerceInput schema value d.type.toTypeRef <;> simp [VariableProblem.OfGiven]

theorem no_problems_of_optional (input : schema.isInputType d.type.toTypeRef = true)
    (valued : DefaultValued schema d)
    (optional : d.defaultValue.isSome = true ∨ d.type.toTypeRef.isNonNull = false) :
    variableProblems schema [] d = [] := by
  unfold variableProblems variableValue
  dsimp only
  rw [input, Bool.not_true, if_neg Bool.false_ne_true, Entries.get?]
  cases hd : d.defaultValue with
  | none =>
    have nullable : d.type.toTypeRef.isNonNull = false := by simpa [hd] using optional
    simp [nullable]
  | some v =>
    obtain ⟨value, some⟩ := Option.isSome_iff_exists.mp (valued v hd)
    simp [some]

/-- The variables of an operation are reached outside definitions of a type system. -/
theorem leads_variableDefinition {document : Document} {operation : OperationDefinition}
    (ho : operation ∈ document.operations) (hd : d ∈ operation.variableDefinitions) :
    ∃ way, Leads document.tree way d.tree ∧ inTypeSystem way = false := by
  obtain ⟨definition, hmem, he⟩ := List.mem_filterMap.mp ho
  cases definition <;> cases he
  obtain ⟨i, hi⟩ := List.getElem?_of_mem (List.mem_map_of_mem (f := Definition.tree) hmem)
  obtain ⟨j, hj⟩ := List.getElem?_of_mem (List.mem_map_of_mem (f := VariableDefinition.tree) hd)
  exact ⟨_, .down
    (b := ⟨.many "definitions" .definition, document.definitions.map Definition.tree⟩) (.head _) hi
    (.down (b := ⟨.many "variable_definitions" (.only .variableDefinition),
      operation.variableDefinitions.map VariableDefinition.tree⟩) (.tail _ (.head _)) hj .here),
    rfl⟩

/-- The name of a type is reached through its wrappers. -/
theorem leads_named {root : Tree} : ∀ (t : TypeNode) {way : List PathSegment},
    Leads root way t.tree → inTypeSystem way = false →
    ∃ below named, Leads root below (TypeNode.named named).tree ∧ inTypeSystem below = false ∧
      named.name.value = t.toTypeRef.coreName
  | .named t, way, leads, outside => ⟨way, t, leads, outside, rfl⟩
  | .list item loc, way, leads, outside =>
    leads_named item (leads.step (b := ⟨.type, [item.tree]⟩) (i := 0) (.head _) rfl)
      (by simpa [inTypeSystem, TypeNode.tree, Tree.node_of] using outside)
  | .nonNull inner loc, way, leads, outside =>
    leads_named inner (leads.step (b := ⟨.type, [inner.tree]⟩) (i := 0) (.head _) rfl)
      (by simpa [inTypeSystem, TypeNode.tree, Tree.node_of] using outside)

theorem core?_isSome {document : Document}
    (known : knownTypeNames.check ⟨schema, document⟩ = []) {t : TypeNode} {way : List PathSegment}
    (leads : Leads document.tree way t.tree) (outside : inTypeSystem way = false) :
    (schema.core? t.toTypeRef).isSome = true := by
  obtain ⟨below, named, leads, outside, name⟩ := leads_named t leads outside
  have found := NodeCheck.none_at known _ (mem_visits.mpr
    ⟨_, (show Leads document.tree (visitAt schema (below, .type (.named named))).path _ from leads),
      rfl⟩)
  rw [Schema.core?, ← name, Option.isSome_iff_ne_none]
  intro none
  simp [visitAt, outside, none] at found

theorem isInputType_of_accepted {document : Document}
    (known : knownTypeNames.check ⟨schema, document⟩ = [])
    (inputs : variablesAreInputTypes.check ⟨schema, document⟩ = []) {way : List PathSegment}
    (leads : Leads document.tree way d.tree) (outside : inTypeSystem way = false) :
    schema.isInputType d.type.toTypeRef = true := by
  have type : Leads document.tree (way ++ [⟨.variableDefinition d, "type", none⟩]) d.type.tree :=
    leads.step (b := ⟨.type, [d.type.tree]⟩) (i := 0) (.tail _ (.head _)) rfl
  obtain ⟨t, core⟩ := Option.isSome_iff_exists.mp
    (core?_isSome known type (by simpa [inTypeSystem] using outside))
  have found := NodeCheck.none_at inputs (visitAt schema (way, .variableDefinition d))
    (mem_visits.mpr ⟨_, leads, rfl⟩)
  simpa [visitAt, core, Schema.isInputType] using found

theorem throughout_of_constant {literal : Literal} (h : literal.Constant)
    (type : Option TypeRef) : Throughout schema Constant type (.ofLiteral literal) := by
  induction h generalizing type with
  | @list items _ ih =>
    rw [Value.ofLiteral, valuesOfLiterals_eq, Throughout, itemsThroughout_iff]
    exact ⟨by simp [Constant, Value.kind], List.forall_mem_map.mpr fun item hi => ih item hi _⟩
  | @object fields _ ih =>
    rw [Value.ofLiteral, fieldsOfLiterals_eq, Throughout, fieldsThroughout_iff]
    exact ⟨by simp [Constant, Value.kind], List.forall_mem_map.mpr fun field hf => ih field hf _⟩
  | _ => simp [Value.ofLiteral, Throughout, Constant, Value.kind]

theorem defaultValued_of_accepted {definitions : List TypeSystem.Definition}
    (built : Schema.ofDefinitions definitions = .ok schema)
    (inputFields : ∀ name t, schema.type? name = some (.inputObject t) →
      ∀ d ∈ t.fields, InputType schema d.type)
    (consistent : FieldsConsistent schema) {document : Document}
    (values : valuesOfCorrectType.check ⟨schema, document⟩ = []) {way : List PathSegment}
    (leads : Leads document.tree way d.tree) (regular : d.Regular)
    (input : InputType schema d.type.toTypeRef) : DefaultValued schema d := by
  intro v hd
  obtain ⟨literal, constant, rfl⟩ := regular.default v hd
  have written : Written schema document.tree _ _ _ := .variableDefault leads hd
  have wanted := written.inputType?_eq document.taken.2 input
  rw [valuesOfCorrectType_check, List.flatMap_eq_nil_iff] at values
  have quiet := (forall_visits_below document.taken.2 written.leads).mp fun w hw _ => values w hw
  rw [visits_iff_throughout (reads_quiet document), wanted] at quiet
  exact (agrees ⟨Schema.ofDefinitions_namesOwn built, inputFields⟩ _ _ input
    (throughout_of_constant constant _)).1 consistent quiet

/-- For the operations of a document that is parsed from a text and accepted, all that is reported
about their variables are wrong and missing values. So an operation whose variables have defaults or
may be null gets values for its variables if none are given. -/
theorem accepted_variables {definitions : List TypeSystem.Definition}
    (built : Schema.ofDefinitions definitions = .ok schema)
    (inputFields : ∀ name t, schema.type? name = some (.inputObject t) →
      ∀ d ∈ t.fields, InputType schema d.type)
    (consistent : FieldsConsistent schema) {source : String} {located : Bool} {document : Document}
    (parsed : parseQuery source located = .ok document)
    (accepted : validate schema document defaultRules = []) {operation : OperationDefinition}
    (member : operation ∈ document.operations) :
    (∀ given es, variableValues schema operation given = .error es →
      es = operation.variableDefinitions.flatMap (variableErrors schema given) ∧
        ∀ d ∈ operation.variableDefinitions, ∀ problem ∈ variableProblems schema given d,
          problem.OfGiven) ∧
      ((∀ d ∈ operation.variableDefinitions,
          d.defaultValue.isSome = true ∨ d.type.toTypeRef.isNonNull = false) →
        ∃ values, variableValues schema operation [] = .ok values) := by
  have rule {r : ValidationRule} (hr : r ∈ defaultRules) : r.check ⟨schema, document⟩ = [] :=
    List.flatMap_eq_nil_iff.mp accepted r hr
  have sound : ∀ d ∈ operation.variableDefinitions,
      schema.isInputType d.type.toTypeRef = true ∧ DefaultValued schema d := by
    intro d hd
    obtain ⟨way, leads, outside⟩ := leads_variableDefinition member hd
    have regular := regular_of_parseQuery parsed member d hd
    have input := isInputType_of_accepted (rule (r := knownTypeNames) (by simp [defaultRules]))
      (rule (r := variablesAreInputTypes) (by simp [defaultRules])) leads outside
    exact ⟨input, defaultValued_of_accepted built inputFields consistent
      (rule (r := valuesOfCorrectType) (by simp [defaultRules])) leads regular
      ⟨input, regular.proper⟩⟩
  constructor
  · intro given es failed
    obtain ⟨values, all⟩ := variableValuesFrom_eq schema given
      operation.variableDefinitions [] []
    rw [variableValues, all, List.nil_append] at failed
    split_ifs at failed
    exact ⟨(Except.error.inj failed).symm,
      fun d hd => ofGiven_of_input (sound d hd).1 (sound d hd).2⟩
  · intro optional
    obtain ⟨values, all⟩ := variableValuesFrom_eq schema []
      operation.variableDefinitions [] []
    have none : operation.variableDefinitions.flatMap (variableErrors schema []) = [] := by
      refine List.flatMap_eq_nil_iff.mpr fun d hd => List.map_eq_nil_iff.mpr ?_
      exact no_problems_of_optional (sound d hd).1 (sound d hd).2 (optional d hd)
    exact ⟨values, by rw [variableValues, all, none]; rfl⟩

/-- A text that is parsed, accepted by the rules that can be run, and without fragments, so that
none of them is unused. -/
def acceptedAs (schema : Schema) (source : String) (p : OperationDefinition → Bool) : Bool :=
  (parseQuery source).toOption.any fun document =>
    document.fragments.isEmpty && (defaultRules.all fun rule =>
      rule.code = "NoUnusedFragments" || (rule.check ⟨schema, document⟩).isEmpty) &&
        document.operations.any p

theorem of_acceptedAs (schema : Schema) (source : String) (p : OperationDefinition → Bool)
    (h : acceptedAs schema source p = true) :
    ∃ document operation, parseQuery source = .ok document ∧
      validate schema document defaultRules = [] ∧ operation ∈ document.operations ∧
        p operation = true := by
  obtain ⟨document, parsed, checked⟩ := (Option.any_eq_true _ _).mp h
  simp only [Bool.and_eq_true, List.isEmpty_iff, List.all_eq_true, List.any_eq_true] at checked
  obtain ⟨⟨bare, rules⟩, operation, member, found⟩ := checked
  refine ⟨document, operation, ?_, validate_of_used ?_ fun rule hr code => ?_, member, found⟩
  · revert parsed
    cases parseQuery source <;> simp [Except.toOption]
  · unfold noUnusedFragments ruleOf
    simp [bare]
  · simpa [code] using rules rule hr

theorem accepted_variables_points :
    ∃ document operation,
      parseQuery "query ($p: Point = \x7bx: 1\x7d, $q: [Int!]) \x7b near(p: $p) \x7d" =
        .ok document ∧
      validate (Points.schema Points.point) document defaultRules = [] ∧
      operation ∈ document.operations ∧ operation.variableDefinitions.length = 2 ∧
      (∀ given es, variableValues (Points.schema Points.point) operation given = .error es →
        ∀ d ∈ operation.variableDefinitions,
          ∀ problem ∈ variableProblems (Points.schema Points.point) given d, problem.OfGiven) ∧
      ∃ values, variableValues (Points.schema Points.point) operation [] = .ok values := by
  obtain ⟨document, operation, parsed, accepted, member, found⟩ :=
    of_acceptedAs (Points.schema Points.point)
      "query ($p: Point = \x7bx: 1\x7d, $q: [Int!]) \x7b near(p: $p) \x7d"
      (fun o => o.variableDefinitions.length = 2 && o.variableDefinitions.all
        fun d => d.defaultValue.isSome || !d.type.toTypeRef.isNonNull) (by decide +kernel)
  obtain ⟨two, optional⟩ := Bool.and_eq_true_iff.mp found
  have built : Schema.ofDefinitions (Points.definitions Points.point) =
    .ok (Points.schema Points.point) := rfl
  obtain ⟨given, absent⟩ := accepted_variables built Points.inputFields Points.consistent parsed
    accepted member
  refine ⟨document, operation, parsed, accepted, member, of_decide_eq_true two,
    fun values es failed => (given values es failed).2, absent fun d hd => ?_⟩
  simpa using List.all_eq_true.mp optional d hd

/-- Whether the operation has a single variable and its default does not coerce. -/
def defaultInvalid (schema : Schema) (operation : OperationDefinition) : Bool :=
  match operation.variableDefinitions with
  | [d] =>
    match variableValue schema d none with
    | .error [.invalidDefault _] => true
    | _ => false
  | _ => false

/-- Where a point has two fields `x` of different types, an operation is accepted whose variable has
a default that is reported when no value is given. -/
theorem accepted_default_invalid :
    Schema.ofDefinitions (Points.definitions Points.twice) = .ok (Points.schema Points.twice) ∧
      (∀ name t, (Points.schema Points.twice).type? name = some (.inputObject t) →
        ∀ d ∈ t.fields, InputType (Points.schema Points.twice) d.type) ∧
      InputType (Points.schema Points.twice) (.named "Point") ∧
      ∃ document operation d literal,
        parseQuery "query ($p: Point = \x7bx: 1\x7d) \x7b near(p: $p) \x7d" = .ok document ∧
        validate (Points.schema Points.twice) document defaultRules = [] ∧
        operation ∈ document.operations ∧ operation.variableDefinitions = [d] ∧
        variableValue (Points.schema Points.twice) d none = .error [.invalidDefault literal] ∧
        variableValues (Points.schema Points.twice) operation [] =
          .error (variableErrors (Points.schema Points.twice) [] d) := by
  obtain ⟨document, operation, parsed, accepted, member, found⟩ :=
    of_acceptedAs (Points.schema Points.twice)
      "query ($p: Point = \x7bx: 1\x7d) \x7b near(p: $p) \x7d"
      (defaultInvalid (Points.schema Points.twice)) (by decide +kernel)
  unfold defaultInvalid at found
  split at found
  · rename_i d single
    split at found
    · rename_i literal invalid
      obtain ⟨values, all⟩ := variableValuesFrom_eq (Points.schema Points.twice) [] [d] [] []
      refine ⟨rfl, Points.inputFields_twice, Points.input_point Points.twice, document, operation,
        d, literal, parsed, accepted, member, single, invalid, ?_⟩
      rw [variableValues, single, all]
      simp [variableErrors, variableProblems, Entries.get?, invalid]
    · cases found
  · cases found

end Validation

end GraphQL
