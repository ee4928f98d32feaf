import GraphQL.Input.Arguments
import GraphQL.Input.Variables
import GraphQL.Proofs.Ast.Bare

/-!
Literals, arguments and variable definitions without spans. Main statements: they have the values
that they have with spans, and the same errors but for the literals and locations in them.
-/
namespace GraphQL

open Ast TypeSystem

variable {schema : Schema} {vars : Entries Json}

mutual

theorem Ast.Value.bare_toJson : ∀ v : Value, v.bare.toJson vars = v.toJson vars
  | .variable _ | .string _ => by
    rw [Value.bare, Value.toJson, Value.toJson]
    rfl
  | .int _ _ | .float _ _ | .boolean _ _ | .null _ | .enum _ _ => by
    rw [Value.bare, Value.toJson, Value.toJson]
  | .list values _ => by
    rw [Value.bare, Value.toJson, Value.toJson, valuesToJson_bare values]
  | .object fields _ => by
    rw [Value.bare, Value.toJson, Value.toJson, objectFieldsToJson_bare fields]

theorem Ast.ObjectField.bare_toEntry :
    ∀ f : ObjectField, f.bare.toEntry vars = f.toEntry vars
  | ⟨name, value, _⟩ => by
    rw [ObjectField.bare, ObjectField.toEntry, ObjectField.toEntry, value.bare_toJson,
      Name.bare_value]

theorem valuesToJson_bare : ∀ values : List Value,
    valuesToJson vars (bareValues values) = valuesToJson vars values
  | [] => by rw [bareValues]
  | v :: rest => by
    rw [bareValues, valuesToJson, valuesToJson, v.bare_toJson, valuesToJson_bare rest]

theorem objectFieldsToJson_bare : ∀ fields : List ObjectField,
    objectFieldsToJson vars (bareObjectFields fields) = objectFieldsToJson vars fields
  | [] => by rw [bareObjectFields]
  | f :: rest => by
    rw [bareObjectFields, objectFieldsToJson, objectFieldsToJson, f.bare_toEntry,
      objectFieldsToJson_bare rest]

end

theorem Ast.Value.bare_toScalar (type : String) (v : Value) :
    v.bare.toScalar vars type = v.toScalar vars type := by
  unfold Value.toScalar
  rw [v.bare_toJson]
  cases v <;> simp only [Value.bare]
  rfl

theorem isProvided_bare (v : Value) : isProvided vars v.bare = isProvided vars v := by
  cases v <;> simp only [Value.bare] <;> rfl

theorem literalIsNull_bare (v : Value) : literalIsNull vars v.bare = literalIsNull vars v := by
  cases v <;> simp only [Value.bare] <;> rfl

theorem literalNamed_bare (schema : Schema) (vars : Entries Json) (v : Value)
    (fields : Entries (Bool × TypedLiteral)) (name : String) :
    literalNamed schema vars v.bare fields name = literalNamed schema vars v fields name := by
  unfold literalNamed
  rw [v.bare_toScalar]
  cases v <;> simp only [Value.bare]

theorem literalAt_bare (schema : Schema) (vars : Entries Json) (v : Value)
    (items : List TypedLiteral) (fields : Entries (Bool × TypedLiteral)) (type : TypeRef) :
    literalAt schema vars v.bare items fields type = literalAt schema vars v items fields type := by
  induction type with
  | named name =>
    have named := literalNamed_bare schema vars v fields name
    cases v <;> rw [Value.bare] at named ⊢ <;> simp only [literalAt, named]
  | list item ih => cases v <;> rw [Value.bare] at ih ⊢ <;> simp only [literalAt, ih]
  | nonNull inner ih => cases v <;> rw [Value.bare] at ih ⊢ <;> simp only [literalAt, ih]

mutual

theorem Ast.Value.bare_literalValue :
    ∀ v : Value, literalValue schema vars v.bare = literalValue schema vars v
  | .variable v => by
    rw [Value.bare, literalValue, literalValue]
    rfl
  | .int text loc => funext (literalAt_bare schema vars (.int text loc) [] [])
  | .float text loc => funext (literalAt_bare schema vars (.float text loc) [] [])
  | .string s => funext (literalAt_bare schema vars (.string s) [] [])
  | .boolean b loc => funext (literalAt_bare schema vars (.boolean b loc) [] [])
  | .null loc => funext (literalAt_bare schema vars (.null loc) [] [])
  | .enum name loc => funext (literalAt_bare schema vars (.enum name loc) [] [])
  | .list values loc => by
    have same := funext (literalAt_bare schema vars (.list values loc)
      (literalItems schema vars values) [])
    rw [Value.bare] at same
    rw [Value.bare, literalValue, literalValue, literalItems_bare values, same]
  | .object fields loc => by
    have same := funext (literalAt_bare schema vars (.object fields loc) []
      (literalEntries schema vars fields))
    rw [Value.bare] at same
    rw [Value.bare, literalValue, literalValue, literalEntries_bare fields, same]

theorem literalItems_bare : ∀ values : List Value,
    literalItems schema vars (bareValues values) = literalItems schema vars values
  | [] => by rw [bareValues]
  | v :: rest => by
    rw [bareValues, literalItems, literalItems, v.bare_literalValue, literalItems_bare rest]

theorem literalEntry_bare :
    ∀ f : ObjectField, literalEntry schema vars f.bare = literalEntry schema vars f
  | ⟨name, value, loc⟩ => by
    rw [ObjectField.bare, literalEntry, literalEntry, value.bare_literalValue, isProvided_bare,
      Name.bare_value]

theorem literalEntries_bare : ∀ fields : List ObjectField,
    literalEntries schema vars (bareObjectFields fields) = literalEntries schema vars fields
  | [] => by rw [bareObjectFields]
  | f :: rest => by
    rw [bareObjectFields, literalEntries, literalEntries, literalEntry_bare f,
      literalEntries_bare rest]

end

def ArgumentError.bare : ArgumentError → ArgumentError
  | invalid argument literal => .invalid argument literal.bare
  | e => e

@[simp]
theorem ArgumentError.bare_message (e : ArgumentError) : e.bare.message = e.message := by
  cases e with
  | invalid argument literal => rw [bare, message, message, literal.bare_print]
  | _ => rfl

theorem writtenArgument_bare (arguments : List Ast.Argument) (name : String) :
    writtenArgument (arguments.map Argument.bare) name =
      (writtenArgument arguments name).map Value.bare := by
  unfold writtenArgument
  rw [List.find?_map, Option.map_map, Option.map_map]
  rfl

theorem argumentValue_bare (d : InputValue) (written : Option Ast.Value) :
    argumentValue schema vars d (written.map Value.bare) =
      (argumentValue schema vars d written).mapError ArgumentError.bare := by
  rcases written with - | literal
  · unfold argumentValue
    dsimp only [Option.map_none, Option.filter_none]
    split
    · rfl
    · split <;> rfl
  unfold argumentValue
  rw [Option.map_some, Option.filter_some, Option.filter_some, isProvided_bare]
  by_cases provided : isProvided vars literal = true
  · rw [if_pos provided, if_pos provided]
    dsimp only
    rw [literalIsNull_bare, literal.bare_literalValue]
    split
    · rfl
    · split <;> rfl
  · rw [if_neg provided, if_neg provided]
    dsimp only
    split
    · rfl
    · cases literal <;> rw [Value.bare] <;> split <;> rfl

theorem argumentValuesFrom_bare (arguments : List Ast.Argument) (built : Entries Json)
    (definitions : List InputValue) :
    argumentValuesFrom schema vars (arguments.map Argument.bare) built definitions =
      (argumentValuesFrom schema vars arguments built definitions).mapError
        ArgumentError.bare := by
  induction definitions generalizing built with
  | nil => rfl
  | cons d rest ih =>
    rw [argumentValuesFrom, argumentValuesFrom, writtenArgument_bare, argumentValue_bare]
    cases argumentValue schema vars d (writtenArgument arguments d.name) with
    | error e => rfl
    | ok value =>
      cases value with
      | none => exact ih built
      | some v => exact ih _

theorem argumentValues_bare (definitions : List InputValue) (arguments : List Ast.Argument) :
    argumentValues schema definitions (arguments.map Argument.bare) vars =
      (argumentValues schema definitions arguments vars).mapError ArgumentError.bare :=
  argumentValuesFrom_bare arguments [] definitions

def VariableProblem.bare : VariableProblem → VariableProblem
  | invalidDefault literal => .invalidDefault literal.bare
  | p => p

@[simp]
theorem VariableProblem.bare_message (name : String) (p : VariableProblem) :
    p.bare.message name = p.message name := by
  cases p with
  | invalidDefault literal => rw [bare, message, message, literal.bare_print]
  | _ => rfl

theorem variableValue_bare (d : Ast.VariableDefinition) (given : Option Json) :
    variableValue schema d.bare given =
      (variableValue schema d given).mapError (·.map VariableProblem.bare) := by
  unfold variableValue VariableDefinition.bare
  dsimp only
  rw [TypeNode.bare_toTypeRef]
  split
  · rfl
  cases given with
  | none =>
    cases d.defaultValue with
    | none =>
      dsimp only [Option.map_none]
      split <;> rfl
    | some literal =>
      dsimp only [Option.map_some]
      rw [literal.bare_literalValue]
      split <;> rfl
  | some value =>
    dsimp only
    split
    · rfl
    · split
      · rfl
      · rename_i es _
        have same : (es.map VariableProblem.invalidValue).map VariableProblem.bare =
            es.map VariableProblem.invalidValue := List.map_map ..
        exact congrArg Except.error same.symm

def CoercionError.unlocated (e : CoercionError) : CoercionError := ⟨e.message, []⟩

theorem variableValuesFrom_bare (given built : Entries Json) (errors : List CoercionError)
    (definitions : List Ast.VariableDefinition) :
    variableValuesFrom schema given built (errors.map CoercionError.unlocated)
        (definitions.map VariableDefinition.bare) =
      (variableValuesFrom schema given built errors definitions).mapError
        (·.map CoercionError.unlocated) := by
  induction definitions generalizing built errors with
  | nil =>
    rw [List.map_nil, variableValuesFrom, variableValuesFrom, List.isEmpty_map]
    split <;> rfl
  | cons d rest ih =>
    rw [List.map_cons, variableValuesFrom, variableValuesFrom, variableValue_bare]
    dsimp only [VariableDefinition.bare, Variable.bare, Name.bare]
    cases variableValue schema d (given.get? d.var.name.value) with
    | error problems =>
      refine Eq.trans ?_ (ih built (errors ++ problems.map fun problem =>
        ⟨problem.message d.var.name.value, startOf d.loc⟩))
      change variableValuesFrom schema given built (_ ++ (problems.map VariableProblem.bare).map
        fun problem => ⟨problem.message d.var.name.value, startOf none⟩) _ = _
      simp [CoercionError.unlocated, Function.comp_def, startOf]
    | ok value =>
      cases value with
      | none => exact ih built errors
      | some v => exact ih _ errors

theorem variableValues_bare (operation : OperationDefinition) (given : Entries Json) :
    variableValues schema operation.bare given =
      (variableValues schema operation given).mapError (·.map CoercionError.unlocated) :=
  variableValuesFrom_bare given [] [] operation.variableDefinitions

end GraphQL
