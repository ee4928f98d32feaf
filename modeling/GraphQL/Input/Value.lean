import GraphQL.Input.Scalar
import GraphQL.Schema.Basic

/-!
Coercing runtime values to input types. A value is read as a function of the type it is wanted
at, so the recursion is on the value.
-/
namespace GraphQL

open TypeSystem

inductive InputProblem where
  | nullNotAllowed (type : TypeRef)
  | scalar (e : ScalarError)
  | noEnumValue (value enum : String)
  | enumNotString (enum : String)
  | notAnObject (type : String)
  | missingField (field : String) (type : TypeRef)
  | undefinedField (field type : String)
  | unknownType (name : String)

/-- A value that does not fit; the path leads to it. -/
structure InputError where
  path : List PathElement := []
  value : Json
  problem : InputProblem

def InputError.message (e : InputError) : String :=
  match e.problem with
  | .nullNotAllowed type => "Expected non-nullable type \"" ++ type.text ++ "\" not to be null."
  | .scalar problem => problem.message e.value.text
  | .noEnumValue value enum =>
    "Value \"" ++ value ++ "\" does not exist in \"" ++ enum ++ "\" enum."
  | .enumNotString enum =>
    "Enum \"" ++ enum ++ "\" cannot represent non-string value: " ++ e.value.text ++ "."
  | .notAnObject type => "Expected type \"" ++ type ++ "\" to be an object."
  | .missingField field type =>
    "Field \"" ++ field ++ "\" of required type \"" ++ type.text ++ "\" was not provided."
  | .undefinedField field type =>
    "Field \"" ++ field ++ "\" is not defined by type \"" ++ type ++ "\"."
  | .unknownType name => "Unknown input type \"" ++ name ++ "\"."

def InputError.under (step : PathElement) (e : InputError) : InputError :=
  { e with path := step :: e.path }

abbrev Coerced (α : Type) := Except (List InputError) α

/-- A value as a function of the type it is wanted at. -/
abbrev TypedInput := TypeRef → Coerced Json

/-- Fails with these errors before those of a result. -/
def Coerced.failing {α : Type} (es : List InputError) : Coerced α → Coerced α
  | .ok _ => .error es
  | .error fs => .error (es ++ fs)

/-- The items of a list from the `i`-th on, errors under their indices. -/
def coerceItems (item : TypeRef) : Nat → List TypedInput → Coerced (List Json)
  | _, [] => .ok []
  | i, input :: rest =>
    match input item with
    | .ok v => (coerceItems item (i + 1) rest).map (v :: ·)
    | .error es => (coerceItems item (i + 1) rest).failing (es.map (·.under (.index i)))

/-- The fields of an input object after those in `built`, in the order of their definitions.
Absent fields take their defaults. -/
def coerceFields (value : Json) (inputs : Entries TypedInput) :
    Entries Json → List InputValue → Coerced (Entries Json)
  | built, [] => .ok built
  | built, d :: rest =>
    match inputs.get? d.name with
    | some input =>
      match input d.type with
      | .ok v => coerceFields value inputs (built.insert d.name v) rest
      | .error es =>
        (coerceFields value inputs built rest).failing (es.map (·.under (.key d.name)))
    | none =>
      match d.default with
      | some default => coerceFields value inputs (built.insert d.name default.toJson) rest
      | none =>
        if d.type.isNonNull then
          (coerceFields value inputs built rest).failing
            [⟨[], value, .missingField d.name d.type⟩]
        else coerceFields value inputs built rest

def undefinedFields (t : InputObjectType) (value : Json) (keys : List String) : List InputError :=
  keys.filterMap fun key =>
    if t.fields.any (·.name = key) then none
    else some ⟨[], value, .undefinedField key t.name⟩

/-- An object as an input object: all errors of its fields, then those of undefined keys. -/
def coerceObject (t : InputObjectType) (value : Json) (inputs : Entries TypedInput) :
    Coerced Json :=
  match coerceFields value inputs [] t.fields, undefinedFields t value inputs.keys with
  | .ok built, [] => .ok (.object built)
  | .ok _, es => .error es
  | .error es, fs => .error (es ++ fs)

def coerceEnum (t : EnumType) (value : Json) : Coerced Json :=
  match value with
  | .string s =>
    if t.values.any (·.name = s) then .ok (.string s)
    else .error [⟨[], value, .noEnumValue s t.name⟩]
  | _ => .error [⟨[], value, .enumNotString t.name⟩]

def coerceNamed (schema : Schema) (value : Json) (entries : Entries TypedInput) (name : String) :
    Coerced Json :=
  match schema.type? name with
  | some (.scalar _) =>
    (coerceScalar name value).mapError fun e => [⟨[], value, .scalar e⟩]
  | some (.enum t) => coerceEnum t value
  | some (.inputObject t) =>
    match value with
    | .object _ => coerceObject t value entries
    | _ => .error [⟨[], value, .notAnObject t.name⟩]
  | _ => .error [⟨[], value, .unknownType name⟩]

/-- A value at a type, its items and entries being read already. A value that is no list stands
for the list of itself. -/
def coerceAt (schema : Schema) (value : Json) (items : List TypedInput)
    (entries : Entries TypedInput) : TypeRef → Coerced Json
  | .nonNull inner =>
    if value.isNull then .error [⟨[], value, .nullNotAllowed (.nonNull inner)⟩]
    else coerceAt schema value items entries inner
  | .list item =>
    match value with
    | .null => .ok .null
    | .array _ => (coerceItems item 0 items).map .array
    | _ => (coerceAt schema value items entries item).map fun v => .array [v]
  | .named name => if value.isNull then .ok .null else coerceNamed schema value entries name

mutual

def coerceInput (schema : Schema) : Json → TypedInput
  | .array items => coerceAt schema (.array items) (itemInputs schema items) []
  | .object entries => coerceAt schema (.object entries) [] (entryInputs schema entries)
  | value => coerceAt schema value [] []

def itemInputs (schema : Schema) : List Json → List TypedInput
  | [] => []
  | item :: rest => coerceInput schema item :: itemInputs schema rest

def entryInputs (schema : Schema) : List (String × Json) → List (String × TypedInput)
  | [] => []
  | (key, value) :: rest => (key, coerceInput schema value) :: entryInputs schema rest

end

end GraphQL
