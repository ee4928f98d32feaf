import GraphQL.Proofs.Input.ErrorPaths
import GraphQL.Proofs.Input.NullValues
import GraphQL.Proofs.Source.Parsed
import GraphQL.Proofs.Validation.VariableValues

/-!
The values of an operation's variables. Main statement: each variable is coerced on its own, what is
wrong is reported in the order of the definitions, and otherwise the values conform to the types of
the variables, unless a default holds a number that is too large for its form.
-/
namespace GraphQL

open Ast TypeSystem

/-- The operation with a single one of its variables. -/
def Ast.OperationDefinition.only (operation : OperationDefinition) (d : VariableDefinition) :
    OperationDefinition :=
  { operation with variableDefinitions := [d] }

namespace Input

section

variable {schema : Schema} {given : Entries Json} {d : VariableDefinition}

/-- A variable has the value that is given, coerced, or the value of its default; or it may be null
and stays absent. -/
theorem variableValue_cases {supplied found : Option Json}
    (h : variableValue schema d supplied = .ok found) :
    (∃ value result, supplied = some value ∧ found = some result ∧
      (value.isNull && d.type.toTypeRef.isNonNull) = false ∧
      coerceInput schema value d.type.toTypeRef = .ok result) ∨
    (∃ literal result, supplied = none ∧ d.defaultValue = some literal ∧ found = some result ∧
      literalValue schema [] literal d.type.toTypeRef = some result) ∨
    (supplied = none ∧ d.defaultValue = none ∧ found = none ∧
      d.type.toTypeRef.isNonNull = false) := by
  unfold variableValue at h
  dsimp only at h
  cases input : schema.isInputType d.type.toTypeRef with
  | false =>
    rw [input] at h
    cases h
  | true =>
  rw [input, Bool.not_true, if_neg Bool.false_ne_true] at h
  cases supplied with
  | some value =>
    dsimp only at h
    split_ifs at h with null
    cases coerced : coerceInput schema value d.type.toTypeRef with
    | error es =>
      rw [coerced] at h
      cases h
    | ok result =>
      rw [coerced] at h
      exact .inl ⟨value, result, rfl, (Except.ok.inj h).symm, Bool.eq_false_iff.mpr null, coerced⟩
  | none =>
    cases default : d.defaultValue with
    | some literal =>
      rw [default] at h
      dsimp only at h
      cases read : literalValue schema [] literal d.type.toTypeRef with
      | none =>
        rw [read] at h
        cases h
      | some result =>
        rw [read] at h
        exact .inr (.inl ⟨literal, result, rfl, rfl, (Except.ok.inj h).symm, read⟩)
    | none =>
      rw [default] at h
      dsimp only at h
      split_ifs at h with nonNull
      exact .inr (.inr ⟨rfl, rfl, (Except.ok.inj h).symm, Bool.eq_false_iff.mpr nonNull⟩)

theorem variableValue_ne_error_nil (supplied : Option Json) :
    variableValue schema d supplied ≠ .error [] := by
  unfold variableValue
  dsimp only
  cases schema.isInputType d.type.toTypeRef with
  | false => simp
  | true =>
  rw [Bool.not_true, if_neg Bool.false_ne_true]
  cases supplied with
  | some value =>
    dsimp only
    split_ifs
    · simp
    have told : coerceInput schema value d.type.toTypeRef ≠ .error [] :=
      (coerceInput_explained value d.type.toTypeRef).told
    cases coerced : coerceInput schema value d.type.toTypeRef with
    | ok result => simp
    | error es =>
      rw [coerced] at told
      simpa using told
  | none =>
    cases d.defaultValue with
    | some literal =>
      dsimp only
      cases literalValue schema [] literal d.type.toTypeRef <;> simp
    | none =>
      dsimp only
      split_ifs <;> simp

theorem variableErrors_eq_nil :
    variableErrors schema given d = [] ↔
      ∃ found, variableValue schema d (given.get? d.var.name.value) = .ok found := by
  have told : variableValue schema d (given.get? d.var.name.value) ≠ .error [] :=
    variableValue_ne_error_nil _
  unfold variableErrors variableProblems
  cases hv : variableValue schema d (given.get? d.var.name.value) with
  | ok found => simp
  | error problems =>
    rw [hv] at told
    simpa using told

theorem variableEntry_eq_some {e : String × Json} :
    variableEntry schema given d = some e ↔
      d.var.name.value = e.1 ∧
        variableValue schema d (given.get? d.var.name.value) = .ok (some e.2) := by
  unfold variableEntry
  split
  · rename_i value hv
    rw [hv, Option.some.injEq, Except.ok.injEq, Option.some.injEq, Prod.ext_iff]
  · rename_i other
    refine iff_of_false (by simp) fun both => other e.2 both.2

variable {operation : OperationDefinition} {m : Entries Json}

theorem variableValues_eq (schema : Schema) (operation : OperationDefinition)
    (given : Entries Json) :
    variableValues schema operation given =
      if (operation.variableDefinitions.flatMap (variableErrors schema given)).isEmpty then
        .ok (Entries.ofList (operation.variableDefinitions.filterMap (variableEntry schema given)))
      else .error (operation.variableDefinitions.flatMap (variableErrors schema given)) := by
  rw [variableValues, Validation.variableValuesFrom_eq_insert]
  rfl

theorem errorsIn_variableValues (operation : OperationDefinition) :
    errorsIn (variableValues schema operation given) =
      operation.variableDefinitions.flatMap (variableErrors schema given) := by
  rw [variableValues_eq]
  split_ifs with none
  · exact (List.isEmpty_iff.mp none).symm
  · rfl

theorem errorsIn_only (operation : OperationDefinition) (d : VariableDefinition) :
    errorsIn (variableValues schema (operation.only d) given) = variableErrors schema given d := by
  rw [errorsIn_variableValues]
  exact List.append_nil _

theorem variableValues_fails :
    (∃ es, variableValues schema operation given = .error es) ↔
      ∃ d ∈ operation.variableDefinitions, variableErrors schema given d ≠ [] := by
  rw [variableValues_eq]
  split_ifs with none
  · have each := List.flatMap_eq_nil_iff.mp (List.isEmpty_iff.mp none)
    exact iff_of_false (by simp) fun ⟨d, hd, errors⟩ => errors (each d hd)
  · refine iff_of_true ⟨_, rfl⟩ ?_
    rw [List.isEmpty_iff, List.flatMap_eq_nil_iff] at none
    push Not at none
    exact none

theorem variableValues_congr {other : Entries Json}
    (agree : ∀ d ∈ operation.variableDefinitions,
      given.get? d.var.name.value = other.get? d.var.name.value) :
    variableValues schema operation given = variableValues schema operation other := by
  have errors : operation.variableDefinitions.flatMap (variableErrors schema given) =
      operation.variableDefinitions.flatMap (variableErrors schema other) :=
    List.flatMap_congr fun d hd => by rw [variableErrors, variableProblems, agree d hd]; rfl
  have entries : operation.variableDefinitions.filterMap (variableEntry schema given) =
      operation.variableDefinitions.filterMap (variableEntry schema other) :=
    List.filterMap_congr fun d hd => by rw [variableEntry, agree d hd]; rfl
  rw [variableValues_eq, variableValues_eq, errors, entries]

theorem found_of_ok (ok : variableValues schema operation given = .ok m)
    (hd : d ∈ operation.variableDefinitions) :
    ∃ found, variableValue schema d (given.get? d.var.name.value) = .ok found := by
  rw [variableValues_eq] at ok
  split_ifs at ok with none
  exact variableErrors_eq_nil.mp (List.flatMap_eq_nil_iff.mp (List.isEmpty_iff.mp none) d hd)

/-- A variable is present if it is given or has a default. -/
def isPresent (given : Entries Json) (d : VariableDefinition) : Bool :=
  (given.get? d.var.name.value).isSome || d.defaultValue.isSome

theorem key_of_found {found : Option Json}
    (h : variableValue schema d (given.get? d.var.name.value) = .ok found) :
    (variableEntry schema given d).map Prod.fst =
      if isPresent given d then some d.var.name.value else none := by
  unfold variableEntry isPresent
  rw [h]
  rcases variableValue_cases h with ⟨value, result, supplied, rfl, -⟩ |
    ⟨literal, result, -, default, rfl, -⟩ | ⟨supplied, default, rfl, -⟩
  · simp [supplied]
  · simp [default]
  · simp [supplied, default]

section

variable (distinct : (operation.variableDefinitions.map (·.var.name.value)).Nodup)
variable (ok : variableValues schema operation given = .ok m)

include ok

theorem keys_entries :
    Entries.keys (operation.variableDefinitions.filterMap (variableEntry schema given)) =
      (operation.variableDefinitions.filter (isPresent given)).map (·.var.name.value) := by
  have keys : ∀ d ∈ operation.variableDefinitions,
      (variableEntry schema given d).map Prod.fst =
        if isPresent given d then some d.var.name.value else none := fun d hd =>
    (found_of_ok ok hd).elim fun _ found => key_of_found found
  rw [Entries.keys, List.map_filterMap, List.filterMap_congr keys, ← List.filterMap_eq_map,
    List.filterMap_filter]
  rfl

include distinct

theorem nodup_entries :
    (Entries.keys
      (operation.variableDefinitions.filterMap (variableEntry schema given))).Nodup := by
  rw [keys_entries ok]
  exact distinct.sublist (List.filter_sublist.map _)

theorem entries_of_ok :
    m = operation.variableDefinitions.filterMap (variableEntry schema given) := by
  have nodup := nodup_entries distinct ok
  rw [variableValues_eq] at ok
  split_ifs at ok
  exact (Except.ok.inj ok).symm.trans (Entries.ofList_eq nodup)

theorem keys_of_ok :
    m.keys = (operation.variableDefinitions.filter (isPresent given)).map (·.var.name.value) := by
  rw [entries_of_ok distinct ok]
  exact keys_entries ok

theorem get?_of_ok (hd : d ∈ operation.variableDefinitions) {value : Json} :
    m.get? d.var.name.value = some value ↔
      variableValue schema d (given.get? d.var.name.value) = .ok (some value) := by
  have nodup := nodup_entries distinct ok
  rw [entries_of_ok distinct ok]
  constructor
  · intro found
    obtain ⟨e, he, entry⟩ := List.mem_filterMap.mp (Entries.mem_of_get? found)
    obtain ⟨named, has⟩ := variableEntry_eq_some.mp entry
    have same : e = d := List.inj_on_of_nodup_map distinct he hd named
    exact same ▸ has
  · intro has
    have entry : variableEntry schema given d = some (d.var.name.value, value) :=
      variableEntry_eq_some.mpr ⟨rfl, has⟩
    exact Entries.get?_of_mem nodup (List.mem_filterMap.mpr ⟨d, hd, entry⟩)

/-- A non-null variable has a value. It is null only by a default that overflows. -/
theorem nonNull_of_ok (hd : d ∈ operation.variableDefinitions)
    (nonNull : d.type.toTypeRef.isNonNull = true) :
    ∃ value, m.get? d.var.name.value = some value ∧
      (value = .null ↔ given.get? d.var.name.value = none ∧
        ∃ literal, d.defaultValue = some literal ∧ literal.Overflows ∧
          IsCustom schema d.type.toTypeRef) := by
  obtain ⟨found, has⟩ := found_of_ok ok hd
  -- A value that is given was not null, and coercion makes null of null alone; so only the default
  -- is left as a source of null.
  rcases variableValue_cases has with ⟨value, result, supplied, rfl, notNull, coerced⟩ |
    ⟨literal, result, absent, default, rfl, read⟩ | ⟨-, -, -, nullable⟩
  · refine ⟨result, (get?_of_ok distinct ok hd).mpr has, iff_of_false ?_ ?_⟩
    · apply coerced?_ne_null (toOption_eq_some.mpr coerced)
      rintro rfl
      rw [nonNull] at notNull
      cases notNull
    · rw [supplied]
      exact fun both => Option.some_ne_none _ both.1
  · refine ⟨result, (get?_of_ok distinct ok hd).mpr has, ?_⟩
    have null : literalValue schema [] literal d.type.toTypeRef = some .null ↔
        literal.Overflows ∧ IsCustom schema d.type.toTypeRef := nonNull_eq_null nonNull
    rw [read, Option.some.injEq] at null
    rw [null, and_iff_right absent, default]
    simp
  · rw [nonNull] at nullable
    cases nullable

end

/-- In the literal no number is lost where null would be read at a non-null type. -/
def Lossless (schema : Schema) (type : TypeRef) (literal : Value) : Prop :=
  ∀ wanted member, At schema type literal wanted member → wanted.isNonNull = true →
    IsCustom schema wanted → ¬ member.Overflows

theorem default_conforms (fields : FieldDefaultsConform schema .full) {type : TypeRef}
    {literal : Value} {value : Json} (lossless : Lossless schema type literal)
    (read : literalValue schema [] literal type = some value) :
    Conforms schema .full type value := by
  apply (reads_of_literalValue literal type value read).conforms_of_free fields
  · intro wanted member place nonNull null
    obtain ⟨overflows, custom⟩ := null.overflows_of_null nonNull
    exact lossless wanted member place nonNull custom overflows
  · rintro _ _ _ - ⟨⟩

theorem value_conforms (fields : FieldDefaultsConform schema .full) {supplied : Option Json}
    {value : Json}
    (lossless : ∀ literal, d.defaultValue = some literal →
      Lossless schema d.type.toTypeRef literal)
    (has : variableValue schema d supplied = .ok (some value)) :
    Conforms schema .full d.type.toTypeRef value := by
  rcases variableValue_cases has with ⟨v, result, -, found, -, coerced⟩ |
    ⟨literal, result, -, default, found, read⟩ | ⟨-, -, found, -⟩
  · cases found
    exact (coercesSoundly fields v _ _ (toOption_eq_some.mpr coerced)).2
  · cases found
    exact default_conforms fields (lossless literal default) read
  · cases found

/-- What stands inside a literal that is read was read too. -/
theorem at_ofLiteral {literal : Literal} {type wanted : TypeRef} {member : Value}
    (h : At schema type (.ofLiteral literal) wanted member) :
    ∃ inner, literal.Contains inner ∧ member = .ofLiteral inner := by
  generalize same : Value.ofLiteral literal = outer at h
  induction h generalizing literal with
  | here => exact ⟨literal, .self, same.symm⟩
  | nonNull _ _ _ ih => exact ih same
  | single _ _ _ _ ih => exact ih same
  | @item _ _ _ _ v _ hv _ ih =>
    cases literal <;> cases same
    rw [valuesOfLiterals_eq] at hv
    obtain ⟨item, hi, rfl⟩ := List.mem_map.mp hv
    obtain ⟨inner, inside, rfl⟩ := ih rfl
    exact ⟨inner, .item hi inside, rfl⟩
  | @field _ _ _ _ _ _ member _ _ _ written _ ih =>
    cases literal <;> cases same
    rw [fieldsOfLiterals_eq] at written
    obtain ⟨f, found, rfl⟩ := Option.map_eq_some_iff.mp written
    obtain ⟨field, hf, rfl⟩ := List.mem_map.mp (List.mem_of_find?_eq_some found)
    obtain ⟨inner, inside, rfl⟩ := ih rfl
    exact ⟨inner, .field hf inside, rfl⟩

theorem lossless_ofLiteral {literal : Literal} (type : TypeRef)
    (ints : ∀ n, literal.Contains (.int n) → InInt64 n)
    (floats : ∀ x, literal.Contains (.float x) → x.isFinite = true) :
    Lossless schema type (.ofLiteral literal) := by
  intro wanted member place _ _ overflows
  obtain ⟨inner, inside, rfl⟩ := at_ofLiteral place
  have range : ∀ n, inner = .int n → InInt64 n := fun n same => ints n (same ▸ inside)
  obtain ⟨x, rfl, infinite⟩ := (overflows_ofLiteral range).mp overflows
  rw [floats x inside] at infinite
  cases infinite

theorem yields_contained {P : Literal → Prop} (constant : Bool)
    (each : ∀ budget, Parser.Yields (Parser.value constant budget) P) (budget : Nat) :
    Parser.Yields (Parser.value constant budget) fun literal =>
      ∀ inner, literal.Contains inner → P inner := by
  induction budget with
  | zero => exact .fail
  | succ budget ih =>
    refine (Parser.Yields.both (each (budget + 1)) (Parser.Yields.value_composed ih)).mono ?_
    rintro literal ⟨own, composed⟩ inner inside
    cases inside with
    | self => exact own
    | item member inside =>
      cases composed with
      | list items => exact items _ member inner inside
    | field member inside =>
      cases composed with
      | object _ fields => exact fields _ member inner inside

/-- The defaults of a parsed operation lose no number but floats beyond the finite range. -/
theorem lossless_of_parsed {source : String} {located : Bool} {document : Document}
    (parsed : parseQuery source located = .ok document) (member : operation ∈ document.operations)
    (hd : d ∈ operation.variableDefinitions)
    (finite : ∀ literal, d.defaultValue = some (.ofLiteral literal) →
      ∀ x, literal.Contains (.float x) → x.isFinite = true)
    {literal : Value} (default : d.defaultValue = some literal) (type : TypeRef) :
    Lossless schema type literal := by
  have each (lines : Option Lines) (budget : Nat) :=
    Parser.Yields.variableDefinition_of_value lines
      (yields_contained true (yields_inInt64 true) budget)
  obtain ⟨-, ranged⟩ := variables_of_parseQuery each parsed member d hd
  obtain ⟨read, ints, rfl⟩ := ranged literal default
  exact lossless_ofLiteral type (fun n inside => ints _ inside n rfl) (finite read default)

/-- Where the names of variables are different and the defaults of input fields conform:

* values for other names do not matter;
* the values are those of the variables that are given or have a default, in order; a non-null
  variable has a value, which is null only by a default that overflows at a custom scalar; and
  values conform to the types of the variables, if defaults lose no number;
* there is an error exactly if a variable fails alone, and then it lists what each tells alone;
* defaults in source text lose no number but floats beyond the finite range. -/
theorem variableValues_of_variables (fields : FieldDefaultsConform schema .full)
    (operation : OperationDefinition)
    (distinct : (operation.variableDefinitions.map (·.var.name.value)).Nodup) :
    (∀ given other : Entries Json,
      (∀ d ∈ operation.variableDefinitions,
        given.get? d.var.name.value = other.get? d.var.name.value) →
      variableValues schema operation given = variableValues schema operation other) ∧
    (∀ given m, variableValues schema operation given = .ok m →
      m.keys = (operation.variableDefinitions.filter (isPresent given)).map (·.var.name.value) ∧
      ∀ d ∈ operation.variableDefinitions,
        (d.type.toTypeRef.isNonNull = true →
          ∃ value, m.get? d.var.name.value = some value ∧
            (value = .null ↔ given.get? d.var.name.value = none ∧
              ∃ literal, d.defaultValue = some literal ∧ literal.Overflows ∧
                IsCustom schema d.type.toTypeRef)) ∧
        ((∀ literal, d.defaultValue = some literal → Lossless schema d.type.toTypeRef literal) →
          ∀ value, m.get? d.var.name.value = some value →
            Conforms schema .full d.type.toTypeRef value)) ∧
    (∀ given,
      ((∃ es, variableValues schema operation given = .error es) ↔
        ∃ d ∈ operation.variableDefinitions,
          ∃ es, variableValues schema (operation.only d) given = .error es) ∧
      ∀ es, variableValues schema operation given = .error es →
        es = operation.variableDefinitions.flatMap fun d =>
          errorsIn (variableValues schema (operation.only d) given)) ∧
    ∀ source located document, parseQuery source located = .ok document →
      operation ∈ document.operations → ∀ d ∈ operation.variableDefinitions,
        (∀ literal, d.defaultValue = some (.ofLiteral literal) →
          ∀ x, literal.Contains (.float x) → x.isFinite = true) →
        ∀ literal, d.defaultValue = some literal →
          Lossless schema d.type.toTypeRef literal := by
  refine ⟨fun given other => variableValues_congr, ?_, fun given => ⟨?_, ?_⟩, ?_⟩
  · intro given m ok
    refine ⟨keys_of_ok distinct ok, fun d hd => ⟨nonNull_of_ok distinct ok hd, ?_⟩⟩
    intro lossless value found
    exact value_conforms fields lossless ((get?_of_ok distinct ok hd).mp found)
  · rw [variableValues_fails]
    refine exists_congr fun d => and_congr_right fun _ => ?_
    rw [variableValues_fails]
    simp [OperationDefinition.only]
  · intro es failed
    simp only [errorsIn_only]
    rw [← errorsIn_variableValues, failed, errorsIn_error]
  · intro source located document parsed member d hd finite literal default
    exact lossless_of_parsed parsed member hd finite default _

end

namespace Sizes

def required (name type : String) (default : Option Value) : VariableDefinition :=
  ⟨⟨⟨name, none⟩, none⟩, .nonNull (.named ⟨⟨type, none⟩, none⟩) none, default, [], none⟩

/-- `query ($limit: Int!, $size: Size! = 99999999999999999999, $shown: Boolean! = true)` -/
def operation : OperationDefinition where
  operation := .query
  variableDefinitions := [required "limit" "Int" none,
    required "size" "Size" (some (.int "99999999999999999999" none)),
    required "shown" "Boolean" (some (.boolean true none))]
  selectionSet := ⟨[], none⟩

def coerced : Entries Json := [("limit", .ofInt 7), ("size", .null), ("shown", .bool true)]

theorem fieldDefaultsConform (asked : Demand) : FieldDefaultsConform schema asked := by
  intro name t ht
  have := Entries.mem_of_get? ht
  simp [schema, builtinScalars] at this

end Sizes

theorem variableValues_of_sizes :
    variableValues Sizes.schema Sizes.operation [("limit", .ofInt 7), ("depth", .null)] =
        .ok Sizes.coerced ∧
      variableValues Sizes.schema Sizes.operation [("limit", .ofInt 7)] = .ok Sizes.coerced ∧
      Sizes.coerced.keys = ["limit", "size", "shown"] ∧
      (∃ value, Sizes.coerced.get? "limit" = some value ∧ value ≠ .null ∧
        Conforms Sizes.schema .full (.nonNull (.named "Int")) value) ∧
      ∃ es, variableValues Sizes.schema Sizes.operation [("shown", .null)] = .error es ∧
        es = Sizes.operation.variableDefinitions.flatMap fun d =>
          errorsIn (variableValues Sizes.schema (Sizes.operation.only d) [("shown", .null)]) := by
  have distinct : (Sizes.operation.variableDefinitions.map (·.var.name.value)).Nodup := by decide
  obtain ⟨agree, values, errors, -⟩ := variableValues_of_variables
    (Sizes.fieldDefaultsConform .full) Sizes.operation distinct
  have ok : variableValues Sizes.schema Sizes.operation
      [("limit", .ofInt 7), ("depth", .null)] = .ok Sizes.coerced := rfl
  obtain ⟨keys, each⟩ := values _ _ ok
  obtain ⟨present, conform⟩ := each (Sizes.required "limit" "Int" none) List.mem_cons_self
  obtain ⟨value, found, null⟩ := present rfl
  have conforms := conform (by rintro _ ⟨⟩) value found
  have notNull : value ≠ .null := fun isNull => by
    obtain ⟨absent, -⟩ := null.mp isNull
    cases absent
  have same : ∀ d ∈ Sizes.operation.variableDefinitions,
      Entries.get? [("limit", Json.ofInt 7)] d.var.name.value =
        Entries.get? [("limit", .ofInt 7), ("depth", .null)] d.var.name.value := by
    intro d hd
    simp only [Sizes.operation, List.mem_cons, List.not_mem_nil, or_false] at hd
    rcases hd with rfl | rfl | rfl <;> rfl
  exact ⟨ok, (agree _ _ same).trans ok, keys, ⟨value, found, notNull, conforms⟩, _, rfl,
    (errors _).2 _ rfl⟩

end Input

end GraphQL
