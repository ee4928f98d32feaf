import GraphQL.Proofs.Input.ArgumentCoercion
import GraphQL.Proofs.Input.UntypedLiterals
import GraphQL.Proofs.Source.Yields

/-!
Null at non-null types. Main statement: what is written for a non-null argument gives null if and
only if it is a number too large for its form, and the type is a custom scalar. Of the literals in
source text those are the floats beyond the finite range.
-/
namespace GraphQL

open Ast TypeSystem

namespace Input

section

variable {schema : Schema} {vars : Entries Json} {literal : Value}

theorem literalValue_scalar_eq_null {name : String} {t : ScalarType}
    (ht : schema.type? name = some (.scalar t)) (null : literal.kind ≠ .nullValue)
    (isVariable : literal.kind ≠ .variable) :
    literalValue schema vars literal (.named name) = some .null ↔
      literal.Overflows ∧ Validation.isCustomScalar name = true := by
  rw [literalValue_scalar null isVariable ht, toOption_eq_some, toScalar_eq_null null isVariable]

/-- By induction on the type. A list is not null whatever is in it. -/
theorem literal_eq_null (null : literal.kind ≠ .nullValue) (isVariable : literal.kind ≠ .variable)
    (type : TypeRef) :
    literalValue schema vars literal type = some .null ↔
      literal.Overflows ∧ IsCustom schema type := by
  induction type with
  | nonNull inner ih =>
    rw [literalValue_nonNull null isVariable]
    exact ih
  | list item =>
    refine iff_of_false (fun read => ?_) fun both => both.2
    have reads := reads_of_literalValue literal _ _ read
    exact (reads.ne_null null isVariable).elim (· rfl) fun both => both.2
  | named name =>
    by_cases scalar : ∃ t, schema.type? name = some (.scalar t)
    · obtain ⟨t, ht⟩ := scalar
      rw [literalValue_scalar_eq_null ht null isVariable]
      exact and_congr_right fun _ => (and_iff_right ⟨t, ht⟩).symm
    · refine iff_of_false (fun read => ?_) fun both => scalar both.2.1
      have reads := reads_of_literalValue literal _ _ read
      exact (reads.ne_null null isVariable).elim (· rfl) fun both => scalar both.2.1

theorem written_eq_null (notNull : literalIsNull vars literal = false)
    (provided : isProvided vars literal = true) (type : TypeRef) :
    literalValue schema vars literal type = some .null ↔
      literal.Overflows ∧ IsCustom schema type := by
  cases literal with
  | null => cases notNull
  | «variable» v =>
    refine iff_of_false (fun read => ?_) fun both => both.1
    obtain ⟨value, given⟩ := Option.isSome_iff_exists.mp provided
    rw [literalIsNull, given] at notNull
    rw [literalValue, given] at read
    cases value with
    | null => cases notNull
    | _ => cases read
  | _ => exact literal_eq_null (by simp [Value.kind]) (by simp [Value.kind]) type

/-- What has a value at a non-null type is provided, and is not null itself. -/
theorem written_of_nonNull {type : TypeRef} (nonNull : type.isNonNull = true) {value : Json}
    (read : literalValue schema vars literal type = some value) :
    literalIsNull vars literal = false ∧ isProvided vars literal = true := by
  constructor
  · rw [← Bool.not_eq_true]
    intro null
    rw [literalValue_of_isNull null nonNull] at read
    cases read
  · cases literal with
    | «variable» v =>
      rw [isProvided, Entries.contains]
      cases given : vars.get? v.name.value with
      | some value => rfl
      | none =>
        rw [literalValue, given, variableAt, if_pos nonNull] at read
        cases read
    | _ => rfl

theorem nonNull_eq_null {type : TypeRef} (nonNull : type.isNonNull = true) :
    literalValue schema vars literal type = some .null ↔
      literal.Overflows ∧ IsCustom schema type := by
  by_cases written : literalIsNull vars literal = false ∧ isProvided vars literal = true
  · exact written_eq_null written.1 written.2 type
  · refine iff_of_false (fun read => written (written_of_nonNull nonNull read)) ?_
    rintro ⟨overflows, -⟩
    apply written
    cases literal with
    | int | float => exact ⟨rfl, rfl⟩
    | _ => cases overflows

theorem argument_of_fill (written : String → Option Value) {ds : List InputValue}
    {m : Entries Json}
    (filled : fill (fun d => writtenGives schema vars (written d.name) d) [] ds = some m)
    {d : InputValue} (hd : d ∈ ds) (found : written d.name = some literal)
    (provided : isProvided vars literal = true) :
    ∃ e ∈ ds, e.name = d.name ∧ ∃ value, m.get? d.name = some value ∧
      literalValue schema vars literal e.type = some value := by
  have present := name_mem_of_fill filled hd
    (writtenGives_ne_none (.inr (.inr ⟨literal, found, provided⟩)))
  obtain ⟨value, hv⟩ := Entries.exists_get?_of_mem present
  obtain ⟨e, he, named, gives⟩ := exists_of_mem_fill filled (Entries.mem_of_get? hv)
  refine ⟨e, he, named, value, hv, ?_⟩
  have same : e.name = d.name := named
  rw [same, found, writtenGives, Option.filter_some, if_pos provided] at gives
  obtain ⟨v, read, equal⟩ := Option.map_eq_some_iff.mp gives
  cases equal
  exact read

end

theorem yields_inInt64 (constant : Bool) (budget : Nat) :
    Parser.Yields (Parser.value constant budget)
      fun literal => ∀ n, literal = .int n → InInt64 n := by
  cases budget with
  | zero => exact .fail
  | succ budget =>
    have any : Parser.Yields (Parser.value constant budget) fun _ => True := fun _ _ _ _ => trivial
    refine (Parser.Yields.value_composed any).mono ?_
    rintro _ composed n rfl
    cases composed
    assumption

/-- Where integers have 64 bits, the floats beyond the finite range overflow. -/
theorem overflows_ofLiteral {literal : Literal} (range : ∀ n, literal = .int n → InInt64 n) :
    (Value.ofLiteral literal).Overflows ↔ ∃ x, literal = .float x ∧ x.isFinite = false := by
  cases literal with
  | int n =>
    rw [Value.ofLiteral, Value.Overflows, readInt64_integerText (range n rfl)]
    simp
  | float x =>
    rw [Value.ofLiteral, Value.Overflows, Binary64.ofText?_floatText]
    cases x <;> simp [Binary64.isFinite]
  | _ => simp [Value.ofLiteral, Value.Overflows]

theorem overflows_of_parsed {constant : Bool} {budget : Nat} {lexemes rest : List Lexeme}
    {literal : Literal} (parsed : Parser.value constant budget lexemes = .ok (literal, rest)) :
    (Value.ofLiteral literal).Overflows ↔ ∃ x, literal = .float x ∧ x.isFinite = false :=
  overflows_ofLiteral (yields_inInt64 constant budget lexemes literal rest parsed)

/-- A literal, or a variable with a value, that is written for a non-null type gives null only where
a number too large for its form stands for a custom scalar. In source text such a number is a float
beyond the finite range. -/
theorem nonNull_written (schema : Schema) (vars : Entries Json) :
    (∀ literal type, TypeRef.isNonNull type = true →
      (literalValue schema vars literal type = some .null ↔
        literal.Overflows ∧ IsCustom schema type)) ∧
    (∀ ds arguments m, argumentValues schema ds arguments vars = .ok m →
      ∀ d ∈ ds, d.type.isNonNull = true →
        ∀ literal, writtenArgument arguments d.name = some literal → isProvided vars literal = true →
          ∃ e ∈ ds, e.name = d.name ∧ ∃ value, m.get? d.name = some value ∧
            literalValue schema vars literal e.type = some value ∧
            (value = .null ↔ literal.Overflows ∧ IsCustom schema e.type)) ∧
    ∀ constant budget lexemes literal rest,
      Parser.value constant budget lexemes = .ok (literal, rest) →
      ((Value.ofLiteral literal).Overflows ↔ ∃ x, literal = .float x ∧ x.isFinite = false) := by
  refine ⟨fun literal type nonNull => nonNull_eq_null nonNull, ?_,
    fun constant budget lexemes literal rest parsed => overflows_of_parsed parsed⟩
  intro ds arguments m ok d hd nonNull literal written provided
  have filled := argumentValues_eq_ok.mp ok
  obtain ⟨e, he, named, value, bound, read⟩ :=
    argument_of_fill (writtenArgument arguments) filled hd written provided
  have given := fill_isSome.mp (Option.isSome_of_eq_some filled) d hd
  rw [written, writtenGives, Option.filter_some, if_pos provided, Option.isSome_map] at given
  obtain ⟨atOwn, readOwn⟩ := Option.isSome_iff_exists.mp given
  have notNull := (written_of_nonNull nonNull readOwn).1
  refine ⟨e, he, named, value, bound, read, ?_⟩
  rw [← written_eq_null notNull provided, read, Option.some.injEq]

namespace Sizes

/-- `scalar Size` -/
def schema : Schema where
  types := ("Size", .scalar ⟨⟨1, 1⟩, none, "Size", []⟩) ::
    builtinScalars.map fun t => (t.name, .scalar t)
  directives := []
  query := "Query"
  mutation := none
  subscription := none

def definitions : List InputValue :=
  [Filters.inputValue "limit" (.nonNull (.named "Int")) none,
    Filters.inputValue "size" (.nonNull (.named "Size")) none]

/-- `1e999` -/
def huge : Value := .ofLiteral (.float (.infinite false))

/-- `(size: 1e999, limit: $limit)` -/
def arguments : List Argument :=
  [⟨⟨"size", none⟩, huge, none⟩, ⟨⟨"limit", none⟩, .variable ⟨⟨"limit", none⟩, none⟩, none⟩]

def values : Entries Json := [("limit", .ofInt 3), ("size", .null)]

theorem size_isCustom : IsCustom schema (.nonNull (.named "Size")) := ⟨⟨_, rfl⟩, rfl⟩

end Sizes

theorem nonNull_written_sizes :
    Parser.value false 1 [⟨⟨1, 1⟩, .float "1e999".toList⟩] = .ok (.float (.infinite false), []) ∧
      Sizes.huge.Overflows ∧
      literalValue Sizes.schema [] Sizes.huge (.nonNull (.named "Size")) = some .null ∧
      argumentValues Sizes.schema Sizes.definitions Sizes.arguments [("limit", .ofInt 3)] =
        .ok Sizes.values ∧
      ∃ value, Entries.get? Sizes.values "limit" = some value ∧ value ≠ .null := by
  have parsed : Parser.value false 1 [⟨⟨1, 1⟩, .float "1e999".toList⟩] =
      .ok (.float (.infinite false), []) := rfl
  have ok : argumentValues Sizes.schema Sizes.definitions Sizes.arguments [("limit", .ofInt 3)] =
      .ok Sizes.values := rfl
  obtain ⟨-, atArguments, -⟩ := nonNull_written Sizes.schema [("limit", .ofInt 3)]
  obtain ⟨atType, -, ofSource⟩ := nonNull_written Sizes.schema []
  have overflows : Sizes.huge.Overflows := (ofSource _ _ _ _ _ parsed).mpr ⟨_, rfl, rfl⟩
  obtain ⟨e, -, -, value, bound, -, null⟩ := atArguments _ _ _ ok _ List.mem_cons_self rfl
    (.variable ⟨⟨"limit", none⟩, none⟩) rfl rfl
  exact ⟨parsed, overflows, (atType _ _ rfl).mpr ⟨overflows, Sizes.size_isCustom⟩, ok, value, bound,
    fun isNull => (null.mp isNull).1⟩

end Input

end GraphQL
