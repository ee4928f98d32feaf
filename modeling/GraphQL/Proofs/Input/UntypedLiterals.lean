import GraphQL.Proofs.Input.Equations
import GraphQL.Proofs.Input.Scalars
import GraphQL.Proofs.Source.LiteralText
import GraphQL.Proofs.Source.Yields

/-!
Literals without type information, and as scalars. Main statement: a literal whose objects have no
key twice has the same value by itself and as a node.
-/
namespace GraphQL

open Ast

/-- The literal that is read, and all those inside it. -/
inductive Literal.Contains : Literal → Literal → Prop where
  | self {literal : Literal} : Contains literal literal
  | item {items : List Literal} {item inner : Literal} :
      item ∈ items → Contains item inner → Contains (.list items) inner
  | field {fields : List (String × Literal)} {field : String × Literal} {inner : Literal} :
      field ∈ fields → Contains field.2 inner → Contains (.object fields) inner

namespace Literal

theorem itemsToJson_eq (items : List Literal) : itemsToJson items = items.map toJson := by
  induction items with
  | nil => rfl
  | cons item items ih => rw [itemsToJson, ih, List.map_cons]

theorem fieldsToJson_eq (fields : List (String × Literal)) :
    fieldsToJson fields = fields.map fun field => (field.1, field.2.toJson) := by
  induction fields with
  | nil => rfl
  | cons field fields ih => rw [fieldsToJson, ih, List.map_cons]

theorem keys_fieldsToJson (fields : Entries Literal) :
    Entries.keys (fieldsToJson fields) = fields.keys := by
  rw [fieldsToJson_eq, Entries.keys, List.map_map]
  rfl

theorem get?_fieldsToJson (fields : Entries Literal) (name : String) :
    Entries.get? (fieldsToJson fields) name = (fields.get? name).map toJson := by
  rw [fieldsToJson_eq, Entries.get?_map]

end Literal

theorem writtenField_fieldsOfLiterals (fields : Entries Literal) (name : String) :
    writtenField (fieldsOfLiterals fields) name = (fields.get? name).map .ofLiteral := by
  induction fields with
  | nil => rfl
  | cons field fields ih =>
    obtain ⟨key, literal⟩ := field
    rw [fieldsOfLiterals, writtenField, List.find?_cons, Entries.get?]
    by_cases same : key = name
    · simp [same]
    · rw [decide_eq_false same, if_neg same]
      exact ih

theorem writtenField_of_get? {fields : Entries Literal} {name : String} {literal : Literal}
    (h : fields.get? name = some literal) :
    writtenField (fieldsOfLiterals fields) name = some (.ofLiteral literal) := by
  rw [writtenField_fieldsOfLiterals, h]
  rfl

theorem Ast.valuesToJson_eq (vars : Entries Json) (values : List Value) :
    valuesToJson vars values = values.map (Value.toJson vars) := by
  induction values with
  | nil => rfl
  | cons v values ih => rw [valuesToJson, ih, List.map_cons]

theorem Ast.objectFieldsToJson_eq (vars : Entries Json) (fields : List ObjectField) :
    objectFieldsToJson vars fields = fields.map fun f => (f.name.value, f.value.toJson vars) := by
  induction fields with
  | nil => rfl
  | cons f fields ih =>
    obtain ⟨name, value, loc⟩ := f
    rw [objectFieldsToJson, ih, List.map_cons, ObjectField.toEntry]

theorem Binary64.ofText?_floatText (x : Binary64) : Binary64.ofText? (floatText x) = some x := by
  cases x with
  | finite x => exact DecimalLayout.ofText?_text floatLayout x
  | infinite negative => cases negative <;> rfl
  | nan => rfl

namespace Literal

theorem induction {motive : Literal → Prop}
    (step : ∀ literal : Literal, (∀ items, literal = .list items → ∀ item ∈ items, motive item) →
      (∀ fields, literal = .object fields → ∀ field ∈ fields, motive field.2) → motive literal)
    (literal : Literal) : motive literal :=
  step literal
    (fun items h item hi => by
      have := List.sizeOf_lt_of_mem hi
      exact induction step item)
    (fun fields h field hf => by
      have := List.sizeOf_lt_of_mem hf
      obtain ⟨name, value⟩ := field
      exact induction step value)
termination_by sizeOf literal
decreasing_by
  all_goals simp_all
  all_goals omega

/-- No object in the literal, at any depth, has a key twice. -/
def Keyed (literal : Literal) : Prop :=
  ∀ fields : Entries Literal, literal.Contains (.object fields) → fields.keys.Nodup

theorem keyed_list {items : List Literal} :
    (Literal.list items).Keyed ↔ ∀ item ∈ items, item.Keyed := by
  constructor
  · intro keyed item member fields inside
    exact keyed fields (.item member inside)
  · intro members fields inside
    cases inside with
    | item member inside => exact members _ member fields inside

theorem keyed_object {fields : Entries Literal} :
    (Literal.object fields).Keyed ↔ fields.keys.Nodup ∧ ∀ field ∈ fields, field.2.Keyed := by
  constructor
  · intro keyed
    exact ⟨keyed fields .self, fun field member inner inside => keyed inner (.field member inside)⟩
  · rintro ⟨nodup, members⟩ inner inside
    cases inside with
    | self => exact nodup
    | field member inside => exact members _ member inner inside

theorem nodup_of_sorted {fields : Entries Literal} (sorted : fields.Pairwise (·.1 < ·.1)) :
    fields.keys.Nodup := by
  have differ {f g : String × Literal} (less : f.1 < g.1) : f.1 ≠ g.1 := by
    intro same
    rw [same] at less
    exact String.lt_irrefl _ less
  exact List.pairwise_map.mpr (sorted.imp differ)

theorem int_toJson (n : Int) (vars : Entries Json) :
    (Value.ofLiteral (.int n)).toJson vars = (Literal.int n).toJson := by
  rw [Value.ofLiteral, Value.toJson, toJson]
  by_cases range : InInt64 n
  · rw [readInt64_integerText range, if_pos range]
    rfl
  · rw [readInt64_integerText_eq_none range, if_neg range]
    rfl

/-- A literal as a node has the value that it has by itself, if none of its variables has a value.
By induction on the literal: its members are as good. -/
theorem toJson_of_keyed {literal : Literal} {vars : Entries Json} (keyed : literal.Keyed)
    (unbound : ∀ name, literal.Contains (.variable name) → vars.get? name = none) :
    (Value.ofLiteral literal).toJson vars = literal.toJson := by
  induction literal using Literal.induction with
  | step literal items fields =>
  cases literal with
  | «variable» name =>
    rw [Value.ofLiteral, Value.toJson, unbound name .self]
    rfl
  | int n => exact int_toJson n vars
  | float x =>
    rw [Value.ofLiteral, Value.toJson, Binary64.ofText?_floatText]
    rfl
  | list values =>
    rw [Value.ofLiteral, Value.toJson, valuesToJson_eq, valuesOfLiterals_eq, toJson, itemsToJson_eq,
      List.map_map]
    refine congrArg Json.array (List.map_congr_left fun v hv => ?_)
    exact items values rfl v hv (keyed_list.mp keyed v hv)
      fun name inside => unbound name (.item hv inside)
  | object entries =>
    obtain ⟨nodup, members⟩ := keyed_object.mp keyed
    have same : objectFieldsToJson vars (fieldsOfLiterals entries) = fieldsToJson entries := by
      rw [objectFieldsToJson_eq, fieldsOfLiterals_eq, fieldsToJson_eq, List.map_map]
      refine List.map_congr_left fun field hf => congrArg (Prod.mk field.1) ?_
      exact fields entries rfl field hf (members field hf)
        fun name inside => unbound name (.field hf inside)
    rw [Value.ofLiteral, Value.toJson, same, toJson, Entries.ofList_eq]
    rw [keys_fieldsToJson]
    exact nodup
  | _ => rfl

/-- Reading source text puts objects together without a key twice. -/
theorem yields_keyed (constant : Bool) (budget : Nat) :
    Parser.Yields (Parser.value constant budget) Keyed := by
  induction budget with
  | zero => exact .fail
  | succ budget ih =>
    refine (Parser.Yields.value_composed ih).mono fun literal composed => ?_
    cases composed with
    | list items => exact keyed_list.mpr items
    | object sorted fields => exact keyed_object.mpr ⟨nodup_of_sorted sorted, fields⟩
    | _ => exact nofun

/-- A literal whose objects have no key twice has the same value by itself and, without the values
of variables, as a node; the keys of its objects are in the same order. All literals of source text
are such. -/
theorem untyped_agree :
    (∀ literal : Literal, literal.Keyed → (Value.ofLiteral literal).toJson [] = literal.toJson) ∧
      ∀ constant budget, Parser.Yields (Parser.value constant budget) Keyed :=
  ⟨fun _ keyed => toJson_of_keyed keyed fun _ _ => rfl, yields_keyed⟩

/-- `{ limits: [$low, -1e999, 1.0], shape: { kind: ROUND, name: null } }` -/
theorem untyped_agree_shape :
    let shape : Literal := .object [("kind", .enum "ROUND"), ("name", .null)]
    let limits : Literal := .list [.variable "low", .float (.infinite true), .float (.ofInt 1)]
    let literal : Literal := .object [("limits", limits), ("shape", shape)]
    literal.Keyed ∧ (Value.ofLiteral literal).toJson [] =
      .object [("limits", .array [.null, .null, .ofBinary64 (.ofInt 1)]),
        ("shape", .object [("kind", .string "ROUND"), ("name", .null)])] := by
  intro shape limits literal
  have keyed : literal.Keyed := by
    simp only [literal, shape, limits, keyed_object, keyed_list, List.forall_mem_cons]
    exact ⟨by decide, ⟨nofun, nofun, nofun, nofun⟩, ⟨by decide, nofun, nofun, nofun⟩, nofun⟩
  exact ⟨keyed, (untyped_agree.1 literal keyed).trans rfl⟩

namespace Fits

variable {constant : Bool} {k : Nat}

theorem int {n : Int} (fits : (Literal.int n).Fits constant k) : InInt64 n := by
  cases k <;> exact fits

theorem eq_int {literal : Literal} {text : String} {loc : Option Location}
    (fits : literal.Fits constant k) (written : Value.ofLiteral literal = .int text loc) :
    ∃ n : JsonInteger, literal = .int n.val ∧ text = integerText n.val ∧ InInt64 n.val := by
  cases literal with
  | int n =>
    cases written
    obtain ⟨m, rfl⟩ := JsonInteger.exists_of_inInt64 fits.int
    exact ⟨m, rfl, rfl, fits.int⟩
  | _ => cases written

theorem items?_toJson {literal : Literal} (fits : literal.Fits constant k)
    (list : (Value.ofLiteral literal).kind ≠ .listValue) : literal.toJson.items? = none := by
  cases literal with
  | int n =>
    obtain ⟨m, rfl⟩ := JsonInteger.exists_of_inInt64 fits.int
    rw [toJson, if_pos fits.int, Json.ofInt_val]
    rfl
  | float x => cases x <;> rfl
  | list items => exact absurd rfl list
  | _ => rfl

theorem kind_ne_variable {literal : Literal} (fits : literal.Fits true k) :
    (Value.ofLiteral literal).kind ≠ .variable := by
  cases literal with
  | «variable» name => cases k <;> cases fits.1
  | _ => simp [Value.ofLiteral, Value.kind]

theorem isProvided {literal : Literal} (fits : literal.Fits true k) (vars : Entries Json) :
    isProvided vars (.ofLiteral literal) = true := by
  cases literal with
  | «variable» name => cases k <;> cases fits.1
  | _ => rfl

theorem items {items : List Literal} (fits : (Literal.list items).Fits constant k) :
    ∃ k, ∀ item ∈ items, item.Fits constant k := by
  cases k with
  | zero => cases fits
  | succ k => exact ⟨k, fits⟩

theorem fields {fields : Entries Literal} (fits : (Literal.object fields).Fits constant k) :
    fields.keys.Nodup ∧ ∃ k, ∀ field ∈ fields, field.2.Fits constant k := by
  cases k with
  | zero => cases fits
  | succ k =>
    obtain ⟨sorted, members⟩ := fits
    exact ⟨nodup_of_sorted sorted, k, fun field hf => (members field hf).2⟩

theorem contained {literal inner : Literal} (h : literal.Contains inner) {k : Nat}
    (fits : literal.Fits constant k) : ∃ k, inner.Fits constant k := by
  induction h generalizing k with
  | self => exact ⟨k, fits⟩
  | item member _ ih =>
    obtain ⟨k, members⟩ := fits.items
    exact ih (members _ member)
  | field member _ ih =>
    obtain ⟨-, k, members⟩ := fits.fields
    exact ih (members _ member)

theorem keyed {literal : Literal} (fits : literal.Fits constant k) : literal.Keyed := by
  intro fields inside
  obtain ⟨k, within⟩ := contained inside fits
  exact within.fields.1

/-- A literal as a node has the value that it has by itself, whatever the values of variables if it
has no variables. -/
theorem toJson_ofLiteral {literal : Literal} {vars : Entries Json} (fits : literal.Fits constant k)
    (closed : constant = false → vars = []) :
    (Value.ofLiteral literal).toJson vars = literal.toJson := by
  refine toJson_of_keyed fits.keyed fun name inside => ?_
  obtain ⟨k, within⟩ := contained inside fits
  have isOpen : constant = false := by cases k <;> exact within.1
  rw [closed isOpen]
  rfl

theorem toScalar_ofLiteral {literal : Literal} (fits : literal.Fits true k) (vars : Entries Json)
    (name : String) :
    (Value.ofLiteral literal).toScalar vars name = (Value.ofLiteral literal).toScalar [] name := by
  have same : (Value.ofLiteral literal).toJson vars = (Value.ofLiteral literal).toJson [] := by
    rw [fits.toJson_ofLiteral (by simp), fits.toJson_ofLiteral (by simp)]
  unfold Value.toScalar
  rw [same]

end Fits

theorem toJson_int {n : JsonInteger} (h : InInt64 n.val) :
    (Literal.int n.val).toJson = .integer n := by
  rw [toJson, if_pos h, Json.ofInt_val]

end Literal

namespace Input

/-- What a literal is as a scalar, by the name of the scalar. -/
inductive ReadsScalar : String → Literal → Json → Prop where
  | int {n : JsonInteger} : InInt32 n.val → ReadsScalar "Int" (.int n.val) (.integer n)
  | intAsFloat {n : JsonInteger} : ReadsScalar "Float" (.int n.val) (.integer n)
  | float {x : Finite64} : ReadsScalar "Float" (.float (.finite x)) (.float x)
  | string {text : String} : ReadsScalar "String" (.string text) (.string text)
  | boolean {b : Bool} : ReadsScalar "Boolean" (.boolean b) (.bool b)
  | id {text : String} : ReadsScalar "ID" (.string text) (.string text)
  | intAsId {n : JsonInteger} : ReadsScalar "ID" (.int n.val) (.string (integerText n.val))
  | custom {name : String} {literal : Literal} :
      Validation.isCustomScalar name = true → ReadsScalar name literal literal.toJson

theorem readsScalar_of_toScalar {name : String} {literal : Literal} {k : Nat} {v : Json}
    (fits : literal.Fits true k) (h : (Value.ofLiteral literal).toScalar [] name = .ok v) :
    ReadsScalar name literal v := by
  rcases scalar_names name with rfl | rfl | rfl | rfl | rfl | custom
  · obtain ⟨text, loc, n, written, read, range, rfl⟩ := toScalar_int.mp h
    obtain ⟨m, rfl, rfl, inRange⟩ := fits.eq_int written
    cases (readInt64_integerText inRange).symm.trans read
    rw [Json.ofInt_val]
    exact .int range
  · rcases toScalar_float.mp h with ⟨text, loc, n, written, read, rfl⟩ |
      ⟨text, loc, x, written, read, rfl⟩
    · obtain ⟨m, rfl, rfl, inRange⟩ := fits.eq_int written
      cases (readInt64_integerText inRange).symm.trans read
      rw [Json.ofInt_val]
      exact .intAsFloat
    · cases literal with
      | float y =>
        cases written
        cases (Binary64.ofText?_floatText y).symm.trans read
        exact .float
      | _ => cases written
  · obtain ⟨s, written, rfl⟩ := toScalar_string.mp h
    cases literal with
    | string text =>
      cases written
      exact .string
    | _ => cases written
  · obtain ⟨b, loc, written, rfl⟩ := toScalar_boolean.mp h
    cases literal with
    | boolean b =>
      cases written
      exact .boolean
    | _ => cases written
  · rcases toScalar_id.mp h with ⟨s, written, rfl⟩ | ⟨text, loc, written, rfl⟩
    · cases literal with
      | string text =>
        cases written
        exact .id
      | _ => cases written
    · obtain ⟨m, rfl, rfl, -⟩ := fits.eq_int written
      exact .intAsId
  · rw [Validation.toScalar_of_custom custom, fits.toJson_ofLiteral (by simp)] at h
    cases h
    exact .custom custom

end Input

end GraphQL
