import GraphQL.Proofs.Validation.LiteralAgreement
import GraphQL.Proofs.Validation.Surroundings

/-!
Arguments and what holds them. Main statement: the rule on argument names reports the arguments that
the definition of their holder does not declare, and the rule on literals takes a value at the type
that this definition declares for it. At a directive that is not defined, the first reports nothing,
while the second falls back on the field around the directive.
-/
namespace GraphQL.Validation

open Ast TypeSystem Visit

/-- What holds arguments, with its definition. -/
inductive Holder where
  | field (parent : TypeDefinition) (definition : TypeSystem.Field)
  | directive (name : String) (definition : TypeSystem.DirectiveDefinition)

namespace Holder

def arguments : Holder → List InputValue
  | field _ definition => definition.arguments
  | directive _ definition => definition.arguments

def undeclared (argument : String) : Holder → Violation
  | field parent definition => .unknownFieldArgument argument parent.name definition.name
  | directive name _ => .unknownDirectiveArgument argument name

def violations (argument : String) (holder : Holder) : List Violation :=
  (holder.arguments.find? (·.name = argument)).elim [holder.undeclared argument] fun _ => []

end Holder

section

variable (schema : Schema)

/-- The innermost of some nodes as a holder of arguments; there is none if it is a field whose
definition or whose parent type is not known, or a directive that the schema does not define. -/
def holder? : List Node → Option Holder
  | .selection (.field f) :: outer =>
    (parentAround schema outer).bind fun parent =>
      (schema.field? parent f.name.value).map (.field parent)
  | .directive d :: _ => (schema.directive? d.name.value).map (.directive d.name.value)
  | _ => none

/-- What is wrong with the name of an argument, by its holder. -/
def nameViolations (p : Visit.Position) : List Violation :=
  match p.2 with
  | .argument a => (holder? schema (around p.1)).elim [] (Holder.violations a.name.value)
  | _ => []

/-- What is wrong with a literal at the type that the nodes around it ask for. -/
def valueViolations (p : Visit.Position) : List Violation :=
  match p.2 with
  | .value v => violationsAt schema (wanted schema (around p.1)) v
  | _ => []

end

/-- The violations of all positions in a tree, each reported with its place. -/
def reports (code : String) (each : Visit.Position → List Violation) (root : Tree) :
    List ValidationError :=
  (positions [] root).flatMap fun p =>
    (each p).map fun v => ⟨nearestLocation p.2 p.1, v.message, code⟩

/-- The step from an argument to its value. -/
def valueStep (a : Argument) : PathSegment := ⟨.argument a, "value", none⟩

/-- Nothing is wrong with the literal at the end of a way and those inside it. -/
def Silent (schema : Schema) (root : Tree) (way : List PathSegment) : Prop :=
  ∀ p ∈ positions [] root, way <+: p.1 → valueViolations schema p = []

/-- What becomes of an argument, by what holds it. -/
structure JudgedByHolder (schema : Schema) (root : Tree) (way : List PathSegment) (a : Argument) :
    Prop where
  held : (∃ f outer, around way = .selection (.field f) :: outer) ∨
    ∃ d outer, around way = .directive d :: outer
  named : nameViolations schema (way, .argument a) ≠ [] ↔
    ∃ holder, holder? schema (around way) = some holder ∧
      ∀ d ∈ holder.arguments, d.name ≠ a.name.value
  /-- The value is taken at the type that the definition of the holder declares. -/
  known : ∀ holder, holder? schema (around way) = some holder →
    wanted schema (.argument a :: around way) =
      argumentType schema holder.arguments a.name.value
  unknownField : ∀ f outer, around way = .selection (.field f) :: outer →
    holder? schema (around way) = none → Silent schema root (way ++ [valueStep a])
  /-- The value is taken at the type that the nearest field declares for this name. -/
  unknownDirective : ∀ d outer, around way = .directive d :: outer →
    holder? schema (around way) = none →
    wanted schema (.argument a :: around way) =
      (fieldAround schema outer).bind fun f => argumentType schema f.arguments a.name.value
  untyped : wanted schema (.argument a :: around way) = none →
    Silent schema root (way ++ [valueStep a])

section

variable {schema : Schema} {document : Document} {t : Tree} {way : List PathSegment}

theorem check_eq_reports (check : NodeCheck) {code : String}
    {each : Visit.Position → List Violation}
    (same : ∀ way t, Leads document.tree way t →
      check ⟨schema, document⟩ ((contextAt schema (ancestors way)).enter schema t.node) t.node way =
        each (way, t.node)) :
    (check.rule code).check ⟨schema, document⟩ = reports code each document.tree := by
  have visited : visits schema {} [] document.tree =
      (positions [] document.tree).map (visitAt schema) := visits_eq_map document.tree []
  change (check.findings _).map _ = _
  rw [NodeCheck.findings_eq, visited, List.flatMap_map, List.map_flatMap, reports]
  refine List.flatMap_congr fun p hp => ?_
  obtain ⟨way, t, leads, rfl⟩ := (mem_positions document.tree [] p).mp hp
  rw [NodeCheck.at, visitAt, contextAt_append_singleton, List.map_map]
  exact congrArg (List.map _) (same way t leads)

def argumentCheck : NodeCheck := fun _ c n path =>
  match n, c.argument with
  | .argument a, none =>
    match path.getLast?.map (·.parent) with
    | some (Node.directive d) =>
      if c.directive.isSome then [.unknownDirectiveArgument a.name.value d.name.value] else []
    | some (Node.selection (.field _)) =>
      match c.parent?, c.field? with
      | some parent, some f => [.unknownFieldArgument a.name.value parent.name f.name]
      | _, _ => []
    | _ => []
  | _, _ => []

section

variable {context : ValidationContext} {c : TypeContext} {a : Argument} {outer : List PathSegment}
  {segment : PathSegment}

theorem argumentCheck_field {f : Ast.Field} (held : segment.parent = .selection (.field f)) :
    argumentCheck context c (.argument a) (outer ++ [segment]) =
      c.argument.elim
        (c.parent?.bind fun parent => c.field?.map fun f =>
          Violation.unknownFieldArgument a.name.value parent.name f.name).toList
        fun _ => [] := by
  simp only [argumentCheck, List.getLast?_append, List.getLast?_singleton, Option.some_or,
    Option.map_some, held]
  cases c.argument <;> cases c.parent? <;> cases c.field? <;> rfl

theorem argumentCheck_directive {d : Ast.Directive} (held : segment.parent = .directive d) :
    argumentCheck context c (.argument a) (outer ++ [segment]) =
      c.argument.elim
        (c.directive.map fun _ =>
          Violation.unknownDirectiveArgument a.name.value d.name.value).toList
        fun _ => [] := by
  simp only [argumentCheck, List.getLast?_append, List.getLast?_singleton, Option.some_or,
    Option.map_some, held]
  cases c.argument <;> cases c.directive <;> rfl

end

theorem consulted_field (f : Ast.Field) (outer : List Node) :
    consulted schema (.selection (.field f) :: outer) =
      (holder? schema (.selection (.field f) :: outer)).map Holder.arguments := by
  simp only [consulted, fieldAround, holder?]
  cases parentAround schema outer with
  | none => rfl
  | some parent =>
    simp only [Option.bind_some]
    cases schema.field? parent f.name.value <;> rfl

theorem consulted_directive (d : Ast.Directive) (outer : List Node) :
    consulted schema (.directive d :: outer) =
      ((holder? schema (.directive d :: outer)).map Holder.arguments).or
        ((fieldAround schema outer).map (·.arguments)) := by
  simp only [consulted, holder?]
  cases schema.directive? d.name.value <;> rfl

theorem undeclared_field (f : Ast.Field) (outer : List Node) (name : String) :
    ((parentAround schema outer).bind fun parent =>
      (fieldAround schema (.selection (.field f) :: outer)).map fun d =>
        Violation.unknownFieldArgument name parent.name d.name) =
      (holder? schema (.selection (.field f) :: outer)).map (Holder.undeclared name) := by
  simp only [fieldAround, holder?]
  cases parentAround schema outer with
  | none => rfl
  | some parent =>
    simp only [Option.bind_some]
    cases schema.field? parent f.name.value <;> rfl

theorem elim_violations (holder : Option Holder) (fallback : Option (List InputValue))
    (name : String) :
    ((((holder.map Holder.arguments).or fallback).bind fun declared =>
      declared.find? (·.name = name)).elim (holder.map (Holder.undeclared name)).toList
        fun _ => []) = holder.elim [] (Holder.violations name) := by
  cases holder with
  | none =>
    generalize Option.bind _ _ = found
    cases found <;> rfl
  | some holder => rfl

/-- The check goes by the holder. -/
theorem argumentCheck_contextAt {a : Argument} (leads : Leads document.tree way t)
    (ht : t.node = .argument a) (context : ValidationContext) :
    argumentCheck context ((contextAt schema (ancestors way)).enter schema (.argument a))
        (.argument a) way = nameViolations schema (way, .argument a) := by
  have looked := arguments?_contextAt schema leads (by rw [ht]; rfl)
  have parent := parent?_contextAt schema way
  have field := field?_contextAt schema way
  obtain ⟨outer, segment, u, rfl, held, -, holder⟩ := holder_of_argument leads (by rw [ht]; rfl)
  rw [around_append_singleton, held] at looked parent field
  dsimp only [nameViolations]
  rw [around_append_singleton, held]
  rcases holder with ⟨f, hf⟩ | ⟨d, hd⟩
  · rw [hf] at looked parent field ⊢
    generalize contextAt schema (ancestors (outer ++ [segment])) = c at looked parent field
    calc argumentCheck context (c.enter schema (.argument a)) (.argument a) (outer ++ [segment])
      _ = ((arguments? c).bind fun declared => declared.find? (·.name = a.name.value)).elim
            (c.parent?.bind fun parent => c.field?.map fun d =>
              Violation.unknownFieldArgument a.name.value parent.name d.name).toList
            fun _ => [] := argumentCheck_field (held.trans hf)
      _ = (holder? schema (.selection (.field f) :: around outer)).elim []
            (Holder.violations a.name.value) := by
        rw [looked, parent, field, consulted_field, ← elim_violations _ none, Option.or_none,
          ← undeclared_field]
        rfl
  · have directive := directive_contextAt schema outer (held.trans hd)
    rw [hd] at looked ⊢
    generalize contextAt schema (ancestors (outer ++ [segment])) = c at looked directive
    calc argumentCheck context (c.enter schema (.argument a)) (.argument a) (outer ++ [segment])
      _ = ((arguments? c).bind fun declared => declared.find? (·.name = a.name.value)).elim
            (c.directive.map fun _ =>
              Violation.unknownDirectiveArgument a.name.value d.name.value).toList
            fun _ => [] := argumentCheck_directive (held.trans hd)
      _ = (holder? schema (.directive d :: around outer)).elim []
            (Holder.violations a.name.value) := by
        rw [looked, directive, consulted_directive, ← elim_violations _, holder?, Option.map_map,
          Option.map_map]
        rfl

theorem nameViolations_ne_nil {a : Argument} :
    nameViolations schema (way, .argument a) ≠ [] ↔
      ∃ holder, holder? schema (around way) = some holder ∧
        ∀ d ∈ holder.arguments, d.name ≠ a.name.value := by
  dsimp only [nameViolations]
  cases holder? schema (around way) with
  | none => simp
  | some holder =>
    have undeclared : holder.arguments.find? (·.name = a.name.value) = none ↔
        ∀ d ∈ holder.arguments, d.name ≠ a.name.value := by
      simp
    simp only [Option.elim_some, Option.some.injEq, exists_eq_left', ← undeclared,
      Holder.violations]
    cases holder.arguments.find? (·.name = a.name.value) <;> simp

theorem knownArgumentNames_reports :
    knownArgumentNames.check ⟨schema, document⟩ =
      reports "KnownArgumentNames" (nameViolations schema) document.tree := by
  refine check_eq_reports argumentCheck fun way t leads => ?_
  cases hn : t.node with
  | argument a => exact argumentCheck_contextAt leads hn _
  | _ => rfl

theorem valuesOfCorrectType_reports :
    valuesOfCorrectType.check ⟨schema, document⟩ =
      reports "ValuesOfCorrectType" (valueViolations schema) document.tree := by
  refine check_eq_reports literalCheck fun way t leads => ?_
  cases hn : t.node with
  | value v =>
    rw [literalCheck_enter, inputType?_contextAt schema leads]
    rfl
  | _ => rfl

theorem violationsAt_none (literal : Value) : violationsAt schema none literal = [] := by
  cases literal <;> rfl

/-- Inside a literal no type is asked for where none is asked for outside. -/
theorem wanted_cons_eq_none {n : Node} (inside : n.kind.inArgument = true) {outer : List Node}
    (untyped : wanted schema outer = none) : wanted schema (n :: outer) = none := by
  cases n with
  | value v =>
    cases v with
    | list => rw [wanted, untyped]; rfl
    | _ => exact untyped
  | objectField f => rw [wanted, untyped]; rfl
  | name => exact untyped
  | definition d => cases d <;> cases inside
  | selection s => cases s <;> cases inside
  | type t => cases t <;> cases inside
  | _ => cases inside

theorem wanted_inside {u : Tree} {rest : List PathSegment} (leads : Leads t rest u)
    (grammatical : t.Grammatical) (inside : t.node.kind.inArgument = true) {outer : List Node}
    (untyped : wanted schema outer = none) : wanted schema (around rest ++ outer) = none := by
  induction leads generalizing outer with
  | here => exact untyped
  | @down t u w b i way hb hi _ ih =>
    have item := List.mem_of_getElem? hi
    have below := Kind.inArgument_of_slot (grammatical.mem_slots hb) (grammatical.takes hb item)
      (.inr inside)
    have next := ih (grammatical.item hb item) below (wanted_cons_eq_none inside untyped)
    simpa [around, ancestors] using next

/-- A literal is not judged where no type is asked for at it. -/
theorem silent_of_untyped {a : Argument}
    (untyped : wanted schema (.argument a :: around way) = none) :
    Silent schema document.tree (way ++ [valueStep a]) := by
  rintro p hp ⟨rest, hrest⟩
  obtain ⟨full, u, leads, rfl⟩ := (mem_positions document.tree [] p).mp hp
  rw [List.nil_append] at hrest ⊢
  subst hrest
  obtain ⟨t, first, below⟩ := leads.split
  obtain ⟨holder, b, i, above, hb, hi, step⟩ := first.last
  have grammatical := above.grammatical document.taken.2
  have argument : holder.node = .argument a := (congrArg PathSegment.parent step).symm
  have inside := Kind.inArgument_of_slot (grammatical.mem_slots hb)
    (grammatical.takes hb (List.mem_of_getElem? hi)) (.inl (by rw [argument]; rfl))
  have none := wanted_inside below (first.grammatical document.taken.2) inside untyped
  have split : around (way ++ [valueStep a] ++ rest) =
      around rest ++ .argument a :: around way := by
    simp [around, ancestors, valueStep]
  rw [valueViolations, split, none]
  split
  · exact violationsAt_none _
  · rfl

theorem wanted_argument (a : Argument) (nodes : List Node) :
    wanted schema (.argument a :: nodes) = (consulted schema nodes).bind fun declared =>
      argumentType schema declared a.name.value := by
  rw [wanted]

theorem judgedByHolder {a : Argument} (leads : Leads document.tree way t)
    (ht : t.node = .argument a) : JudgedByHolder schema document.tree way a := by
  have held : (∃ f outer, around way = .selection (.field f) :: outer) ∨
      ∃ d outer, around way = .directive d :: outer := by
    obtain ⟨outer, segment, u, rfl, parent, -, holder⟩ :=
      holder_of_argument leads (by rw [ht]; rfl)
    rw [around_append_singleton, parent]
    rcases holder with ⟨f, hf⟩ | ⟨d, hd⟩
    · exact .inl ⟨f, around outer, by rw [hf]⟩
    · exact .inr ⟨d, around outer, by rw [hd]⟩
  refine ⟨held, nameViolations_ne_nil, fun holder h => ?_, fun f outer hf h => ?_,
    fun d outer hd h => ?_, silent_of_untyped⟩
  · rw [wanted_argument]
    rcases held with ⟨f, outer, hf⟩ | ⟨d, outer, hd⟩
    · rw [hf] at h ⊢
      rw [consulted_field, h]
      rfl
    · rw [hd] at h ⊢
      rw [consulted_directive, h]
      rfl
  · refine silent_of_untyped ?_
    rw [hf] at h
    rw [wanted_argument, hf, consulted_field, h]
    rfl
  · rw [hd] at h
    rw [wanted_argument, hd, consulted_directive, h]
    cases fieldAround schema outer <;> rfl

/-- The rule on argument names reports the arguments that the definition of their holder does not
declare, and the rule on literals takes the value of an argument at the type that this definition
declares. Where the definition is not known, the first reports nothing; the second reports nothing
at and inside the value at a field, while at a directive it goes by the nearest field around. -/
theorem arguments_judged (schema : Schema) (document : Document) :
    knownArgumentNames.check ⟨schema, document⟩ =
        reports "KnownArgumentNames" (nameViolations schema) document.tree ∧
      valuesOfCorrectType.check ⟨schema, document⟩ =
        reports "ValuesOfCorrectType" (valueViolations schema) document.tree ∧
      ∀ way a, (way, .argument a) ∈ positions [] document.tree →
        JudgedByHolder schema document.tree way a := by
  refine ⟨knownArgumentNames_reports, valuesOfCorrectType_reports, fun way a ha => ?_⟩
  obtain ⟨_, t, leads, same⟩ := (mem_positions document.tree [] _).mp ha
  rw [List.nil_append, Prod.mk.injEq] at same
  exact judgedByHolder (same.1 ▸ leads) same.2.symm

end

namespace Fallback

def query : ObjectType :=
  ⟨⟨1, 1⟩, none, "Query", [], [],
    [⟨⟨1, 1⟩, none, "f", [⟨⟨1, 1⟩, none, "a", .named "Int", none, []⟩], .named "Int", []⟩]⟩

def schema : Schema where
  types := ("Query", .object query) :: builtinScalars.map fun t => (t.name, .scalar t)
  directives := builtinDirectives.map fun d => (d.name, d)
  query := "Query"
  mutation := none
  subscription := none

def argument : Argument := ⟨⟨"a", none⟩, .string ⟨"x", false, none⟩, none⟩

def directive : Ast.Directive := ⟨⟨"unknown", none⟩, [argument], none⟩

def field : Ast.Field := ⟨none, ⟨"f", none⟩, [], [directive], none, none⟩

def operation : OperationDefinition := ⟨.query, none, [], [], ⟨[.field field], none⟩, none⟩

/-- `{ f @unknown(a: "x") }` -/
def document : Document := ⟨[.operation operation], none⟩

def way : List PathSegment :=
  [⟨.document document, "definitions", some 0⟩,
    ⟨.definition (.operation operation), "selection_set", none⟩,
    ⟨.selectionSet operation.selectionSet, "selections", some 0⟩,
    ⟨.selection (.field field), "directives", some 0⟩, ⟨.directive directive, "arguments", some 0⟩]

end Fallback

theorem arguments_judged_fallback :
    (Fallback.way, .argument Fallback.argument) ∈ positions [] Fallback.document.tree ∧
      holder? Fallback.schema (around Fallback.way) = none ∧
      wanted Fallback.schema (.argument Fallback.argument :: around Fallback.way) =
        some (.named "Int") := by
  have member : (Fallback.way, .argument Fallback.argument) ∈ positions [] Fallback.document.tree :=
    List.mem_of_getElem? (i := 7) rfl
  have unknown : holder? Fallback.schema (around Fallback.way) = none := rfl
  obtain ⟨-, -, judged⟩ := arguments_judged Fallback.schema Fallback.document
  have type := (judged _ _ member).unknownDirective Fallback.directive _ rfl unknown
  exact ⟨member, unknown, type.trans rfl⟩

/-- A directive that is not defined has its argument judged by the field that it stands at. -/
theorem judged_at_unknownDirective :
    Fallback.schema.directive? Fallback.directive.name.value = none ∧
      (valuesOfCorrectType.check ⟨Fallback.schema, Fallback.document⟩).map (·.message) =
        ["Expected value of type \"Int\", found \"x\"."] :=
  ⟨rfl, by decide +kernel⟩

end GraphQL.Validation
