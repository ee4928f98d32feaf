import GraphQL.Proofs.Input.LiteralCoercion
import GraphQL.Proofs.Visit.Visits

/-!
Literals in documents: where they are written, and the types wanted there and inside them. Main
statement: what holds at all visits of a literal is what holds throughout it, by the types that are
wanted.
-/
namespace GraphQL.Visit

open Ast TypeSystem

variable {schema : Schema}

def itemType (schema : Schema) (type : Option TypeRef) : Option TypeRef :=
  (type.map TypeRef.itemType).bind (TypeContext.inputTypeOf? schema)

def inputFieldType (schema : Schema) (type : Option TypeRef) (name : String) : Option TypeRef :=
  ((type.bind schema.core?).bind (·.inputField? name)).bind fun f =>
    TypeContext.inputTypeOf? schema f.type

section

variable (schema : Schema) (P : Option TypeRef → Value → Prop)

mutual

/-- What holds of a literal and all literals inside, each with the type wanted there. -/
def Throughout (type : Option TypeRef) : Value → Prop
  | .list values loc => P type (.list values loc) ∧ ItemsThroughout (itemType schema type) values
  | .object fields loc => P type (.object fields loc) ∧ FieldsThroughout type fields
  | .variable v => P type (.variable v)
  | .int text loc => P type (.int text loc)
  | .float text loc => P type (.float text loc)
  | .string s => P type (.string s)
  | .boolean b loc => P type (.boolean b loc)
  | .null loc => P type (.null loc)
  | .enum name loc => P type (.enum name loc)

def ItemsThroughout (type : Option TypeRef) : List Value → Prop
  | [] => True
  | v :: rest => Throughout type v ∧ ItemsThroughout type rest

def FieldsThroughout (type : Option TypeRef) : List ObjectField → Prop
  | [] => True
  | f :: rest => FieldThroughout type f ∧ FieldsThroughout type rest

def FieldThroughout (type : Option TypeRef) : ObjectField → Prop
  | ⟨name, value, _⟩ => Throughout (inputFieldType schema type name.value) value

end

variable {schema P}

theorem itemsThroughout_iff {type : Option TypeRef} {values : List Value} :
    ItemsThroughout schema P type values ↔ ∀ v ∈ values, Throughout schema P type v := by
  induction values with
  | nil => simp [ItemsThroughout]
  | cons v rest ih => rw [ItemsThroughout, ih, List.forall_mem_cons]

theorem fieldsThroughout_iff {type : Option TypeRef} {fields : List ObjectField} :
    FieldsThroughout schema P type fields ↔
      ∀ f ∈ fields, Throughout schema P (inputFieldType schema type f.name.value) f.value := by
  induction fields with
  | nil => simp [FieldsThroughout]
  | cons f rest ih =>
    obtain ⟨name, value, loc⟩ := f
    rw [FieldsThroughout, ih, List.forall_mem_cons, FieldThroughout]

theorem Throughout.here {type : Option TypeRef} {v : Value} (h : Throughout schema P type v) :
    P type v := by
  cases v with
  | list => exact h.1
  | object => exact h.1
  | _ => exact h

end

/-- What holds of all literals at some types holds throughout, if the types inside are of the same
sort. -/
structure Closed (schema : Schema) (P : Option TypeRef → Value → Prop)
    (C : Option TypeRef → Prop) : Prop where
  here : ∀ type v, C type → P type v
  item : ∀ type, C type → C (itemType schema type)
  field : ∀ type name, C type → C (inputFieldType schema type name)

mutual

theorem Closed.throughout {P : Option TypeRef → Value → Prop} {C : Option TypeRef → Prop}
    (h : Closed schema P C) : ∀ (v : Value) (type : Option TypeRef), C type →
    Throughout schema P type v
  | .list values _, type, ht => ⟨h.here type _ ht, Closed.items h values _ (h.item type ht)⟩
  | .object fields _, type, ht => ⟨h.here type _ ht, Closed.fields h fields type ht⟩
  | .variable v, type, ht => h.here type (.variable v) ht
  | .int text loc, type, ht => h.here type (.int text loc) ht
  | .float text loc, type, ht => h.here type (.float text loc) ht
  | .string s, type, ht => h.here type (.string s) ht
  | .boolean b loc, type, ht => h.here type (.boolean b loc) ht
  | .null loc, type, ht => h.here type (.null loc) ht
  | .enum name loc, type, ht => h.here type (.enum name loc) ht

theorem Closed.items {P : Option TypeRef → Value → Prop} {C : Option TypeRef → Prop}
    (h : Closed schema P C) : ∀ (values : List Value) (type : Option TypeRef), C type →
    ItemsThroughout schema P type values
  | [], _, _ => trivial
  | v :: rest, type, ht => ⟨Closed.throughout h v type ht, Closed.items h rest type ht⟩

theorem Closed.fields {P : Option TypeRef → Value → Prop} {C : Option TypeRef → Prop}
    (h : Closed schema P C) : ∀ (fields : List ObjectField) (type : Option TypeRef), C type →
    FieldsThroughout schema P type fields
  | [], _, _ => trivial
  | f :: rest, type, ht => ⟨Closed.objectField h f type ht, Closed.fields h rest type ht⟩

theorem Closed.objectField {P : Option TypeRef → Value → Prop} {C : Option TypeRef → Prop}
    (h : Closed schema P C) : ∀ (f : ObjectField) (type : Option TypeRef), C type →
    FieldThroughout schema P type f
  | ⟨name, value, loc⟩, type, ht => by
    rw [FieldThroughout]
    exact Closed.throughout h value _ (h.field type name.value ht)

end

/-- A property of visits that says nothing of names and fields, and of literals no more than what
type is wanted. -/
structure Reads (schema : Schema) (Q : Visited → Prop) (P : Option TypeRef → Value → Prop) :
    Prop where
  name : ∀ (c : TypeContext) n path, Q ⟨c, .name n, path⟩
  field : ∀ (c : TypeContext) f path, Q ⟨c, .objectField f, path⟩
  value : ∀ (c : TypeContext) v path, Q ⟨c.enter schema (.value v), .value v, path⟩ ↔ P c.inputType? v

section

variable {Q : Visited → Prop} {P : Option TypeRef → Value → Prop}

theorem nameVisits (reads : Reads schema Q P) (n : Name) (c : TypeContext)
    (path : List PathSegment) : ∀ w ∈ visits schema c path n.tree, Q w := by
  intro w hw
  have single : visits schema c path n.tree = [⟨c, .name n, path⟩] := rfl
  rw [single, List.mem_singleton] at hw
  exact hw ▸ reads.name c n path

theorem leafVisits_iff (reads : Reads schema Q P) {v : Value} (c : TypeContext)
    (path : List PathSegment)
    (leaf : visits schema c path v.tree = [⟨c.enter schema (.value v), .value v, path⟩]) :
    (∀ w ∈ visits schema c path v.tree, Q w) ↔ P c.inputType? v := by
  rw [leaf, List.forall_mem_singleton]
  exact reads.value c v path

mutual

/-- What holds at all visits of a literal holds throughout it. -/
theorem visits_iff_throughout (reads : Reads schema Q P) : ∀ (v : Value) (c : TypeContext)
    (path : List PathSegment),
    (∀ w ∈ visits schema c path v.tree, Q w) ↔ Throughout schema P c.inputType? v
  | .list values loc, c, path => by
    have split : visits schema c path (Value.list values loc).tree =
        ⟨c.enterList schema, .value (.list values loc), path⟩ ::
          (itemsVisits schema (c.enterList schema) path (.value (.list values loc))
            (.many "values" .value) 0 (valueTrees values) ++ []) := by
      rw [Value.tree]
      rfl
    rw [split, List.append_nil, List.forall_mem_cons, Throughout,
      itemsVisits_iff_throughout reads values]
    exact and_congr_left fun _ => reads.value c (.list values loc) path
  | .object fields loc, c, path => by
    have split : visits schema c path (Value.object fields loc).tree =
        ⟨c, .value (.object fields loc), path⟩ ::
          (itemsVisits schema c path (.value (.object fields loc))
            (.many "fields" (.only .objectField)) 0 (objectFieldTrees fields) ++ []) := by
      rw [Value.tree]
      rfl
    rw [split, List.append_nil, List.forall_mem_cons, Throughout,
      fieldsVisits_iff_throughout reads fields]
    exact and_congr_left fun _ => reads.value c (.object fields loc) path
  | .variable v, c, path => by
    have split : visits schema c path (Value.variable v).tree =
        ⟨c, .value (.variable v), path⟩ ::
          ((visits schema c (path ++ [⟨.value (.variable v), Slot.name.key, none⟩]) v.name.tree ++
            []) ++ []) := by
      rw [Value.tree]
      rfl
    rw [split, List.append_nil, List.append_nil, List.forall_mem_cons, Throughout]
    refine Iff.trans ?_ (reads.value c (.variable v) path)
    exact and_iff_left (nameVisits reads v.name c _)
  | .int text loc, c, path => leafVisits_iff reads c path (by rw [Value.tree]; rfl)
  | .float text loc, c, path => leafVisits_iff reads c path (by rw [Value.tree]; rfl)
  | .string s, c, path => leafVisits_iff reads c path (by rw [Value.tree]; rfl)
  | .boolean b loc, c, path => leafVisits_iff reads c path (by rw [Value.tree]; rfl)
  | .null loc, c, path => leafVisits_iff reads c path (by rw [Value.tree]; rfl)
  | .enum name loc, c, path => leafVisits_iff reads c path (by rw [Value.tree]; rfl)

theorem itemsVisits_iff_throughout (reads : Reads schema Q P) : ∀ (values : List Value)
    (c : TypeContext) (path : List PathSegment) (parent : Node) (slot : Slot) (i : Nat),
    (∀ w ∈ itemsVisits schema c path parent slot i (valueTrees values), Q w) ↔
      ItemsThroughout schema P c.inputType? values
  | [], c, path, parent, slot, i => by simp [valueTrees, itemsVisits, ItemsThroughout]
  | v :: rest, c, path, parent, slot, i => by
    rw [valueTrees, itemsVisits, List.forall_mem_append, ItemsThroughout,
      visits_iff_throughout reads v, itemsVisits_iff_throughout reads rest]

theorem fieldsVisits_iff_throughout (reads : Reads schema Q P) : ∀ (fields : List ObjectField)
    (c : TypeContext) (path : List PathSegment) (parent : Node) (slot : Slot) (i : Nat),
    (∀ w ∈ itemsVisits schema c path parent slot i (objectFieldTrees fields), Q w) ↔
      FieldsThroughout schema P c.inputType? fields
  | [], c, path, parent, slot, i => by simp [objectFieldTrees, itemsVisits, FieldsThroughout]
  | f :: rest, c, path, parent, slot, i => by
    rw [objectFieldTrees, itemsVisits, List.forall_mem_append, FieldsThroughout,
      fieldVisits_iff_throughout reads f, fieldsVisits_iff_throughout reads rest]

theorem fieldVisits_iff_throughout (reads : Reads schema Q P) : ∀ (f : ObjectField)
    (c : TypeContext) (path : List PathSegment),
    (∀ w ∈ visits schema c path f.tree, Q w) ↔ FieldThroughout schema P c.inputType? f
  | ⟨name, value, loc⟩, c, path => by
    have split : visits schema c path (ObjectField.mk name value loc).tree =
        ⟨c.enterObjectField schema name.value, .objectField ⟨name, value, loc⟩, path⟩ ::
          ((visits schema (c.enterObjectField schema name.value)
              (path ++ [⟨.objectField ⟨name, value, loc⟩, Slot.name.key, none⟩]) name.tree ++ []) ++
            ((visits schema (c.enterObjectField schema name.value)
              (path ++ [⟨.objectField ⟨name, value, loc⟩, Slot.value.key, none⟩]) value.tree ++
                []) ++ [])) := by
      rw [ObjectField.tree]
      rfl
    rw [split, List.append_nil, List.append_nil, List.append_nil, List.forall_mem_cons,
      List.forall_mem_append, FieldThroughout, visits_iff_throughout reads value]
    exact ⟨fun h => h.2.2, fun h => ⟨reads.field _ _ path, nameVisits reads name _ _, h⟩⟩

end

end

/-- The literal is written at the end of the path, where the type is wanted: as an argument of a
field or directive that is known, or as the default of a variable. -/
inductive Written (schema : Schema) (root : Tree) : List PathSegment → Value → TypeRef → Prop where
  | fieldArgument {way : List PathSegment} {f : Ast.Field} {i : Nat} {a : Argument}
      {parent : TypeDefinition} {field : TypeSystem.Field} {d : InputValue} :
      Leads root way f.tree → f.arguments[i]? = some a →
      (contextAt schema (ancestors way)).parent? = some parent →
      schema.field? parent f.name.value = some field →
      field.arguments.find? (·.name = a.name.value) = some d →
      Written schema root (way ++ [⟨.selection (.field f), "arguments", some i⟩,
        ⟨.argument a, "value", none⟩]) a.value d.type
  | directiveArgument {way : List PathSegment} {written : Ast.Directive} {i : Nat} {a : Argument}
      {directive : TypeSystem.DirectiveDefinition} {d : InputValue} :
      Leads root way written.tree → written.arguments[i]? = some a →
      schema.directive? written.name.value = some directive →
      directive.arguments.find? (·.name = a.name.value) = some d →
      Written schema root (way ++ [⟨.directive written, "arguments", some i⟩,
        ⟨.argument a, "value", none⟩]) a.value d.type
  | variableDefault {way : List PathSegment} {d : VariableDefinition} {literal : Value} :
      Leads root way d.tree → d.defaultValue = some literal →
      Written schema root (way ++ [⟨.variableDefinition d, "default_value", none⟩]) literal
        d.type.toTypeRef

section

variable {root : Tree} {way : List PathSegment}

theorem leads_fieldArgument {f : Ast.Field} (h : Leads root way f.tree) {i : Nat} {a : Argument}
    (ha : f.arguments[i]? = some a) :
    Leads root (way ++ [⟨.selection (.field f), "arguments", some i⟩]) a.tree := by
  obtain ⟨aliasName, name, arguments, directives, set, loc⟩ := f
  rw [Field.tree] at h
  have branch : Branch.mk Slot.arguments (arguments.map Argument.tree) ∈
      (Tree.of (.selection (.field ⟨aliasName, name, arguments, directives, set, loc⟩))
        [aliasName.toList.map Name.tree, [name.tree], arguments.map Argument.tree,
          directives.map Directive.tree, selectionSetTrees set]).branches := by
    simp [Tree.of, Tree.branches, Node.kind, Selection.kind, Kind.slots]
  exact h.step (i := i) branch (by simp [Branch.items, ha])

theorem leads_directiveArgument {d : Ast.Directive} (h : Leads root way d.tree) {i : Nat}
    {a : Argument} (ha : d.arguments[i]? = some a) :
    Leads root (way ++ [⟨.directive d, "arguments", some i⟩]) a.tree := by
  have branch : Branch.mk Slot.arguments (d.arguments.map Argument.tree) ∈ d.tree.branches := by
    simp [Directive.tree, Tree.of, Tree.branches, Node.kind, Kind.slots]
  exact h.step (i := i) branch (by simp [Branch.items, ha])

theorem leads_argumentValue {a : Argument} (h : Leads root way a.tree) :
    Leads root (way ++ [⟨.argument a, "value", none⟩]) a.value.tree := by
  have branch : Branch.mk Slot.value [a.value.tree] ∈ a.tree.branches := by
    simp [Argument.tree, Tree.of, Tree.branches, Node.kind, Kind.slots]
  exact h.step (i := 0) branch rfl

theorem leads_defaultValue {d : VariableDefinition} (h : Leads root way d.tree) {literal : Value}
    (hd : d.defaultValue = some literal) :
    Leads root (way ++ [⟨.variableDefinition d, "default_value", none⟩]) literal.tree := by
  have branch : Branch.mk Slot.defaultValue (d.defaultValue.toList.map Value.tree) ∈
      d.tree.branches := by
    simp [VariableDefinition.tree, Tree.of, Tree.branches, Node.kind, Kind.slots]
  exact h.step (i := 0) branch (by simp [Branch.items, hd])

end

namespace Written

variable {root : Tree} {way : List PathSegment} {literal : Value} {type : TypeRef}

theorem leads (h : Written schema root way literal type) : Leads root way literal.tree := by
  cases h with
  | @fieldArgument way f i a _ _ _ leads ha _ _ _ =>
    have := leads_argumentValue (leads_fieldArgument leads ha)
    rwa [List.append_assoc] at this
  | @directiveArgument way written i a _ _ leads ha _ _ =>
    have := leads_argumentValue (leads_directiveArgument leads ha)
    rwa [List.append_assoc] at this
  | variableDefault leads hd => exact leads_defaultValue leads hd

theorem inputType?_of_field {c : TypeContext} {name : String} {field : TypeSystem.Field}
    {d : InputValue} (outside : c.directive = none) (hf : c.field? = some field)
    (hd : field.arguments.find? (·.name = name) = some d) (input : InputType schema d.type) :
    (c.enterArgument schema name).inputType? = some d.type := by
  simp [TypeContext.enterArgument, TypeContext.inputType?, outside, hf, hd,
    TypeContext.inputTypeOf?, input.known]

theorem inputType?_of_directive {c : TypeContext} {name : String}
    {directive : TypeSystem.DirectiveDefinition} {d : InputValue}
    (inside : c.directive = some directive)
    (hd : directive.arguments.find? (·.name = name) = some d) (input : InputType schema d.type) :
    (c.enterArgument schema name).inputType? = some d.type := by
  simp [TypeContext.enterArgument, TypeContext.inputType?, inside, hd,
    TypeContext.inputTypeOf?, input.known]

/-- The type wanted at a written literal is in the context around it. -/
theorem inputType?_eq (h : Written schema root way literal type) (grammatical : root.Grammatical)
    (input : InputType schema type) :
    (contextAt schema (ancestors way)).inputType? = some type := by
  cases h with
  | @fieldArgument way f i a parent field d leads ha hp hf hd =>
    have around : (contextAt schema (ancestors way)).Ready f.tree.node.kind :=
      ready_contextAt leads grammatical
    have node : f.tree.node = .selection (.field f) := by
      obtain ⟨_, _, _, _, _, _⟩ := f
      rw [Field.tree]
      rfl
    rw [node] at around
    have outside : (contextAt schema (ancestors way)).directive = none :=
      around.directive_eq_none rfl
    have here : ((contextAt schema (ancestors way)).enter schema (.selection (.field f))).field? =
        some field := by
      simp [TypeContext.enter, TypeContext.enterField, TypeContext.field?, hp, hf]
    have split : ancestors (way ++ [⟨.selection (.field f), "arguments", some i⟩,
        ⟨.argument a, "value", none⟩]) =
        ancestors way ++ [.selection (.field f)] ++ [.argument a] := by
      simp [ancestors]
    rw [split, contextAt_append_singleton, contextAt_append_singleton]
    exact inputType?_of_field outside here hd input
  | @directiveArgument way written i a directive d leads ha inside hd =>
    have split : ancestors (way ++ [⟨.directive written, "arguments", some i⟩,
        ⟨.argument a, "value", none⟩]) =
        ancestors way ++ [.directive written] ++ [.argument a] := by
      simp [ancestors]
    rw [split, contextAt_append_singleton, contextAt_append_singleton]
    exact inputType?_of_directive inside hd input
  | @variableDefault way d literal leads hd =>
    rw [ancestors_append_singleton, contextAt_append_singleton]
    simp [TypeContext.enter, TypeContext.enterVariableDefinition, TypeContext.inputType?,
      TypeContext.inputTypeOf?, input.known]

end Written

/-- What holds at a literal at the end of a way, and everywhere inside it. -/
def AtOrInside (schema : Schema) (root : Tree) (way : List PathSegment) (Q : Visited → Prop) :
    Prop :=
  ∀ v ∈ visits schema {} [] root, way <+: v.path → Q v

end GraphQL.Visit
