import GraphQL.Proofs.Ast.Grammar

/-!
The parts of a node: its kind, payload and span, and its children slot by slot. Main statements: a
node is assembled from its own parts, so two nodes with the same parts are one; and whatever
children fit the slots of a node, there is a node that differs from it in its children only and has
these.
-/
namespace GraphQL.Ast

theorem valueTrees_eq (values : List Value) : valueTrees values = values.map Value.tree := by
  induction values with
  | nil => rfl
  | cons v rest ih => rw [valueTrees, ih, List.map_cons]

theorem objectFieldTrees_eq (fields : List ObjectField) :
    objectFieldTrees fields = fields.map ObjectField.tree := by
  induction fields with
  | nil => rfl
  | cons f rest ih => rw [objectFieldTrees, ih, List.map_cons]

theorem selectionTrees_eq (selections : List Selection) :
    selectionTrees selections = selections.map Selection.tree := by
  induction selections with
  | nil => rfl
  | cons s rest ih => rw [selectionTrees, ih, List.map_cons]

theorem selectionSetTrees_eq (set : Option SelectionSet) :
    selectionSetTrees set = set.toList.map SelectionSet.tree := by
  cases set <;> rfl

namespace Node

def parts : Node → List (List Node)
  | name _ => []
  | document d => [d.definitions.map definition]
  | definition (.operation d) => [d.name.toList.map name,
      d.variableDefinitions.map variableDefinition, d.directives.map directive,
      [selectionSet d.selectionSet]]
  | definition (.fragment d) => [[name d.name], [type (.named d.typeCondition)],
      d.directives.map directive, [selectionSet d.selectionSet]]
  | definition (.schema d) => [d.directives.map directive,
      d.operationTypes.map operationTypeDefinition]
  | definition (.scalar d) => [d.description.toList.map (value ∘ .string), [name d.name],
      d.directives.map directive]
  | definition (.object d) => [d.description.toList.map (value ∘ .string), [name d.name],
      d.interfaces.map (type ∘ .named), d.directives.map directive, d.fields.map fieldDefinition]
  | definition (.interface d) => [d.description.toList.map (value ∘ .string), [name d.name],
      d.interfaces.map (type ∘ .named), d.directives.map directive, d.fields.map fieldDefinition]
  | definition (.union d) => [d.description.toList.map (value ∘ .string), [name d.name],
      d.directives.map directive, d.types.map (type ∘ .named)]
  | definition (.enum d) => [d.description.toList.map (value ∘ .string), [name d.name],
      d.directives.map directive, d.values.map enumValueDefinition]
  | definition (.inputObject d) => [d.description.toList.map (value ∘ .string), [name d.name],
      d.directives.map directive, d.fields.map inputValueDefinition]
  | definition (.directive d) => [d.description.toList.map (value ∘ .string), [name d.name],
      d.arguments.map inputValueDefinition, d.locations.map name]
  | variableDefinition d => [[value (.variable d.var)], [type d.type],
      d.defaultValue.toList.map value, d.directives.map directive]
  | selectionSet s => [s.selections.map selection]
  | selection (.field f) => [f.aliasName.toList.map name, [name f.name], f.arguments.map argument,
      f.directives.map directive, f.selectionSet.toList.map selectionSet]
  | selection (.spread s) => [[name s.name], s.directives.map directive]
  | selection (.inlineFragment f) => [f.typeCondition.toList.map (type ∘ .named),
      f.directives.map directive, [selectionSet f.selectionSet]]
  | argument a => [[name a.name], [value a.value]]
  | value (.variable v) => [[name v.name]]
  | value (.list values _) => [values.map value]
  | value (.object fields _) => [fields.map objectField]
  | value _ => []
  | objectField f => [[name f.name], [value f.value]]
  | directive d => [[name d.name], d.arguments.map argument]
  | type (.named t) => [[name t.name]]
  | type (.list item _) => [[type item]]
  | type (.nonNull inner _) => [[type inner]]
  | operationTypeDefinition d => [[type (.named d.type)]]
  | fieldDefinition d => [d.description.toList.map (value ∘ .string), [name d.name],
      d.arguments.map inputValueDefinition, [type d.type], d.directives.map directive]
  | inputValueDefinition d => [d.description.toList.map (value ∘ .string), [name d.name],
      [type d.type], d.defaultValue.toList.map value, d.directives.map directive]
  | enumValueDefinition d => [d.description.toList.map (value ∘ .string), [name d.name],
      d.directives.map directive]

theorem length_parts (n : Node) : n.parts.length = n.kind.slots.length := by
  cases n with
  | definition d => cases d <;> rfl
  | selection s => cases s <;> rfl
  | value v => cases v <;> rfl
  | type t => cases t <;> rfl
  | _ => rfl

theorem tree_eq (n : Node) : n.tree = .of n (n.parts.map (List.map tree)) := by
  rcases n with _ | _ | d | _ | ⟨_, _⟩ | ⟨⟨_, _, _, _, _, _⟩ | _ | ⟨_, _, _, _⟩⟩ | _ | v |
    ⟨_, _, _⟩ | _ | t | _ | _ | _ | _
  case definition =>
    cases d <;> simp only [parts, List.map_cons, List.map_nil, List.map_map] <;> rfl
  case value =>
    cases v <;> simp only [parts, List.map_cons, List.map_nil, List.map_map, tree, Value.tree,
      valueTrees_eq, objectFieldTrees_eq] <;> rfl
  case type => cases t <;> rfl
  all_goals
    simp only [parts, List.map_cons, List.map_nil, List.map_map, tree, SelectionSet.tree,
      Selection.tree, Field.tree, InlineFragment.tree, selectionTrees_eq, selectionSetTrees_eq]
    rfl

theorem children_eq_parts (n : Node) : n.children = n.parts := by
  have items : ∀ ns : List Node, (ns.map tree).map Tree.node = ns := fun ns => by
    rw [List.map_map, List.map_congr_left fun m _ => m.node_tree, List.map_id']
  rw [children, tree_eq, Tree.of, Tree.branches, List.map_zipWith, List.zipWith_map_right]
  simp only [Branch.items, items]
  have all := List.map_snd_zip (Nat.le_of_eq n.length_parts)
  rwa [List.map_zip_eq_zipWith] at all

private theorem form {n : Node} {kind : Kind} (h : (Category.only kind).has n.kind = true) :
    match kind with
    | .name => ∃ a, n = name a
    | .variable => ∃ v, n = value (.variable v)
    | .stringValue => ∃ s, n = value (.string s)
    | .namedType => ∃ t, n = type (.named t)
    | .selectionSet => ∃ s, n = selectionSet s
    | .argument => ∃ a, n = argument a
    | .objectField => ∃ f, n = objectField f
    | .directive => ∃ d, n = directive d
    | .variableDefinition => ∃ d, n = variableDefinition d
    | .operationTypeDefinition => ∃ d, n = operationTypeDefinition d
    | .fieldDefinition => ∃ d, n = fieldDefinition d
    | .inputValueDefinition => ∃ d, n = inputValueDefinition d
    | .enumValueDefinition => ∃ d, n = enumValueDefinition d
    | _ => True := by
  obtain rfl := of_decide_eq_true h
  rcases n with _ | _ | d | _ | _ | s | _ | v | _ | _ | t | _ | _ | _ | _
  case definition => cases d <;> trivial
  case selection => cases s <;> trivial
  case document => trivial
  case value => cases v <;> first | trivial | exact ⟨_, rfl⟩
  case type => cases t <;> first | trivial | exact ⟨_, rfl⟩
  all_goals exact ⟨_, rfl⟩

/-- The nodes of a category are all `node a`, and `as` reads the `a` back. -/
structure Reads {α : Type} (as : Node → Option α) (node : α → Node) (c : Category) : Prop where
  reads : ∀ a, as (node a) = some a
  form : ∀ n : Node, c.has n.kind = true → ∃ a, n = node a

theorem reads_name : Reads name? name (.only .name) :=
  ⟨fun _ => rfl, fun _ h => form h⟩

theorem reads_variable : Reads variableValue? (value ∘ .variable) (.only .variable) :=
  ⟨fun _ => rfl, fun _ h => form h⟩

theorem reads_stringValue : Reads stringValue? (value ∘ .string) (.only .stringValue) :=
  ⟨fun _ => rfl, fun _ h => form h⟩

theorem reads_namedType : Reads namedType? (type ∘ .named) (.only .namedType) :=
  ⟨fun _ => rfl, fun _ h => form h⟩

theorem reads_selectionSet : Reads selectionSet? selectionSet (.only .selectionSet) :=
  ⟨fun _ => rfl, fun _ h => form h⟩

theorem reads_argument : Reads argument? argument (.only .argument) :=
  ⟨fun _ => rfl, fun _ h => form h⟩

theorem reads_objectField : Reads objectField? objectField (.only .objectField) :=
  ⟨fun _ => rfl, fun _ h => form h⟩

theorem reads_directive : Reads directive? directive (.only .directive) :=
  ⟨fun _ => rfl, fun _ h => form h⟩

theorem reads_variableDefinition :
    Reads variableDefinition? variableDefinition (.only .variableDefinition) :=
  ⟨fun _ => rfl, fun _ h => form h⟩

theorem reads_operationTypeDefinition :
    Reads operationTypeDefinition? operationTypeDefinition (.only .operationTypeDefinition) :=
  ⟨fun _ => rfl, fun _ h => form h⟩

theorem reads_fieldDefinition : Reads fieldDefinition? fieldDefinition (.only .fieldDefinition) :=
  ⟨fun _ => rfl, fun _ h => form h⟩

theorem reads_inputValueDefinition :
    Reads inputValueDefinition? inputValueDefinition (.only .inputValueDefinition) :=
  ⟨fun _ => rfl, fun _ h => form h⟩

theorem reads_enumValueDefinition :
    Reads enumValueDefinition? enumValueDefinition (.only .enumValueDefinition) :=
  ⟨fun _ => rfl, fun _ h => form h⟩

theorem reads_definition : Reads definition? definition .definition := by
  refine ⟨fun _ => rfl, fun n h => ?_⟩
  rcases n with _ | _ | d | _ | _ | s | _ | v | _ | _ | t | _ | _ | _ | _
  case definition => exact ⟨_, rfl⟩
  case' selection => cases s
  case' value => cases v
  case' type => cases t
  all_goals cases h

theorem reads_selection : Reads selection? selection .selection := by
  refine ⟨fun _ => rfl, fun n h => ?_⟩
  rcases n with _ | _ | d | _ | _ | s | _ | v | _ | _ | t | _ | _ | _ | _
  case selection => exact ⟨_, rfl⟩
  case' definition => cases d
  case' value => cases v
  case' type => cases t
  all_goals cases h

theorem reads_value : Reads value? value .value := by
  refine ⟨fun _ => rfl, fun n h => ?_⟩
  rcases n with _ | _ | d | _ | _ | s | _ | v | _ | _ | t | _ | _ | _ | _
  case value => exact ⟨_, rfl⟩
  case' definition => cases d
  case' selection => cases s
  case' type => cases t
  all_goals cases h

theorem reads_type : Reads type? type .type := by
  refine ⟨fun _ => rfl, fun n h => ?_⟩
  rcases n with _ | _ | d | _ | _ | s | _ | v | _ | _ | t | _ | _ | _ | _
  case type => exact ⟨_, rfl⟩
  case' definition => cases d
  case' selection => cases s
  case' value => cases v
  all_goals cases h

section Reads

variable {α : Type} {as : Node → Option α} {node : α → Node} {c : Category}

theorem Reads.atMostOne (h : Reads as node c) (a : Option α) :
    Node.atMostOne as (a.toList.map node) = some a := by
  cases a <;> simp [Node.atMostOne, h.reads]

theorem Reads.mapM (h : Reads as node c) (l : List α) : (l.map node).mapM as = some l := by
  induction l with
  | nil => rfl
  | cons a l ih => simp [h.reads, ih]

end Reads

/-- A node is what its parts are assembled to. -/
theorem assemble_self (n : Node) : assemble n.kind n.payload n.children n.loc = some n := by
  rw [children_eq_parts]
  rcases n with _ | _ | d | _ | ⟨_, _⟩ | ⟨⟨_, _, _, _, _, _⟩ | _ | ⟨_, _, _, _⟩⟩ | _ | v |
    ⟨_, _, _⟩ | _ | t | _ | _ | _ | _
  case' definition => cases d
  case' value => cases v
  case' type => cases t
  all_goals
    simp only [kind, Definition.kind, Selection.kind, Value.kind, TypeNode.kind, payload, loc,
      Definition.loc, Selection.loc, Value.loc, TypeNode.loc, parts, assemble, required, name?,
      variableValue?, namedType?, selectionSet?, value?, type?, reads_name.atMostOne,
      reads_stringValue.atMostOne, reads_namedType.atMostOne, reads_selectionSet.atMostOne,
      reads_value.atMostOne, reads_name.mapM, reads_namedType.mapM, reads_argument.mapM,
      reads_objectField.mapM, reads_directive.mapM, reads_variableDefinition.mapM,
      reads_operationTypeDefinition.mapM, reads_fieldDefinition.mapM,
      reads_inputValueDefinition.mapM, reads_enumValueDefinition.mapM, reads_definition.mapM,
      reads_selection.mapM, reads_value.mapM, Option.bind_eq_bind, Option.bind_some,
      Option.pure_def]

end Node

structure Slot.Fits (slot : Slot) (nodes : List Node) : Prop where
  count : slot.arity.Allows nodes.length
  kinds : ∀ n ∈ nodes, slot.takes.has n.kind = true

namespace Slot.Fits

variable {α : Type} {as : Node → Option α} {node : α → Node} {c : Category} {key : String}
variable {nodes : List Node}

theorem exists_one (h : (Slot.one key c).Fits nodes) (reads : Node.Reads as node c) :
    ∃ a, nodes = [node a] := by
  obtain ⟨n, rfl⟩ := List.length_eq_one_iff.mp h.count
  obtain ⟨a, rfl⟩ := reads.form n (h.kinds n (List.mem_singleton_self n))
  exact ⟨a, rfl⟩

theorem exists_many (h : (Slot.many key c).Fits nodes) (reads : Node.Reads as node c) :
    ∃ l : List α, nodes = l.map node := by
  have kinds : ∀ n ∈ nodes, c.has n.kind = true := h.kinds
  clear h
  induction nodes with
  | nil => exact ⟨[], rfl⟩
  | cons n rest ih =>
    rw [List.forall_mem_cons] at kinds
    obtain ⟨l, rfl⟩ := ih kinds.2
    obtain ⟨a, rfl⟩ := reads.form n kinds.1
    exact ⟨a :: l, rfl⟩

theorem exists_optional (h : (Slot.optional key c).Fits nodes) (reads : Node.Reads as node c) :
    ∃ a : Option α, nodes = a.toList.map node := by
  have count : nodes.length ≤ 1 := h.count
  rcases Nat.le_one_iff_eq_zero_or_eq_one.mp count with empty | one
  · obtain rfl := List.length_eq_zero_iff.mp empty
    exact ⟨none, rfl⟩
  · obtain ⟨n, rfl⟩ := List.length_eq_one_iff.mp one
    obtain ⟨a, rfl⟩ := reads.form n (h.kinds n (List.mem_singleton_self n))
    exact ⟨some a, rfl⟩

end Slot.Fits

namespace Node

/-- What `n` is with other children: only these differ. -/
structure HasChildren (n : Node) (children : List (List Node)) (m : Node) : Prop where
  kind : m.kind = n.kind
  payload : m.payload = n.payload
  loc : m.loc = n.loc
  children : m.children = children

section Fits

variable {α : Type} {as : Node → Option α} {node : α → Node} {c : Category} {key : String}
variable {slots : List Slot} {children : List (List Node)}

private theorem fits_one (reads : Reads as node c)
    (h : List.Forall₂ Slot.Fits (.one key c :: slots) children) :
    ∃ a rest, children = [node a] :: rest ∧ List.Forall₂ Slot.Fits slots rest := by
  obtain _ | ⟨first, others⟩ := h
  obtain ⟨a, rfl⟩ := first.exists_one reads
  exact ⟨a, _, rfl, others⟩

private theorem fits_optional (reads : Reads as node c)
    (h : List.Forall₂ Slot.Fits (.optional key c :: slots) children) :
    ∃ (a : Option α) (rest : _), children = a.toList.map node :: rest ∧
      List.Forall₂ Slot.Fits slots rest := by
  obtain _ | ⟨first, others⟩ := h
  obtain ⟨a, rfl⟩ := first.exists_optional reads
  exact ⟨a, _, rfl, others⟩

private theorem fits_many (reads : Reads as node c)
    (h : List.Forall₂ Slot.Fits (.many key c :: slots) children) :
    ∃ (l : List α) (rest : _), children = l.map node :: rest ∧
      List.Forall₂ Slot.Fits slots rest := by
  obtain _ | ⟨first, others⟩ := h
  obtain ⟨l, rfl⟩ := first.exists_many reads
  exact ⟨l, _, rfl, others⟩

end Fits

private theorem exists_definition (d : Definition) {children : List (List Node)}
    (h : List.Forall₂ Slot.Fits d.kind.slots children) :
    ∃ m, (definition d).HasChildren children m := by
  cases d with
  | operation d =>
    obtain ⟨n, _, rfl, h₁⟩ := fits_optional reads_name h
    obtain ⟨vars, _, rfl, h₂⟩ := fits_many reads_variableDefinition h₁
    obtain ⟨directives, _, rfl, h₃⟩ := fits_many reads_directive h₂
    obtain ⟨set, _, rfl, ⟨⟩⟩ := fits_one reads_selectionSet h₃
    exact ⟨definition (.operation ⟨d.operation, n, vars, directives, set, d.loc⟩),
      rfl, rfl, rfl, children_eq_parts _⟩
  | fragment d =>
    obtain ⟨n, _, rfl, h₁⟩ := fits_one reads_name h
    obtain ⟨condition, _, rfl, h₂⟩ := fits_one reads_namedType h₁
    obtain ⟨directives, _, rfl, h₃⟩ := fits_many reads_directive h₂
    obtain ⟨set, _, rfl, ⟨⟩⟩ := fits_one reads_selectionSet h₃
    exact ⟨definition (.fragment ⟨n, condition, directives, set, d.loc⟩),
      rfl, rfl, rfl, children_eq_parts _⟩
  | schema d =>
    obtain ⟨directives, _, rfl, h₁⟩ := fits_many reads_directive h
    obtain ⟨types, _, rfl, ⟨⟩⟩ := fits_many reads_operationTypeDefinition h₁
    exact ⟨definition (.schema ⟨directives, types, d.loc⟩), rfl, rfl, rfl, children_eq_parts _⟩
  | scalar d =>
    obtain ⟨description, _, rfl, h₁⟩ := fits_optional reads_stringValue h
    obtain ⟨n, _, rfl, h₂⟩ := fits_one reads_name h₁
    obtain ⟨directives, _, rfl, ⟨⟩⟩ := fits_many reads_directive h₂
    exact ⟨definition (.scalar ⟨description, n, directives, d.loc⟩),
      rfl, rfl, rfl, children_eq_parts _⟩
  | object d =>
    obtain ⟨description, _, rfl, h₁⟩ := fits_optional reads_stringValue h
    obtain ⟨n, _, rfl, h₂⟩ := fits_one reads_name h₁
    obtain ⟨interfaces, _, rfl, h₃⟩ := fits_many reads_namedType h₂
    obtain ⟨directives, _, rfl, h₄⟩ := fits_many reads_directive h₃
    obtain ⟨fields, _, rfl, ⟨⟩⟩ := fits_many reads_fieldDefinition h₄
    exact ⟨definition (.object ⟨description, n, interfaces, directives, fields, d.loc⟩),
      rfl, rfl, rfl, children_eq_parts _⟩
  | interface d =>
    obtain ⟨description, _, rfl, h₁⟩ := fits_optional reads_stringValue h
    obtain ⟨n, _, rfl, h₂⟩ := fits_one reads_name h₁
    obtain ⟨interfaces, _, rfl, h₃⟩ := fits_many reads_namedType h₂
    obtain ⟨directives, _, rfl, h₄⟩ := fits_many reads_directive h₃
    obtain ⟨fields, _, rfl, ⟨⟩⟩ := fits_many reads_fieldDefinition h₄
    exact ⟨definition (.interface ⟨description, n, interfaces, directives, fields, d.loc⟩),
      rfl, rfl, rfl, children_eq_parts _⟩
  | union d =>
    obtain ⟨description, _, rfl, h₁⟩ := fits_optional reads_stringValue h
    obtain ⟨n, _, rfl, h₂⟩ := fits_one reads_name h₁
    obtain ⟨directives, _, rfl, h₃⟩ := fits_many reads_directive h₂
    obtain ⟨types, _, rfl, ⟨⟩⟩ := fits_many reads_namedType h₃
    exact ⟨definition (.union ⟨description, n, directives, types, d.loc⟩),
      rfl, rfl, rfl, children_eq_parts _⟩
  | enum d =>
    obtain ⟨description, _, rfl, h₁⟩ := fits_optional reads_stringValue h
    obtain ⟨n, _, rfl, h₂⟩ := fits_one reads_name h₁
    obtain ⟨directives, _, rfl, h₃⟩ := fits_many reads_directive h₂
    obtain ⟨values, _, rfl, ⟨⟩⟩ := fits_many reads_enumValueDefinition h₃
    exact ⟨definition (.enum ⟨description, n, directives, values, d.loc⟩),
      rfl, rfl, rfl, children_eq_parts _⟩
  | inputObject d =>
    obtain ⟨description, _, rfl, h₁⟩ := fits_optional reads_stringValue h
    obtain ⟨n, _, rfl, h₂⟩ := fits_one reads_name h₁
    obtain ⟨directives, _, rfl, h₃⟩ := fits_many reads_directive h₂
    obtain ⟨fields, _, rfl, ⟨⟩⟩ := fits_many reads_inputValueDefinition h₃
    exact ⟨definition (.inputObject ⟨description, n, directives, fields, d.loc⟩),
      rfl, rfl, rfl, children_eq_parts _⟩
  | directive d =>
    obtain ⟨description, _, rfl, h₁⟩ := fits_optional reads_stringValue h
    obtain ⟨n, _, rfl, h₂⟩ := fits_one reads_name h₁
    obtain ⟨arguments, _, rfl, h₃⟩ := fits_many reads_inputValueDefinition h₂
    obtain ⟨locations, _, rfl, ⟨⟩⟩ := fits_many reads_name h₃
    exact ⟨definition (.directive ⟨description, n, arguments, d.repeatable, locations, d.loc⟩),
      rfl, rfl, rfl, children_eq_parts _⟩

private theorem exists_selection (s : Selection) {children : List (List Node)}
    (h : List.Forall₂ Slot.Fits s.kind.slots children) :
    ∃ m, (selection s).HasChildren children m := by
  cases s with
  | field f =>
    obtain ⟨aliasName, _, rfl, h₁⟩ := fits_optional reads_name h
    obtain ⟨n, _, rfl, h₂⟩ := fits_one reads_name h₁
    obtain ⟨arguments, _, rfl, h₃⟩ := fits_many reads_argument h₂
    obtain ⟨directives, _, rfl, h₄⟩ := fits_many reads_directive h₃
    obtain ⟨set, _, rfl, ⟨⟩⟩ := fits_optional reads_selectionSet h₄
    exact ⟨selection (.field ⟨aliasName, n, arguments, directives, set, f.loc⟩),
      rfl, rfl, rfl, children_eq_parts _⟩
  | spread s =>
    obtain ⟨n, _, rfl, h₁⟩ := fits_one reads_name h
    obtain ⟨directives, _, rfl, ⟨⟩⟩ := fits_many reads_directive h₁
    exact ⟨selection (.spread ⟨n, directives, s.loc⟩), rfl, rfl, rfl, children_eq_parts _⟩
  | inlineFragment f =>
    obtain ⟨condition, _, rfl, h₁⟩ := fits_optional reads_namedType h
    obtain ⟨directives, _, rfl, h₂⟩ := fits_many reads_directive h₁
    obtain ⟨set, _, rfl, ⟨⟩⟩ := fits_one reads_selectionSet h₂
    exact ⟨selection (.inlineFragment ⟨condition, directives, set, f.loc⟩),
      rfl, rfl, rfl, children_eq_parts _⟩

private theorem exists_value (v : Value) {children : List (List Node)}
    (h : List.Forall₂ Slot.Fits v.kind.slots children) :
    ∃ m, (value v).HasChildren children m := by
  match v with
  | .variable v =>
    obtain ⟨n, _, rfl, ⟨⟩⟩ := fits_one reads_name h
    exact ⟨value (.variable ⟨n, v.loc⟩), rfl, rfl, rfl, children_eq_parts _⟩
  | .list _ loc =>
    obtain ⟨values, _, rfl, ⟨⟩⟩ := fits_many reads_value h
    exact ⟨value (.list values loc), rfl, rfl, rfl, children_eq_parts _⟩
  | .object _ loc =>
    obtain ⟨fields, _, rfl, ⟨⟩⟩ := fits_many reads_objectField h
    exact ⟨value (.object fields loc), rfl, rfl, rfl, children_eq_parts _⟩
  | .int _ _ | .float _ _ | .string _ | .boolean _ _ | .null _ | .enum _ _ =>
    cases h
    exact ⟨_, rfl, rfl, rfl, children_eq_parts _⟩

private theorem exists_type (t : TypeNode) {children : List (List Node)}
    (h : List.Forall₂ Slot.Fits t.kind.slots children) :
    ∃ m, (type t).HasChildren children m := by
  cases t with
  | named t =>
    obtain ⟨n, _, rfl, ⟨⟩⟩ := fits_one reads_name h
    exact ⟨type (.named ⟨n, t.loc⟩), rfl, rfl, rfl, children_eq_parts _⟩
  | list _ loc =>
    obtain ⟨t, _, rfl, ⟨⟩⟩ := fits_one reads_type h
    exact ⟨type (.list t loc), rfl, rfl, rfl, children_eq_parts _⟩
  | nonNull _ loc =>
    obtain ⟨t, _, rfl, ⟨⟩⟩ := fits_one reads_type h
    exact ⟨type (.nonNull t loc), rfl, rfl, rfl, children_eq_parts _⟩

/-- A node can be given any children that fit its slots. -/
theorem exists_hasChildren (n : Node) {children : List (List Node)}
    (h : List.Forall₂ Slot.Fits n.kind.slots children) : ∃ m, n.HasChildren children m := by
  cases n with
  | definition d => exact exists_definition d h
  | selection s => exact exists_selection s h
  | value v => exact exists_value v h
  | type t => exact exists_type t h
  | name n =>
    cases h
    exact ⟨name n, rfl, rfl, rfl, children_eq_parts _⟩
  | document d =>
    obtain ⟨definitions, _, rfl, ⟨⟩⟩ := fits_many reads_definition h
    exact ⟨document ⟨definitions, d.loc⟩, rfl, rfl, rfl, children_eq_parts _⟩
  | variableDefinition d =>
    obtain ⟨v, _, rfl, h₁⟩ := fits_one reads_variable h
    obtain ⟨t, _, rfl, h₂⟩ := fits_one reads_type h₁
    obtain ⟨default, _, rfl, h₃⟩ := fits_optional reads_value h₂
    obtain ⟨directives, _, rfl, ⟨⟩⟩ := fits_many reads_directive h₃
    exact ⟨variableDefinition ⟨v, t, default, directives, d.loc⟩,
      rfl, rfl, rfl, children_eq_parts _⟩
  | selectionSet s =>
    obtain ⟨selections, _, rfl, ⟨⟩⟩ := fits_many reads_selection h
    exact ⟨selectionSet ⟨selections, s.loc⟩, rfl, rfl, rfl, children_eq_parts _⟩
  | argument a =>
    obtain ⟨n, _, rfl, h₁⟩ := fits_one reads_name h
    obtain ⟨v, _, rfl, ⟨⟩⟩ := fits_one reads_value h₁
    exact ⟨argument ⟨n, v, a.loc⟩, rfl, rfl, rfl, children_eq_parts _⟩
  | objectField f =>
    obtain ⟨n, _, rfl, h₁⟩ := fits_one reads_name h
    obtain ⟨v, _, rfl, ⟨⟩⟩ := fits_one reads_value h₁
    exact ⟨objectField ⟨n, v, f.loc⟩, rfl, rfl, rfl, children_eq_parts _⟩
  | directive d =>
    obtain ⟨n, _, rfl, h₁⟩ := fits_one reads_name h
    obtain ⟨arguments, _, rfl, ⟨⟩⟩ := fits_many reads_argument h₁
    exact ⟨directive ⟨n, arguments, d.loc⟩, rfl, rfl, rfl, children_eq_parts _⟩
  | operationTypeDefinition d =>
    obtain ⟨t, _, rfl, ⟨⟩⟩ := fits_one reads_namedType h
    exact ⟨operationTypeDefinition ⟨d.operation, t, d.loc⟩, rfl, rfl, rfl, children_eq_parts _⟩
  | fieldDefinition d =>
    obtain ⟨description, _, rfl, h₁⟩ := fits_optional reads_stringValue h
    obtain ⟨n, _, rfl, h₂⟩ := fits_one reads_name h₁
    obtain ⟨arguments, _, rfl, h₃⟩ := fits_many reads_inputValueDefinition h₂
    obtain ⟨t, _, rfl, h₄⟩ := fits_one reads_type h₃
    obtain ⟨directives, _, rfl, ⟨⟩⟩ := fits_many reads_directive h₄
    exact ⟨fieldDefinition ⟨description, n, arguments, t, directives, d.loc⟩,
      rfl, rfl, rfl, children_eq_parts _⟩
  | inputValueDefinition d =>
    obtain ⟨description, _, rfl, h₁⟩ := fits_optional reads_stringValue h
    obtain ⟨n, _, rfl, h₂⟩ := fits_one reads_name h₁
    obtain ⟨t, _, rfl, h₃⟩ := fits_one reads_type h₂
    obtain ⟨default, _, rfl, h₄⟩ := fits_optional reads_value h₃
    obtain ⟨directives, _, rfl, ⟨⟩⟩ := fits_many reads_directive h₄
    exact ⟨inputValueDefinition ⟨description, n, t, default, directives, d.loc⟩,
      rfl, rfl, rfl, children_eq_parts _⟩
  | enumValueDefinition d =>
    obtain ⟨description, _, rfl, h₁⟩ := fits_optional reads_stringValue h
    obtain ⟨n, _, rfl, h₂⟩ := fits_one reads_name h₁
    obtain ⟨directives, _, rfl, ⟨⟩⟩ := fits_many reads_directive h₂
    exact ⟨enumValueDefinition ⟨description, n, directives, d.loc⟩,
      rfl, rfl, rfl, children_eq_parts _⟩

def withChildren (n : Node) (children : List (List Node)) : Node :=
  (assemble n.kind n.payload children n.loc).getD n

theorem HasChildren.assemble_eq {n m : Node} {children : List (List Node)}
    (h : n.HasChildren children m) : assemble n.kind n.payload children n.loc = some m := by
  rw [← h.kind, ← h.payload, ← h.children, ← h.loc, assemble_self]

theorem withChildren_hasChildren (n : Node) {children : List (List Node)}
    (h : List.Forall₂ Slot.Fits n.kind.slots children) :
    n.HasChildren children (n.withChildren children) := by
  obtain ⟨m, parts⟩ := n.exists_hasChildren h
  rwa [withChildren, parts.assemble_eq, Option.getD_some]

@[simp]
theorem withChildren_children (n : Node) : n.withChildren n.children = n := by
  rw [withChildren, assemble_self, Option.getD_some]

end Node

end GraphQL.Ast
