import GraphQL.Ast.Tree
import Mathlib.Data.List.Forall2

/-!
The trees of nodes keep to the grammar: a node has the slots of its kind, and a slot holds as many
nodes as it may, of kinds that it takes. Main statement: so does the tree of every node.
-/
namespace GraphQL.Ast

/-- So many nodes may stand in a slot. -/
def Arity.Allows : Arity → Nat → Prop
  | .one, count => count = 1
  | .optional, count => count ≤ 1
  | .many, _ => True

inductive Tree.Grammatical : Tree → Prop where
  | mk {n : Node} {branches : List Branch} :
      branches.map Branch.slot = n.kind.slots →
      (∀ b ∈ branches, b.slot.arity.Allows b.items.length) →
      (∀ b ∈ branches, ∀ t ∈ b.items, b.slot.takes.has t.node.kind = true) →
      (∀ b ∈ branches, ∀ t ∈ b.items, t.Grammatical) → Grammatical ⟨n, branches⟩

namespace Tree.Grammatical

variable {t : Tree} (h : t.Grammatical)

include h

theorem slots : t.branches.map Branch.slot = t.node.kind.slots := by
  cases h
  assumption

theorem allows {b : Branch} (hb : b ∈ t.branches) : b.slot.arity.Allows b.items.length := by
  cases h with
  | mk _ counts => exact counts b hb

theorem takes {b : Branch} (hb : b ∈ t.branches) {u : Tree} (hu : u ∈ b.items) :
    b.slot.takes.has u.node.kind = true := by
  cases h with
  | mk _ _ kinds => exact kinds b hb u hu

theorem item {b : Branch} (hb : b ∈ t.branches) {u : Tree} (hu : u ∈ b.items) :
    u.Grammatical := by
  cases h with
  | mk _ _ _ below => exact below b hb u hu

theorem mem_slots {b : Branch} (hb : b ∈ t.branches) : b.slot ∈ t.node.kind.slots :=
  h.slots ▸ List.mem_map_of_mem hb

end Tree.Grammatical

def Category.Takes (c : Category) (t : Tree) : Prop := c.has t.node.kind = true ∧ t.Grammatical

/-- The slot may hold just these trees. -/
structure Slot.Accepts (slot : Slot) (items : List Tree) : Prop where
  count : slot.arity.Allows items.length
  kinds : ∀ t ∈ items, slot.takes.Takes t

namespace Slot

variable {α : Type}

theorem accepts_one {slot : Slot} {t : Tree} (h : slot.takes.Takes t) (one : slot.arity = .one) :
    slot.Accepts [t] :=
  ⟨by rw [one]; exact rfl, by simpa using h⟩

theorem accepts_optional {slot : Slot} {tree : α → Tree} (h : ∀ a, slot.takes.Takes (tree a))
    (optional : slot.arity = .optional) (a : Option α) :
    slot.Accepts (a.toList.map tree) := by
  refine ⟨?_, ?_⟩
  · rw [optional]
    cases a <;> simp [Arity.Allows]
  · cases a <;> simp [h]

theorem accepts_items {slot : Slot} {items : List Tree} (h : ∀ t ∈ items, slot.takes.Takes t)
    (many : slot.arity = .many) : slot.Accepts items :=
  ⟨by rw [many]; trivial, h⟩

theorem accepts_many {slot : Slot} {tree : α → Tree} (h : ∀ a, slot.takes.Takes (tree a))
    (many : slot.arity = .many) (as : List α) : slot.Accepts (as.map tree) :=
  accepts_items (by simp [h]) many

end Slot

private theorem branches_accept {slots : List Slot} {children : List (List Tree)}
    (h : List.Forall₂ Slot.Accepts slots children) :
    (List.zipWith Branch.mk slots children).map Branch.slot = slots ∧
      ∀ b ∈ List.zipWith Branch.mk slots children, b.slot.Accepts b.items := by
  induction h with
  | nil => simp
  | cons accepts _ ih =>
    rw [List.zipWith_cons_cons, List.map_cons, ih.1, List.forall_mem_cons]
    exact ⟨rfl, accepts, ih.2⟩

theorem Tree.of_grammatical {n : Node} {children : List (List Tree)}
    (h : List.Forall₂ Slot.Accepts n.kind.slots children) : (Tree.of n children).Grammatical := by
  obtain ⟨own, accepts⟩ := branches_accept h
  exact .mk own (fun b hb => (accepts b hb).count)
    (fun b hb t ht => ((accepts b hb).kinds t ht).1)
    (fun b hb t ht => ((accepts b hb).kinds t ht).2)

open Slot

theorem Name.taken (n : Name) : (Category.only .name).Takes n.tree := ⟨rfl, Tree.of_grammatical .nil⟩

theorem Variable.taken (v : Variable) : (Category.only .variable).Takes v.tree :=
  ⟨rfl, Tree.of_grammatical (.cons (accepts_one v.name.taken rfl) .nil)⟩

theorem StringValue.taken (s : StringValue) : (Category.only .stringValue).Takes s.tree :=
  ⟨rfl, Tree.of_grammatical .nil⟩

theorem NamedType.taken (t : NamedType) : (Category.only .namedType).Takes t.tree :=
  ⟨rfl, Tree.of_grammatical (.cons (accepts_one t.name.taken rfl) .nil)⟩

mutual

theorem Value.taken : ∀ v : Value, Category.value.Takes v.tree
  | .variable v => ⟨rfl, v.taken.2⟩
  | .int _ _ => ⟨rfl, Tree.of_grammatical .nil⟩
  | .float _ _ => ⟨rfl, Tree.of_grammatical .nil⟩
  | .string s => ⟨rfl, s.taken.2⟩
  | .boolean _ _ => ⟨rfl, Tree.of_grammatical .nil⟩
  | .null _ => ⟨rfl, Tree.of_grammatical .nil⟩
  | .enum _ _ => ⟨rfl, Tree.of_grammatical .nil⟩
  | .list values _ => by
    rw [Value.tree]
    exact ⟨rfl, Tree.of_grammatical (.cons (accepts_items (valueTrees_taken values) rfl) .nil)⟩
  | .object fields _ => by
    rw [Value.tree]
    exact ⟨rfl, Tree.of_grammatical (.cons (accepts_items (objectFieldTrees_taken fields) rfl) .nil)⟩

theorem ObjectField.taken : ∀ f : ObjectField, (Category.only .objectField).Takes f.tree
  | ⟨name, value, _⟩ => by
    rw [ObjectField.tree]
    exact ⟨rfl, Tree.of_grammatical
      (.cons (accepts_one name.taken rfl) (.cons (accepts_one value.taken rfl) .nil))⟩

theorem valueTrees_taken : ∀ values : List Value, ∀ t ∈ valueTrees values, Category.value.Takes t
  | [] => by simp [valueTrees]
  | v :: rest => by
    rw [valueTrees, List.forall_mem_cons]
    exact ⟨v.taken, valueTrees_taken rest⟩

theorem objectFieldTrees_taken : ∀ fields : List ObjectField,
    ∀ t ∈ objectFieldTrees fields, (Category.only .objectField).Takes t
  | [] => by simp [objectFieldTrees]
  | f :: rest => by
    rw [objectFieldTrees, List.forall_mem_cons]
    exact ⟨f.taken, objectFieldTrees_taken rest⟩

end

theorem TypeNode.taken (t : TypeNode) : Category.type.Takes t.tree := by
  induction t with
  | named t => exact ⟨rfl, t.taken.2⟩
  | list item _ ih =>
    exact ⟨rfl, Tree.of_grammatical (.cons (accepts_one ih rfl) .nil)⟩
  | nonNull inner _ ih =>
    exact ⟨rfl, Tree.of_grammatical (.cons (accepts_one ih rfl) .nil)⟩

theorem Argument.taken (a : Argument) : (Category.only .argument).Takes a.tree :=
  ⟨rfl, Tree.of_grammatical
    (.cons (accepts_one a.name.taken rfl) (.cons (accepts_one a.value.taken rfl) .nil))⟩

theorem Directive.taken (d : Directive) : (Category.only .directive).Takes d.tree :=
  ⟨rfl, Tree.of_grammatical
    (.cons (accepts_one d.name.taken rfl)
      (.cons (accepts_many Argument.taken rfl d.arguments) .nil))⟩

theorem accepts_directives (directives : List Directive) :
    Slot.directives.Accepts (directives.map Directive.tree) :=
  accepts_many Directive.taken rfl directives

theorem accepts_name (n : Name) : Slot.name.Accepts [n.tree] := accepts_one n.taken rfl

theorem accepts_description (s : Option StringValue) :
    Slot.description.Accepts (s.toList.map StringValue.tree) :=
  accepts_optional StringValue.taken rfl s

theorem FragmentSpread.taken (s : FragmentSpread) : Category.selection.Takes s.tree :=
  ⟨rfl, Tree.of_grammatical
    (.cons (accepts_name s.name) (.cons (accepts_directives s.directives) .nil))⟩

mutual

theorem SelectionSet.taken : ∀ s : SelectionSet, (Category.only .selectionSet).Takes s.tree
  | ⟨selections, _⟩ => by
    rw [SelectionSet.tree]
    exact ⟨rfl, Tree.of_grammatical
      (.cons (accepts_items (selectionTrees_taken selections) rfl) .nil)⟩

theorem Selection.taken : ∀ s : Selection, Category.selection.Takes s.tree
  | .field f => by
    rw [Selection.tree]
    exact f.taken
  | .spread s => s.taken
  | .inlineFragment f => by
    rw [Selection.tree]
    exact f.taken

theorem Field.taken : ∀ f : Field, Category.selection.Takes f.tree
  | ⟨aliasName, name, arguments, directives, set, _⟩ => by
    rw [Field.tree]
    exact ⟨rfl, Tree.of_grammatical
      (.cons (accepts_optional Name.taken rfl aliasName)
        (.cons (accepts_name name)
          (.cons (accepts_many Argument.taken rfl arguments)
            (.cons (accepts_directives directives)
              (.cons (selectionSetTrees_accepted set) .nil)))))⟩

theorem InlineFragment.taken : ∀ f : InlineFragment, Category.selection.Takes f.tree
  | ⟨condition, directives, set, _⟩ => by
    rw [InlineFragment.tree]
    exact ⟨rfl, Tree.of_grammatical
      (.cons (accepts_optional NamedType.taken rfl condition)
        (.cons (accepts_directives directives) (.cons (accepts_one set.taken rfl) .nil)))⟩

theorem selectionTrees_taken : ∀ selections : List Selection,
    ∀ t ∈ selectionTrees selections, Category.selection.Takes t
  | [] => by simp [selectionTrees]
  | s :: rest => by
    rw [selectionTrees, List.forall_mem_cons]
    exact ⟨s.taken, selectionTrees_taken rest⟩

theorem selectionSetTrees_accepted : ∀ set : Option SelectionSet,
    (Slot.optional "selection_set" (.only .selectionSet)).Accepts (selectionSetTrees set)
  | none => by
    rw [selectionSetTrees]
    exact ⟨Nat.zero_le 1, by simp⟩
  | some set => by
    rw [selectionSetTrees]
    exact ⟨Nat.le_refl 1, List.forall_mem_singleton.mpr set.taken⟩

end

theorem VariableDefinition.taken (d : VariableDefinition) :
    (Category.only .variableDefinition).Takes d.tree :=
  ⟨rfl, Tree.of_grammatical
    (.cons (accepts_one d.var.taken rfl)
      (.cons (accepts_one d.type.taken rfl)
        (.cons (accepts_optional Value.taken rfl d.defaultValue)
          (.cons (accepts_directives d.directives) .nil))))⟩

theorem OperationTypeDefinition.taken (d : OperationTypeDefinition) :
    (Category.only .operationTypeDefinition).Takes d.tree :=
  ⟨rfl, Tree.of_grammatical (.cons (accepts_one d.type.taken rfl) .nil)⟩

theorem InputValueDefinition.taken (d : InputValueDefinition) :
    (Category.only .inputValueDefinition).Takes d.tree :=
  ⟨rfl, Tree.of_grammatical
    (.cons (accepts_description d.description)
      (.cons (accepts_name d.name)
        (.cons (accepts_one d.type.taken rfl)
          (.cons (accepts_optional Value.taken rfl d.defaultValue)
            (.cons (accepts_directives d.directives) .nil)))))⟩

theorem FieldDefinition.taken (d : FieldDefinition) :
    (Category.only .fieldDefinition).Takes d.tree :=
  ⟨rfl, Tree.of_grammatical
    (.cons (accepts_description d.description)
      (.cons (accepts_name d.name)
        (.cons (accepts_many InputValueDefinition.taken rfl d.arguments)
          (.cons (accepts_one d.type.taken rfl)
            (.cons (accepts_directives d.directives) .nil)))))⟩

theorem EnumValueDefinition.taken (d : EnumValueDefinition) :
    (Category.only .enumValueDefinition).Takes d.tree :=
  ⟨rfl, Tree.of_grammatical
    (.cons (accepts_description d.description)
      (.cons (accepts_name d.name) (.cons (accepts_directives d.directives) .nil)))⟩

theorem Definition.childTrees_accepted (d : Definition) :
    List.Forall₂ Slot.Accepts d.kind.slots d.childTrees := by
  cases d with
  | operation d =>
    exact .cons (accepts_optional Name.taken rfl d.name)
      (.cons (accepts_many VariableDefinition.taken rfl d.variableDefinitions)
        (.cons (accepts_directives d.directives)
          (.cons (accepts_one d.selectionSet.taken rfl) .nil)))
  | fragment d =>
    exact .cons (accepts_name d.name)
      (.cons (accepts_one d.typeCondition.taken rfl)
        (.cons (accepts_directives d.directives)
          (.cons (accepts_one d.selectionSet.taken rfl) .nil)))
  | schema d =>
    exact .cons (accepts_directives d.directives)
      (.cons (accepts_many OperationTypeDefinition.taken rfl d.operationTypes) .nil)
  | scalar d =>
    exact .cons (accepts_description d.description)
      (.cons (accepts_name d.name) (.cons (accepts_directives d.directives) .nil))
  | object d =>
    exact .cons (accepts_description d.description)
      (.cons (accepts_name d.name)
        (.cons (accepts_many NamedType.taken rfl d.interfaces)
          (.cons (accepts_directives d.directives)
            (.cons (accepts_many FieldDefinition.taken rfl d.fields) .nil))))
  | interface d =>
    exact .cons (accepts_description d.description)
      (.cons (accepts_name d.name)
        (.cons (accepts_many NamedType.taken rfl d.interfaces)
          (.cons (accepts_directives d.directives)
            (.cons (accepts_many FieldDefinition.taken rfl d.fields) .nil))))
  | union d =>
    exact .cons (accepts_description d.description)
      (.cons (accepts_name d.name)
        (.cons (accepts_directives d.directives)
          (.cons (accepts_many NamedType.taken rfl d.types) .nil)))
  | enum d =>
    exact .cons (accepts_description d.description)
      (.cons (accepts_name d.name)
        (.cons (accepts_directives d.directives)
          (.cons (accepts_many EnumValueDefinition.taken rfl d.values) .nil)))
  | inputObject d =>
    exact .cons (accepts_description d.description)
      (.cons (accepts_name d.name)
        (.cons (accepts_directives d.directives)
          (.cons (accepts_many InputValueDefinition.taken rfl d.fields) .nil)))
  | directive d =>
    exact .cons (accepts_description d.description)
      (.cons (accepts_name d.name)
        (.cons (accepts_many InputValueDefinition.taken rfl d.arguments)
          (.cons (accepts_many Name.taken rfl d.locations) .nil)))

theorem Definition.taken (d : Definition) : Category.definition.Takes d.tree :=
  ⟨by cases d <;> rfl, Tree.of_grammatical d.childTrees_accepted⟩

theorem Document.taken (d : Document) : (Category.only .document).Takes d.tree :=
  ⟨rfl, Tree.of_grammatical (.cons (accepts_many Definition.taken rfl d.definitions) .nil)⟩

/-- The tree of every node keeps to the grammar. -/
theorem Node.grammatical (n : Node) : n.tree.Grammatical := by
  cases n with
  | name n => exact n.taken.2
  | document d => exact d.taken.2
  | definition d => exact d.taken.2
  | variableDefinition d => exact d.taken.2
  | selectionSet s => exact s.taken.2
  | selection s => exact s.taken.2
  | argument a => exact a.taken.2
  | value v => exact v.taken.2
  | objectField f => exact f.taken.2
  | directive d => exact d.taken.2
  | type t => exact t.taken.2
  | operationTypeDefinition d => exact d.taken.2
  | fieldDefinition d => exact d.taken.2
  | inputValueDefinition d => exact d.taken.2
  | enumValueDefinition d => exact d.taken.2

theorem Node.kind_of_assemble {kind : Kind} {payload : Payload} {children : List (List Node)}
    {loc : Option Location} {n : Node} (h : Node.assemble kind payload children loc = some n) :
    n.kind = kind := by
  unfold assemble at h
  split at h <;>
    simp only [Option.bind_eq_bind, Option.bind_eq_some_iff, Option.pure_def, Option.some.injEq,
      reduceCtorEq] at h
  all_goals grind only [kind, Definition.kind, Selection.kind, Value.kind, TypeNode.kind]

end GraphQL.Ast
