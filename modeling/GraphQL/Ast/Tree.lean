import GraphQL.Ast.Node

/-!
Nodes as trees: a node with the trees of its children, slot by slot in grammar order. All that
goes through a document kind by kind is a recursion on this tree.
-/
namespace GraphQL.Ast

mutual

inductive Tree where
  | mk (node : Node) (branches : List Branch)

/-- A slot with what it holds. -/
inductive Branch where
  | mk (slot : Slot) (items : List Tree)

end

def Tree.node : Tree → Node
  | mk node _ => node

def Tree.branches : Tree → List Branch
  | mk _ branches => branches

def Branch.slot : Branch → Slot
  | mk slot _ => slot

def Branch.items : Branch → List Tree
  | mk _ items => items

/-- The tree of a node whose children are given slot by slot. -/
def Tree.of (node : Node) (children : List (List Tree)) : Tree :=
  ⟨node, List.zipWith Branch.mk node.kind.slots children⟩

def Name.tree (n : Name) : Tree := .of (.name n) []

def Variable.tree (v : Variable) : Tree := .of (.value (.variable v)) [[v.name.tree]]

def StringValue.tree (s : StringValue) : Tree := .of (.value (.string s)) []

def NamedType.tree (t : NamedType) : Tree := .of (.type (.named t)) [[t.name.tree]]

mutual

def Value.tree : Value → Tree
  | .variable v => v.tree
  | .int text loc => .of (.value (.int text loc)) []
  | .float text loc => .of (.value (.float text loc)) []
  | .string s => s.tree
  | .boolean b loc => .of (.value (.boolean b loc)) []
  | .null loc => .of (.value (.null loc)) []
  | .enum name loc => .of (.value (.enum name loc)) []
  | .list values loc => .of (.value (.list values loc)) [valueTrees values]
  | .object fields loc => .of (.value (.object fields loc)) [objectFieldTrees fields]

def ObjectField.tree : ObjectField → Tree
  | ⟨name, value, loc⟩ => .of (.objectField ⟨name, value, loc⟩) [[name.tree], [value.tree]]

def valueTrees : List Value → List Tree
  | [] => []
  | v :: rest => v.tree :: valueTrees rest

def objectFieldTrees : List ObjectField → List Tree
  | [] => []
  | f :: rest => f.tree :: objectFieldTrees rest

end

def TypeNode.tree : TypeNode → Tree
  | .named t => t.tree
  | .list item loc => .of (.type (.list item loc)) [[item.tree]]
  | .nonNull inner loc => .of (.type (.nonNull inner loc)) [[inner.tree]]

def Argument.tree (a : Argument) : Tree := .of (.argument a) [[a.name.tree], [a.value.tree]]

def Directive.tree (d : Directive) : Tree :=
  .of (.directive d) [[d.name.tree], d.arguments.map Argument.tree]

def FragmentSpread.tree (s : FragmentSpread) : Tree :=
  .of (.selection (.spread s)) [[s.name.tree], s.directives.map Directive.tree]

mutual

def SelectionSet.tree : SelectionSet → Tree
  | ⟨selections, loc⟩ => .of (.selectionSet ⟨selections, loc⟩) [selectionTrees selections]

def Selection.tree : Selection → Tree
  | .field f => f.tree
  | .spread s => s.tree
  | .inlineFragment f => f.tree

def Field.tree : Field → Tree
  | ⟨aliasName, name, arguments, directives, selectionSet, loc⟩ =>
    .of (.selection (.field ⟨aliasName, name, arguments, directives, selectionSet, loc⟩))
      [aliasName.toList.map Name.tree, [name.tree], arguments.map Argument.tree,
        directives.map Directive.tree, selectionSetTrees selectionSet]

def InlineFragment.tree : InlineFragment → Tree
  | ⟨condition, directives, selectionSet, loc⟩ =>
    .of (.selection (.inlineFragment ⟨condition, directives, selectionSet, loc⟩))
      [condition.toList.map NamedType.tree, directives.map Directive.tree, [selectionSet.tree]]

def selectionTrees : List Selection → List Tree
  | [] => []
  | s :: rest => s.tree :: selectionTrees rest

def selectionSetTrees : Option SelectionSet → List Tree
  | none => []
  | some s => [s.tree]

end

def VariableDefinition.tree (d : VariableDefinition) : Tree :=
  .of (.variableDefinition d)
    [[d.var.tree], [d.type.tree], d.defaultValue.toList.map Value.tree,
      d.directives.map Directive.tree]

def OperationTypeDefinition.tree (d : OperationTypeDefinition) : Tree :=
  .of (.operationTypeDefinition d) [[d.type.tree]]

def InputValueDefinition.tree (d : InputValueDefinition) : Tree :=
  .of (.inputValueDefinition d)
    [d.description.toList.map StringValue.tree, [d.name.tree], [d.type.tree],
      d.defaultValue.toList.map Value.tree, d.directives.map Directive.tree]

def FieldDefinition.tree (d : FieldDefinition) : Tree :=
  .of (.fieldDefinition d)
    [d.description.toList.map StringValue.tree, [d.name.tree],
      d.arguments.map InputValueDefinition.tree, [d.type.tree], d.directives.map Directive.tree]

def EnumValueDefinition.tree (d : EnumValueDefinition) : Tree :=
  .of (.enumValueDefinition d)
    [d.description.toList.map StringValue.tree, [d.name.tree], d.directives.map Directive.tree]

/-- The children of a definition, slot by slot. -/
def Definition.childTrees : Definition → List (List Tree)
  | .operation d => [d.name.toList.map Name.tree, d.variableDefinitions.map VariableDefinition.tree,
      d.directives.map Directive.tree, [d.selectionSet.tree]]
  | .fragment d => [[d.name.tree], [d.typeCondition.tree], d.directives.map Directive.tree,
      [d.selectionSet.tree]]
  | .schema d => [d.directives.map Directive.tree,
      d.operationTypes.map OperationTypeDefinition.tree]
  | .scalar d => [d.description.toList.map StringValue.tree, [d.name.tree],
      d.directives.map Directive.tree]
  | .object d => [d.description.toList.map StringValue.tree, [d.name.tree],
      d.interfaces.map NamedType.tree, d.directives.map Directive.tree,
      d.fields.map FieldDefinition.tree]
  | .interface d => [d.description.toList.map StringValue.tree, [d.name.tree],
      d.interfaces.map NamedType.tree, d.directives.map Directive.tree,
      d.fields.map FieldDefinition.tree]
  | .union d => [d.description.toList.map StringValue.tree, [d.name.tree],
      d.directives.map Directive.tree, d.types.map NamedType.tree]
  | .enum d => [d.description.toList.map StringValue.tree, [d.name.tree],
      d.directives.map Directive.tree, d.values.map EnumValueDefinition.tree]
  | .inputObject d => [d.description.toList.map StringValue.tree, [d.name.tree],
      d.directives.map Directive.tree, d.fields.map InputValueDefinition.tree]
  | .directive d => [d.description.toList.map StringValue.tree, [d.name.tree],
      d.arguments.map InputValueDefinition.tree, d.locations.map Name.tree]

def Definition.tree (d : Definition) : Tree := .of (.definition d) d.childTrees

def Document.tree (d : Document) : Tree := .of (.document d) [d.definitions.map Definition.tree]

def Node.tree : Node → Tree
  | name n => n.tree
  | document d => d.tree
  | definition d => d.tree
  | variableDefinition d => d.tree
  | selectionSet s => s.tree
  | selection s => s.tree
  | argument a => a.tree
  | value v => v.tree
  | objectField f => f.tree
  | directive d => d.tree
  | type t => t.tree
  | operationTypeDefinition d => d.tree
  | fieldDefinition d => d.tree
  | inputValueDefinition d => d.tree
  | enumValueDefinition d => d.tree

/-- The children of a node, slot by slot. -/
def Node.children (n : Node) : List (List Node) :=
  n.tree.branches.map fun branch => branch.items.map Tree.node

theorem Tree.node_of (n : Node) (children : List (List Tree)) : (Tree.of n children).node = n := rfl

theorem Node.node_tree (n : Node) : n.tree.node = n := by
  cases n with
  | value v => cases v <;> rfl
  | type t => cases t <;> rfl
  | selection s =>
    cases s with
    | field f => cases f; rfl
    | spread s => rfl
    | inlineFragment f => cases f; rfl
  | selectionSet s => cases s; rfl
  | objectField f => cases f; rfl
  | _ => rfl

mutual

/-- Whether two trees agree in kinds, payloads, children and spans. -/
def Tree.same : Tree → Tree → Bool
  | ⟨n, bs⟩, ⟨m, cs⟩ =>
    n.kind = m.kind && n.payload = m.payload && n.loc = m.loc && sameBranches bs cs

def Branch.same : Branch → Branch → Bool
  | ⟨_, items⟩, ⟨_, others⟩ => sameTrees items others

def sameTrees : List Tree → List Tree → Bool
  | [], [] => true
  | t :: rest, u :: others => t.same u && sameTrees rest others
  | _, _ => false

def sameBranches : List Branch → List Branch → Bool
  | [], [] => true
  | b :: rest, c :: others => b.same c && sameBranches rest others
  | _, _ => false

end

/-- Whether two nodes are the same, spans included. -/
def Node.same (n m : Node) : Bool := n.tree.same m.tree

end GraphQL.Ast
