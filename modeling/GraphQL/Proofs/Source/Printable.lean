import GraphQL.Number.Decimal
import GraphQL.Proofs.Ast.Parts

/-!
Nodes whose printed text reads back. Two literals do not: a string with U+0008, whose escape is read
as another character, and a float that is not finite or has an unsigned exponent starting with nine,
which is no number of the grammar.
-/
namespace GraphQL.Ast

mutual

/-- The nodes of a tree, each before those below it. -/
def Tree.nodes : Tree → List Node
  | ⟨n, branches⟩ => n :: branchesNodes branches

def Branch.nodes : Branch → List Node
  | ⟨_, items⟩ => treesNodes items

def treesNodes : List Tree → List Node
  | [] => []
  | t :: rest => t.nodes ++ treesNodes rest

def branchesNodes : List Branch → List Node
  | [] => []
  | b :: rest => b.nodes ++ branchesNodes rest

end

theorem treesNodes_eq (trees : List Tree) : treesNodes trees = trees.flatMap Tree.nodes := by
  induction trees with
  | nil => rfl
  | cons t rest ih => rw [treesNodes, ih, List.flatMap_cons]

theorem branchesNodes_eq (branches : List Branch) :
    branchesNodes branches = branches.flatMap Branch.nodes := by
  induction branches with
  | nil => rfl
  | cons b rest ih => rw [branchesNodes, ih, List.flatMap_cons]

namespace Node

/-- The node itself, without those in it, is no literal whose text does not read back. -/
def PlainLiteral : Node → Prop
  | value (.string s) => '\x08' ∉ s.value.toList
  | value (.float text _) =>
    (Binary64.ofText? text).any Binary64.isFinite = true ∧ ¬ ['e', '9'] <:+: text.toList
  | _ => True

instance : DecidablePred PlainLiteral
  | value (.string s) => inferInstanceAs (Decidable ('\x08' ∉ s.value.toList))
  | value (.float text _) => inferInstanceAs (Decidable
      ((Binary64.ofText? text).any Binary64.isFinite = true ∧ ¬ ['e', '9'] <:+: text.toList))
  | value (.variable _) | value (.int _ _) | value (.boolean _ _) | value (.null _)
  | value (.enum _ _) | value (.list _ _) | value (.object _ _) | name _ | document _
  | definition _ | variableDefinition _ | selectionSet _ | selection _ | argument _
  | objectField _ | directive _ | type _ | operationTypeDefinition _ | fieldDefinition _
  | inputValueDefinition _ | enumValueDefinition _ => inferInstanceAs (Decidable True)

/-- All literals in the node have texts that read back. -/
def Printable (n : Node) : Prop := ∀ m ∈ n.tree.nodes, m.PlainLiteral

instance (n : Node) : Decidable n.Printable := List.decidableBAll _ _

theorem mem_nodes (n : Node) : n ∈ n.tree.nodes := by
  rw [tree_eq, Tree.of, Tree.nodes]
  exact List.mem_cons_self

theorem nodes_eq (n : Node) :
    n.tree.nodes = n :: n.parts.flatten.flatMap fun m => m.tree.nodes := by
  have branches : ∀ (slots : List Slot) (trees : List (List Tree)), trees.length ≤ slots.length →
      (List.zipWith Branch.mk slots trees).flatMap Branch.nodes =
        trees.flatten.flatMap Tree.nodes := by
    intro slots trees
    induction trees generalizing slots with
    | nil => intro _; rw [List.zipWith_nil_right]; rfl
    | cons t trees ih =>
      intro le
      obtain ⟨slot, slots, rfl⟩ : ∃ slot rest, slots = slot :: rest :=
        List.exists_cons_of_length_pos (by simp at le; omega)
      rw [List.zipWith_cons_cons, List.flatMap_cons, List.flatten_cons, List.flatMap_append,
        ih slots (by simpa using le), Branch.nodes, treesNodes_eq]
  rw [tree_eq, Tree.of, Tree.nodes, branchesNodes_eq,
    branches _ _ (Nat.le_of_eq (by rw [List.length_map, length_parts])), ← List.map_flatten,
    List.flatMap_map]

theorem mem_nodes_iff {n m : Node} :
    m ∈ n.tree.nodes ↔ m = n ∨ ∃ child ∈ n.parts.flatten, m ∈ child.tree.nodes := by
  rw [nodes_eq, List.mem_cons, List.mem_flatMap]

theorem printable_iff {n : Node} :
    n.Printable ↔ n.PlainLiteral ∧ ∀ child ∈ n.parts.flatten, child.Printable := by
  constructor
  · intro h
    exact ⟨h n n.mem_nodes, fun child hc m hm => h m (mem_nodes_iff.mpr (.inr ⟨child, hc, hm⟩))⟩
  · rintro ⟨plain, parts⟩ m hm
    rcases mem_nodes_iff.mp hm with rfl | ⟨child, hc, hm⟩
    · exact plain
    · exact parts child hc m hm

theorem Printable.part {n : Node} (h : n.Printable) (i : Nat) {slot : List Node}
    (hs : n.parts[i]? = some slot) {child : Node} (hc : child ∈ slot) : child.Printable :=
  fun m hm => h m (mem_nodes_iff.mpr
    (.inr ⟨child, List.mem_flatten.mpr ⟨slot, List.mem_of_getElem? hs, hc⟩, hm⟩))

end Node

end GraphQL.Ast
