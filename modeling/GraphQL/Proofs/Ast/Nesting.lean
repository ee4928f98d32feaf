import GraphQL.Proofs.Source.Printable

/-!
How deeply brackets nest in the text of a node, and induction from the parts of nodes to the nodes.
-/
namespace GraphQL.Ast

/-- The items of the slot stand in brackets, unless there are none. -/
def Kind.encloses (kind : Kind) (slot : Slot) : Bool :=
  kind = .listType ||
    slot.key ∈ ["variable_definitions", "arguments", "selections", "values", "fields",
      "operation_types"]

def Kind.hasBrackets (kind : Kind) : Bool := kind ∈ [.listValue, .objectValue, .listType]

mutual

/-- The levels that the brackets in the text of a node take. -/
def Tree.nesting : Tree → Nat
  | ⟨n, branches⟩ => max n.kind.hasBrackets.toNat (branchesNesting n.kind branches)

def Branch.nesting (kind : Kind) : Branch → Nat
  | ⟨slot, items⟩ =>
    if kind.encloses slot && !items.isEmpty then treesNesting items + 1 else treesNesting items

def treesNesting : List Tree → Nat
  | [] => 0
  | t :: rest => max t.nesting (treesNesting rest)

def branchesNesting (kind : Kind) : List Branch → Nat
  | [] => 0
  | b :: rest => max (b.nesting kind) (branchesNesting kind rest)

end

theorem le_treesNesting {t : Tree} {trees : List Tree} (h : t ∈ trees) :
    t.nesting ≤ treesNesting trees := by
  induction trees with
  | nil => cases h
  | cons u rest ih =>
    rw [treesNesting]
    rcases List.mem_cons.mp h with rfl | h
    · exact Nat.le_max_left _ _
    · exact Nat.le_trans (ih h) (Nat.le_max_right _ _)

theorem le_branchesNesting {kind : Kind} {b : Branch} {branches : List Branch}
    (h : b ∈ branches) : b.nesting kind ≤ branchesNesting kind branches := by
  induction branches with
  | nil => cases h
  | cons c rest ih =>
    rw [branchesNesting]
    rcases List.mem_cons.mp h with rfl | h
    · exact Nat.le_max_left _ _
    · exact Nat.le_trans (ih h) (Nat.le_max_right _ _)

namespace Node

def nesting (n : Node) : Nat := n.tree.nesting

theorem hasBrackets_le_nesting (n : Node) : n.kind.hasBrackets.toNat ≤ n.nesting := by
  rw [nesting, tree_eq, Tree.of, Tree.nesting]
  exact Nat.le_max_left _ _

/-- A part nests no deeper than the node, and less deep if it stands in brackets. -/
theorem nesting_part {n m : Node} {i : Nat} {slot : Slot} {part : List Node}
    (hs : n.kind.slots[i]? = some slot) (hp : n.parts[i]? = some part) (hm : m ∈ part) :
    m.nesting + (n.kind.encloses slot).toNat ≤ n.nesting := by
  have branch : Branch.mk slot (part.map tree) ∈
      List.zipWith Branch.mk n.kind.slots (n.parts.map (List.map tree)) := by
    refine List.mem_of_getElem? (i := i) ?_
    rw [List.getElem?_zipWith, hs, List.getElem?_map, hp]
    rfl
  have some : (part.map tree).isEmpty = false := by
    cases part with
    | nil => cases hm
    | cons => rfl
  have below : Branch.nesting n.kind ⟨slot, part.map tree⟩ ≤ n.nesting := by
    rw [nesting, tree_eq, Tree.of, Tree.nesting]
    exact Nat.le_trans (le_branchesNesting branch) (Nat.le_max_right _ _)
  have member : m.nesting ≤ treesNesting (part.map tree) := le_treesNesting (List.mem_map_of_mem hm)
  rw [Branch.nesting, some] at below
  cases h : n.kind.encloses slot <;> simp [h] at below ⊢ <;> omega

/-- What holds of a node if it does of all its parts holds of every node. -/
theorem induction {P : Node → Prop} (step : ∀ n : Node, (∀ m ∈ n.parts.flatten, P m) → P n)
    (n : Node) : P n := by
  generalize size : n.tree.nodes.length = k
  induction k using Nat.strongRecOn generalizing n with | _ k ih => ?_
  refine step n fun m hm => ih _ ?_ m rfl
  have sub := (List.sublist_flatten_of_mem
    (List.mem_map_of_mem (f := fun m : Node => m.tree.nodes) hm)).length_le
  rw [← size, nodes_eq n, List.length_cons, List.flatMap]
  omega

end Node

end GraphQL.Ast
