import GraphQL.Proofs.Visit.Tracking
import GraphQL.Validation.Rule

/-!
The nodes that a walk without edits visits, each with the type context that its ancestors alone
determine. Main statements: they are the positions of the tree, and a check of nodes finds what it
finds at these visits.
-/
namespace GraphQL

open Ast Visit

namespace Visit

/-- A node with its ancestors and the type context that they set up. -/
structure Visited where
  context : TypeContext
  node : Node
  path : List PathSegment

variable (schema : Schema)

mutual

/-- All visits below a context, in order. -/
def visits (c : TypeContext) (path : List PathSegment) : Tree → List Visited
  | ⟨n, branches⟩ =>
    ⟨c.enter schema n, n, path⟩ :: branchesVisits (c.enter schema n) path n branches

def branchesVisits (c : TypeContext) (path : List PathSegment) (parent : Node) :
    List Branch → List Visited
  | [] => []
  | b :: rest => branchVisits c path parent b ++ branchesVisits c path parent rest

def branchVisits (c : TypeContext) (path : List PathSegment) (parent : Node) :
    Branch → List Visited
  | ⟨slot, items⟩ => itemsVisits c path parent slot 0 items

def itemsVisits (c : TypeContext) (path : List PathSegment) (parent : Node) (slot : Slot)
    (i : Nat) : List Tree → List Visited
  | [] => []
  | t :: rest =>
    visits c (path ++ [⟨parent, slot.key, itemIndex slot i⟩]) t ++
      itemsVisits c path parent slot (i + 1) rest

end

variable {schema}

def visitAt (schema : Schema) (p : Position) : Visited :=
  ⟨contextAt schema (ancestors p.1 ++ [p.2]), p.2, p.1⟩

mutual

theorem visits_eq_map : ∀ (t : Tree) (path : List PathSegment),
    visits schema (contextAt schema (ancestors path)) path t =
      (positions path t).map (visitAt schema)
  | ⟨n, branches⟩, path => by
    rw [visits, positions, List.map_cons, ← contextAt_append_singleton,
      branchesVisits_eq_map branches path n]
    rfl

theorem branchesVisits_eq_map : ∀ (branches : List Branch) (path : List PathSegment)
    (parent : Node),
    branchesVisits schema (contextAt schema (ancestors path ++ [parent])) path parent branches =
      (branchesPositions path parent branches).map (visitAt schema)
  | [], _, _ => by rw [branchesVisits, branchesPositions, List.map_nil]
  | b :: rest, path, parent => by
    rw [branchesVisits, branchesPositions, List.map_append, branchVisits_eq_map b path parent,
      branchesVisits_eq_map rest path parent]

theorem branchVisits_eq_map : ∀ (b : Branch) (path : List PathSegment) (parent : Node),
    branchVisits schema (contextAt schema (ancestors path ++ [parent])) path parent b =
      (branchPositions path parent b).map (visitAt schema)
  | ⟨slot, items⟩, path, parent => by
    rw [branchVisits, branchPositions, itemsVisits_eq_map items path parent slot 0]

theorem itemsVisits_eq_map : ∀ (items : List Tree) (path : List PathSegment) (parent : Node)
    (slot : Slot) (i : Nat),
    itemsVisits schema (contextAt schema (ancestors path ++ [parent])) path parent slot i items =
      (itemsPositions path parent slot i items).map (visitAt schema)
  | [], _, _, _, _ => by rw [itemsVisits, itemsPositions, List.map_nil]
  | t :: rest, path, parent, slot, i => by
    have first := visits_eq_map t (path ++ [⟨parent, slot.key, itemIndex slot i⟩])
    rw [ancestors_append_singleton] at first
    rw [itemsVisits, itemsPositions, List.map_append, first,
      itemsVisits_eq_map rest path parent slot (i + 1)]

end

theorem mem_visits {t : Tree} {v : Visited} :
    v ∈ visits schema {} [] t ↔ ∃ u, Leads t v.path u ∧ v = visitAt schema (v.path, u.node) := by
  have eq : visits schema {} [] t = (positions [] t).map (visitAt schema) := visits_eq_map t []
  rw [eq, List.mem_map]
  constructor
  · rintro ⟨p, hp, rfl⟩
    obtain ⟨way, u, leads, rfl⟩ := (mem_positions t [] p).mp hp
    exact ⟨u, leads, rfl⟩
  · rintro ⟨u, leads, hv⟩
    exact ⟨_, (mem_positions t [] _).mpr ⟨v.path, u, leads, rfl⟩, hv.symm⟩

theorem forall_visits_below {root t : Tree} {way : List PathSegment}
    (grammatical : root.Grammatical) (leads : Leads root way t) {Q : Visited → Prop} :
    (∀ v ∈ visits schema {} [] root, way <+: v.path → Q v) ↔
      ∀ v ∈ visits schema (contextAt schema (ancestors way)) way t, Q v := by
  rw [visits_eq_map, List.forall_mem_map]
  constructor
  · intro h p hp
    obtain ⟨rest, u, below, rfl⟩ := (mem_positions t way p).mp hp
    exact h _ (mem_visits.mpr ⟨u, leads.trans below, rfl⟩) (List.prefix_append way rest)
  · intro h v hv hprefix
    obtain ⟨u, whole, hv⟩ := mem_visits.mp hv
    obtain ⟨rest, hrest⟩ := hprefix
    rw [← hrest] at whole hv
    obtain ⟨t', first, second⟩ := whole.split
    obtain rfl := leads.unique grammatical first
    rw [hv]
    exact h _ ((mem_positions t way _).mpr ⟨rest, u, second, rfl⟩)

def Visited.below (outer : PathSegment) (v : Visited) : Visited :=
  { v with path := outer :: v.path }

mutual

theorem visits_cons (outer : PathSegment) : ∀ (t : Tree) (c : TypeContext)
    (path : List PathSegment),
    visits schema c (outer :: path) t = (visits schema c path t).map (Visited.below outer)
  | ⟨n, branches⟩, c, path => by
    rw [visits, visits, List.map_cons, branchesVisits_cons outer branches]
    rfl

theorem branchesVisits_cons (outer : PathSegment) : ∀ (branches : List Branch) (c : TypeContext)
    (path : List PathSegment) (parent : Node),
    branchesVisits schema c (outer :: path) parent branches =
      (branchesVisits schema c path parent branches).map (Visited.below outer)
  | [], _, _, _ => by rw [branchesVisits, branchesVisits, List.map_nil]
  | b :: rest, c, path, parent => by
    rw [branchesVisits, branchesVisits, List.map_append, branchVisits_cons outer b,
      branchesVisits_cons outer rest]

theorem branchVisits_cons (outer : PathSegment) : ∀ (b : Branch) (c : TypeContext)
    (path : List PathSegment) (parent : Node),
    branchVisits schema c (outer :: path) parent b =
      (branchVisits schema c path parent b).map (Visited.below outer)
  | ⟨slot, items⟩, c, path, parent => by
    rw [branchVisits, branchVisits, itemsVisits_cons outer items]

theorem itemsVisits_cons (outer : PathSegment) : ∀ (items : List Tree) (c : TypeContext)
    (path : List PathSegment) (parent : Node) (slot : Slot) (i : Nat),
    itemsVisits schema c (outer :: path) parent slot i items =
      (itemsVisits schema c path parent slot i items).map (Visited.below outer)
  | [], _, _, _, _, _ => by rw [itemsVisits, itemsVisits, List.map_nil]
  | t :: rest, c, path, parent, slot, i => by
    rw [itemsVisits, itemsVisits, List.map_append, List.cons_append, visits_cons outer t,
      itemsVisits_cons outer rest]

end

theorem subset_itemsVisits {c : TypeContext} {path : List PathSegment} {parent : Node}
    {slot : Slot} {i : Nat} {items : List Tree} {t : Tree} (h : t ∈ items) :
    ∃ p, visits schema c p t ⊆ itemsVisits schema c path parent slot i items := by
  induction items generalizing i with
  | nil => cases h
  | cons u rest ih =>
    rw [itemsVisits]
    rcases List.mem_cons.mp h with rfl | h
    · exact ⟨_, List.subset_append_left _ _⟩
    · obtain ⟨p, hp⟩ := ih h
      exact ⟨p, fun _ hv => List.mem_append_right _ (hp hv)⟩

theorem subset_branchesVisits {c : TypeContext} {path : List PathSegment} {parent : Node}
    {branches : List Branch} {b : Branch} (hb : b ∈ branches) {t : Tree} (h : t ∈ b.items) :
    ∃ p, visits schema c p t ⊆ branchesVisits schema c path parent branches := by
  induction branches with
  | nil => cases hb
  | cons a rest ih =>
    rw [branchesVisits]
    rcases List.mem_cons.mp hb with rfl | hb
    · obtain ⟨slot, items⟩ := b
      rw [branchVisits]
      obtain ⟨p, hp⟩ : ∃ p, visits schema c p t ⊆
          itemsVisits schema c path parent slot 0 items := subset_itemsVisits h
      exact ⟨p, fun _ hv => List.mem_append_left _ (hp hv)⟩
    · obtain ⟨p, hp⟩ := ih hb
      exact ⟨p, fun _ hv => List.mem_append_right _ (hp hv)⟩

theorem forall_visits_child {P : Visited → Prop} {c : TypeContext} {path : List PathSegment}
    {n : Node} {children : List (List Tree)}
    (all : ∀ v ∈ visits schema c path (.of n children), P v)
    (hk : children.length ≤ n.kind.slots.length) {items : List Tree} (hi : items ∈ children)
    {t : Tree} (ht : t ∈ items) : ∃ p, ∀ v ∈ visits schema (c.enter schema n) p t, P v := by
  obtain ⟨i, hlt, rfl⟩ := List.mem_iff_getElem.mp hi
  have hs : i < n.kind.slots.length := Nat.lt_of_lt_of_le hlt hk
  have hb : Branch.mk n.kind.slots[i] children[i] ∈ List.zipWith Branch.mk n.kind.slots children :=
    List.mem_iff_getElem.mpr ⟨i, by simpa using Nat.lt_min.mpr ⟨hs, hlt⟩, by simp⟩
  obtain ⟨p, hp⟩ : ∃ p, visits schema (c.enter schema n) p t ⊆
      branchesVisits schema (c.enter schema n) path n
        (List.zipWith Branch.mk n.kind.slots children) :=
    subset_branchesVisits hb ht
  refine ⟨p, fun v hv => all v ?_⟩
  rw [Tree.of, visits]
  exact List.mem_cons_of_mem _ (hp hv)

theorem forall_visits_self {P : Visited → Prop} {c : TypeContext} {path : List PathSegment}
    {n : Node} {children : List (List Tree)}
    (all : ∀ v ∈ visits schema c path (.of n children), P v) :
    P ⟨c.enter schema n, n, path⟩ := by
  refine all _ ?_
  rw [Tree.of, visits]
  exact List.mem_cons_self

end Visit

namespace Validation

/-- What a check finds at a visit. -/
def NodeCheck.at (check : NodeCheck) (context : ValidationContext) (v : Visited) : List Finding :=
  (check context v.context v.node v.path).map fun violation =>
    ⟨nearestLocation v.node v.path, violation⟩

mutual

theorem NodeCheck.walkTree_eq (check : NodeCheck) (context : ValidationContext) :
    ∀ (t : Tree) (path : List PathSegment) (c : TypeContext) (found : List Finding),
    t.Grammatical → c.Ready t.node.kind →
    walkTree ((check.visitor context).toVisitor context.schema) path t (c, found) =
      (.ok .keep, c, found ++ (visits context.schema c path t).flatMap (check.at context))
  | ⟨n, branches⟩, path, c, found, h, ready => by
    obtain ⟨edits, hw, kept⟩ := walkBranches_eq check context branches path n
      (c.enter context.schema n)
      (found ++ (check context (c.enter context.schema n) n path).map fun v =>
        ⟨nearestLocation n path, v⟩)
      (fun b hb _ => h.item hb)
      (fun b hb _ ht => ready.child context.schema (h.mem_slots hb) (h.takes hb ht))
    have none : rebuild n branches edits = none := by rw [rebuild, if_pos kept]
    have enter : ((check.visitor context).toVisitor context.schema).enter n path (c, found) =
        (.ok .proceed, c.enter context.schema n,
          found ++ (check context (c.enter context.schema n) n path).map fun v =>
            ⟨nearestLocation n path, v⟩) := rfl
    rw [walkTree_of_left enter hw rfl, none, visits, List.flatMap_cons, NodeCheck.at]
    have left : (c.enter context.schema n).leave n = c := ready.leave_enter context.schema rfl
    simp [left, settle]

theorem NodeCheck.walkBranches_eq (check : NodeCheck) (context : ValidationContext) :
    ∀ (branches : List Branch) (path : List PathSegment) (parent : Node) (c : TypeContext)
    (found : List Finding), (∀ b ∈ branches, ∀ t ∈ b.items, t.Grammatical) →
    (∀ b ∈ branches, ∀ t ∈ b.items, c.Ready t.node.kind) →
    ∃ edits, walkBranches ((check.visitor context).toVisitor context.schema) path parent
        branches (c, found) =
      (.ok edits, c, found ++
        (branchesVisits context.schema c path parent branches).flatMap (check.at context)) ∧
      edits.all Option.isNone = true
  | [], path, parent, c, found, _, _ => ⟨[], by simp [walkBranches, branchesVisits], rfl⟩
  | b :: rest, path, parent, c, found, h, ready => by
    rw [List.forall_mem_cons] at h ready
    have hw := walkBranch_eq check context b path parent c found h.1 ready.1
    obtain ⟨edits, hr, kept⟩ := walkBranches_eq check context rest path parent c _ h.2 ready.2
    refine ⟨none :: edits, ?_, by simpa using kept⟩
    rw [walkBranches, hw]
    dsimp only
    rw [hr]
    simp [branchesVisits]

theorem NodeCheck.walkBranch_eq (check : NodeCheck) (context : ValidationContext) :
    ∀ (b : Branch) (path : List PathSegment) (parent : Node) (c : TypeContext)
    (found : List Finding), (∀ t ∈ b.items, t.Grammatical) →
    (∀ t ∈ b.items, c.Ready t.node.kind) →
    walkBranch ((check.visitor context).toVisitor context.schema) path parent b (c, found) =
      (.ok none, c, found ++
        (branchVisits context.schema c path parent b).flatMap (check.at context))
  | ⟨slot, items⟩, path, parent, c, found, h, ready => by
    rw [walkBranch, branchVisits]
    exact walkItems_eq check context items path parent slot 0 c found h ready

theorem NodeCheck.walkItems_eq (check : NodeCheck) (context : ValidationContext) :
    ∀ (items : List Tree) (path : List PathSegment) (parent : Node) (slot : Slot) (i : Nat)
    (c : TypeContext) (found : List Finding), (∀ t ∈ items, t.Grammatical) →
    (∀ t ∈ items, c.Ready t.node.kind) →
    walkItems ((check.visitor context).toVisitor context.schema) path parent slot i items
        (c, found) =
      (.ok none, c, found ++
        (itemsVisits context.schema c path parent slot i items).flatMap (check.at context))
  | [], path, parent, slot, i, c, found, _, _ => by simp [walkItems, itemsVisits]
  | t :: rest, path, parent, slot, i, c, found, h, ready => by
    rw [List.forall_mem_cons] at h ready
    have hw := walkTree_eq check context t (path ++ [⟨parent, slot.key, itemIndex slot i⟩]) c found
      h.1 ready.1
    have hr := walkItems_eq check context rest path parent slot (i + 1) c
      (found ++ (visits context.schema c (path ++ [⟨parent, slot.key, itemIndex slot i⟩]) t).flatMap
        (check.at context)) h.2 ready.2
    rw [walkItems, hw]
    dsimp only [Edit.problem?]
    rw [hr]
    simp [itemsVisits, Edit.apply]

end

/-- What a check finds in a document it finds at the visits of its tree. -/
theorem NodeCheck.findings_eq (check : NodeCheck) (context : ValidationContext) :
    check.findings context =
      (visits context.schema {} [] context.document.tree).flatMap (check.at context) := by
  rw [NodeCheck.findings, walk, Node.tree, check.walkTree_eq context context.document.tree [] {} []
    context.document.taken.2 (TypeContext.ready_empty _)]
  simp

end Validation

end GraphQL
