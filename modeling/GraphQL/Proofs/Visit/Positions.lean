import GraphQL.Proofs.Ast.Grammar
import GraphQL.Visit.Walk
import Mathlib.Data.List.Nodup

/-!
The positions of the nodes in a tree: the ways that lead down to them. Main statements: a way leads
to one node only, and the list of all positions, in grammar order, has none twice.
-/
namespace GraphQL.Visit

open Ast

/-- The way leads down from the root of the first tree to that of the second. -/
inductive Leads : Tree → List PathSegment → Tree → Prop where
  | here {t : Tree} : Leads t [] t
  | down {t u w : Tree} {b : Branch} {i : Nat} {way : List PathSegment} :
      b ∈ t.branches → b.items[i]? = some u → Leads u way w →
      Leads t (⟨t.node, b.slot.key, itemIndex b.slot i⟩ :: way) w

namespace Leads

variable {t u v w : Tree} {way rest : List PathSegment}

theorem trans (h : Leads t way u) (h' : Leads u rest w) : Leads t (way ++ rest) w := by
  induction h with
  | here => exact h'
  | down hb hi _ ih => exact .down hb hi (ih h')

theorem step (h : Leads t way u) {b : Branch} {i : Nat} (hb : b ∈ u.branches)
    (hi : b.items[i]? = some w) :
    Leads t (way ++ [⟨u.node, b.slot.key, itemIndex b.slot i⟩]) w :=
  h.trans (.down hb hi .here)

theorem split (h : Leads t (way ++ rest) w) : ∃ u, Leads t way u ∧ Leads u rest w := by
  induction way generalizing t with
  | nil => exact ⟨t, .here, h⟩
  | cons segment way ih =>
    rw [List.cons_append] at h
    cases h with
    | down hb hi h =>
      obtain ⟨u, first, second⟩ := ih h
      exact ⟨u, .down hb hi first, second⟩

theorem last {segment : PathSegment} (h : Leads t (way ++ [segment]) w) :
    ∃ u b i, Leads t way u ∧ b ∈ u.branches ∧ b.items[i]? = some w ∧
      segment = ⟨u.node, b.slot.key, itemIndex b.slot i⟩ := by
  obtain ⟨u, first, second⟩ := h.split
  cases second with
  | @down _ v _ b i _ hb hi rest =>
    cases rest
    exact ⟨u, b, i, first, hb, hi, rfl⟩

theorem grammatical (h : Leads t way u) (whole : t.Grammatical) : u.Grammatical := by
  induction h with
  | here => exact whole
  | down hb hi _ ih => exact ih (whole.item hb (List.mem_of_getElem? hi))

end Leads

theorem slots_keys_nodup (k : Kind) : (k.slots.map Slot.key).Nodup := by
  cases k <;> decide

theorem branches_keys_nodup {t : Tree} (h : t.Grammatical) :
    (t.branches.map fun b => b.slot.key).Nodup := by
  have keys := slots_keys_nodup t.node.kind
  rwa [← h.slots, List.map_map] at keys

theorem branch_eq_of_key {t : Tree} (h : t.Grammatical) {b c : Branch} (hb : b ∈ t.branches)
    (hc : c ∈ t.branches) (key : b.slot.key = c.slot.key) : b = c :=
  List.inj_on_of_nodup_map (branches_keys_nodup h) hb hc key

/-- The items of a slot are told apart by their places. -/
theorem index_eq_of_itemIndex {slot : Slot} {count i j : Nat} (allows : slot.arity.Allows count)
    (hi : i < count) (hj : j < count) (h : itemIndex slot i = itemIndex slot j) : i = j := by
  unfold itemIndex at h
  unfold Arity.Allows at allows
  cases ha : slot.arity <;> simp only [ha] at allows h
  · omega
  · omega
  · simpa using h

theorem Leads.unique {t u w : Tree} {way : List PathSegment} (grammatical : t.Grammatical)
    (h : Leads t way u) (h' : Leads t way w) : u = w := by
  induction h generalizing w with
  | here =>
    cases h'
    rfl
  | @down t u _ b i way hb hi _ ih =>
    generalize hway : (⟨t.node, b.slot.key, itemIndex b.slot i⟩ : PathSegment) :: way = full at h'
    cases h' with
    | here => cases hway
    | @down _ v _ c j rest hc hj h' =>
      simp only [List.cons.injEq, PathSegment.mk.injEq, true_and] at hway
      obtain ⟨⟨key, place⟩, rfl⟩ := hway
      obtain rfl := branch_eq_of_key grammatical hb hc key
      have hij : i = j := index_eq_of_itemIndex (grammatical.allows hb)
        (List.getElem?_eq_some_iff.mp hi).1 (List.getElem?_eq_some_iff.mp hj).1 place
      rw [hij, hj] at hi
      cases hi
      exact ih (grammatical.item hb (List.mem_of_getElem? hj)) h'

abbrev Position := List PathSegment × Node

mutual

/-- The positions in a tree that lies at the end of a path, in grammar order. -/
def positions (path : List PathSegment) : Tree → List Position
  | ⟨n, branches⟩ => (path, n) :: branchesPositions path n branches

def branchesPositions (path : List PathSegment) (parent : Node) : List Branch → List Position
  | [] => []
  | b :: rest => branchPositions path parent b ++ branchesPositions path parent rest

def branchPositions (path : List PathSegment) (parent : Node) : Branch → List Position
  | ⟨slot, items⟩ => itemsPositions path parent slot 0 items

def itemsPositions (path : List PathSegment) (parent : Node) (slot : Slot) (i : Nat) :
    List Tree → List Position
  | [] => []
  | t :: rest =>
    positions (path ++ [⟨parent, slot.key, itemIndex slot i⟩]) t ++
      itemsPositions path parent slot (i + 1) rest

end

/-- A way through one of the branches of a node. -/
def LeadsThrough (parent : Node) (branches : List Branch) (way : List PathSegment) (w : Tree) :
    Prop :=
  ∃ b ∈ branches, ∃ i u rest, b.items[i]? = some u ∧ Leads u rest w ∧
    way = ⟨parent, b.slot.key, itemIndex b.slot i⟩ :: rest

/-- A way through one of the items of a slot, counted from `i`. -/
def LeadsInto (parent : Node) (slot : Slot) (i : Nat) (items : List Tree)
    (way : List PathSegment) (w : Tree) : Prop :=
  ∃ j u rest, items[j]? = some u ∧ Leads u rest w ∧
    way = ⟨parent, slot.key, itemIndex slot (i + j)⟩ :: rest

theorem leads_iff {n : Node} {branches : List Branch} {way : List PathSegment} {w : Tree} :
    Leads ⟨n, branches⟩ way w ↔ (way = [] ∧ w = ⟨n, branches⟩) ∨ LeadsThrough n branches way w := by
  constructor
  · intro h
    cases h with
    | here => exact .inl ⟨rfl, rfl⟩
    | down hb hi h => exact .inr ⟨_, hb, _, _, _, hi, h, rfl⟩
  · rintro (⟨rfl, rfl⟩ | ⟨b, hb, i, u, rest, hi, h, rfl⟩)
    · exact .here
    · exact .down (t := ⟨n, branches⟩) hb hi h

/-- A position in the list is one that a way of the kind leads to. -/
def Reached (path : List PathSegment) (leads : List PathSegment → Tree → Prop) (p : Position) :
    Prop :=
  ∃ way w, leads way w ∧ p = (path ++ way, w.node)

mutual

theorem mem_positions : ∀ (t : Tree) (path : List PathSegment) (p : Position),
    p ∈ positions path t ↔ Reached path (Leads t) p
  | ⟨n, branches⟩, path, p => by
    rw [positions, List.mem_cons, mem_branchesPositions branches path n p]
    constructor
    · rintro (rfl | ⟨way, w, h, rfl⟩)
      · exact ⟨[], _, .here, by simp [Ast.Tree.node]⟩
      · exact ⟨way, w, leads_iff.mpr (.inr h), rfl⟩
    · rintro ⟨way, w, h, rfl⟩
      rcases leads_iff.mp h with ⟨rfl, rfl⟩ | h
      · exact .inl (by simp [Ast.Tree.node])
      · exact .inr ⟨way, w, h, rfl⟩

theorem mem_branchesPositions : ∀ (branches : List Branch) (path : List PathSegment)
    (parent : Node) (p : Position),
    p ∈ branchesPositions path parent branches ↔ Reached path (LeadsThrough parent branches) p
  | [], path, parent, p => by simp [branchesPositions, Reached, LeadsThrough]
  | b :: rest, path, parent, p => by
    rw [branchesPositions, List.mem_append, mem_branchPositions b path parent p,
      mem_branchesPositions rest path parent p]
    constructor
    · rintro (⟨way, w, ⟨i, u, q, hi, h, rfl⟩, rfl⟩ | ⟨way, w, ⟨c, hc, i, u, q, hi, h, rfl⟩, rfl⟩)
      · exact ⟨_, w, ⟨b, List.mem_cons_self, i, u, q, hi, h, by rw [Nat.zero_add]⟩, rfl⟩
      · exact ⟨_, w, ⟨c, List.mem_cons_of_mem _ hc, i, u, q, hi, h, rfl⟩, rfl⟩
    · rintro ⟨way, w, ⟨c, hc, i, u, q, hi, h, rfl⟩, rfl⟩
      rcases List.mem_cons.mp hc with rfl | hc
      · exact .inl ⟨_, w, ⟨i, u, q, hi, h, by rw [Nat.zero_add]⟩, rfl⟩
      · exact .inr ⟨_, w, ⟨c, hc, i, u, q, hi, h, rfl⟩, rfl⟩

theorem mem_branchPositions : ∀ (b : Branch) (path : List PathSegment) (parent : Node)
    (p : Position),
    p ∈ branchPositions path parent b ↔ Reached path (LeadsInto parent b.slot 0 b.items) p
  | ⟨slot, items⟩, path, parent, p => by
    rw [branchPositions]
    exact mem_itemsPositions items path parent slot 0 p

theorem mem_itemsPositions : ∀ (items : List Tree) (path : List PathSegment) (parent : Node)
    (slot : Slot) (i : Nat) (p : Position),
    p ∈ itemsPositions path parent slot i items ↔ Reached path (LeadsInto parent slot i items) p
  | [], path, parent, slot, i, p => by simp [itemsPositions, Reached, LeadsInto]
  | t :: rest, path, parent, slot, i, p => by
    rw [itemsPositions, List.mem_append, mem_positions t _ p,
      mem_itemsPositions rest path parent slot (i + 1) p]
    constructor
    · rintro (⟨way, w, h, rfl⟩ | ⟨way, w, ⟨j, u, q, hj, h, rfl⟩, rfl⟩)
      · exact ⟨_, w, ⟨0, t, way, rfl, h, rfl⟩, by simp⟩
      · exact ⟨_, w, ⟨j + 1, u, q, hj, h, by rw [Nat.add_right_comm, Nat.add_assoc]⟩, rfl⟩
    · rintro ⟨way, w, ⟨j, u, q, hj, h, rfl⟩, rfl⟩
      cases j with
      | zero =>
        cases hj
        exact .inl ⟨q, w, h, by simp⟩
      | succ j =>
        exact .inr ⟨_, w, ⟨j, u, q, hj, h, by rw [Nat.add_right_comm, Nat.add_assoc]⟩, rfl⟩

end

def paths (ps : List Position) : List (List PathSegment) := ps.map Prod.fst

mutual

theorem positions_nodup : ∀ (t : Tree) (path : List PathSegment), t.Grammatical →
    (paths (positions path t)).Nodup
  | ⟨n, branches⟩, path, h => by
    rw [positions, paths, List.map_cons, List.nodup_cons]
    refine ⟨?_, branchesPositions_nodup branches path n (branches_keys_nodup h)
      (fun b hb => h.allows hb) fun b hb t ht => h.item hb ht⟩
    intro hmem
    obtain ⟨⟨_, m⟩, hp, rfl⟩ := List.mem_map.mp hmem
    obtain ⟨way, w, ⟨b, -, i, u, q, -, -, rfl⟩, hp⟩ := (mem_branchesPositions ..).mp hp
    simp at hp

theorem branchesPositions_nodup : ∀ (branches : List Branch) (path : List PathSegment)
    (parent : Node), (branches.map fun b => b.slot.key).Nodup →
    (∀ b ∈ branches, b.slot.arity.Allows b.items.length) →
    (∀ b ∈ branches, ∀ t ∈ b.items, t.Grammatical) →
    (paths (branchesPositions path parent branches)).Nodup
  | [], _, _, _, _, _ => by simp [branchesPositions, paths]
  | b :: rest, path, parent, keys, allows, grammatical => by
    rw [List.map_cons, List.nodup_cons] at keys
    rw [List.forall_mem_cons] at allows grammatical
    rw [branchesPositions, paths, List.map_append]
    refine List.nodup_append.mpr
      ⟨branchPositions_nodup b path parent allows.1 grammatical.1,
        branchesPositions_nodup rest path parent keys.2 allows.2 grammatical.2, ?_⟩
    intro _ first _ second heq
    obtain ⟨p, hp, rfl⟩ := List.mem_map.mp first
    obtain ⟨q, hq, rfl⟩ := List.mem_map.mp second
    obtain ⟨_, _, ⟨i, u, r, -, -, rfl⟩, rfl⟩ := (mem_branchPositions ..).mp hp
    obtain ⟨_, _, ⟨c, hc, j, v, s, -, -, rfl⟩, rfl⟩ := (mem_branchesPositions ..).mp hq
    simp only [List.append_cancel_left_eq, List.cons.injEq, PathSegment.mk.injEq] at heq
    exact keys.1 (heq.1.2.1 ▸ List.mem_map_of_mem (f := fun b : Branch => b.slot.key) hc)

theorem branchPositions_nodup : ∀ (b : Branch) (path : List PathSegment) (parent : Node),
    b.slot.arity.Allows b.items.length → (∀ t ∈ b.items, t.Grammatical) →
    (paths (branchPositions path parent b)).Nodup
  | ⟨slot, items⟩, path, parent, allows, grammatical => by
    rw [branchPositions]
    refine itemsPositions_nodup items path parent slot 0 ?_ grammatical
    intro i j hi hj
    rw [Nat.zero_add] at hi hj
    exact index_eq_of_itemIndex allows hi hj

theorem itemsPositions_nodup : ∀ (items : List Tree) (path : List PathSegment) (parent : Node)
    (slot : Slot) (i : Nat),
    (∀ j k, j < i + items.length → k < i + items.length →
      itemIndex slot j = itemIndex slot k → j = k) →
    (∀ t ∈ items, t.Grammatical) → (paths (itemsPositions path parent slot i items)).Nodup
  | [], _, _, _, _, _, _ => by simp [itemsPositions, paths]
  | t :: rest, path, parent, slot, i, apart, grammatical => by
    rw [List.forall_mem_cons] at grammatical
    rw [List.length_cons] at apart
    rw [itemsPositions, paths, List.map_append]
    refine List.nodup_append.mpr ⟨positions_nodup t _ grammatical.1,
      itemsPositions_nodup rest path parent slot (i + 1)
        (fun j k hj hk => apart j k (by omega) (by omega)) grammatical.2, ?_⟩
    intro _ first _ second heq
    obtain ⟨p, hp, rfl⟩ := List.mem_map.mp first
    obtain ⟨q, hq, rfl⟩ := List.mem_map.mp second
    obtain ⟨r, _, -, rfl⟩ := (mem_positions ..).mp hp
    obtain ⟨_, _, ⟨j, v, s, hj, -, rfl⟩, rfl⟩ := (mem_itemsPositions ..).mp hq
    simp only [List.append_assoc, List.append_cancel_left_eq, List.singleton_append,
      List.cons.injEq, PathSegment.mk.injEq, true_and] at heq
    have hlt : j < rest.length := (List.getElem?_eq_some_iff.mp hj).1
    have : i = i + 1 + j := apart _ _ (by omega) (by omega) heq.1
    omega

end

end GraphQL.Visit
