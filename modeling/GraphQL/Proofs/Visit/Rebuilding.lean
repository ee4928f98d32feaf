import GraphQL.Proofs.Ast.Parts
import GraphQL.Proofs.Visit.Discipline

/-!
Edits that are copied on write against plain rebuilding. The plain walk puts every node that it
enters together again from what became of its children, changed or not. Main statement: both walks
call the same hooks and come to the same result, and the first answer that aborts a walk decides
how it ends.
-/
namespace GraphQL.Visit

open Ast

variable {σ ε : Type}

/-- Why a slot cannot hold what an item of it came to, `none` being a deleted one. -/
def misfit? (parent : Node) (slot : Slot) : Option Node → Option (VisitError ε)
  | none => if slot.arity = .one then some (.invalidEdit parent.kind slot.key none) else none
  | some m =>
    if slot.takes.has m.kind then none
    else some (.invalidEdit parent.kind slot.key (some m.kind))

mutual

/-- Walks a tree and rebuilds every node that is entered; gives what the root came to, `none` if it
was deleted. -/
def rebuildTree (v : Visitor σ ε) (path : List PathSegment) :
    Tree → σ → Except (Abort ε) (Option Node) × σ
  | ⟨n, branches⟩, s =>
    match v.enter n path s with
    | (.error e, s) => (.error (.failed (.callback e)), s)
    | (.ok .skip, s) => (.ok (some n), s)
    | (.ok .stop, s) => (.error .stop, s)
    | (.ok (.replace m), s) => (.ok (some m), s)
    | (.ok .delete, s) => (.ok none, s)
    | (.ok .proceed, s) =>
      match rebuildBranches v path n branches s with
      | (.error a, s) => (.error a, v.abandon n path s)
      | (.ok children, s) =>
        match v.leave (n.withChildren children) path s with
        | (.error e, s) => (.error (.failed (.callback e)), s)
        | (.ok .stop, s) => (.error .stop, s)
        | (.ok (.replace m), s) => (.ok (some m), s)
        | (.ok .delete, s) => (.ok none, s)
        | (.ok .proceed, s) | (.ok .skip, s) => (.ok (some (n.withChildren children)), s)

def rebuildBranches (v : Visitor σ ε) (path : List PathSegment) (parent : Node) :
    List Branch → σ → Except (Abort ε) (List (List Node)) × σ
  | [], s => (.ok [], s)
  | b :: rest, s =>
    match rebuildBranch v path parent b s with
    | (.error a, s) => (.error a, s)
    | (.ok items, s) =>
      match rebuildBranches v path parent rest s with
      | (.error a, s) => (.error a, s)
      | (.ok others, s) => (.ok (items :: others), s)

def rebuildBranch (v : Visitor σ ε) (path : List PathSegment) (parent : Node) :
    Branch → σ → Except (Abort ε) (List Node) × σ
  | ⟨slot, items⟩, s => rebuildItems v path parent slot 0 items s

/-- Walks the items of a slot from the `i`-th on; gives those that are not deleted, as they came to
be. -/
def rebuildItems (v : Visitor σ ε) (path : List PathSegment) (parent : Node) (slot : Slot)
    (i : Nat) : List Tree → σ → Except (Abort ε) (List Node) × σ
  | [], s => (.ok [], s)
  | t :: rest, s =>
    match rebuildTree v (path ++ [⟨parent, slot.key, itemIndex slot i⟩]) t s with
    | (.error a, s) => (.error a, s)
    | (.ok item, s) =>
      match misfit? parent slot item with
      | some e => (.error (.failed e), s)
      | none =>
        match rebuildItems v path parent slot (i + 1) rest s with
        | (.error a, s) => (.error a, s)
        | (.ok items, s) => (.ok (item.toList ++ items), s)

end

/-- Visits a node as `visit` does, with plain rebuilding. -/
def rebuildVisit (v : Visitor σ ε) (root : Node) (s : σ) :
    Except (VisitError ε) (Option Node) × σ :=
  match rebuildTree v [] root.tree s with
  | (.ok edited, s) => (.ok edited, s)
  | (.error a, s) => (a.result (some root), s)

/-- Visits a document as `visitDocument` does, with plain rebuilding. -/
def rebuildDocument (v : Visitor σ ε) (root : Document) (s : σ) :
    Except (VisitError ε) Document × σ :=
  match rebuildTree v [] root.tree s with
  | (.ok (some (.document d)), s) => (.ok d, s)
  | (.ok (some n), s) => (.error (.invalidEdit .document "document" (some n.kind)), s)
  | (.ok none, s) => (.error (.invalidEdit .document "document" none), s)
  | (.error a, s) => (a.result root, s)

def Edit.outcome (n : Node) : Edit → Option Node
  | .keep => some n
  | .replace m => some m
  | .delete => none

def editedChildren (branches : List Branch) (edits : List (Option (List Node))) :
    List (List Node) :=
  List.zipWith (fun b e => e.getD (b.items.map Ast.Tree.node)) branches edits

theorem Edit.misfit?_outcome {parent n : Node} {slot : Slot} (taken : slot.takes.has n.kind = true)
    (edit : Edit) : misfit? (ε := ε) parent slot (edit.outcome n) = edit.problem? parent slot := by
  cases edit with
  | keep => exact if_pos taken
  | _ => rfl

theorem Edit.getD_apply (first : Node) (rest : List Node) (edited : Option (List Node))
    (edit : Edit) :
    (edit.apply first rest edited).getD (first :: rest) =
      (edit.outcome first).toList ++ edited.getD rest := by
  cases edit with
  | keep => cases edited <;> rfl
  | _ => rfl

/-- The tree is that of its node. -/
def Own (t : Tree) : Prop := t.node.tree = t

theorem own_tree (n : Node) : Own n.tree := by rw [Own, n.node_tree]

theorem own_item {n : Node} {b : Branch} (hb : b ∈ n.tree.branches) {u : Tree} (hu : u ∈ b.items) :
    Own u := by
  rw [n.tree_eq, Tree.of, Tree.branches, List.mem_iff_getElem] at hb
  obtain ⟨i, hi, rfl⟩ := hb
  rw [List.getElem_zipWith, Branch.items, List.getElem_map, List.mem_map] at hu
  obtain ⟨m, -, rfl⟩ := hu
  exact own_tree m

section Rebuilds

variable {v : Visitor σ ε} {n : Node} {branches : List Branch} {path : List PathSegment}
variable {s t u w : σ} {answer : Except ε Action} {children : List (List Node)}

/-- What a node comes to by the answer of the last hook that it was shown to. -/
def come (n : Node) : Except ε Action → Except (Abort ε) (Option Node)
  | .error e => .error (.failed (.callback e))
  | .ok .stop => .error .stop
  | .ok (.replace m) => .ok (some m)
  | .ok .delete => .ok none
  | .ok .proceed | .ok .skip => .ok (some n)

theorem rebuildTree_of_refused (entered : v.enter n path s = (answer, t))
    (refused : answer ≠ .ok .proceed) :
    rebuildTree v path ⟨n, branches⟩ s = (come n answer, t) := by
  rw [rebuildTree, entered]
  rcases answer with e | (_ | _ | _ | _ | _)
  case ok.proceed => exact absurd rfl refused
  all_goals rfl

theorem rebuildTree_of_aborted {a : Abort ε} (entered : v.enter n path s = (.ok .proceed, t))
    (below : rebuildBranches v path n branches t = (.error a, u)) :
    rebuildTree v path ⟨n, branches⟩ s = (.error a, v.abandon n path u) := by
  rw [rebuildTree, entered]
  dsimp only
  rw [below]

theorem rebuildTree_of_left (entered : v.enter n path s = (.ok .proceed, t))
    (below : rebuildBranches v path n branches t = (.ok children, u))
    (left : v.leave (n.withChildren children) path u = (answer, w)) :
    rebuildTree v path ⟨n, branches⟩ s = (come (n.withChildren children) answer, w) := by
  rw [rebuildTree, entered]
  dsimp only
  rw [below]
  dsimp only
  rw [left]
  rcases answer with e | (_ | _ | _ | _ | _) <;> rfl

end Rebuilds

theorem outcome_settle (n : Node) (rebuilt : Option Node) (answer : Except ε Action) :
    (settle rebuilt answer).map (Edit.outcome n) = come (rebuilt.getD n) answer := by
  rcases answer with e | (_ | _ | _ | _ | _) <;> cases rebuilt <;> rfl

theorem editedChildren_unchanged {branches : List Branch} {edits : List (Option (List Node))}
    (length : edits.length = branches.length) (unchanged : edits.all Option.isNone = true) :
    editedChildren branches edits = branches.map fun b => b.items.map Ast.Tree.node := by
  induction branches generalizing edits with
  | nil => rfl
  | cons b branches ih =>
    obtain _ | ⟨edit, edits⟩ := edits
    · cases length
    · rw [List.all_cons, Bool.and_eq_true, Option.isNone_iff_eq_none] at unchanged
      have others := ih (Nat.succ.inj length) unchanged.2
      rw [editedChildren, List.zipWith_cons_cons, unchanged.1, Option.getD_none, List.map_cons]
      exact congrArg _ others

theorem getD_rebuild {n : Node} {branches : List Branch} {edits : List (Option (List Node))}
    (own : Own ⟨n, branches⟩) (length : edits.length = branches.length) :
    (rebuild n branches edits).getD n = n.withChildren (editedChildren branches edits) := by
  unfold rebuild
  split
  case isTrue unchanged =>
    have children : n.children = branches.map fun b => b.items.map Ast.Tree.node := by
      rw [Node.children, show n.tree = ⟨n, branches⟩ from own, Tree.branches]
    rw [editedChildren_unchanged length unchanged, ← children, n.withChildren_children,
      Option.getD_none]
  case isFalse => rfl

theorem length_of_walkBranches {v : Visitor σ ε} {path : List PathSegment} {parent : Node}
    {branches : List Branch} {s t : σ} {edits : List (Option (List Node))}
    (h : walkBranches v path parent branches s = (.ok edits, t)) :
    edits.length = branches.length := by
  induction branches generalizing s edits with
  | nil =>
    rw [walkBranches, Prod.mk.injEq, Except.ok.injEq] at h
    obtain ⟨rfl, -⟩ := h
    rfl
  | cons b rest ih =>
    rw [walkBranches] at h
    rcases hb : walkBranch v path parent b s with ⟨a | edited, s₁⟩
    · simp [hb] at h
    rcases hs : walkBranches v path parent rest s₁ with ⟨a | others, s₂⟩
    · simp [hb, hs] at h
    · simp only [hb, hs, Prod.mk.injEq, Except.ok.injEq] at h
      obtain ⟨rfl, rfl⟩ := h
      rw [List.length_cons, List.length_cons, ih hs]

mutual

theorem rebuildTree_eq (v : Visitor σ ε) : ∀ (t : Tree) (path : List PathSegment) (s : σ), Own t →
    rebuildTree v path t s =
      ((walkTree v path t s).1.map (Edit.outcome t.node), (walkTree v path t s).2)
  | ⟨n, branches⟩, path, s, own => by
    have grammatical : Tree.Grammatical ⟨n, branches⟩ := own ▸ n.grammatical
    rcases he : v.enter n path s with ⟨answer, s₁⟩
    by_cases hp : answer = .ok .proceed
    · subst hp
      have below := rebuildBranches_eq v branches path n s₁ (fun b hb t ht => grammatical.takes hb ht)
        (fun b hb t ht => own_item (n := n) (by rwa [show n.tree = ⟨n, branches⟩ from own]) ht)
      rcases hb : walkBranches v path n branches s₁ with ⟨a | edits, s₂⟩
      · rw [hb] at below
        rw [rebuildTree_of_aborted he below, walkTree_of_aborted he hb]
        rfl
      · rw [hb] at below
        have same := getD_rebuild own (length_of_walkBranches hb)
        rw [walkTree_of_left he hb rfl, rebuildTree_of_left he below rfl, outcome_settle,
          Ast.Tree.node, same]
    · rw [walkTree_of_refused he hp, rebuildTree_of_refused he hp, outcome_settle]
      rfl

theorem rebuildBranches_eq (v : Visitor σ ε) : ∀ (branches : List Branch)
    (path : List PathSegment) (parent : Node) (s : σ),
    (∀ b ∈ branches, ∀ t ∈ b.items, b.slot.takes.has t.node.kind = true) →
    (∀ b ∈ branches, ∀ t ∈ b.items, Own t) →
    rebuildBranches v path parent branches s =
      ((walkBranches v path parent branches s).1.map (editedChildren branches),
        (walkBranches v path parent branches s).2)
  | [], path, parent, s, _, _ => by
    rw [rebuildBranches, walkBranches]
    rfl
  | b :: rest, path, parent, s, takes, own => by
    rw [List.forall_mem_cons] at takes own
    have first := rebuildBranch_eq v b path parent s takes.1 own.1
    rcases hb : walkBranch v path parent b s with ⟨a | edited, s₁⟩
    · rw [hb] at first
      simp only [rebuildBranches, walkBranches, hb, first, Except.map]
    · rw [hb] at first
      have others := rebuildBranches_eq v rest path parent s₁ takes.2 own.2
      rcases hs : walkBranches v path parent rest s₁ with ⟨a | edits, s₂⟩
      all_goals
        rw [hs] at others
        simp only [rebuildBranches, walkBranches, hb, first, hs, others, Except.map,
          editedChildren, List.zipWith_cons_cons]

theorem rebuildBranch_eq (v : Visitor σ ε) : ∀ (b : Branch) (path : List PathSegment)
    (parent : Node) (s : σ), (∀ t ∈ b.items, b.slot.takes.has t.node.kind = true) →
    (∀ t ∈ b.items, Own t) →
    rebuildBranch v path parent b s =
      ((walkBranch v path parent b s).1.map fun e => e.getD (b.items.map Ast.Tree.node),
        (walkBranch v path parent b s).2)
  | ⟨slot, items⟩, path, parent, s, takes, own => by
    rw [rebuildBranch, walkBranch]
    exact rebuildItems_eq v items path parent slot 0 s takes own

theorem rebuildItems_eq (v : Visitor σ ε) : ∀ (items : List Tree) (path : List PathSegment)
    (parent : Node) (slot : Slot) (i : Nat) (s : σ),
    (∀ t ∈ items, slot.takes.has t.node.kind = true) → (∀ t ∈ items, Own t) →
    rebuildItems v path parent slot i items s =
      ((walkItems v path parent slot i items s).1.map fun e => e.getD (items.map Ast.Tree.node),
        (walkItems v path parent slot i items s).2)
  | [], path, parent, slot, i, s, _, _ => by
    rw [rebuildItems, walkItems]
    rfl
  | t :: rest, path, parent, slot, i, s, takes, own => by
    rw [List.forall_mem_cons] at takes own
    have first := rebuildTree_eq v t (path ++ [⟨parent, slot.key, itemIndex slot i⟩]) s own.1
    rcases ht : walkTree v (path ++ [⟨parent, slot.key, itemIndex slot i⟩]) t s with
      ⟨a | edit, s₁⟩
    · rw [ht] at first
      simp only [rebuildItems, walkItems, ht, first, Except.map]
    rw [ht] at first
    have fit : misfit? (ε := ε) parent slot (edit.outcome t.node) = edit.problem? parent slot :=
      edit.misfit?_outcome takes.1
    rcases hp : edit.problem? (ε := ε) parent slot with - | e
    · have others := rebuildItems_eq v rest path parent slot (i + 1) s₁ takes.2 own.2
      rw [hp] at fit
      rcases hs : walkItems v path parent slot (i + 1) rest s₁ with ⟨a | edited, s₂⟩
      all_goals
        rw [hs] at others
        simp only [rebuildItems, walkItems, ht, first, hp, fit, hs, others, Except.map,
          List.map_cons, Edit.getD_apply]
    · rw [hp] at fit
      simp only [rebuildItems, walkItems, ht, first, hp, fit, Except.map]

end

theorem misfit?_eq_none {parent : Node} {slot : Slot} {item : Option Node}
    (h : misfit? (ε := ε) parent slot item = none) :
    (∀ m ∈ item, slot.takes.has m.kind = true) ∧ (item = none → slot.arity ≠ .one) := by
  cases item with
  | none => simpa [misfit?] using h
  | some m => simpa [misfit?] using h

/-- The items that are left fit their slot. -/
theorem rebuildItems_fit {v : Visitor σ ε} {path : List PathSegment} {parent : Node} {slot : Slot}
    {i : Nat} {items : List Tree} {s t : σ} {nodes : List Node}
    (h : rebuildItems v path parent slot i items s = (.ok nodes, t)) :
    (∀ n ∈ nodes, slot.takes.has n.kind = true) ∧ nodes.length ≤ items.length ∧
      (slot.arity = .one → nodes.length = items.length) := by
  induction items generalizing i s nodes with
  | nil =>
    rw [rebuildItems, Prod.mk.injEq, Except.ok.injEq] at h
    obtain ⟨rfl, -⟩ := h
    simp
  | cons u rest ih =>
    rw [rebuildItems] at h
    rcases ht : rebuildTree v (path ++ [⟨parent, slot.key, itemIndex slot i⟩]) u s with
      ⟨a | item, s₁⟩
    · simp [ht] at h
    rcases hp : misfit? (ε := ε) parent slot item with - | e
    · rcases hs : rebuildItems v path parent slot (i + 1) rest s₁ with ⟨a | others, s₂⟩
      · simp [ht, hp, hs] at h
      · simp only [ht, hp, hs, Prod.mk.injEq, Except.ok.injEq] at h
        obtain ⟨rfl, rfl⟩ := h
        obtain ⟨kinds, atMost, exactly⟩ := ih hs
        obtain ⟨kind, there⟩ := misfit?_eq_none hp
        cases item with
        | none =>
          refine ⟨kinds, Nat.le_succ_of_le atMost, fun one => absurd one (there rfl)⟩
        | some m =>
          rw [Option.toList_some, List.singleton_append, List.forall_mem_cons]
          exact ⟨⟨kind m rfl, kinds⟩, Nat.succ_le_succ atMost, fun one => congrArg _ (exactly one)⟩
    · simp [ht, hp] at h

theorem rebuildBranches_fit {v : Visitor σ ε} {path : List PathSegment} {parent : Node}
    {branches : List Branch} {s t : σ} {children : List (List Node)}
    (counts : ∀ b ∈ branches, b.slot.arity.Allows b.items.length)
    (h : rebuildBranches v path parent branches s = (.ok children, t)) :
    List.Forall₂ Slot.Fits (branches.map Branch.slot) children := by
  induction branches generalizing s children with
  | nil =>
    rw [rebuildBranches, Prod.mk.injEq, Except.ok.injEq] at h
    obtain ⟨rfl, -⟩ := h
    exact .nil
  | cons b rest ih =>
    rw [List.forall_mem_cons] at counts
    rw [rebuildBranches] at h
    rcases hb : rebuildBranch v path parent b s with ⟨a | nodes, s₁⟩
    · simp [hb] at h
    rcases hs : rebuildBranches v path parent rest s₁ with ⟨a | others, s₂⟩
    · simp [hb, hs] at h
    · simp only [hb, hs, Prod.mk.injEq, Except.ok.injEq] at h
      obtain ⟨rfl, rfl⟩ := h
      refine .cons ?_ (ih counts.2 hs)
      obtain ⟨slot, items⟩ := b
      rw [rebuildBranch] at hb
      obtain ⟨kinds, atMost, exactly⟩ := rebuildItems_fit hb
      have allows := counts.1
      refine ⟨?_, kinds⟩
      rw [Branch.slot, Branch.items] at allows
      rw [Branch.slot]
      cases arity : slot.arity with
      | one =>
        rw [arity] at allows
        exact (exactly arity).trans allows
      | optional =>
        rw [arity] at allows
        exact Nat.le_trans atMost allows
      | many => trivial

/-- A node that is entered is rebuilt with just what its children came to. -/
theorem rebuilt_hasChildren {v : Visitor σ ε} {path : List PathSegment} {n : Node} {s t : σ}
    {children : List (List Node)}
    (h : rebuildBranches v path n n.tree.branches s = (.ok children, t)) :
    n.HasChildren children (n.withChildren children) := by
  have slots : n.tree.branches.map Branch.slot = n.kind.slots := by
    rw [n.grammatical.slots, n.node_tree]
  have fit := rebuildBranches_fit (fun b hb => n.grammatical.allows hb) h
  rw [slots] at fit
  exact n.withChildren_hasChildren fit

/-- The slot that holds the next node of a way. -/
def PathSegment.slot? (segment : PathSegment) : Option Slot :=
  segment.parent.kind.slots.find? fun slot => slot.key = segment.key

/-- Why the slot at the end of a path cannot hold what its item came to; there is none for the
root. -/
def misfitAt? (path : List PathSegment) (item : Option Node) : Option (VisitError ε) := do
  let segment ← path.getLast?
  misfit? segment.parent (← segment.slot?) item

/-- The abort that an answer about the node at a path demands. -/
def demanded? (path : List PathSegment) : Except ε Action → Option (Abort ε)
  | .error e => some (.failed (.callback e))
  | .ok .stop => some .stop
  | .ok (.replace m) => (misfitAt? path (some m)).map .failed
  | .ok .delete => (misfitAt? path none).map .failed
  | .ok .proceed | .ok .skip => none

def Call.demanded? (c : Call ε) : Option (Abort ε) := c.answer?.bind (Visit.demanded? c.path)

/-- The calls are about nodes at this depth or below, and the first of them to demand an abort
demands this one; no other demands any. -/
structure Tells (depth : Nat) (calls : List (Call ε)) (abort : Option (Abort ε)) : Prop where
  deep : ∀ c ∈ calls, depth ≤ c.path.length
  first : calls.findSome? Call.demanded? = abort
  only : ∀ c ∈ calls, ∀ a, c.demanded? = some a → abort = some a

namespace Tells

variable {depth : Nat} {calls others : List (Call ε)} {abort : Option (Abort ε)} {c : Call ε}

theorem nil : Tells depth ([] : List (Call ε)) none := ⟨by simp, rfl, by simp⟩

theorem single (hc : depth ≤ c.path.length) : Tells depth [c] c.demanded? :=
  ⟨by simpa using hc, List.findSome?_singleton, by simp⟩

theorem append (h : Tells depth calls none) (h' : Tells depth others abort) :
    Tells depth (calls ++ others) abort where
  deep c hc := (List.mem_append.mp hc).elim (h.deep c) (h'.deep c)
  first := by rw [List.findSome?_append, h.first, h'.first, Option.none_or]
  only c hc a ha := (List.mem_append.mp hc).elim (fun hc => nomatch h.only c hc a ha)
    (fun hc => h'.only c hc a ha)

/-- What is called after the abort demands nothing. -/
theorem aborted {a : Abort ε} (h : Tells depth calls (some a)) (hc : depth ≤ c.path.length)
    (quiet : c.demanded? = none) : Tells depth (calls ++ [c]) (some a) where
  deep d hd := (List.mem_append.mp hd).elim (h.deep d) ((single hc).deep d)
  first := by rw [List.findSome?_append, h.first, Option.some_or]
  only d hd b hb := (List.mem_append.mp hd).elim (fun hd => h.only d hd b hb) fun hd => by
    rw [List.mem_singleton.mp hd, quiet] at hb
    cases hb

theorem higher (h : Tells (depth + 1) calls abort) : Tells depth calls abort :=
  ⟨fun c hc => Nat.le_of_succ_le (h.deep c hc), h.first, h.only⟩

end Tells

/-- The node at the path is deleted. -/
def Deleted (path : List PathSegment) (calls : List (Call ε)) : Prop :=
  ∃ c ∈ calls, c.path = path ∧ c.answer? = some (.ok .delete)

theorem deleted_append {path : List PathSegment} {calls others : List (Call ε)} :
    Deleted path (calls ++ others) ↔ Deleted path calls ∨ Deleted path others := by
  simp only [Deleted, List.mem_append, or_and_right, exists_or]

theorem Tells.not_deleted {path : List PathSegment} {calls : List (Call ε)}
    {abort : Option (Abort ε)} (h : Tells (path.length + 1) calls abort) :
    ¬ Deleted path calls := by
  rintro ⟨c, hc, rfl, -⟩
  exact absurd (h.deep c hc) (Nat.not_succ_le_self _)

theorem settle_eq_delete {rebuilt : Option Node} {answer : Except ε Action} :
    settle rebuilt answer = .ok .delete ↔ answer = .ok .delete := by
  rcases answer with e | (_ | _ | _ | _ | _) <;> cases rebuilt <;> simp [settle]

/-- How a walk of a node ends for the slot that holds it. -/
def ending? (path : List PathSegment) (n : Node) : Except (Abort ε) Edit → Option (Abort ε)
  | .error a => some a
  | .ok edit => (misfitAt? path (edit.outcome n)).map .failed

theorem ending?_settle {path : List PathSegment} {n : Node} {rebuilt : Option Node}
    (suits : ∀ m : Node, m.kind = n.kind → misfitAt? (ε := ε) path (some m) = none)
    (kind : (rebuilt.getD n).kind = n.kind) (answer : Except ε Action) :
    ending? path n (settle rebuilt answer) = demanded? path answer := by
  have kept : ending? (ε := ε) path n (.ok (rebuilt.elim .keep .replace)) = none := by
    cases rebuilt with
    | none => rw [ending?, Option.elim_none, Edit.outcome, suits n rfl, Option.map_none]
    | some m => rw [ending?, Option.elim_some, Edit.outcome, suits m kind, Option.map_none]
  rcases answer with e | (_ | _ | _ | _ | _)
  case ok.proceed => exact kept
  case ok.skip => exact kept
  all_goals rfl

theorem misfitAt?_append {path : List PathSegment} {segment : PathSegment} {slot : Slot}
    (h : segment.slot? = some slot) (item : Option Node) :
    misfitAt? (ε := ε) (path ++ [segment]) item = misfit? segment.parent slot item := by
  simp [misfitAt?, h]

/-- The keys of the slots of a kind tell them apart. -/
theorem slot?_of_mem {parent : Node} {slot : Slot} (h : slot ∈ parent.kind.slots)
    (index : Option Nat) : PathSegment.slot? ⟨parent, slot.key, index⟩ = some slot := by
  rw [PathSegment.slot?, List.find?_eq_some_iff_append]
  obtain ⟨before, after, split⟩ := List.append_of_mem h
  refine ⟨by simp, before, after, split, fun other hother => ?_⟩
  have keys := slots_keys_nodup parent.kind
  rw [split, List.map_append, List.map_cons, List.nodup_append] at keys
  have different := keys.2.2 other.key (List.mem_map_of_mem hother) slot.key List.mem_cons_self
  simpa using different

mutual

theorem walkTree_tells (v : Visitor σ ε) : ∀ (t : Tree) (path : List PathSegment)
    (s : σ × List (Call ε)), t.Grammatical →
    (∀ m : Node, m.kind = t.node.kind → misfitAt? (ε := ε) path (some m) = none) →
    ∃ calls, (walkTree v.noting path t s).2.2 = s.2 ++ calls ∧
      Tells path.length calls (ending? path t.node (walkTree v.noting path t s).1) ∧
      ((walkTree v.noting path t s).1 = .ok .delete ↔ Deleted path calls)
  | ⟨n, branches⟩, path, s, grammatical, suits => by
    rcases he : v.enter n path s.1 with ⟨answer, s₁⟩
    have entered : v.noting.enter n path s = (answer, s₁, s.2 ++ [.enter n path answer]) := by
      simp [Visitor.noting, he]
    by_cases hp : answer = .ok .proceed
    · subst hp
      let opened : Call ε := .enter n path (.ok .proceed)
      have opens : Tells path.length [opened] none := .single (Nat.le_refl _)
      have stays : ¬ Deleted path [opened] := by simp [Deleted, opened, Call.answer?]
      obtain ⟨calls, noted, tells⟩ := walkBranches_tells v branches path n (s₁, s.2 ++ [opened])
        (fun b hb => grammatical.mem_slots hb) (fun b hb t ht => grammatical.takes hb ht)
        (fun b hb t ht => grammatical.item hb ht)
      have inner := opens.append tells.higher
      rcases hb : walkBranches v.noting path n branches (s₁, s.2 ++ [opened]) with ⟨a | edits, s₂⟩
      · rw [hb] at noted inner
        have noted : s₂.2 = s.2 ++ [opened] ++ calls := noted
        let closed : Call ε := .abandon n path
        have remains : ¬ Deleted path [closed] := by simp [Deleted, closed, Call.answer?]
        rw [walkTree_of_aborted entered hb]
        refine ⟨[opened] ++ calls ++ [closed], by simp [Visitor.noting, noted, closed],
          inner.aborted (Nat.le_refl _) rfl, ?_⟩
        simp only [deleted_append, stays, tells.not_deleted, remains, or_self, reduceCtorEq]
      · rw [hb] at noted inner
        have noted : s₂.2 = s.2 ++ [opened] ++ calls := noted
        rcases hl : v.leave ((rebuild n branches edits).getD n) path s₂.1 with ⟨answer, s₃⟩
        let closed : Call ε := .leave ((rebuild n branches edits).getD n) path answer
        have left : v.noting.leave ((rebuild n branches edits).getD n) path s₂ =
            (answer, s₃, s₂.2 ++ [closed]) := by
          simp [Visitor.noting, hl, closed]
        rw [walkTree_of_left entered hb left,
          ending?_settle suits (kind_of_rebuild_getD n branches edits), settle_eq_delete]
        refine ⟨[opened] ++ calls ++ [closed], by simp [noted],
          inner.append (.single (Nat.le_refl _)), ?_⟩
        have last : Deleted path [closed] ↔ answer = .ok .delete := by
          simp [Deleted, closed, Call.answer?, Call.path]
        simp only [deleted_append, stays, tells.not_deleted, last, false_or]
    · rw [walkTree_of_refused entered hp, ending?_settle suits rfl, settle_eq_delete]
      exact ⟨_, rfl, .single (c := .enter n path answer) (Nat.le_refl _),
        by simp [Deleted, Call.answer?, Call.path]⟩

theorem walkBranches_tells (v : Visitor σ ε) : ∀ (branches : List Branch)
    (path : List PathSegment) (parent : Node) (s : σ × List (Call ε)),
    (∀ b ∈ branches, b.slot ∈ parent.kind.slots) →
    (∀ b ∈ branches, ∀ t ∈ b.items, b.slot.takes.has t.node.kind = true) →
    (∀ b ∈ branches, ∀ t ∈ b.items, t.Grammatical) →
    ∃ calls, (walkBranches v.noting path parent branches s).2.2 = s.2 ++ calls ∧
      Tells (path.length + 1) calls (aborted? (walkBranches v.noting path parent branches s).1)
  | [], path, parent, s, _, _, _ => ⟨[], by simp [walkBranches], .nil⟩
  | b :: rest, path, parent, s, slots, takes, grammatical => by
    rw [List.forall_mem_cons] at slots takes grammatical
    obtain ⟨calls, noted, tells⟩ := walkBranch_tells v b path parent s slots.1 takes.1
      grammatical.1
    rcases hb : walkBranch v.noting path parent b s with ⟨a | edited, s₁⟩
    · rw [hb] at noted tells
      simp only [walkBranches, hb]
      exact ⟨calls, noted, tells⟩
    · rw [hb] at noted tells
      obtain ⟨others, noted', tells'⟩ := walkBranches_tells v rest path parent s₁ slots.2 takes.2
        grammatical.2
      refine ⟨calls ++ others, ?_⟩
      rcases hs : walkBranches v.noting path parent rest s₁ with ⟨a | edits, s₂⟩
      all_goals
        rw [hs] at noted' tells'
        simp only [walkBranches, hb, hs]
        exact ⟨by rw [noted', noted, List.append_assoc], tells.append tells'⟩

theorem walkBranch_tells (v : Visitor σ ε) : ∀ (b : Branch) (path : List PathSegment)
    (parent : Node) (s : σ × List (Call ε)), b.slot ∈ parent.kind.slots →
    (∀ t ∈ b.items, b.slot.takes.has t.node.kind = true) → (∀ t ∈ b.items, t.Grammatical) →
    ∃ calls, (walkBranch v.noting path parent b s).2.2 = s.2 ++ calls ∧
      Tells (path.length + 1) calls (aborted? (walkBranch v.noting path parent b s).1)
  | ⟨slot, items⟩, path, parent, s, mem, takes, grammatical => by
    rw [walkBranch]
    exact walkItems_tells v items path parent slot 0 s mem takes grammatical

theorem walkItems_tells (v : Visitor σ ε) : ∀ (items : List Tree) (path : List PathSegment)
    (parent : Node) (slot : Slot) (i : Nat) (s : σ × List (Call ε)), slot ∈ parent.kind.slots →
    (∀ t ∈ items, slot.takes.has t.node.kind = true) → (∀ t ∈ items, t.Grammatical) →
    ∃ calls, (walkItems v.noting path parent slot i items s).2.2 = s.2 ++ calls ∧
      Tells (path.length + 1) calls (aborted? (walkItems v.noting path parent slot i items s).1)
  | [], path, parent, slot, i, s, _, _, _ => ⟨[], by simp [walkItems], .nil⟩
  | t :: rest, path, parent, slot, i, s, mem, takes, grammatical => by
    rw [List.forall_mem_cons] at takes grammatical
    have here : ∀ item, misfitAt? (ε := ε) (path ++ [⟨parent, slot.key, itemIndex slot i⟩]) item =
        misfit? parent slot item := misfitAt?_append (slot?_of_mem mem _)
    obtain ⟨calls, noted, tells, -⟩ := walkTree_tells v t
      (path ++ [⟨parent, slot.key, itemIndex slot i⟩]) s grammatical.1
      (fun m hm => by
        rw [here]
        exact if_pos (hm ▸ takes.1))
    rw [List.length_append, List.length_singleton] at tells
    rcases ht : walkTree v.noting (path ++ [⟨parent, slot.key, itemIndex slot i⟩]) t s with
      ⟨a | edit, s₁⟩
    · rw [ht] at noted tells
      simp only [walkItems, ht]
      exact ⟨calls, noted, tells⟩
    rw [ht, ending?, here, Edit.misfit?_outcome takes.1] at tells
    rw [ht] at noted
    rcases hp : edit.problem? (ε := ε) parent slot with - | e
    · rw [hp] at tells
      obtain ⟨others, noted', tells'⟩ := walkItems_tells v rest path parent slot (i + 1) s₁ mem
        takes.2 grammatical.2
      refine ⟨calls ++ others, ?_⟩
      rcases hs : walkItems v.noting path parent slot (i + 1) rest s₁ with ⟨a | edited, s₂⟩
      all_goals
        rw [hs] at noted' tells'
        simp only [walkItems, ht, hp, hs]
        exact ⟨by rw [noted', noted, List.append_assoc], tells.append tells'⟩
    · rw [hp] at tells
      simp only [walkItems, ht, hp]
      exact ⟨calls, noted, tells⟩

end

theorem visit_eq_rebuildVisit (v : Visitor σ ε) (root : Node) (s : σ) :
    visit v root s = rebuildVisit v root s := by
  rw [visit, rebuildVisit, rebuildTree_eq v root.tree [] s (own_tree root), root.node_tree]
  rcases walkTree v [] root.tree s with ⟨a | (_ | m | _), t⟩ <;> rfl

theorem visitDocument_eq_rebuildDocument (v : Visitor σ ε) (d : Document) (s : σ) :
    visitDocument v d s = rebuildDocument v d s := by
  have node : d.tree.node = .document d := rfl
  rw [visitDocument, rebuildDocument, rebuildTree_eq v d.tree [] s (own_tree (.document d)), node]
  rcases walkTree v [] d.tree s with ⟨a | (_ | m | _), t⟩
  case ok.replace => cases m <;> rfl
  all_goals rfl

/-- A visit does what plain rebuilding does: it gives the same node in the place of the root, after
the same calls. What is entered is rebuilt with just what its children came to. The result is an
error exactly if an answer that fails or does not fit its slot comes before any other that aborts
the walk; it is the root as it was if some answer stops the walk, and nothing exactly if the root is
deleted. -/
theorem visit_rebuilds (v : Visitor σ ε) (root : Node) (s : σ) :
    (∀ path n children s t, rebuildBranches v path n n.tree.branches s = (.ok children, t) →
      n.HasChildren children (n.withChildren children)) ∧
    ∃ calls,
      visit v.noting root (s, []) =
        ((rebuildVisit v root s).1, (rebuildVisit v root s).2, calls) ∧
      rebuildVisit v.noting root (s, []) =
        ((visit v root s).1, (visit v root s).2, calls) ∧
      (∀ d, root = .document d →
        visitDocument v.noting d (s, []) =
          ((rebuildDocument v d s).1, (rebuildDocument v d s).2, calls) ∧
        rebuildDocument v.noting d (s, []) =
          ((visitDocument v d s).1, (visitDocument v d s).2, calls)) ∧
      (∀ e, (visit v root s).1 = .error e ↔
        calls.findSome? Call.demanded? = some (.failed e)) ∧
      ((∃ c ∈ calls, c.answer? = some (.ok .stop)) → (visit v root s).1 = .ok (some root)) ∧
      ((visit v root s).1 = .ok none ↔ Deleted [] calls) := by
  obtain ⟨calls, noted, tells, deleted⟩ := walkTree_tells v root.tree [] (s, []) root.grammatical
    (fun _ _ => rfl)
  have shows := noting_shows v
  have result : (walkTree v [] root.tree s).1 = (walkTree v.noting [] root.tree (s, [])).1 := by
    rw [walkTree_shown shows root.tree [] (s, [])]
  rw [List.nil_append] at noted
  rw [← result] at tells deleted
  have visited : visit v.noting root (s, []) = ((visit v root s).1, (visit v root s).2, calls) := by
    rw [visit_shown shows root (s, []), ← noted, ← visit_snd]
  refine ⟨fun path n children s t h => rebuilt_hasChildren h, calls, ?_, ?_, ?_, ?_, ?_, ?_⟩
  · rw [visited, visit_eq_rebuildVisit]
  · rw [← visit_eq_rebuildVisit, visited]
  · rintro d rfl
    have document : visitDocument v.noting d (s, []) =
        ((visitDocument v d s).1, (visitDocument v d s).2, calls) := by
      rw [visitDocument_shown shows d (s, []), ← noted, Node.tree, ← visitDocument_snd]
    exact ⟨by rw [document, visitDocument_eq_rebuildDocument],
      by rw [← visitDocument_eq_rebuildDocument, document]⟩
  · intro e
    rw [tells.first, visit]
    rcases walkTree v [] root.tree s with ⟨(_ | e') | (_ | m | _), t⟩ <;>
      simp [ending?, misfitAt?, Abort.result]
  · rintro ⟨c, hc, answer⟩
    have stopped := tells.only c hc .stop (by rw [Call.demanded?, answer]; rfl)
    rw [visit]
    rcases hr : walkTree v [] root.tree s with ⟨(_ | e') | (_ | m | _), t⟩ <;>
      simp [hr, ending?, misfitAt?] at stopped
    rfl
  · rw [← deleted, visit]
    rcases walkTree v [] root.tree s with ⟨(_ | e') | (_ | m | _), t⟩ <;> simp [Abort.result]

end GraphQL.Visit
