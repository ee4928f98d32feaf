import GraphQL.Proofs.Visit.Positions

/-!
What one step of a walk does, whatever the hooks answer. Main statements: a visitor that only
keeps more state walks alike, and what the hooks keep while the walk goes down and comes up again
holds at its end.
-/
namespace GraphQL.Visit

open Ast

variable {σ τ ε : Type}

/-- What a node comes to by the answer of the last hook that it was shown to, if its children have
rebuilt it so. -/
def settle (rebuilt : Option Node) : Except ε Action → Except (Abort ε) Edit
  | .error e => .error (.failed (.callback e))
  | .ok .stop => .error .stop
  | .ok (.replace m) => .ok (.replace m)
  | .ok .delete => .ok .delete
  | .ok .proceed | .ok .skip => .ok (rebuilt.elim .keep .replace)

section Steps

variable {v : Visitor σ ε} {n : Node} {branches : List Branch} {path : List PathSegment}
variable {s t u : σ} {answer : Except ε Action}

theorem walkTree_of_refused (entered : v.enter n path s = (answer, t))
    (refused : answer ≠ .ok .proceed) :
    walkTree v path ⟨n, branches⟩ s = (settle none answer, t) := by
  rw [walkTree, entered]
  rcases answer with e | (_ | _ | _ | _ | _)
  case ok.proceed => exact absurd rfl refused
  all_goals rfl

theorem walkTree_of_aborted {a : Abort ε} (entered : v.enter n path s = (.ok .proceed, t))
    (below : walkBranches v path n branches t = (.error a, u)) :
    walkTree v path ⟨n, branches⟩ s = (.error a, v.abandon n path u) := by
  rw [walkTree, entered]
  dsimp only
  rw [below]

theorem walkTree_of_left {edits : List (Option (List Node))} {w : σ}
    (entered : v.enter n path s = (.ok .proceed, t))
    (below : walkBranches v path n branches t = (.ok edits, u))
    (left : v.leave ((rebuild n branches edits).getD n) path u = (answer, w)) :
    walkTree v path ⟨n, branches⟩ s = (settle (rebuild n branches edits) answer, w) := by
  rw [walkTree, entered]
  dsimp only
  rw [below]
  dsimp only
  rw [left]
  rcases answer with e | (_ | _ | _ | _ | _) <;> cases rebuild n branches edits <;> rfl

end Steps

theorem kind_of_rebuild_getD (n : Node) (branches : List Branch)
    (edits : List (Option (List Node))) : ((rebuild n branches edits).getD n).kind = n.kind := by
  cases h : rebuild n branches edits with
  | none => rfl
  | some m =>
    unfold rebuild at h
    split at h
    · cases h
    · exact Node.kind_of_assemble h

/-- The first visitor does what the second does to the part of its state that `f` shows. -/
structure Shows (v : Visitor τ ε) (w : Visitor σ ε) (f : τ → σ) : Prop where
  enter : ∀ n path s, w.enter n path (f s) = ((v.enter n path s).1, f (v.enter n path s).2)
  leave : ∀ n path s, w.leave n path (f s) = ((v.leave n path s).1, f (v.leave n path s).2)
  abandon : ∀ n path s, w.abandon n path (f s) = f (v.abandon n path s)

section Shows

variable {v : Visitor τ ε} {w : Visitor σ ε} {f : τ → σ}

mutual

theorem walkTree_shown (h : Shows v w f) : ∀ (t : Tree) (path : List PathSegment) (s : τ),
    walkTree w path t (f s) = ((walkTree v path t s).1, f (walkTree v path t s).2)
  | ⟨n, branches⟩, path, s => by
    rcases he : v.enter n path s with ⟨answer, s₁⟩
    have hw := h.enter n path s
    rw [he] at hw
    by_cases hp : answer = .ok .proceed
    · subst hp
      have below := walkBranches_shown h branches path n s₁
      rcases hb : walkBranches v path n branches s₁ with ⟨a | edits, s₂⟩
      · rw [hb] at below
        rw [walkTree_of_aborted he hb, walkTree_of_aborted hw below, h.abandon]
      · rw [hb] at below
        rw [walkTree_of_left he hb rfl, walkTree_of_left hw below (h.leave _ path s₂)]
    · rw [walkTree_of_refused he hp, walkTree_of_refused hw hp]

theorem walkBranches_shown (h : Shows v w f) : ∀ (branches : List Branch)
    (path : List PathSegment) (parent : Node) (s : τ),
    walkBranches w path parent branches (f s) =
      ((walkBranches v path parent branches s).1, f (walkBranches v path parent branches s).2)
  | [], path, parent, s => by simp [walkBranches]
  | b :: rest, path, parent, s => by
    have first := walkBranch_shown h b path parent s
    rcases hb : walkBranch v path parent b s with ⟨a | edited, s₁⟩
    · rw [hb] at first
      simp only [walkBranches, hb, first]
    · rw [hb] at first
      have others := walkBranches_shown h rest path parent s₁
      rcases hs : walkBranches v path parent rest s₁ with ⟨a | edits, s₂⟩
      all_goals
        rw [hs] at others
        simp only [walkBranches, hb, first, hs, others]

theorem walkBranch_shown (h : Shows v w f) : ∀ (b : Branch) (path : List PathSegment)
    (parent : Node) (s : τ),
    walkBranch w path parent b (f s) =
      ((walkBranch v path parent b s).1, f (walkBranch v path parent b s).2)
  | ⟨slot, items⟩, path, parent, s => by
    rw [walkBranch, walkBranch]
    exact walkItems_shown h items path parent slot 0 s

theorem walkItems_shown (h : Shows v w f) : ∀ (items : List Tree) (path : List PathSegment)
    (parent : Node) (slot : Slot) (i : Nat) (s : τ),
    walkItems w path parent slot i items (f s) =
      ((walkItems v path parent slot i items s).1, f (walkItems v path parent slot i items s).2)
  | [], path, parent, slot, i, s => by simp [walkItems]
  | t :: rest, path, parent, slot, i, s => by
    have first := walkTree_shown h t (path ++ [⟨parent, slot.key, itemIndex slot i⟩]) s
    rcases ht : walkTree v (path ++ [⟨parent, slot.key, itemIndex slot i⟩]) t s with
      ⟨a | edit, s₁⟩
    · rw [ht] at first
      simp only [walkItems, ht, first]
    · rw [ht] at first
      rcases hp : edit.problem? (ε := ε) parent slot with - | e
      · have others := walkItems_shown h rest path parent slot (i + 1) s₁
        rcases hs : walkItems v path parent slot (i + 1) rest s₁ with ⟨a | edited, s₂⟩
        all_goals
          rw [hs] at others
          simp only [walkItems, ht, first, hp, hs, others]
      · simp only [walkItems, ht, first, hp]

end

end Shows

section Runs

variable {v : Visitor τ ε} {w : Visitor σ ε} {f : τ → σ}

theorem visit_snd (v : Visitor τ ε) (root : Node) (s : τ) :
    (visit v root s).2 = (walkTree v [] root.tree s).2 := by
  rw [visit]
  rcases walkTree v [] root.tree s with ⟨a | (_ | m | _), s'⟩ <;> rfl

theorem walk_snd (v : Visitor τ ε) (root : Node) (s : τ) :
    (walk v root s).2 = (walkTree v [] root.tree s).2 := by
  rw [walk]
  rcases walkTree v [] root.tree s with ⟨a | edit, s'⟩ <;> rfl

theorem visitDocument_snd (v : Visitor τ ε) (d : Document) (s : τ) :
    (visitDocument v d s).2 = (walkTree v [] d.tree s).2 := by
  rw [visitDocument]
  rcases walkTree v [] d.tree s with ⟨a | (_ | m | _), s'⟩
  case ok.replace => cases m <;> rfl
  all_goals rfl

theorem visit_shown (h : Shows v w f) (root : Node) (s : τ) :
    visit w root (f s) = ((visit v root s).1, f (visit v root s).2) := by
  rw [visit, visit, walkTree_shown h]
  rcases walkTree v [] root.tree s with ⟨a | (_ | m | _), s'⟩ <;> rfl

theorem walk_shown (h : Shows v w f) (root : Node) (s : τ) :
    walk w root (f s) = ((walk v root s).1, f (walk v root s).2) := by
  rw [walk, walk, walkTree_shown h]
  rcases walkTree v [] root.tree s with ⟨a | edit, s'⟩ <;> rfl

theorem visitDocument_shown (h : Shows v w f) (d : Document) (s : τ) :
    visitDocument w d (f s) = ((visitDocument v d s).1, f (visitDocument v d s).2) := by
  rw [visitDocument, visitDocument, walkTree_shown h]
  rcases walkTree v [] d.tree s with ⟨a | (_ | m | _), s'⟩
  case ok.replace => cases m <;> rfl
  all_goals rfl

end Runs

def ancestors (path : List PathSegment) : List Node := path.map PathSegment.parent

@[simp]
theorem ancestors_append_singleton (path : List PathSegment) (segment : PathSegment) :
    ancestors (path ++ [segment]) = ancestors path ++ [segment.parent] := by
  simp [ancestors]

/-- The hooks keep what is said of the state below a list of ancestors, wherever the walk of the
root comes: going below a node adds it to them, and closing it takes it off. -/
structure Keeps (v : Visitor σ ε) (root : Tree) (Inv : List Node → σ → Prop) : Prop where
  enter : ∀ ⦃path t s⦄, Leads root path t → Inv (ancestors path) s →
    (v.enter t.node path s).1 = .ok .proceed →
    Inv (ancestors path ++ [t.node]) (v.enter t.node path s).2
  refuse : ∀ ⦃path t s⦄, Leads root path t → Inv (ancestors path) s →
    (v.enter t.node path s).1 ≠ .ok .proceed → Inv (ancestors path) (v.enter t.node path s).2
  leave : ∀ ⦃path t s⦄ (m : Node), Leads root path t → m.kind = t.node.kind →
    Inv (ancestors path ++ [t.node]) s → Inv (ancestors path) (v.leave m path s).2
  abandon : ∀ ⦃path t s⦄, Leads root path t → Inv (ancestors path ++ [t.node]) s →
    Inv (ancestors path) (v.abandon t.node path s)

section Keeps

variable {v : Visitor σ ε} {root : Tree} {Inv : List Node → σ → Prop}

mutual

theorem walkTree_keeps (h : Keeps v root Inv) : ∀ (t : Tree) (path : List PathSegment) (s : σ),
    Leads root path t → Inv (ancestors path) s → Inv (ancestors path) (walkTree v path t s).2
  | ⟨n, branches⟩, path, s, leads, inv => by
    rcases he : v.enter n path s with ⟨answer, s₁⟩
    by_cases hp : answer = .ok .proceed
    · subst hp
      have inside : Inv (ancestors path ++ [n]) s₁ := by
        have := h.enter leads inv (by rw [Ast.Tree.node, he])
        rwa [Ast.Tree.node, he] at this
      have below := walkBranches_keeps h branches path n s₁ (fun b hb i u hu => leads.step hb hu)
        inside
      rcases hb : walkBranches v path n branches s₁ with ⟨a | edits, s₂⟩
      · rw [hb] at below
        rw [walkTree_of_aborted he hb]
        exact h.abandon leads below
      · rw [hb] at below
        rw [walkTree_of_left he hb rfl]
        exact h.leave _ leads (kind_of_rebuild_getD n branches edits) below
    · rw [walkTree_of_refused he hp]
      have := h.refuse leads inv (by rwa [Ast.Tree.node, he])
      rwa [Ast.Tree.node, he] at this

theorem walkBranches_keeps (h : Keeps v root Inv) : ∀ (branches : List Branch)
    (path : List PathSegment) (parent : Node) (s : σ),
    (∀ b ∈ branches, ∀ i u, b.items[i]? = some u →
      Leads root (path ++ [⟨parent, b.slot.key, itemIndex b.slot i⟩]) u) →
    Inv (ancestors path ++ [parent]) s →
    Inv (ancestors path ++ [parent]) (walkBranches v path parent branches s).2
  | [], path, parent, s, _, inv => by rwa [walkBranches]
  | b :: rest, path, parent, s, leads, inv => by
    rw [List.forall_mem_cons] at leads
    have first := walkBranch_keeps h b path parent s leads.1 inv
    rcases hb : walkBranch v path parent b s with ⟨a | edited, s₁⟩
    · rw [hb] at first
      simpa only [walkBranches, hb] using first
    · rw [hb] at first
      have others := walkBranches_keeps h rest path parent s₁ leads.2 first
      rcases hs : walkBranches v path parent rest s₁ with ⟨a | edits, s₂⟩
      all_goals
        rw [hs] at others
        simpa only [walkBranches, hb, hs] using others

theorem walkBranch_keeps (h : Keeps v root Inv) : ∀ (b : Branch) (path : List PathSegment)
    (parent : Node) (s : σ),
    (∀ i u, b.items[i]? = some u →
      Leads root (path ++ [⟨parent, b.slot.key, itemIndex b.slot i⟩]) u) →
    Inv (ancestors path ++ [parent]) s →
    Inv (ancestors path ++ [parent]) (walkBranch v path parent b s).2
  | ⟨slot, items⟩, path, parent, s, leads, inv => by
    rw [walkBranch]
    refine walkItems_keeps h items path parent slot 0 s (fun j u hu => ?_) inv
    rw [Nat.zero_add]
    exact leads j u hu

theorem walkItems_keeps (h : Keeps v root Inv) : ∀ (items : List Tree) (path : List PathSegment)
    (parent : Node) (slot : Slot) (i : Nat) (s : σ),
    (∀ j u, items[j]? = some u →
      Leads root (path ++ [⟨parent, slot.key, itemIndex slot (i + j)⟩]) u) →
    Inv (ancestors path ++ [parent]) s →
    Inv (ancestors path ++ [parent]) (walkItems v path parent slot i items s).2
  | [], path, parent, slot, i, s, _, inv => by rwa [walkItems]
  | t :: rest, path, parent, slot, i, s, leads, inv => by
    have first := walkTree_keeps h t (path ++ [⟨parent, slot.key, itemIndex slot i⟩]) s
      (leads 0 t rfl) (by rwa [ancestors_append_singleton])
    rw [ancestors_append_singleton] at first
    rcases ht : walkTree v (path ++ [⟨parent, slot.key, itemIndex slot i⟩]) t s with
      ⟨a | edit, s₁⟩
    · rw [ht] at first
      simpa only [walkItems, ht] using first
    rw [ht] at first
    rcases hp : edit.problem? (ε := ε) parent slot with - | e
    · have others := walkItems_keeps h rest path parent slot (i + 1) s₁
        (fun j u hu => by
          have := leads (j + 1) u hu
          rwa [Nat.add_comm j, ← Nat.add_assoc] at this)
        first
      rcases hs : walkItems v path parent slot (i + 1) rest s₁ with ⟨a | edited, s₂⟩
      all_goals
        rw [hs] at others
        simpa only [walkItems, ht, hp, hs] using others
    · simpa only [walkItems, ht, hp] using first

end

end Keeps

end GraphQL.Visit
