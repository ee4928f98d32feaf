import GraphQL.Proofs.Visit.Calls
import GraphQL.Proofs.Visit.Steps

/-!
The discipline of hook calls. Main statement: whatever the hooks answer, a walk calls them in
order: entered nodes are closed once each, properly nested; what an aborted walk leaves open it
abandons at its end; and every call is told the way to its node.
-/
namespace GraphQL.Visit

open Ast

variable {σ ε : Type}

theorem noting_shows (v : Visitor σ ε) : Shows v.noting v Prod.fst :=
  ⟨fun _ _ _ => rfl, fun _ _ _ => rfl, fun _ _ _ => rfl⟩

def Asked (answer : Except ε Action) (calls : List (Call ε)) : Prop :=
  ∃ before last, calls = before ++ [last] ∧ last.answer? = some answer

/-- The last call asked for the edit, or the edit is one of the children only. -/
def EditAsked (n : Node) (calls : List (Call ε)) : Edit → Prop
  | .keep => True
  | .replace m => m.kind = n.kind ∨ Asked (.ok (.replace m)) calls
  | .delete => Asked (.ok .delete) calls

/-- An edit that does not fit the slot was asked for. -/
theorem EditAsked.causes {n parent : Node} {slot : Slot} {calls : List (Call ε)} {edit : Edit}
    {e : VisitError ε} (h : EditAsked n calls edit) (taken : slot.takes.has n.kind = true)
    (problem : edit.problem? parent slot = some e) :
    ∃ before last, calls = before ++ [last] ∧ last.Causes (.failed e) := by
  cases edit with
  | keep => cases problem
  | delete =>
    obtain ⟨before, last, rfl, answer⟩ := h
    simp only [Edit.problem?, Option.ite_none_right_eq_some, Option.some.injEq] at problem
    exact ⟨before, last, rfl, _, answer, parent.kind, slot.key, by rw [← problem.2]⟩
  | replace m =>
    simp only [Edit.problem?, Option.ite_none_left_eq_some, Option.some.injEq] at problem
    rcases h with kind | ⟨before, last, rfl, answer⟩
    · exact absurd (kind ▸ taken) problem.1
    · exact ⟨before, last, rfl, _, answer, parent.kind, slot.key, by rw [← problem.2]⟩

/-- Why a walk was aborted, if it was. -/
def aborted? {α : Type} : Except (Abort ε) α → Option (Abort ε)
  | .ok _ => none
  | .error a => some a

/-- A node settles as the last answer about it asks. -/
theorem editAsked_of_settle {n : Node} {rebuilt : Option Node} {answer : Except ε Action}
    {edit : Edit} {calls : List (Call ε)} {last : Call ε} (h : settle rebuilt answer = .ok edit)
    (kind : (rebuilt.getD n).kind = n.kind) (asked : last.answer? = some answer) :
    EditAsked n (calls ++ [last]) edit := by
  have there : Asked answer (calls ++ [last]) := ⟨calls, last, rfl, asked⟩
  rcases answer with e | (_ | _ | _ | m | _) <;> cases h
  case ok.replace => exact .inr there
  case ok.delete => exact there
  all_goals
    cases rebuilt with
    | none => trivial
    | some m => exact .inl kind

theorem causes_of_settle {rebuilt : Option Node} {answer : Except ε Action} {a : Abort ε}
    {last : Call ε} (h : aborted? (settle rebuilt answer) = some a)
    (asked : last.answer? = some answer) : last.Causes a := by
  refine ⟨answer, asked, ?_⟩
  rcases answer with e | (_ | _ | _ | m | _) <;> cases h <;> rfl

/-- The run went over the positions and noted these calls. -/
structure Noted {α : Type} (ps : List Position) (notes : List (Call ε))
    (run : Except (Abort ε) α × σ × List (Call ε)) (calls : List (Call ε)) : Prop where
  noted : run.2.2 = notes ++ calls
  orderly : Orderly ps (aborted? run.1) calls

mutual

theorem walkTree_noted (v : Visitor σ ε) : ∀ (t : Tree) (path : List PathSegment)
    (s : σ × List (Call ε)), t.Grammatical →
    ∃ calls, Noted (positions path t) s.2 (walkTree v.noting path t s) calls ∧
      ∀ edit, (walkTree v.noting path t s).1 = .ok edit → EditAsked t.node calls edit
  | ⟨n, branches⟩, path, s, h => by
    rcases he : v.enter n path s.1 with ⟨answer, s₁⟩
    have entered : v.noting.enter n path s = (answer, s₁, s.2 ++ [.enter n path answer]) := by
      simp [Visitor.noting, he]
    rw [positions]
    by_cases hp : answer = .ok .proceed
    · subst hp
      obtain ⟨calls, noted, orderly⟩ := walkBranches_noted v branches path n
        (s₁, s.2 ++ [.enter n path (.ok .proceed)]) (fun b hb _ => h.takes hb)
        (fun b hb _ => h.item hb)
      rcases hb : walkBranches v.noting path n branches
        (s₁, s.2 ++ [.enter n path (.ok .proceed)]) with ⟨a | edits, s₂⟩
      · rw [hb] at noted orderly
        rw [walkTree_of_aborted entered hb]
        refine ⟨_, ⟨?_, orderly.abandoned⟩, by simp⟩
        have noted : s₂.2 = s.2 ++ [.enter n path (.ok .proceed)] ++ calls := noted
        simp [Visitor.noting, noted]
      · rw [hb] at noted orderly
        rcases hl : v.leave ((rebuild n branches edits).getD n) path s₂.1 with ⟨answer, s₃⟩
        have left : v.noting.leave ((rebuild n branches edits).getD n) path s₂ =
            (answer, s₃, s₂.2 ++ [.leave ((rebuild n branches edits).getD n) path answer]) := by
          simp [Visitor.noting, hl]
        have kind := kind_of_rebuild_getD n branches edits
        rw [walkTree_of_left entered hb left]
        refine ⟨_, ⟨?_, orderly.left kind fun a ha => causes_of_settle ha rfl⟩, fun edit hedit => ?_⟩
        · have noted : s₂.2 = s.2 ++ [.enter n path (.ok .proceed)] ++ calls := noted
          simp [noted]
        · rw [← List.cons_append]
          exact editAsked_of_settle hedit kind rfl
    · rw [walkTree_of_refused entered hp]
      refine ⟨[.enter n path answer], ⟨rfl, .refused hp fun a ha => causes_of_settle ha rfl⟩,
        fun edit hedit => ?_⟩
      have asked : EditAsked n ([] ++ [.enter n path answer]) edit :=
        editAsked_of_settle hedit rfl rfl
      exact asked

theorem walkBranches_noted (v : Visitor σ ε) : ∀ (branches : List Branch)
    (path : List PathSegment) (parent : Node) (s : σ × List (Call ε)),
    (∀ b ∈ branches, ∀ t ∈ b.items, b.slot.takes.has t.node.kind = true) →
    (∀ b ∈ branches, ∀ t ∈ b.items, t.Grammatical) →
    ∃ calls, Noted (branchesPositions path parent branches) s.2
      (walkBranches v.noting path parent branches s) calls
  | [], path, parent, s, _, _ => ⟨[], by simp [walkBranches], .nil⟩
  | b :: rest, path, parent, s, takes, grammatical => by
    rw [List.forall_mem_cons] at takes grammatical
    obtain ⟨calls, noted, orderly⟩ := walkBranch_noted v b path parent s takes.1 grammatical.1
    rw [branchesPositions]
    rcases hb : walkBranch v.noting path parent b s with ⟨a | edited, s₁⟩
    · rw [hb] at noted orderly
      simp only [walkBranches, hb]
      exact ⟨calls, noted, orderly.cut _⟩
    · rw [hb] at noted orderly
      obtain ⟨others, noted', orderly'⟩ := walkBranches_noted v rest path parent s₁ takes.2
        grammatical.2
      refine ⟨calls ++ others, ?_⟩
      rcases hs : walkBranches v.noting path parent rest s₁ with ⟨a | edits, s₂⟩
      all_goals
        rw [hs] at noted' orderly'
        simp only [walkBranches, hb, hs]
        refine ⟨?_, orderly.append orderly'⟩
        rw [noted', noted, List.append_assoc]

theorem walkBranch_noted (v : Visitor σ ε) : ∀ (b : Branch) (path : List PathSegment)
    (parent : Node) (s : σ × List (Call ε)),
    (∀ t ∈ b.items, b.slot.takes.has t.node.kind = true) → (∀ t ∈ b.items, t.Grammatical) →
    ∃ calls, Noted (branchPositions path parent b) s.2 (walkBranch v.noting path parent b s) calls
  | ⟨slot, items⟩, path, parent, s, takes, grammatical => by
    rw [walkBranch, branchPositions]
    exact walkItems_noted v items path parent slot 0 s takes grammatical

theorem walkItems_noted (v : Visitor σ ε) : ∀ (items : List Tree) (path : List PathSegment)
    (parent : Node) (slot : Slot) (i : Nat) (s : σ × List (Call ε)),
    (∀ t ∈ items, slot.takes.has t.node.kind = true) → (∀ t ∈ items, t.Grammatical) →
    ∃ calls, Noted (itemsPositions path parent slot i items) s.2
      (walkItems v.noting path parent slot i items s) calls
  | [], path, parent, slot, i, s, _, _ => ⟨[], by simp [walkItems], .nil⟩
  | t :: rest, path, parent, slot, i, s, takes, grammatical => by
    rw [List.forall_mem_cons] at takes grammatical
    obtain ⟨calls, ⟨noted, orderly⟩, asked⟩ := walkTree_noted v t
      (path ++ [⟨parent, slot.key, itemIndex slot i⟩]) s grammatical.1
    rw [itemsPositions]
    rcases ht : walkTree v.noting (path ++ [⟨parent, slot.key, itemIndex slot i⟩]) t s with
      ⟨a | edit, s₁⟩
    · rw [ht] at noted orderly
      simp only [walkItems, ht]
      exact ⟨calls, noted, orderly.cut _⟩
    rw [ht] at noted orderly
    rcases hp : edit.problem? (ε := ε) parent slot with - | e
    · obtain ⟨others, noted', orderly'⟩ := walkItems_noted v rest path parent slot (i + 1) s₁
        takes.2 grammatical.2
      refine ⟨calls ++ others, ?_⟩
      rcases hs : walkItems v.noting path parent slot (i + 1) rest s₁ with ⟨a | edited, s₂⟩
      all_goals
        rw [hs] at noted' orderly'
        simp only [walkItems, ht, hp, hs]
        refine ⟨?_, orderly.append orderly'⟩
        rw [noted', noted, List.append_assoc]
    · obtain ⟨before, last, rfl, cause⟩ := (asked edit (by rw [ht])).causes takes.1 hp
      simp only [walkItems, ht, hp]
      exact ⟨before ++ [last], noted, orderly.stopped cause _⟩

end

/-- The calls of hooks over a whole tree. -/
structure Disciplined (root : Tree) (abort : Option (Abort ε)) (calls : List (Call ε)) : Prop where
  nested : Nested calls
  /-- What is entered is closed by one later call, and all entered in between is closed before. -/
  closed : ∀ before n path after, calls = before ++ .enter n path (.ok .proceed) :: after →
    ∃ inner close rest, after = inner ++ close :: rest ∧ Nested inner ∧ close.Closes n path ∧
      ∀ c ∈ before ++ inner ++ rest, c.isEnter = false → c.path ≠ path
  /-- What is not gone below is not closed. -/
  refused : ∀ n path answer, .enter n path answer ∈ calls → answer ≠ .ok .proceed →
    ∀ c ∈ calls, c.isEnter = false → c.path ≠ path
  /-- Nodes are abandoned only at the end of a walk that a call has aborted. -/
  ending : Ending abort calls
  /-- What is still open then is abandoned, innermost first. -/
  unwound : ∀ before after, calls = before ++ after → (∀ c ∈ after, c.isAbandon = true) →
    after.map Call.position = stillOpen before
  /-- The path of a call leads to its node. -/
  told : ∀ c ∈ calls, ∃ u, Leads root c.path u ∧ c.Concerns u.node
  /-- Nodes are entered in grammar order, each at most once. -/
  entered : (entered calls).Sublist (positions [] root)
  distinct : (paths (Visit.entered calls)).Nodup
  /-- All nodes are entered if no hook skips, edits or aborts. -/
  all : (∀ c ∈ calls, c.GoesOn) → abort = none ∧ Visit.entered calls = positions [] root

namespace Orderly

variable {root : Tree} {abort : Option (Abort ε)} {calls : List (Call ε)}

theorem distinct (h : Orderly (positions [] root) abort calls) (grammatical : root.Grammatical) :
    ((calls.filter Call.isEnter).map Call.path).Nodup := by
  have sub : (paths (Visit.entered calls)).Sublist (paths (positions [] root)) :=
    h.entered.map Prod.fst
  have nodup := (positions_nodup root [] grammatical).sublist sub
  rwa [paths, Visit.entered, List.map_map] at nodup

theorem closed_distinct (h : Orderly (positions [] root) abort calls)
    (grammatical : root.Grammatical) :
    ((calls.filter fun c => !c.isEnter).map Call.path).Nodup := by
  have opens : ∀ c : Call ε, c.opens = true → c.isEnter = true := by
    intro c hc
    cases c with
    | enter => rfl
    | _ => cases hc
  have sub : (calls.filter Call.opens).Sublist (calls.filter Call.isEnter) :=
    List.monotone_filter_right calls opens
  have nodup := (h.distinct grammatical).sublist (sub.map Call.path)
  exact h.nested.opened_perm.nodup_iff.mp nodup

theorem leads_of_enter (h : Orderly (positions [] root) abort calls) {n : Node}
    {path : List PathSegment} {answer : Except ε Action} (hc : .enter n path answer ∈ calls) :
    ∃ u, Leads root path u ∧ u.node = n := by
  have mem : (path, n) ∈ Visit.entered calls :=
    List.mem_map.mpr ⟨_, List.mem_filter.mpr ⟨hc, rfl⟩, rfl⟩
  obtain ⟨way, u, leads, hp⟩ := (mem_positions root [] _).mp (h.entered.subset mem)
  rw [List.nil_append, Prod.mk.injEq] at hp
  obtain ⟨rfl, rfl⟩ := hp
  exact ⟨u, leads, rfl⟩

theorem disciplined (h : Orderly (positions [] root) abort calls)
    (grammatical : root.Grammatical) : Disciplined root abort calls where
  nested := h.nested
  closed before n path after split := by
    obtain ⟨inner, close', rest, rfl, nested, closes⟩ := h.nested.exists_close split
    refine ⟨inner, close', rest, rfl, nested, closes, ?_⟩
    intro c hc close hpath
    have here : calls = (before ++ .enter n path (.ok .proceed) :: inner) ++ close' :: rest := by
      rw [split, List.append_assoc, List.cons_append]
    have nodup := h.closed_distinct grammatical
    rw [here, List.filter_append, List.filter_cons_of_pos (by simp [closes.not_enter]),
      List.map_append, List.map_cons, List.nodup_middle, List.nodup_cons, ← List.map_append,
      ← List.filter_append] at nodup
    refine nodup.1 (List.mem_map.mpr ⟨c, List.mem_filter.mpr ⟨?_, by simp [close]⟩, ?_⟩)
    · grind only [= List.mem_append, = List.mem_cons]
    · rw [hpath, closes.path_eq]
  refused n path answer hn hr c hc close hpath := by
    obtain ⟨m, hm, -⟩ := h.nested.exists_open hc close
    rw [hpath] at hm
    have same : Call.enter n path answer = .enter m path (.ok .proceed) :=
      List.inj_on_of_nodup_map (h.distinct grammatical) (List.mem_filter.mpr ⟨hn, rfl⟩)
        (List.mem_filter.mpr ⟨hm, rfl⟩) rfl
    rw [Call.enter.injEq] at same
    exact hr same.2.2
  ending := h.ending
  unwound before after split abandons := by
    rw [stillOpen, h.nested.abandoned [] split abandons, List.append_nil]
  told c hc := by
    cases henter : c.isEnter with
    | true =>
      cases c with
      | enter n path answer =>
        obtain ⟨u, leads, hu⟩ := h.leads_of_enter hc
        exact ⟨u, leads, hu.symm⟩
      | _ => cases henter
    | false =>
      obtain ⟨n, hn, closes⟩ := h.nested.exists_open hc henter
      obtain ⟨u, leads, rfl⟩ := h.leads_of_enter hn
      exact ⟨u, leads, closes.concerns⟩
  entered := h.entered
  distinct := by
    have := h.distinct grammatical
    rwa [paths, Visit.entered, List.map_map]
  all := h.all

end Orderly

/-- Whatever the hooks answer, a visit of a node makes disciplined calls; so do a visit of a
document and a walk, which call the hooks alike. -/
theorem visit_disciplined (v : Visitor σ ε) (root : Node) (s : σ) :
    ∃ calls, Disciplined root.tree (aborted? (walkTree v [] root.tree s).1) calls ∧
      visit v.noting root (s, []) = ((visit v root s).1, (visit v root s).2, calls) ∧
      walk v.noting root (s, []) = ((walk v root s).1, (walk v root s).2, calls) ∧
      ∀ d, root = .document d → visitDocument v.noting d (s, []) =
        ((visitDocument v d s).1, (visitDocument v d s).2, calls) := by
  obtain ⟨calls, ⟨noted, orderly⟩, -⟩ := walkTree_noted v root.tree [] (s, []) root.grammatical
  have shows := noting_shows v
  rw [List.nil_append] at noted
  refine ⟨calls, ?_, ?_, ?_, ?_⟩
  · rw [walkTree_shown shows root.tree [] (s, [])]
    exact orderly.disciplined root.grammatical
  · rw [visit_shown shows root (s, []), ← noted, ← visit_snd]
  · rw [walk_shown shows root (s, []), ← noted, ← walk_snd]
  · rintro d rfl
    rw [visitDocument_shown shows d (s, []), ← noted, Node.tree, ← visitDocument_snd]

end GraphQL.Visit
