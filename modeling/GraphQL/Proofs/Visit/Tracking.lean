import GraphQL.Proofs.Visit.Calls
import GraphQL.Proofs.Visit.Steps
import GraphQL.Visit.TypeContext

/-!
The type context of a walk. Main statement: whatever the hooks answer, each of them sees the context
that the ancestors of its node and the node itself set up from nothing, and nothing is left of it
when the walk is over.
-/
namespace GraphQL

open Ast Visit

namespace Ast.Kind

theorem mem_all (k : Kind) : k ∈ all := by cases k <;> decide

def inArgument : Kind → Bool
  | .name | .variable | .intValue | .floatValue | .stringValue | .booleanValue | .nullValue
  | .enumValue | .listValue | .objectValue | .objectField => true
  | _ => false

def inDirective (k : Kind) : Bool := k = .argument || k.inArgument

theorem inArgument_of_slot {k l : Kind} {slot : Slot} (hs : slot ∈ k.slots)
    (ht : slot.takes.has l = true) (hk : k = .argument ∨ k.inArgument = true) :
    l.inArgument = true := by
  have all : ∀ k ∈ all, k = .argument ∨ k.inArgument = true → ∀ slot ∈ k.slots, ∀ l ∈ Kind.all,
      slot.takes.has l = true → l.inArgument = true := by
    decide +kernel
  exact all k k.mem_all hk slot hs l l.mem_all ht

theorem inDirective_of_slot {k l : Kind} {slot : Slot} (hs : slot ∈ k.slots)
    (ht : slot.takes.has l = true) (hk : k = .directive ∨ k.inDirective = true) :
    l.inDirective = true := by
  have all : ∀ k ∈ all, k = .directive ∨ k.inDirective = true → ∀ slot ∈ k.slots, ∀ l ∈ Kind.all,
      slot.takes.has l = true → l.inDirective = true := by
    decide +kernel
  exact all k k.mem_all hk slot hs l l.mem_all ht

theorem slots_enumValue : enumValue.slots = [] := rfl

end Ast.Kind

namespace Visit

namespace TypeContext

/-- What leaving a node of a kind does, which is all that leaving looks at. -/
def leaveKind (c : TypeContext) : Kind → TypeContext
  | .selectionSet => { c with parents := c.parents.tail }
  | .field => { c.popType with fields := c.fields.tail }
  | .directive => { c with directive := none }
  | .operationDefinition | .inlineFragment | .fragmentDefinition => c.popType
  | .variableDefinition => { c with inputTypes := c.inputTypes.tail }
  | .argument => { c.popInput with argument := none }
  | .listValue | .objectField => c.popInput
  | .enumValue => { c with enumValue := none }
  | _ => c

theorem leave_eq_leaveKind (c : TypeContext) (n : Node) : c.leave n = c.leaveKind n.kind := by
  cases n with
  | definition d => cases d <;> rfl
  | selection s => cases s <;> rfl
  | value v => cases v <;> rfl
  | type t => cases t <;> rfl
  | _ => rfl

/-- The directive, argument and enum value are set only where a node of the kind stands below
one. -/
structure Ready (c : TypeContext) (k : Kind) : Prop where
  directive : c.directive.isSome = true → k.inDirective = true
  argument : c.argument.isSome = true → k.inArgument = true
  enumValue : c.enumValue = none

theorem ready_empty (k : Kind) : ({} : TypeContext).Ready k := ⟨by simp, by simp, rfl⟩

namespace Ready

variable {c : TypeContext} {n : Node} {k : Kind}

theorem directive_eq_none (h : c.Ready k) (hk : k.inDirective = false) : c.directive = none := by
  have := h.directive
  rw [hk] at this
  simpa using this

theorem argument_eq_none (h : c.Ready k) (hk : k.inArgument = false) : c.argument = none := by
  have := h.argument
  rw [hk] at this
  simpa using this

/-- Leaving a node undoes what entering it did, also if it was rebuilt. -/
theorem leave_enter (h : c.Ready n.kind) (schema : Schema) {m : Node} (kind : m.kind = n.kind) :
    (c.enter schema n).leave m = c := by
  rw [leave_eq_leaveKind, kind, ← leave_eq_leaveKind]
  have directive := h.directive_eq_none
  have argument := h.argument_eq_none
  have enumValue := h.enumValue
  obtain ⟨types, parents, inputTypes, fields, defaults, set, current, _⟩ := c
  subst enumValue
  cases n with
  | directive d =>
    have none : set = none := directive rfl
    rw [none]
    rfl
  | argument a =>
    have none : current = none := argument rfl
    rw [none]
    rfl
  | definition d => cases d <;> rfl
  | selection s => cases s <;> rfl
  | value v => cases v <;> rfl
  | _ => rfl

/-- Below a node the context is ready for what its slots take. -/
theorem child (h : c.Ready n.kind) (schema : Schema) {slot : Slot} (hs : slot ∈ n.kind.slots)
    (ht : slot.takes.has k = true) : (c.enter schema n).Ready k := by
  have directive : (c.enter schema n).directive.isSome = true →
      n.kind = .directive ∨ n.kind.inDirective = true := by
    have := h.directive
    unfold TypeContext.enter
    split
    case h_3 => exact fun _ => .inl rfl
    all_goals exact fun hd => .inr (this hd)
  have argument : (c.enter schema n).argument.isSome = true →
      n.kind = .argument ∨ n.kind.inArgument = true := by
    have := h.argument
    unfold TypeContext.enter
    split
    case h_8 => exact fun _ => .inl rfl
    all_goals exact fun hd => .inr (this hd)
  refine ⟨fun hd => Kind.inDirective_of_slot hs ht (directive hd),
    fun ha => Kind.inArgument_of_slot hs ht (argument ha), ?_⟩
  have enumValue := h.enumValue
  revert hs
  unfold TypeContext.enter
  split
  case h_11 => exact fun hs => absurd hs (by simp [Node.kind, Value.kind, Kind.slots_enumValue])
  all_goals exact fun _ => enumValue

theorem leads {t u : Tree} {way : List PathSegment} (leads : Leads t way u)
    (grammatical : t.Grammatical) {c : TypeContext} (h : c.Ready t.node.kind) (schema : Schema) :
    ((ancestors way).foldl (fun c n => c.enter schema n) c).Ready u.node.kind := by
  induction leads generalizing c with
  | here => exact h
  | down hb hi _ ih =>
    have item := List.mem_of_getElem? hi
    exact ih (grammatical.item hb item)
      (h.child schema (grammatical.mem_slots hb) (grammatical.takes hb item))

end Ready

end TypeContext

/-- The context that the nodes set up from nothing, the first outermost. -/
def contextAt (schema : Schema) (nodes : List Node) : TypeContext :=
  nodes.foldl (fun c n => c.enter schema n) {}

theorem contextAt_append_singleton (schema : Schema) (nodes : List Node) (n : Node) :
    contextAt schema (nodes ++ [n]) = (contextAt schema nodes).enter schema n := by
  simp [contextAt]

theorem ready_contextAt {schema : Schema} {root t : Tree} {path : List PathSegment}
    (leads : Leads root path t) (grammatical : root.Grammatical) :
    (contextAt schema (ancestors path)).Ready t.node.kind :=
  TypeContext.Ready.leads leads grammatical (TypeContext.ready_empty _) schema

variable {σ ε : Type}

/-- The visitor that also notes every call of its hooks and the context that it is made in. -/
def TypedVisitor.noting (v : TypedVisitor σ ε) :
    TypedVisitor (σ × List (TypeContext × Call ε)) ε where
  enter c n path s :=
    let (answer, t) := v.enter c n path s.1
    (answer, t, s.2 ++ [(c, .enter n path answer)])
  leave c n path s :=
    let (answer, t) := v.leave c n path s.1
    (answer, t, s.2 ++ [(c, .leave n path answer)])
  abandon c n path s := (v.abandon c n path s.1, s.2 ++ [(c, .abandon n path)])

/-- The call is made in the context that the ancestors of its node and the node itself set up. -/
def Tracked (schema : Schema) (root : Tree) (c : TypeContext) (call : Call ε) : Prop :=
  ∃ u, Leads root call.path u ∧ call.Concerns u.node ∧
    c = contextAt schema (ancestors call.path ++ [u.node])

theorem typedNoting_shows (schema : Schema) (v : TypedVisitor σ ε) :
    Shows (v.noting.toVisitor schema) (v.toVisitor schema) fun s => (s.1, s.2.1) := by
  refine ⟨fun n path s => ?_, fun n path s => rfl, fun n path s => rfl⟩
  rcases h : v.enter (s.1.enter schema n) n path s.2.1 with ⟨answer, t⟩
  simp only [TypedVisitor.toVisitor, TypedVisitor.noting, h]
  cases isProceed answer <;> rfl

/-- Below its ancestors a walk is in their context, and all calls so far are tracked. -/
structure OnTrack (schema : Schema) (root : Tree) (nodes : List Node)
    (s : TypeContext × σ × List (TypeContext × Call ε)) : Prop where
  context : s.1 = contextAt schema nodes
  calls : ∀ call ∈ s.2.2, Tracked schema root call.1 call.2

theorem isProceed_iff (answer : Except ε Action) :
    isProceed answer = true ↔ answer = .ok .proceed := by
  rcases answer with e | (_ | _ | _ | _ | _) <;> simp [isProceed]

namespace OnTrack

variable {schema : Schema} {root : Tree} {nodes : List Node}
variable {s : TypeContext × σ × List (TypeContext × Call ε)}

theorem note (h : OnTrack schema root nodes s) {others : List Node} {c d : TypeContext} {t : σ}
    {call : Call ε} (context : d = contextAt schema others) (tracked : Tracked schema root c call) :
    OnTrack schema root others (d, t, s.2.2 ++ [(c, call)]) := by
  refine ⟨context, fun other hother => ?_⟩
  rcases List.mem_append.mp hother with hother | hother
  · exact h.calls other hother
  · rw [List.mem_singleton.mp hother]
    exact tracked

end OnTrack

/-- Entering and closing a node keep the walk on track. -/
theorem typedNoting_keeps (schema : Schema) (v : TypedVisitor σ ε) {root : Tree}
    (grammatical : root.Grammatical) :
    Keeps (v.noting.toVisitor schema) root (OnTrack schema root) := by
  have inside : ∀ {path : List PathSegment} {t : Tree}
      {s : TypeContext × σ × List (TypeContext × Call ε)}, OnTrack schema root (ancestors path) s →
      s.1.enter schema t.node = contextAt schema (ancestors path ++ [t.node]) := by
    intro path t s h
    rw [h.context, contextAt_append_singleton]
  -- leaving a node, possibly rebuilt, leads back to the context of its ancestors
  have back : ∀ {path : List PathSegment} {t : Tree} {c : TypeContext} {m : Node},
      Leads root path t → c = contextAt schema (ancestors path ++ [t.node]) →
      m.kind = t.node.kind → c.leave m = contextAt schema (ancestors path) := by
    intro path t c m leads context kind
    rw [context, contextAt_append_singleton]
    exact (ready_contextAt leads grammatical).leave_enter schema kind
  constructor
  · intro path t s leads h proceeds
    rcases he : v.enter (s.1.enter schema t.node) t.node path s.2.1 with ⟨answer, u⟩
    simp only [TypedVisitor.toVisitor, TypedVisitor.noting, he] at proceeds ⊢
    rw [if_pos ((isProceed_iff answer).mpr proceeds)]
    exact h.note (inside h) ⟨t, leads, rfl, inside h⟩
  · intro path t s leads h refuses
    rcases he : v.enter (s.1.enter schema t.node) t.node path s.2.1 with ⟨answer, u⟩
    simp only [TypedVisitor.toVisitor, TypedVisitor.noting, he] at refuses ⊢
    rw [if_neg fun hp => refuses ((isProceed_iff answer).mp hp)]
    exact h.note (back leads (inside h) rfl) ⟨t, leads, rfl, inside h⟩
  · intro path t s m leads kind h
    exact h.note (back leads h.context kind) ⟨t, leads, kind, h.context⟩
  · intro path t s leads h
    exact h.note (back leads h.context rfl) ⟨t, leads, rfl, h.context⟩

/-- The run ends with nothing left of its context; so does the one that notes these calls. -/
structure EndsBalanced {α : Type} (run : Except (VisitError ε) α × TypeContext × σ)
    (noting : Except (VisitError ε) α × TypeContext × σ × List (TypeContext × Call ε))
    (calls : List (TypeContext × Call ε)) : Prop where
  balanced : run.2.1.isBalanced = true
  noted : noting = (run.1, run.2.1, run.2.2, calls)

/-- Whatever the hooks answer and however the walk ends, every hook is called in the context that
the ancestors of its node and the node itself set up from nothing, and nothing is left of the
context at the end. -/
theorem context_tracked (schema : Schema) (v : TypedVisitor σ ε) (root : Node) (s : σ) :
    ∃ calls, (∀ call ∈ calls, Tracked schema root.tree call.1 call.2) ∧
      EndsBalanced (visit (v.toVisitor schema) root ({}, s))
        (visit (v.noting.toVisitor schema) root ({}, s, [])) calls ∧
      EndsBalanced (walk (v.toVisitor schema) root ({}, s))
        (walk (v.noting.toVisitor schema) root ({}, s, [])) calls ∧
      ∀ d, root = .document d →
        EndsBalanced (visitDocument (v.toVisitor schema) d ({}, s))
          (visitDocument (v.noting.toVisitor schema) d ({}, s, [])) calls := by
  have shows := typedNoting_shows schema v
  have track := walkTree_keeps (typedNoting_keeps schema v root.grammatical) root.tree []
    ({}, s, []) .here ⟨rfl, by simp⟩
  refine ⟨_, track.calls, ⟨?_, ?_⟩, ⟨?_, ?_⟩, fun d hd => ⟨?_, ?_⟩⟩
  · rw [visit_shown shows root ({}, s, []), visit_snd, track.context]
    rfl
  · rw [visit_shown shows root ({}, s, []), ← visit_snd]
  · rw [walk_shown shows root ({}, s, []), walk_snd, track.context]
    rfl
  · rw [walk_shown shows root ({}, s, []), ← walk_snd]
  · subst hd
    rw [visitDocument_shown shows d ({}, s, []), visitDocument_snd]
    exact congrArg TypeContext.isBalanced track.context
  · subst hd
    rw [visitDocument_shown shows d ({}, s, []), Node.tree, ← visitDocument_snd]

end Visit

end GraphQL
