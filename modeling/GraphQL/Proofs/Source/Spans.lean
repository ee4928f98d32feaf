import GraphQL.Proofs.Source.LiteralText
import GraphQL.Source.Position

/-!
Nodes whose spans are made of places of a text and, where positions are exact, lie within each other
as the nodes do.
-/
namespace GraphQL

open Ast

variable {lines : Lines} {exact : Prop} {i j : Nat}

namespace Ast.Node

def Bare (n : Node) : Prop := ∀ m ∈ n.tree.nodes, m.loc = none

namespace Bare

theorem intro {n : Node} (hn : n.loc = none) (children : ∀ m ∈ n.parts.flatten, Bare m) :
    Bare n := by
  intro m hm
  rcases Node.mem_nodes_iff.mp hm with rfl | ⟨child, hc, hm⟩
  · exact hn
  · exact children child hc m hm

theorem name (text : String) : Bare (.name ⟨text, none⟩) :=
  intro rfl (by simp [Node.parts])

theorem namedType (text : String) : Bare (.type (.named ⟨⟨text, none⟩, none⟩)) :=
  intro rfl (by simpa [Node.parts] using name text)

theorem variable_ (text : String) : Bare (.value (.variable ⟨⟨text, none⟩, none⟩)) :=
  intro rfl (by simpa [Node.parts] using name text)

theorem type (t : TypeRef) : Bare (.type (.ofTypeRef t)) := by
  induction t with
  | named text => exact namedType text
  | list item ih => exact intro rfl (by simpa [TypeNode.ofTypeRef, Node.parts] using ih)
  | nonNull inner ih => exact intro rfl (by simpa [TypeNode.ofTypeRef, Node.parts] using ih)

theorem objectField {text : String} {value : Value} (h : Bare (.value value)) :
    Bare (.objectField ⟨⟨text, none⟩, value, none⟩) :=
  intro rfl (by simpa [Node.parts] using ⟨name text, h⟩)

mutual

theorem literal : ∀ l : Literal, Bare (.value (.ofLiteral l))
  | .variable text => variable_ text
  | .list items => intro rfl (by
      rw [Value.ofLiteral, valuesOfLiterals_eq, Node.parts, List.flatten_singleton, List.map_map]
      exact literals items)
  | .object fields => intro rfl (by
      rw [Value.ofLiteral, fieldsOfLiterals_eq, Node.parts, List.flatten_singleton, List.map_map]
      exact literalFields fields)
  | .int _ | .float _ | .string _ | .boolean _ | .null | .enum _ => intro rfl (by
      simp [Value.ofLiteral, Node.parts])

theorem literals : ∀ (items : List Literal), ∀ m ∈ items.map (Node.value ∘ Value.ofLiteral),
    Bare m
  | [] => by simp
  | l :: rest => List.forall_mem_cons.mpr ⟨literal l, literals rest⟩

theorem literalFields : ∀ (fields : List (String × Literal)),
    ∀ m ∈ fields.map (Node.objectField ∘ fun f => ⟨⟨f.1, none⟩, .ofLiteral f.2, none⟩), Bare m
  | [] => by simp
  | f :: rest => List.forall_mem_cons.mpr ⟨objectField (literal f.2), literalFields rest⟩

end

theorem arguments (as : List (String × Literal)) : ∀ a ∈ argumentsOf as, Bare (.argument a) := by
  rw [argumentsOf]
  exact List.forall_mem_map.mpr fun a _ =>
    intro rfl (by simpa [Node.parts] using ⟨name a.1, literal a.2⟩)

end Bare

end Ast.Node

/-- The offset of a position, or one byte more within the text. -/
def IsEnd (lines : Lines) (n : Nat) : Prop :=
  ∃ p, n = lines.offset p ∨ n = min (lines.offset p + 1) lines.size

/-- A span of a node made of offsets of positions, which does not end before it starts unless it
ends with a bracket. If positions are exact it never does, and lies within two offsets. -/
structure Lies (lines : Lines) (exact : Prop) (i j : Nat) (n : Node) (loc : Location) : Prop where
  start : ∃ p, loc.start = lines.offset p
  stop : IsEnd lines loc.stop
  forward : n.kind ≠ .selectionSet → n.kind ≠ .operationDefinition → loc.start ≤ loc.stop
  within : exact → i ≤ loc.start ∧ loc.start ≤ loc.stop ∧ loc.stop ≤ j

/-- All spans in a node lie within two offsets, and those in any node inside within its span. -/
structure Spanned (lines : Lines) (exact : Prop) (i j : Nat) (n : Node) : Prop where
  all : ∀ m ∈ n.tree.nodes, ∀ loc, m.loc = some loc → Lies lines exact i j m loc
  nested : ∀ m ∈ n.tree.nodes, ∀ loc, m.loc = some loc →
    ∀ k ∈ m.tree.nodes, ∀ inner, k.loc = some inner → Lies lines exact loc.start loc.stop k inner

theorem Lies.mono {i' j' : Nat} {n : Node} {loc : Location} (h : Lies lines exact i j n loc)
    (wider : exact → i' ≤ i ∧ j ≤ j') : Lies lines exact i' j' n loc :=
  ⟨h.start, h.stop, h.forward, fun e => by
    have := h.within e
    have := wider e
    omega⟩

namespace Spanned

variable {n : Node}

theorem mono {i' j' : Nat} (h : Spanned lines exact i j n) (wider : exact → i' ≤ i ∧ j ≤ j') :
    Spanned lines exact i' j' n :=
  ⟨fun m hm loc hl => (h.all m hm loc hl).mono wider, h.nested⟩

theorem own (h : Spanned lines exact i j n) {loc : Location} (hl : n.loc = some loc) :
    Spanned lines exact loc.start loc.stop n :=
  ⟨h.nested n n.mem_nodes loc hl, h.nested⟩

theorem none (hn : n.loc = none) (children : ∀ m ∈ n.parts.flatten, Spanned lines exact i j m) :
    Spanned lines exact i j n := by
  constructor
  · intro m hm loc hl
    rcases Node.mem_nodes_iff.mp hm with rfl | ⟨child, hc, hm⟩
    · rw [hn] at hl
      cases hl
    · exact (children child hc).all m hm loc hl
  · intro m hm loc hl
    rcases Node.mem_nodes_iff.mp hm with rfl | ⟨child, hc, hm⟩
    · rw [hn] at hl
      cases hl
    · exact (children child hc).nested m hm loc hl

theorem some {loc : Location} (hn : n.loc = some loc) (lies : Lies lines exact i j n loc)
    (children : ∀ m ∈ n.parts.flatten, Spanned lines exact loc.start loc.stop m) :
    Spanned lines exact i j n := by
  have inside : ∀ m ∈ n.tree.nodes, ∀ l, m.loc = Option.some l →
      Lies lines exact loc.start loc.stop m l := by
    intro m hm l hl
    rcases Node.mem_nodes_iff.mp hm with rfl | ⟨child, hc, hm⟩
    · obtain rfl : loc = l := Option.some.inj (hn.symm.trans hl)
      exact ⟨lies.start, lies.stop, lies.forward, fun e => ⟨Nat.le_refl _, (lies.within e).2.1,
        Nat.le_refl _⟩⟩
    · exact (children child hc).all m hm l hl
  constructor
  · intro m hm l hl
    exact (inside m hm l hl).mono fun e => ⟨(lies.within e).1, (lies.within e).2.2⟩
  · intro m hm l hl
    rcases Node.mem_nodes_iff.mp hm with rfl | ⟨child, hc, hm⟩
    · obtain rfl : loc = l := Option.some.inj (hn.symm.trans hl)
      exact inside
    · exact (children child hc).nested m hm l hl

theorem of_bare (h : n.Bare) : Spanned lines exact i j n := by
  have no : ∀ m ∈ n.tree.nodes, ∀ loc, m.loc ≠ Option.some loc := fun m hm loc hl => by
    rw [h m hm] at hl
    cases hl
  exact ⟨fun m hm loc hl => absurd hl (no m hm loc), fun m hm loc hl => absurd hl (no m hm loc)⟩

end Spanned

/-- A node that has a span, which lies within two offsets as all spans in the node do. -/
structure Covered (lines : Lines) (exact : Prop) (i j : Nat) (n : Node) : Prop where
  located : ∃ loc, n.loc = some loc
  spanned : Spanned lines exact i j n

namespace Covered

variable {n : Node}

theorem mono {i' j' : Nat} (h : Covered lines exact i j n) (wider : exact → i' ≤ i ∧ j ≤ j') :
    Covered lines exact i' j' n :=
  ⟨h.located, h.spanned.mono wider⟩

theorem lies (h : Covered lines exact i j n) :
    ∀ loc, n.loc = some loc → Lies lines exact i j n loc :=
  h.spanned.all n n.mem_nodes

theorem within {i' j' : Nat} (h : Covered lines exact i j n)
    (wider : ∀ loc, n.loc = some loc → exact → i ≤ loc.start ∧ loc.start ≤ loc.stop ∧ loc.stop ≤ j →
      i' ≤ loc.start ∧ loc.stop ≤ j') : Spanned lines exact i' j' n := by
  obtain ⟨loc, hl⟩ := h.located
  exact (h.spanned.own hl).mono fun e => wider loc hl e ((h.lies loc hl).within e)

end Covered

theorem le_furthestEnd (start : Nat) (children : List (Option Location)) :
    start ≤ furthestEnd start children := by
  induction children generalizing start with
  | nil => exact Nat.le_refl _
  | cons child rest ih =>
    cases child with
    | none => exact ih start
    | some loc => exact Nat.le_trans (Nat.le_max_left _ _) (ih _)

theorem stop_le_furthestEnd {start : Nat} {children : List (Option Location)} {loc : Location}
    (h : some loc ∈ children) : loc.stop ≤ furthestEnd start children := by
  induction children generalizing start with
  | nil => cases h
  | cons child rest ih =>
    rcases List.mem_cons.mp h with rfl | later
    · exact Nat.le_trans (Nat.le_max_right _ _) (le_furthestEnd _ rest)
    · cases child <;> exact ih later

theorem furthestEnd_mem (start : Nat) (children : List (Option Location)) :
    furthestEnd start children = start ∨
      ∃ loc, some loc ∈ children ∧ furthestEnd start children = loc.stop := by
  induction children generalizing start with
  | nil => exact .inl rfl
  | cons child rest ih =>
    cases child with
    | none =>
      exact (ih start).imp_right fun ⟨loc, hl, he⟩ => ⟨loc, List.mem_cons_of_mem _ hl, he⟩
    | some first =>
      rw [furthestEnd]
      rcases ih (max start first.stop) with he | ⟨loc, hl, he⟩
      · rcases Nat.le_total start first.stop with le | le
        · exact .inr ⟨first, List.mem_cons_self, by rw [he, Nat.max_eq_right le]⟩
        · exact .inl (by rw [he, Nat.max_eq_left le])
      · exact .inr ⟨loc, List.mem_cons_of_mem _ hl, he⟩

namespace Covered

variable {n m : Node} {start : Nat} {ends : List (Option Location)}

theorem end_of (h : Covered lines exact i j n) :
    ∀ loc, some loc = n.loc → IsEnd lines loc.stop ∧ (exact → loc.stop ≤ j) :=
  fun loc hl => ⟨(h.lies loc hl.symm).stop, fun e => ((h.lies loc hl.symm).within e).2.2⟩

/-- A node lies before the furthest end of some spans if its own is one of them. -/
theorem before_end (h : Covered lines exact i j n) (hn : n.loc ∈ ends) (le : exact → start ≤ i) :
    Spanned lines exact start (furthestEnd start ends) n :=
  h.within fun _ hl e lies =>
    ⟨Nat.le_trans (le e) lies.1, stop_le_furthestEnd (hl ▸ hn)⟩

theorem le_end (h : Covered lines exact i j n) (hn : n.loc ∈ ends) (e : exact) :
    i ≤ furthestEnd start ends := by
  obtain ⟨loc, hl⟩ := h.located
  have lies := (h.lies loc hl).within e
  exact Nat.le_trans (Nat.le_trans lies.1 lies.2.1) (stop_le_furthestEnd (hl ▸ hn))

/-- A node whose span goes from a position to the furthest end of some spans, with the nodes in it
between these two. -/
theorem span {p : Position}
    (hn : n.loc = Ast.span (some lines) p ends)
    (inside : exact → i ≤ lines.offset p ∧ lines.offset p ≤ j)
    (hends : ∀ loc, some loc ∈ ends → IsEnd lines loc.stop ∧ (exact → loc.stop ≤ j))
    (children : ∀ m ∈ n.parts.flatten,
      Spanned lines exact (lines.offset p) (furthestEnd (lines.offset p) ends) m) :
    Covered lines exact i j n := by
  have forward := le_furthestEnd (lines.offset p) ends
  have last : IsEnd lines (furthestEnd (lines.offset p) ends) ∧
      (exact → furthestEnd (lines.offset p) ends ≤ j) := by
    rcases furthestEnd_mem (lines.offset p) ends with he | ⟨loc, hl, he⟩
    · rw [he]
      exact ⟨⟨p, .inl rfl⟩, fun e => (inside e).2⟩
    · rw [he]
      exact hends loc hl
  exact ⟨⟨_, hn⟩, .some hn ⟨⟨p, rfl⟩, last.1, fun _ _ => forward,
    fun e => ⟨(inside e).1, forward, last.2 e⟩⟩ children⟩

end Covered

end GraphQL
