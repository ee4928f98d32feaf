import GraphQL.Proofs.Visit.Rebuilding

/-!
Edits of types. What a non-null type holds is a slot for any type, so a hook may put a non-null type
there: the edit fits, and a node is rebuilt without the check that making a non-null type comes
with. Main statement: if nothing in a node and no replacement has a non-null type that wraps
another, then neither has the result of a visit, unless an answer puts one there that no edit above
it takes away.
-/
namespace GraphQL.Visit

open Ast

variable {σ ε : Type}

/-- A non-null type that wraps another. -/
def Doubled (n : Node) : Prop := ∃ inner loc loc', n = .type (.nonNull (.nonNull inner loc) loc')

/-- No node in the tree of this one is a non-null type that wraps another. -/
def WellTyped (n : Node) : Prop := ∀ way t, Leads n.tree way t → ¬ Doubled t.node

/-- No well-typed node of the kind has the node as a child. The root has no holder. -/
def Misplaced (holder : Option Kind) (m : Node) : Prop :=
  ¬ WellTyped m ∨ holder = some .nonNullType ∧ m.kind = .nonNullType

theorem exists_nonNull {n : Node} (h : n.kind = .nonNullType) :
    ∃ inner loc, n = .type (.nonNull inner loc) := by
  cases n with
  | type t =>
    cases t with
    | nonNull inner loc => exact ⟨inner, loc, rfl⟩
    | _ => cases h
  | definition d => cases d <;> cases h
  | selection s => cases s <;> cases h
  | value v => cases v <;> cases h
  | _ => cases h

theorem doubled_iff {n : Node} :
    Doubled n ↔ n.kind = .nonNullType ∧ ∃ m ∈ n.children.flatten, m.kind = .nonNullType := by
  constructor
  · rintro ⟨inner, loc, loc', rfl⟩
    exact ⟨rfl, .type (.nonNull inner loc), by simp [Node.children_eq_parts, Node.parts], rfl⟩
  · rintro ⟨outer, m, hm, kind⟩
    obtain ⟨held, loc', rfl⟩ := exists_nonNull outer
    obtain rfl : m = .type held := by
      simpa [Node.children_eq_parts, Node.parts] using hm
    obtain ⟨inner, loc, eq⟩ := exists_nonNull kind
    exact ⟨inner, loc, loc', by rw [Node.type.inj eq]⟩

theorem mem_children {n : Node} {b : Branch} (hb : b ∈ n.tree.branches) {t : Tree}
    (ht : t ∈ b.items) : t.node ∈ n.children.flatten :=
  List.mem_flatten.mpr ⟨_, List.mem_map_of_mem hb, List.mem_map_of_mem ht⟩

theorem exists_leads_child {n m : Node} (hm : m ∈ n.children.flatten) :
    ∃ segment, Leads n.tree [segment] m.tree := by
  obtain ⟨_, hitems, hm⟩ := List.mem_flatten.mp hm
  obtain ⟨b, hb, rfl⟩ := List.mem_map.mp hitems
  obtain ⟨t, ht, rfl⟩ := List.mem_map.mp hm
  obtain ⟨i, hi⟩ := List.mem_iff_getElem?.mp ht
  rw [show t.node.tree = t from own_item hb ht]
  exact ⟨_, .down hb hi .here⟩

/-- A node is well-typed exactly if it may have all its children. -/
theorem wellTyped_iff {n : Node} :
    WellTyped n ↔ ∀ m ∈ n.children.flatten, ¬ Misplaced (some n.kind) m := by
  constructor
  · rintro h m hm (ill | ⟨outer, inner⟩)
    · obtain ⟨segment, child⟩ := exists_leads_child hm
      exact ill fun way t leads => h _ t (child.trans leads)
    · refine h [] n.tree .here ?_
      rw [n.node_tree]
      exact doubled_iff.mpr ⟨Option.some.inj outer, m, hm, inner⟩
  · intro h way t leads
    cases leads with
    | here =>
      rw [n.node_tree, doubled_iff]
      rintro ⟨outer, m, hm, inner⟩
      exact h m hm (.inr ⟨congrArg some outer, inner⟩)
    | down hb hi leads =>
      have mem := List.mem_of_getElem? hi
      have below : WellTyped _ := not_not.mp fun ill => h _ (mem_children hb mem) (.inl ill)
      exact below _ _ ((own_item hb mem).symm ▸ leads)

theorem wellTyped_named (t : NamedType) : WellTyped (.type (.named t)) := by
  have name : WellTyped (.name t.name) := by
    simp [wellTyped_iff, Node.children_eq_parts, Node.parts]
  rw [wellTyped_iff]
  simp [Node.children_eq_parts, Node.parts, Misplaced, name, Node.kind]

theorem wellTyped_nonNull_named (t : NamedType) (loc : Option Location) :
    WellTyped (.type (.nonNull (.named t) loc)) := by
  rw [wellTyped_iff]
  simp [Node.children_eq_parts, Node.parts, Misplaced, wellTyped_named, Node.kind, TypeNode.kind]

/-- With other children a node is where it may not be exactly if one of these is. -/
theorem misplaced_withChildren {holder : Option Kind} {n m : Node} {children : List (List Node)}
    (placed : ¬ Misplaced holder n) (parts : n.HasChildren children m) :
    Misplaced holder m ↔ ∃ child ∈ children.flatten, Misplaced (some n.kind) child := by
  have outer : ¬ (holder = some .nonNullType ∧ n.kind = .nonNullType) := fun h => placed (.inr h)
  rw [Misplaced, parts.kind, or_iff_left outer, wellTyped_iff, parts.kind, parts.children]
  simp only [not_forall, not_not, exists_prop]

/-- The kind of the node that holds the one at the end of a path. -/
def holder? (path : List PathSegment) : Option Kind :=
  path.getLast?.map fun segment => segment.parent.kind

@[simp]
theorem holder?_append (path : List PathSegment) (segment : PathSegment) :
    holder? (path ++ [segment]) = some segment.parent.kind := by
  simp [holder?]

/-- The hooks replace nodes by well-typed ones only. -/
def Visitor.WellTyped (v : Visitor σ ε) : Prop :=
  ∀ n path s m,
    (v.enter n path s).1 = .ok (.replace m) ∨ (v.leave n path s).1 = .ok (.replace m) →
      Visit.WellTyped m

namespace Call

/-- The answer is to replace or to delete the node. -/
def Edits (c : Call ε) : Prop :=
  (∃ m, c.answer? = some (.ok (.replace m))) ∨ c.answer? = some (.ok .delete)

/-- The answer puts a non-null type in the place of what a non-null type holds. -/
def Doubles (c : Call ε) : Prop :=
  holder? c.path = some .nonNullType ∧
    ∃ m, c.answer? = some (.ok (.replace m)) ∧ m.kind = .nonNullType

theorem Doubles.edits {c : Call ε} (h : c.Doubles) : c.Edits :=
  .inl (h.2.imp fun _ answer => answer.1)

/-- Such an answer is not turned down: the slot takes every type. -/
theorem Doubles.accepted {c : Call ε} (h : c.Doubles) : c.demanded? = none := by
  obtain ⟨holder, m, answer, kind⟩ := h
  rw [holder?, Option.map_eq_some_iff] at holder
  obtain ⟨segment, last, parent⟩ := holder
  have fits : ∀ slot ∈ segment.slot?, misfit? (ε := ε) segment.parent slot (some m) = none := by
    intro slot hslot
    have mem := List.mem_of_find?_eq_some hslot
    rw [parent] at mem
    obtain rfl := List.mem_singleton.mp mem
    exact if_pos (by rw [kind]; rfl)
  rw [demanded?, answer, Option.bind_some, Visit.demanded?, misfitAt?, last]
  cases slot : segment.slot? with
  | none => simp [slot]
  | some found => simp [slot, fits found slot]

end Call

/-- Some answer doubles a non-null type, and nothing above it is edited. -/
def Spoiled (calls : List (Call ε)) : Prop :=
  ∃ c ∈ calls, c.Doubles ∧ ∀ d ∈ calls, d.Edits → d.path <+: c.path → d.path = c.path

/-- The calls are about nodes below the end of the path, by way of one of these segments. -/
def Below (path : List PathSegment) (through : PathSegment → Prop) (calls : List (Call ε)) : Prop :=
  ∀ c ∈ calls, ∃ segment, through segment ∧ path ++ [segment] <+: c.path

section Calls

variable {path : List PathSegment} {p q : PathSegment → Prop} {calls others : List (Call ε)}

theorem Below.imp (h : Below path p calls) (imp : ∀ segment, p segment → q segment) :
    Below path q calls := fun c hc => (h c hc).imp fun segment h => ⟨imp segment h.1, h.2⟩

theorem Below.not_above (h : Below path p calls) {c : Call ε} (hc : c ∈ calls) :
    ¬ c.path <+: path := by
  obtain ⟨segment, -, below⟩ := h c hc
  intro above
  have := (below.trans above).length_le
  rw [List.length_append, List.length_singleton] at this
  exact Nat.not_succ_le_self _ this

/-- Calls below different segments are about nodes side by side. -/
theorem Below.apart (h : Below path p calls) (h' : Below path q others)
    (apart : ∀ a b, p a → q b → a ≠ b) {c d : Call ε} (hc : c ∈ calls) (hd : d ∈ others) :
    ¬ c.path <+: d.path ∧ ¬ d.path <+: c.path := by
  obtain ⟨a, ha, ⟨rest, hrest⟩⟩ := h c hc
  obtain ⟨b, hb, ⟨rest', hrest'⟩⟩ := h' d hd
  rw [← hrest, ← hrest', List.append_assoc, List.append_assoc, List.prefix_append_right_inj,
    List.prefix_append_right_inj, List.singleton_append, List.singleton_append,
    List.cons_prefix_cons, List.cons_prefix_cons]
  exact ⟨fun same => apart a b ha hb same.1, fun same => apart a b ha hb same.1.symm⟩

theorem spoiled_single {c : Call ε} : Spoiled [c] ↔ c.Doubles := by
  simp [Spoiled]

theorem spoiled_append (h : Below path p calls) (h' : Below path q others)
    (apart : ∀ a b, p a → q b → a ≠ b) :
    Spoiled (calls ++ others) ↔ Spoiled calls ∨ Spoiled others := by
  constructor
  · rintro ⟨c, hc, doubles, top⟩
    rw [List.forall_mem_append] at top
    rcases List.mem_append.mp hc with hc | hc
    · exact .inl ⟨c, hc, doubles, top.1⟩
    · exact .inr ⟨c, hc, doubles, top.2⟩
  · rintro (⟨c, hc, doubles, top⟩ | ⟨c, hc, doubles, top⟩)
    · exact ⟨c, List.mem_append_left _ hc, doubles, List.forall_mem_append.mpr
        ⟨top, fun d hd _ above => absurd above (h.apart h' apart hc hd).2⟩⟩
    · exact ⟨c, List.mem_append_right _ hc, doubles, List.forall_mem_append.mpr
        ⟨fun d hd _ above => absurd above (h.apart h' apart hd hc).1, top⟩⟩

theorem spoiled_closed {opened closed : Call ε} (h : Below path p calls) (goesOn : ¬ opened.Edits)
    (here : closed.path = path) :
    Spoiled (opened :: (calls ++ [closed])) ↔
      closed.Doubles ∨ ¬ closed.Edits ∧ Spoiled calls := by
  constructor
  · rintro ⟨c, hc, doubles, top⟩
    rw [List.forall_mem_cons, List.forall_mem_append, List.forall_mem_singleton] at top
    rcases List.mem_cons.mp hc with rfl | hc
    · exact absurd doubles.edits goesOn
    rcases List.mem_append.mp hc with hc | hc
    · refine .inr ⟨fun edits => h.not_above hc ?_, c, hc, doubles, top.2.1⟩
      obtain ⟨segment, -, below⟩ := h c hc
      have above : closed.path <+: c.path := here ▸ (List.prefix_append path [segment]).trans below
      have same : c.path = path := (top.2.2 edits above).symm.trans here
      exact ⟨[], by rw [List.append_nil, same]⟩
    · rw [List.mem_singleton.mp hc] at doubles
      exact .inl doubles
  · rintro (doubles | ⟨stays, c, hc, doubles, top⟩)
    · refine ⟨closed, by simp, doubles, ?_⟩
      rw [List.forall_mem_cons, List.forall_mem_append, List.forall_mem_singleton]
      refine ⟨fun edits => absurd edits goesOn, fun d hd _ above => ?_, fun _ _ => rfl⟩
      exact absurd (here ▸ above) (h.not_above hd)
    · refine ⟨c, by simp [hc], doubles, ?_⟩
      rw [List.forall_mem_cons, List.forall_mem_append, List.forall_mem_singleton]
      exact ⟨fun edits => absurd edits goesOn, top, fun edits => absurd edits stays⟩

theorem Below.around {opened closed : Call ε} (h : Below path p calls) (first : opened.path = path)
    (last : closed.path = path) : ∀ c ∈ opened :: (calls ++ [closed]), path <+: c.path := by
  rw [List.forall_mem_cons, List.forall_mem_append, List.forall_mem_singleton, first, last]
  refine ⟨List.prefix_rfl, fun c hc => ?_, List.prefix_rfl⟩
  obtain ⟨segment, -, below⟩ := h c hc
  exact (List.prefix_append path [segment]).trans below

theorem misplaced_come {c : Call ε} {n : Node} {answer : Except ε Action} {item : Option Node}
    (asked : c.answer? = some answer) (typed : ∀ m, answer = .ok (.replace m) → WellTyped m)
    (h : come n answer = .ok item) :
    (∃ m ∈ item, Misplaced (holder? c.path) m) ↔
      c.Doubles ∨ ¬ c.Edits ∧ Misplaced (holder? c.path) n := by
  rcases answer with e | (_ | _ | _ | m | _)
  case error => cases h
  case ok.stop => cases h
  all_goals
    cases h
    simp [Call.Doubles, Call.Edits, asked]
  case ok.replace => simp [Misplaced, typed m rfl]

end Calls

/-- The calls are about nodes below the path, by way of these segments, and they spoil something
exactly if one of the nodes that came to be there may not be there. -/
structure Reports (parent : Kind) (path : List PathSegment) (through : PathSegment → Prop)
    (calls : List (Call ε)) (result : Except (Abort ε) (List Node)) : Prop where
  below : Below path through calls
  spoiled : ∀ nodes, result = .ok nodes →
    ((∃ m ∈ nodes, Misplaced (some parent) m) ↔ Spoiled calls)

namespace Reports

variable {parent : Kind} {path : List PathSegment} {p q : PathSegment → Prop}
variable {calls others : List (Call ε)} {nodes : List Node}
variable {result : Except (Abort ε) (List Node)}

theorem nil : Reports parent path p ([] : List (Call ε)) (.ok []) where
  below := by simp [Below]
  spoiled nodes h := by
    cases h
    simp [Spoiled]

theorem aborted {a : Abort ε} (below : Below path p calls) :
    Reports parent path p calls (.error a) :=
  ⟨below, fun _ h => nomatch h⟩

theorem imp (h : Reports parent path p calls result) (imp : ∀ segment, p segment → q segment) :
    Reports parent path q calls result :=
  ⟨fun c hc => (h.below c hc).imp fun segment h => ⟨imp segment h.1, h.2⟩, h.spoiled⟩

theorem append (h : Reports parent path p calls (.ok nodes))
    (h' : Reports parent path q others result) (apart : ∀ a b, p a → q b → a ≠ b) :
    Reports parent path (fun segment => p segment ∨ q segment) (calls ++ others)
      (result.map (nodes ++ ·)) where
  below c hc := (List.mem_append.mp hc).elim
    (fun hc => (h.below c hc).imp fun _ h => ⟨.inl h.1, h.2⟩)
    fun hc => (h'.below c hc).imp fun _ h => ⟨.inr h.1, h.2⟩
  spoiled all hall := by
    rcases result with a | edited
    · cases hall
    · cases hall
      rw [spoiled_append h.below h'.below apart, ← h.spoiled nodes rfl, ← h'.spoiled edited rfl]
      simp only [List.mem_append, or_and_right, exists_or]

theorem left {n m : Node} {children : List (List Node)} {opened closed : Call ε}
    {answer : Except ε Action} {item : Option Node}
    (h : Reports n.kind path p calls (.ok children.flatten)) (parts : n.HasChildren children m)
    (placed : ¬ Misplaced (holder? path) n) (goesOn : ¬ opened.Edits) (here : closed.path = path)
    (asked : closed.answer? = some answer) (typed : ∀ r, answer = .ok (.replace r) → WellTyped r)
    (comes : come m answer = .ok item) :
    (∃ r ∈ item, Misplaced (holder? path) r) ↔ Spoiled (opened :: (calls ++ [closed])) := by
  have kept : Misplaced (holder? path) m ↔ Spoiled calls :=
    (misplaced_withChildren placed parts).trans (h.spoiled _ rfl)
  rw [spoiled_closed h.below goesOn here, ← kept]
  subst here
  exact misplaced_come asked typed comes

end Reports

/-- A segment for one of so many items of a slot, counted from the `i`-th. -/
def Numbered (slot : Slot) (i count : Nat) (segment : PathSegment) : Prop :=
  segment.key = slot.key ∧ ∃ j, i ≤ j ∧ j < i + count ∧ segment.index = itemIndex slot j

theorem Numbered.first (parent : Node) (slot : Slot) (i count : Nat) :
    Numbered slot i (count + 1) ⟨parent, slot.key, itemIndex slot i⟩ :=
  ⟨rfl, i, Nat.le_refl i, by omega, rfl⟩

theorem Numbered.later {slot : Slot} {i count : Nat} {segment : PathSegment}
    (h : Numbered slot (i + 1) count segment) : Numbered slot i (count + 1) segment :=
  let ⟨key, j, low, high, index⟩ := h
  ⟨key, j, by omega, by omega, index⟩

/-- The items of a slot are as they were, and may be where they are. -/
structure ItemsPlaced (parent : Kind) (items : List Tree) : Prop where
  own : ∀ t ∈ items, Own t
  placed : ∀ t ∈ items, ¬ Misplaced (some parent) t.node

/-- So are the items of all slots of a node. -/
structure BranchesPlaced (parent : Kind) (branches : List Branch) : Prop where
  items : ∀ b ∈ branches, ItemsPlaced parent b.items
  allows : ∀ b ∈ branches, b.slot.arity.Allows b.items.length
  keys : (branches.map fun b => b.slot.key).Nodup

theorem WellTyped.branches {n : Node} (h : WellTyped n) :
    BranchesPlaced n.kind n.tree.branches where
  items _ hb := ⟨fun _ ht => own_item hb ht, fun _ ht => wellTyped_iff.mp h _ (mem_children hb ht)⟩
  allows _ hb := n.grammatical.allows hb
  keys := branches_keys_nodup n.grammatical

theorem ItemsPlaced.tail {parent : Kind} {t : Tree} {rest : List Tree}
    (h : ItemsPlaced parent (t :: rest)) : ItemsPlaced parent rest :=
  ⟨(List.forall_mem_cons.mp h.own).2, (List.forall_mem_cons.mp h.placed).2⟩

theorem BranchesPlaced.tail {parent : Kind} {b : Branch} {rest : List Branch}
    (h : BranchesPlaced parent (b :: rest)) : BranchesPlaced parent rest :=
  ⟨(List.forall_mem_cons.mp h.items).2, (List.forall_mem_cons.mp h.allows).2,
    (List.nodup_cons.mp h.keys).2⟩

mutual

/-- What a node comes to may be where the node was exactly if the calls spoil nothing. -/
theorem rebuildTree_reports {v : Visitor σ ε} (typed : v.WellTyped) : ∀ (t : Tree)
    (path : List PathSegment) (s : σ × List (Call ε)), Own t →
    ¬ Misplaced (holder? path) t.node →
    ∃ calls, (rebuildTree v.noting path t s).2.2 = s.2 ++ calls ∧ (∀ c ∈ calls, path <+: c.path) ∧
      ∀ item, (rebuildTree v.noting path t s).1 = .ok item →
        ((∃ m ∈ item, Misplaced (holder? path) m) ↔ Spoiled calls)
  | ⟨n, branches⟩, path, s, own, placed => by
    rw [Ast.Tree.node] at placed
    have same : n.tree.branches = branches := by rw [show n.tree = ⟨n, branches⟩ from own]; rfl
    have inside : WellTyped n := not_not.mp fun ill => placed (.inl ill)
    rcases he : v.enter n path s.1 with ⟨answer, s₁⟩
    have entered : v.noting.enter n path s = (answer, s₁, s.2 ++ [.enter n path answer]) := by
      simp [Visitor.noting, he]
    by_cases hp : answer = .ok .proceed
    · subst hp
      let opened : Call ε := .enter n path (.ok .proceed)
      have goesOn : ¬ opened.Edits := by simp [Call.Edits, opened, Call.answer?]
      obtain ⟨calls, noted, report⟩ := rebuildBranches_reports typed branches path n
        (s₁, s.2 ++ [opened]) (same ▸ inside.branches)
      rcases hb : rebuildBranches v.noting path n branches (s₁, s.2 ++ [opened]) with
        ⟨a | children, s₂⟩
      · rw [hb] at noted
        have noted : s₂.2 = s.2 ++ [opened] ++ calls := noted
        rw [rebuildTree_of_aborted entered hb]
        exact ⟨opened :: (calls ++ [.abandon n path]), by simp [Visitor.noting, noted],
          report.below.around rfl rfl, fun item h => nomatch h⟩
      · rw [hb] at noted report
        have noted : s₂.2 = s.2 ++ [opened] ++ calls := noted
        have parts : n.HasChildren children (n.withChildren children) :=
          rebuilt_hasChildren (same.symm ▸ hb)
        rcases hl : v.leave (n.withChildren children) path s₂.1 with ⟨answer, s₃⟩
        let closed : Call ε := .leave (n.withChildren children) path answer
        have left : v.noting.leave (n.withChildren children) path s₂ =
            (answer, s₃, s₂.2 ++ [closed]) := by
          simp [Visitor.noting, hl, closed]
        rw [rebuildTree_of_left entered hb left]
        -- what came of the children stays unless the answer on leaving is an edit
        exact ⟨opened :: (calls ++ [closed]), by simp [noted], report.below.around rfl rfl,
          fun item => report.left parts placed goesOn rfl rfl
            fun m hm => typed _ path s₂.1 m (.inr (by rw [hl, hm]))⟩
    · rw [rebuildTree_of_refused entered hp]
      refine ⟨_, rfl, by simp [Call.path], fun item h => ?_⟩
      rw [spoiled_single]
      refine (misplaced_come (c := .enter n path answer) rfl
        (fun m hm => typed n path s.1 m (.inl (by rw [he, hm]))) h).trans ?_
      exact or_iff_left fun h => placed h.2

theorem rebuildBranches_reports {v : Visitor σ ε} (typed : v.WellTyped) : ∀ (branches : List Branch)
    (path : List PathSegment) (parent : Node) (s : σ × List (Call ε)),
    BranchesPlaced parent.kind branches →
    ∃ calls, (rebuildBranches v.noting path parent branches s).2.2 = s.2 ++ calls ∧
      Reports parent.kind path (fun segment => segment.key ∈ branches.map fun b => b.slot.key) calls
        ((rebuildBranches v.noting path parent branches s).1.map List.flatten)
  | [], path, parent, s, _ => ⟨[], by simp [rebuildBranches], .nil⟩
  | b :: rest, path, parent, s, placed => by
    have key : b.slot.key ∉ rest.map fun b => b.slot.key := (List.nodup_cons.mp placed.keys).1
    obtain ⟨calls, noted, report⟩ := rebuildBranch_reports typed b path parent s
      (placed.items b List.mem_cons_self) (placed.allows b List.mem_cons_self)
    rcases hb : rebuildBranch v.noting path parent b s with ⟨a | nodes, s₁⟩
    · rw [hb] at noted report
      simp only [rebuildBranches, hb]
      exact ⟨calls, noted, report.imp fun segment h => h ▸ List.mem_cons_self⟩
    rw [hb] at noted report
    obtain ⟨others, noted', report'⟩ :=
      rebuildBranches_reports typed rest path parent s₁ placed.tail
    have both := report.append report' fun x y hx hy same => key (by rwa [← hx, same])
    refine ⟨calls ++ others, ?_⟩
    rcases hs : rebuildBranches v.noting path parent rest s₁ with ⟨a | edited, s₂⟩
    all_goals
      rw [hs] at noted' both
      simp only [rebuildBranches, hb, hs]
      exact ⟨by rw [noted', noted, List.append_assoc], both.imp fun _ => List.mem_cons.mpr⟩

theorem rebuildBranch_reports {v : Visitor σ ε} (typed : v.WellTyped) : ∀ (b : Branch)
    (path : List PathSegment) (parent : Node) (s : σ × List (Call ε)),
    ItemsPlaced parent.kind b.items → b.slot.arity.Allows b.items.length →
    ∃ calls, (rebuildBranch v.noting path parent b s).2.2 = s.2 ++ calls ∧
      Reports parent.kind path (fun segment => segment.key = b.slot.key) calls
        (rebuildBranch v.noting path parent b s).1
  | ⟨slot, items⟩, path, parent, s, placed, allows => by
    rw [rebuildBranch]
    obtain ⟨calls, noted, report⟩ := rebuildItems_reports typed items path parent slot 0 s
      placed fun i j hi hj => by
        rw [Nat.zero_add] at hi hj
        exact index_eq_of_itemIndex allows hi hj
    exact ⟨calls, noted, report.imp fun segment h => h.1⟩

theorem rebuildItems_reports {v : Visitor σ ε} (typed : v.WellTyped) : ∀ (items : List Tree)
    (path : List PathSegment) (parent : Node) (slot : Slot) (i : Nat) (s : σ × List (Call ε)),
    ItemsPlaced parent.kind items →
    (∀ j k, j < i + items.length → k < i + items.length →
      itemIndex slot j = itemIndex slot k → j = k) →
    ∃ calls, (rebuildItems v.noting path parent slot i items s).2.2 = s.2 ++ calls ∧
      Reports parent.kind path (Numbered slot i items.length) calls
        (rebuildItems v.noting path parent slot i items s).1
  | [], path, parent, slot, i, s, _, _ => ⟨[], by simp [rebuildItems], .nil⟩
  | t :: rest, path, parent, slot, i, s, placed, apart => by
    rw [List.length_cons] at apart
    obtain ⟨calls, noted, below, spoiled⟩ := rebuildTree_reports typed t
      (path ++ [⟨parent, slot.key, itemIndex slot i⟩]) s (placed.own t List.mem_cons_self)
      (by rw [holder?_append]; exact placed.placed t List.mem_cons_self)
    rw [holder?_append] at spoiled
    -- all these calls are about the first item, so they lie beside those about the others
    have below : Below path (· = ⟨parent, slot.key, itemIndex slot i⟩) calls := fun c hc =>
      ⟨_, rfl, below c hc⟩
    have here : Below path (Numbered slot i (rest.length + 1)) calls :=
      below.imp fun _ h => h ▸ Numbered.first parent slot i rest.length
    rcases ht : rebuildTree v.noting (path ++ [⟨parent, slot.key, itemIndex slot i⟩]) t s with
      ⟨a | item, s₁⟩
    · rw [ht] at noted
      simp only [rebuildItems, ht]
      exact ⟨calls, noted, .aborted here⟩
    rw [ht] at noted spoiled
    rcases hp : misfit? (ε := ε) parent slot item with - | e
    · obtain ⟨others, noted', report'⟩ := rebuildItems_reports typed rest path parent slot
        (i + 1) s₁ placed.tail fun j k hj hk => apart j k (by omega) (by omega)
      have report : Reports parent.kind path (· = ⟨parent, slot.key, itemIndex slot i⟩) calls
          (.ok item.toList) :=
        ⟨below, fun nodes h => by
          cases h
          simp only [Option.mem_toList]
          exact spoiled item rfl⟩
      have both := report.append report' fun x y hx ⟨_, j, low, high, index⟩ same => by
        have := apart i j (by omega) (by omega) (by rw [← index, ← same, hx])
        omega
      refine ⟨calls ++ others, ?_⟩
      rcases hs : rebuildItems v.noting path parent slot (i + 1) rest s₁ with ⟨a | nodes, s₂⟩
      all_goals
        rw [hs] at noted' both
        simp only [rebuildItems, ht, hp, hs]
        refine ⟨by rw [noted', noted, List.append_assoc], both.imp fun segment h => ?_⟩
        exact h.elim (fun h => h ▸ Numbered.first parent slot i rest.length) Numbered.later
    · simp only [rebuildItems, ht, hp]
      exact ⟨calls, noted, .aborted here⟩

end

def Stopped (calls : List (Call ε)) : Prop := ∃ c ∈ calls, c.answer? = some (.ok .stop)

theorem Tells.stopped {depth : Nat} {calls : List (Call ε)} (h : Tells depth calls (some .stop)) :
    Stopped calls := by
  obtain ⟨c, hc, demands⟩ := List.exists_of_findSome?_eq_some h.first
  refine ⟨c, hc, ?_⟩
  obtain ⟨answer, asked, demands⟩ := Option.bind_eq_some_iff.mp demands
  rw [asked]
  rcases answer with e | (_ | _ | _ | m | _)
  case ok.stop => rfl
  all_goals simp [demanded?] at demands

theorem Tells.not_stopped {depth : Nat} {calls : List (Call ε)} (h : Tells depth calls none) :
    ¬ Stopped calls := by
  rintro ⟨c, hc, asked⟩
  exact nomatch h.only c hc .stop (by rw [Call.demanded?, asked]; rfl)

/-- How the calls of a walk from a well-typed root tell of its end. -/
theorem walkTree_wellTyped {v : Visitor σ ε} (typed : v.WellTyped) {root : Node}
    (sound : WellTyped root) (s : σ) :
    ∃ calls, (walkTree v.noting [] root.tree (s, [])).2.2 = calls ∧
      Tells 0 calls (ending? [] root (walkTree v [] root.tree s).1) ∧
      ∀ edit, (walkTree v [] root.tree s).1 = .ok edit →
        ∀ r, edit.outcome root = some r → (WellTyped r ↔ (Spoiled calls → Stopped calls)) := by
  obtain ⟨calls, noted, tells, -⟩ := walkTree_tells v root.tree [] (s, []) root.grammatical
    (fun _ _ => rfl)
  obtain ⟨calls', noted', -, spoiled⟩ := rebuildTree_reports typed root.tree [] (s, [])
    (own_tree root) (by simp [Misplaced, holder?, root.node_tree, sound])
  rw [rebuildTree_eq _ _ _ _ (own_tree root), noted, List.append_cancel_left_eq] at noted'
  subst noted'
  have result : (walkTree v [] root.tree s).1 = (walkTree v.noting [] root.tree (s, [])).1 := by
    rw [walkTree_shown (noting_shows v) root.tree [] (s, [])]
  rw [rebuildTree_eq _ _ _ _ (own_tree root)] at spoiled
  rw [← result, root.node_tree] at tells spoiled
  refine ⟨calls, noted, tells, fun edit h r hr => ?_⟩
  rw [h] at tells spoiled
  have goesOn : ¬ Stopped calls := tells.not_stopped
  have spoils : ¬ WellTyped r ↔ Spoiled calls := by
    simpa [Misplaced, holder?] using spoiled (some r) (congrArg Except.ok hr)
  rw [imp_iff_not goesOn, ← spoils, not_not]

/-- What a visit makes of a well-typed root, with well-typed replacements, is well-typed exactly if
every answer that doubles a non-null type is undone by an edit above, or an answer stops the walk.
No error is due to such an answer. -/
theorem visit_wellTyped (v : Visitor σ ε) (root : Node) (s : σ) (sound : WellTyped root)
    (typed : v.WellTyped) :
    ∃ calls,
      visit v.noting root (s, []) = ((visit v root s).1, (visit v root s).2, calls) ∧
      (∀ r, (visit v root s).1 = .ok (some r) →
        (WellTyped r ↔ (Spoiled calls → Stopped calls))) ∧
      (∀ d, root = .document d →
        visitDocument v.noting d (s, []) =
          ((visitDocument v d s).1, (visitDocument v d s).2, calls) ∧
        ∀ r, (visitDocument v d s).1 = .ok r →
          (WellTyped (.document r) ↔ (Spoiled calls → Stopped calls))) ∧
      ∀ e, (visit v root s).1 = .error e →
        ∃ c ∈ calls, ¬ c.Doubles ∧ c.demanded? = some (.failed e) := by
  obtain ⟨calls, noted, tells, settled⟩ := walkTree_wellTyped typed sound s
  have shows := noting_shows v
  have stops : (walkTree v [] root.tree s).1 = .error .stop →
      (WellTyped root ↔ (Spoiled calls → Stopped calls)) := fun h =>
    iff_of_true sound fun _ => Tells.stopped (by rwa [h] at tells)
  refine ⟨calls, by rw [visit_shown shows root (s, []), ← noted, ← visit_snd], ?_, ?_, ?_⟩
  · intro r h
    rw [visit] at h
    rcases hw : walkTree v [] root.tree s with ⟨(_ | e) | edit, t⟩
    all_goals rw [hw] at h settled stops
    · cases h
      exact stops rfl
    · cases h
    · refine settled edit rfl r ?_
      cases edit <;> cases h <;> rfl
  · rintro d rfl
    refine ⟨by rw [visitDocument_shown shows d (s, []), ← noted, Node.tree, ← visitDocument_snd],
      fun r h => ?_⟩
    rw [visitDocument] at h
    rw [Node.tree] at settled stops
    rcases hw : walkTree v [] d.tree s with ⟨(_ | e) | edit, t⟩
    all_goals rw [hw] at h settled stops
    · cases h
      exact stops rfl
    · cases h
    · refine settled edit rfl (.document r) ?_
      rcases edit with _ | m | _
      · cases h
        rfl
      · cases m <;> cases h
        rfl
      · cases h
  · intro e h
    have failed : (walkTree v [] root.tree s).1 = .error (.failed e) := by
      rw [visit] at h
      rcases hw : walkTree v [] root.tree s with ⟨(_ | e') | (_ | m | _), t⟩
      all_goals
        rw [hw] at h
        cases h
      rfl
    rw [failed] at tells
    obtain ⟨c, hc, demands⟩ := List.exists_of_findSome?_eq_some tells.first
    refine ⟨c, hc, fun doubles => ?_, demands⟩
    rw [doubles.accepted] at demands
    cases demands

namespace Doubling

def int : NamedType := ⟨⟨"Int", none⟩, none⟩

def string : NamedType := ⟨⟨"String", none⟩, none⟩

def root : Node := .type (.nonNull (.named int))

def doubled : Node := .type (.nonNull (.nonNull (.named string)))

/-- Puts `String!` in the place of every named type. -/
def visitor : Visitor Unit String where
  enter n _ s :=
    if n.kind = .namedType then (.ok (.replace (.type (.nonNull (.named string)))), s)
    else (.ok .proceed, s)

theorem visitor_wellTyped : visitor.WellTyped := by
  rintro n path s m (h | h)
  · dsimp only [visitor] at h
    split at h <;> cases h
    exact wellTyped_nonNull_named string none
  · cases h

end Doubling

/-- The replacement is not turned down, and it spoils the result. -/
theorem visit_wellTyped_doubling :
    WellTyped Doubling.root ∧ Doubling.visitor.WellTyped ∧ Doubled Doubling.doubled ∧
      ∃ calls, visit Doubling.visitor.noting Doubling.root ((), []) =
          (.ok (some Doubling.doubled), (), calls) ∧
        Spoiled calls ∧ ¬ Stopped calls := by
  have sound : WellTyped Doubling.root := wellTyped_nonNull_named Doubling.int none
  have result : (visit Doubling.visitor Doubling.root ()).1 = .ok (some Doubling.doubled) := rfl
  have ill : ¬ WellTyped Doubling.doubled := fun h => h [] _ .here ⟨_, _, _, rfl⟩
  obtain ⟨calls, visited, wellTyped, -, -⟩ :=
    visit_wellTyped Doubling.visitor Doubling.root () sound Doubling.visitor_wellTyped
  rw [wellTyped _ result, Classical.not_imp] at ill
  exact ⟨sound, Doubling.visitor_wellTyped, ⟨_, _, _, rfl⟩, calls, by rw [visited, result], ill⟩

end GraphQL.Visit
