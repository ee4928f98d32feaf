import GraphQL.Proofs.Execution.Notes

/-!
The order of notes below a path: each field is resolved once, and before anything below it is.
Notes of siblings may mix; what is in order for each of them is in order for all.
-/
namespace GraphQL

open Ast TypeSystem

/-- The position of a field, not of an item of a list. -/
def IsFieldPath (p : List PathElement) : Prop := ∃ parent key, p = parent ++ [.key key]

/-- The type of `__typename` is not a scalar of the schema but has fields. -/
def Schema.stringIsComposite (schema : Schema) : Bool :=
  (schema.type? "String").any (·.isComposite)

def AllReturned (notes : List Note) : Prop := ∀ p, .called p ∈ notes → .returned p ∈ notes

/-- Notes of positions below a path. -/
structure NotesInOrder (schema : Schema) (path : List PathElement) (notes : List Note) : Prop where
  below : ∀ n ∈ notes, path <+: n.path ∧ n.path ≠ path
  /-- A resolver is called at most once for a position, or a property is looked up once. -/
  once : ∀ p, notes.filter (·.path = p) <+: [.called p, .returned p] ∨
    notes.filter (·.path = p) <+: [.found p]
  /-- What is noted of a position comes after the fields above it are resolved. A field `__typename`
  is resolved without a note; there are fields below it only if the schema makes `String` a
  composite type. -/
  after : ∀ before n rest, notes = before ++ n :: rest →
    ∀ p, path <+: p → p ≠ path → p <+: n.path → p ≠ n.path → IsFieldPath p →
      .returned p ∈ before ∨ .found p ∈ before ∨
        (schema.stringIsComposite ∧ ∀ m ∈ notes, m.path ≠ p)

variable {schema : Schema} {path : List PathElement} {notes : List Note}

theorem length_lt_of_isPrefix {α : Type} {p q : List α} (h : p <+: q) (hne : q ≠ p) :
    p.length < q.length :=
  Nat.lt_of_le_of_ne h.length_le fun he => hne (h.eq_of_length he).symm

theorem step_isPrefix {p q : List PathElement} {e : PathElement} (hp : path <+: p) (hne : p ≠ path)
    (he : path ++ [e] <+: q) (hq : p <+: q) : path ++ [e] <+: p := by
  apply List.prefix_of_prefix_length_le he hq
  have longer := length_lt_of_isPrefix hp hne
  simp only [List.length_append, List.length_singleton]
  omega

theorem prefix_of_step {q : List PathElement} {e : PathElement} (h : path ++ [e] <+: q) :
    path <+: q ∧ q ≠ path := by
  refine ⟨(List.prefix_append _ _).trans h, ?_⟩
  rintro rfl
  have longer := h.length_le
  simp only [List.length_append, List.length_singleton] at longer
  omega

theorem step_unique {q : List PathElement} {d e : PathElement} (hd : path ++ [d] <+: q)
    (he : path ++ [e] <+: q) : d = e := by
  have same := (List.prefix_of_prefix_length_le hd he (by simp)).eq_of_length (by simp)
  simpa using same

theorem split_of_notMem {α : Type} {first rest before after : List α} {a : α}
    (h : first ++ rest = before ++ a :: after) (ha : a ∉ first) :
    ∃ more, before = first ++ more ∧ rest = more ++ a :: after := by
  rcases List.append_eq_append_iff.mp h with ⟨more, rfl, hr⟩ | ⟨more, rfl, hr⟩
  · exact ⟨more, rfl, hr⟩
  · cases more with
    | nil => exact ⟨[], by simp, hr.symm⟩
    | cons b more =>
      obtain ⟨rfl, -⟩ := List.cons.inj hr
      simp at ha

namespace NotesInOrder

theorem nil : NotesInOrder schema path [] :=
  ⟨nofun, fun _ => .inl (List.nil_prefix), fun before n rest h => by simp at h⟩

/-- Positions of fields below an item of a list are below the list. -/
theorem of_index {i : Nat} (h : NotesInOrder schema (path ++ [.index i]) notes) :
    NotesInOrder schema path notes := by
  refine ⟨fun n hn => prefix_of_step (h.below n hn).1, h.once, ?_⟩
  intro before n rest hb p hp hne hn hnn isField
  have item := (h.below n (by simp [hb])).1
  refine h.after before n rest hb p (step_isPrefix hp hne item hn) ?_ hn hnn isField
  rintro rfl
  obtain ⟨parent, key, he⟩ := isField
  simpa using (List.append_inj' he rfl).2

theorem gather (steps : List PathElement)
    (below : ∀ n ∈ notes, ∃ e ∈ steps, path ++ [e] <+: n.path)
    (each : ∀ e ∈ steps, NotesInOrder schema path (notes.filter (path ++ [e] <+: ·.path))) :
    NotesInOrder schema path notes := by
  constructor
  · intro n hn
    obtain ⟨e, -, he⟩ := below n hn
    exact prefix_of_step he
  · intro p
    by_cases noted : ∃ n ∈ notes, n.path = p
    · obtain ⟨n, hn, rfl⟩ := noted
      obtain ⟨e, hmem, he⟩ := below n hn
      have once := (each e hmem).once n.path
      rw [List.filter_filter] at once
      have same : notes.filter (fun m => decide (m.path = n.path) &&
          decide (path ++ [e] <+: m.path)) = notes.filter (·.path = n.path) := by
        refine List.filter_congr fun m _ => ?_
        by_cases hm : m.path = n.path <;> simp [hm, he]
      rwa [same] at once
    · have none_noted : notes.filter (·.path = p) = [] :=
        List.filter_eq_nil_iff.mpr fun n hn h => noted ⟨n, hn, by simpa using h⟩
      rw [none_noted]
      exact .inl List.nil_prefix
  · intro before n rest hb p hp hne hn hnn isField
    obtain ⟨e, hmem, he⟩ := below n (by simp [hb])
    have split : notes.filter (path ++ [e] <+: ·.path) =
        before.filter (path ++ [e] <+: ·.path) ++ n :: rest.filter (path ++ [e] <+: ·.path) := by
      rw [hb, List.filter_append, List.filter_cons_of_pos (by simpa using he)]
    rcases (each e hmem).after _ n _ split p hp hne hn hnn isField with h | h | ⟨composite, h⟩
    · exact .inl (List.mem_filter.mp h).1
    · exact .inr (.inl (List.mem_filter.mp h).1)
    · refine .inr (.inr ⟨composite, fun m hm same => ?_⟩)
      have under : path ++ [e] <+: m.path := same ▸ step_isPrefix hp hne he hn
      exact h m (List.mem_filter.mpr ⟨hm, by simpa using under⟩) same

theorem field {key : String} {first rest : List Note}
    (resolution : first <+: [.called (path ++ [.key key]), .returned (path ++ [.key key])] ∨
      first <+: [.found (path ++ [.key key])])
    (completion : NotesInOrder schema (path ++ [.key key]) rest)
    (resolved : rest ≠ [] → .returned (path ++ [.key key]) ∈ first ∨
      .found (path ++ [.key key]) ∈ first ∨ (schema.stringIsComposite ∧ first = [])) :
    NotesInOrder schema path (first ++ rest) ∧
      ∀ n ∈ first ++ rest, path ++ [.key key] <+: n.path := by
  have here (n : Note) (hn : n ∈ first) : n.path = path ++ [.key key] := by
    rcases resolution with h | h <;> have hn := h.subset hn <;> simp at hn
    · rcases hn with rfl | rfl <;> rfl
    · rw [hn]
      rfl
  have inside (n : Note) (hn : n ∈ first ++ rest) : path ++ [.key key] <+: n.path := by
    rcases List.mem_append.mp hn with hn | hn
    · exact here n hn ▸ List.prefix_rfl
    · exact (completion.below n hn).1
  refine ⟨⟨?_, ?_, ?_⟩, inside⟩
  · exact fun n hn => prefix_of_step (inside n hn)
  · intro p
    rw [List.filter_append]
    by_cases hp : p = path ++ [.key key]
    · subst hp
      have all : first.filter (·.path = path ++ [.key key]) = first :=
        List.filter_eq_self.mpr fun n hn => by simpa using here n hn
      have none_below : rest.filter (·.path = path ++ [.key key]) = [] :=
        List.filter_eq_nil_iff.mpr fun n hn => by simpa using (completion.below n hn).2
      rw [all, none_below, List.append_nil]
      exact resolution
    · have none_here : first.filter (·.path = p) = [] :=
        List.filter_eq_nil_iff.mpr fun n hn => by simpa [here n hn] using Ne.symm hp
      rw [none_here, List.nil_append]
      exact completion.once p
  · intro before n tail hb p hp hne hn hnn isField
    have step := step_isPrefix hp hne (inside n (by simp [hb])) hn
    have later : n ∉ first := by
      intro hf
      rw [here n hf] at hn hnn
      exact hnn (hn.eq_of_length_le step.length_le)
    obtain ⟨more, rfl, hr⟩ := split_of_notMem hb later
    by_cases same : p = path ++ [.key key]
    · subst same
      have some_below : rest ≠ [] := by simp [hr]
      rcases resolved some_below with h | h | ⟨composite, rfl⟩
      · exact .inl (List.mem_append_left _ h)
      · exact .inr (.inl (List.mem_append_left _ h))
      · exact .inr (.inr ⟨composite, fun m hm => (completion.below m hm).2⟩)
    · rcases completion.after more n tail hr p step same hn hnn isField with h | h | ⟨composite, h⟩
      · exact .inl (List.mem_append_right _ h)
      · exact .inr (.inl (List.mem_append_right _ h))
      · refine .inr (.inr ⟨composite, fun m hm => ?_⟩)
        rcases List.mem_append.mp hm with hm | hm
        · rw [here m hm]
          exact Ne.symm same
        · exact h m hm

end NotesInOrder

/-- What is noted below the first step is complete before anything is noted below the second. -/
def CompleteBefore (path : List PathElement) (first later : PathElement) (notes : List Note) :
    Prop :=
  ∀ before n rest, notes = before ++ n :: rest → path ++ [later] <+: n.path →
    (∀ m ∈ rest, ¬ path ++ [first] <+: m.path) ∧
      ∀ p, path ++ [first] <+: p → .called p ∈ before → .returned p ∈ before

/-- Notes below several steps, one step after another. -/
structure TakeTurns (schema : Schema) (path : List PathElement) (steps : List PathElement)
    (notes : List Note) : Prop where
  below : ∀ n ∈ notes, ∃ e ∈ steps, path ++ [e] <+: n.path
  inOrder : ∀ e ∈ steps, NotesInOrder schema path (notes.filter (path ++ [e] <+: ·.path))
  serial : steps.Pairwise fun first later => CompleteBefore path first later notes

namespace TakeTurns

theorem nil (steps : List PathElement) : TakeTurns schema path steps [] := by
  refine ⟨nofun, fun _ _ => .nil, List.pairwise_of_forall fun _ _ before n rest h => ?_⟩
  simp at h

/-- The first step has its turn; the others only once all resolvers called in it have completed. -/
theorem cons {e : PathElement} {steps : List PathElement} {first rest : List Note}
    (fresh : e ∉ steps) (inOrder : NotesInOrder schema path first)
    (within : ∀ n ∈ first, path ++ [e] <+: n.path) (returned : rest ≠ [] → AllReturned first)
    (turns : TakeTurns schema path steps rest) :
    TakeTurns schema path (e :: steps) (first ++ rest) := by
  have apart {f : PathElement} (hf : f ∈ steps) {q : List PathElement}
      (he : path ++ [e] <+: q) : ¬ path ++ [f] <+: q :=
    fun h => fresh (step_unique he h ▸ hf)
  have rest_apart {n : Note} (hn : n ∈ rest) : ¬ path ++ [e] <+: n.path := by
    obtain ⟨f, hf, h⟩ := turns.below n hn
    exact fun he => apart hf he h
  -- what is noted in a later turn follows all of the first
  have later {f : PathElement} (hf : f ∈ steps) {before after : List Note} {n : Note}
      (h : first ++ rest = before ++ n :: after) (hn : path ++ [f] <+: n.path) :
      ∃ more, before = first ++ more ∧ rest = more ++ n :: after :=
    split_of_notMem h fun hmem => apart hf (within n hmem) hn
  constructor
  · intro n hn
    rcases List.mem_append.mp hn with hn | hn
    · exact ⟨e, List.mem_cons_self, within n hn⟩
    · obtain ⟨f, hf, h⟩ := turns.below n hn
      exact ⟨f, List.mem_cons_of_mem _ hf, h⟩
  · intro f hf
    rw [List.filter_append]
    rcases List.mem_cons.mp hf with rfl | hf
    · have all : first.filter (path ++ [f] <+: ·.path) = first :=
        List.filter_eq_self.mpr fun n hn => by simpa using within n hn
      have none_after : rest.filter (path ++ [f] <+: ·.path) = [] :=
        List.filter_eq_nil_iff.mpr fun n hn => by simpa using rest_apart hn
      rw [all, none_after, List.append_nil]
      exact inOrder
    · have none_before : first.filter (path ++ [f] <+: ·.path) = [] :=
        List.filter_eq_nil_iff.mpr fun n hn => by simpa using apart hf (within n hn)
      rw [none_before, List.nil_append]
      exact turns.inOrder f hf
  · refine List.pairwise_cons.mpr ⟨fun f hf => ?_, turns.serial.imp_of_mem fun {f g} hf hg h => ?_⟩
    · intro before n after hb hn
      obtain ⟨more, rfl, rfl⟩ := later hf hb hn
      refine ⟨fun m hm => rest_apart (by simp [hm]), fun p hp called => ?_⟩
      rcases List.mem_append.mp called with called | called
      · exact List.mem_append_left _ (returned (by simp) p called)
      · exact absurd hp (rest_apart (List.mem_append_left _ called))
    · intro before n after hb hn
      obtain ⟨more, rfl, hr⟩ := later hg hb hn
      obtain ⟨none_after, complete⟩ := h more n after hr hn
      refine ⟨none_after, fun p hp called => ?_⟩
      rcases List.mem_append.mp called with called | called
      · exact absurd hp (apart hf (within _ called))
      · exact List.mem_append_right _ (complete p hp called)

end TakeTurns

namespace Work

variable {σ α β κ : Type} {w : Work (Noted σ) RecordedError α}

def Silent (w : Work (Noted σ) RecordedError α) : Prop := ∀ notes r, w.Shows notes r → notes = []

/-- The work resolves fields below a path, in order; once it is done, all resolvers have
completed. -/
structure ResolvesBelow (schema : Schema) (path : List PathElement)
    (w : Work (Noted σ) RecordedError α) : Prop where
  inOrder : ∀ notes r, w.Shows notes r → NotesInOrder schema path notes
  returned : ∀ notes a, w.Shows notes (some a) → AllReturned notes

/-- The work resolves fields at and below a step from the path. -/
structure ResolvesAt (schema : Schema) (path : List PathElement) (step : PathElement)
    (w : Work (Noted σ) RecordedError α) : Prop extends w.ResolvesBelow schema path where
  within : ∀ notes r, w.Shows notes r → ∀ n ∈ notes, path ++ [step] <+: n.path

theorem silent_done (a : α) : (done a : Work (Noted σ) RecordedError α).Silent :=
  fun _ _ h => h.of_done

theorem silent_record (e : RecordedError) (a : α) :
    (record e (done a) : Work (Noted σ) RecordedError α).Silent := by
  intro notes r h
  cases h with
  | cut => rfl
  | record h => exact h.of_done

theorem Silent.map (h : w.Silent) (f : α → β) : (w.map f).Silent := by
  intro notes r hw
  obtain ⟨r', hw, -⟩ := hw.of_map
  exact h notes r' hw

theorem Silent.bind (h : w.Silent) {f : α → Work (Noted σ) RecordedError β}
    (hf : ∀ a, (f a).Silent) : (w.bind f).Silent := by
  intro notes r hw
  rcases hw.of_bind with ⟨hw, -⟩ | ⟨a, first, rest, ha, hr, rfl⟩
  · exact h notes none hw
  · rw [h first _ ha, hf a rest r hr]
    rfl

theorem Silent.resolvesBelow (h : w.Silent) : w.ResolvesBelow schema path := by
  refine ⟨fun notes r hw => ?_, fun notes a hw => ?_⟩
  · obtain rfl := h notes r hw
    exact .nil
  · obtain rfl := h notes _ hw
    exact nofun

/-- Of works at different steps, side by side: each note is one of theirs, and the notes below a
step are those of its work. -/
theorem shows_of_join (scheduler : Scheduler (Noted σ) RecordedError α) {items : List κ}
    (step : κ → PathElement) {work : κ → Work (Noted σ) RecordedError α}
    (distinct : (items.map step).Nodup)
    (each : ∀ k ∈ items, (work k).ResolvesAt schema path (step k)) {r : Option (List α)}
    (hw : (scheduler.join (items.map work)).Shows notes r) :
    (∀ n ∈ notes, ∃ k ∈ items, path ++ [step k] <+: n.path) ∧
      ∀ k ∈ items, ∃ r', (work k).Shows (notes.filter (path ++ [step k] <+: ·.path)) r' ∧
        (r.isSome = true → r'.isSome = true) := by
  let own (i : Nat) (n : Note) : Bool := items[i]?.any fun k => path ++ [step k] <+: n.path
  have of_own {i : Nat} {n : Note} (h : own i n = true) :
      ∃ k, items[i]? = some k ∧ path ++ [step k] <+: n.path := by
    cases hk : items[i]? with
    | none => simp [own, hk] at h
    | some k => exact ⟨k, rfl, by simpa [own, hk] using h⟩
  have own_eq {i : Nat} {k : κ} (hk : items[i]? = some k) :
      own i = fun n => decide (path ++ [step k] <+: n.path) := by
    funext n
    simp only [own, hk, Option.any_some]
  have apart : Apart own (items.map work) := by
    constructor
    · intro i j n hi hj
      obtain ⟨k, hk, hkn⟩ := of_own hi
      obtain ⟨l, hl, hln⟩ := of_own hj
      have bound : i < (items.map step).length := by
        simpa using (List.getElem?_eq_some_iff.mp hk).1
      apply (List.getElem?_inj bound distinct).mp
      rw [List.getElem?_map, List.getElem?_map, hk, hl, Option.map_some, Option.map_some,
        step_unique hkn hln]
    · intro i v hv
      rw [List.getElem?_map] at hv
      obtain ⟨k, hk, rfl⟩ := Option.map_eq_some_iff.mp hv
      rw [own_eq hk]
      intro notes r hw n hn
      simpa using (each k (List.mem_of_getElem? hk)).within notes r hw n hn
  obtain ⟨owned, shows⟩ := (scheduler.interleaves _).apportions apart hw
  constructor
  · intro n hn
    obtain ⟨i, hi⟩ := owned n hn
    obtain ⟨k, hk, hkn⟩ := of_own hi
    exact ⟨k, List.mem_of_getElem? hk, hkn⟩
  · intro k hk
    obtain ⟨i, hi⟩ := List.mem_iff_getElem?.mp hk
    have shown := shows i (work k) (by simp [hi])
    rwa [own_eq hi] at shown

namespace ResolvesBelow

theorem map (h : w.ResolvesBelow schema path) (f : α → β) :
    (w.map f).ResolvesBelow schema path := by
  refine ⟨fun notes r hw => ?_, fun notes a hw => ?_⟩
  · obtain ⟨r', hw, -⟩ := hw.of_map
    exact h.inOrder notes r' hw
  · obtain ⟨r', hw, hr⟩ := hw.of_map
    obtain ⟨b, rfl, -⟩ := Option.map_eq_some_iff.mp hr.symm
    exact h.returned notes b hw

theorem bind_silent (h : w.ResolvesBelow schema path) {f : α → Work (Noted σ) RecordedError β}
    (hf : ∀ a, (f a).Silent) : (w.bind f).ResolvesBelow schema path := by
  refine ⟨fun notes r hw => ?_, fun notes b hw => ?_⟩
  · rcases hw.of_bind with ⟨hw, -⟩ | ⟨a, first, rest, ha, hr, rfl⟩
    · exact h.inOrder notes none hw
    · rw [hf a rest r hr, List.append_nil]
      exact h.inOrder first _ ha
  · rcases hw.of_bind with ⟨-, hr⟩ | ⟨a, first, rest, ha, hr, rfl⟩
    · cases hr
    · rw [hf a rest _ hr, List.append_nil]
      exact h.returned first a ha

theorem of_silent_bind (h : w.Silent) {f : α → Work (Noted σ) RecordedError β}
    (hf : ∀ a, (f a).ResolvesBelow schema path) : (w.bind f).ResolvesBelow schema path := by
  refine ⟨fun notes r hw => ?_, fun notes b hw => ?_⟩
  · rcases hw.of_bind with ⟨hw, -⟩ | ⟨a, first, rest, ha, hr, rfl⟩
    · rw [h notes none hw]
      exact .nil
    · rw [h first _ ha, List.nil_append]
      exact (hf a).inOrder rest r hr
  · rcases hw.of_bind with ⟨-, hr⟩ | ⟨a, first, rest, ha, hr, rfl⟩
    · cases hr
    · rw [h first _ ha, List.nil_append]
      exact (hf a).returned rest b hr

theorem at_index {i : Nat} (h : w.ResolvesBelow schema (path ++ [.index i])) :
    w.ResolvesAt schema path (.index i) where
  inOrder notes r hw := (h.inOrder notes r hw).of_index
  returned := h.returned
  within notes r hw n hn := ((h.inOrder notes r hw).below n hn).1

theorem join (scheduler : Scheduler (Noted σ) RecordedError α) {items : List κ}
    (step : κ → PathElement) {work : κ → Work (Noted σ) RecordedError α}
    (distinct : (items.map step).Nodup)
    (each : ∀ k ∈ items, (work k).ResolvesAt schema path (step k)) :
    (scheduler.join (items.map work)).ResolvesBelow schema path := by
  constructor
  · intro notes r hw
    obtain ⟨owned, shown⟩ := shows_of_join scheduler step distinct each hw
    refine .gather (items.map step) (fun n hn => ?_) fun e he => ?_
    · obtain ⟨k, hk, hkn⟩ := owned n hn
      exact ⟨step k, List.mem_map_of_mem hk, hkn⟩
    · obtain ⟨k, hk, rfl⟩ := List.mem_map.mp he
      obtain ⟨r', hwk, -⟩ := shown k hk
      exact (each k hk).inOrder _ r' hwk
  · intro notes as hw p hp
    obtain ⟨owned, shown⟩ := shows_of_join scheduler step distinct each hw
    obtain ⟨k, hk, hkn⟩ := owned _ hp
    obtain ⟨r', hwk, ends⟩ := shown k hk
    obtain ⟨a, rfl⟩ := Option.isSome_iff_exists.mp (ends rfl)
    have mem : Note.called p ∈ notes.filter (path ++ [step k] <+: ·.path) :=
      List.mem_filter.mpr ⟨hp, by simpa using hkn⟩
    exact (List.mem_filter.mp ((each k hk).returned _ a hwk p mem)).1

end ResolvesBelow

end Work

end GraphQL
