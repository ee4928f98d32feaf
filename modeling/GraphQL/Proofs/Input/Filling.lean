import GraphQL.Input.Arguments
import GraphQL.Input.Value
import Mathlib.Data.List.Forall2
import Mathlib.Data.Option.Basic

/-!
Objects that are filled by their definitions, one after another. The fields of input objects, from
literals and from runtime values, and the arguments of fields and directives are. Main statements:
what the keys of a filled object are, where its values come from, and that fields which correspond
make objects which correspond.
-/
namespace GraphQL

open TypeSystem

instance : Inhabited InputValue := ⟨⟨0, 0⟩, none, "", .named "", none, []⟩

/-- Fills an object with what definitions give. One that gives no value is left out, and one that
fails leaves no object. -/
def fill (give : InputValue → Option (Option Json)) :
    Entries Json → List InputValue → Option (Entries Json)
  | built, [] => some built
  | built, d :: rest =>
    match give d with
    | none => none
    | some none => fill give built rest
    | some (some value) => fill give (built.insert d.name value) rest

/-- A field that is absent takes its default; without one it must be nullable. -/
def absentGives (d : InputValue) : Option (Option Json) :=
  match d.default with
  | some default => some (some default.toJson)
  | none => if d.type.isNonNull then none else some none

/-- What a field of an input object is given by an object literal. -/
def literalGives (fields : Entries (Bool × TypedLiteral)) (d : InputValue) : Option (Option Json) :=
  match fields.get? d.name with
  | some (true, literal) => (literal d.type).map some
  | _ => absentGives d

/-- What a field of an input object is given by a runtime object. -/
def inputGives (inputs : Entries TypedInput) (d : InputValue) : Option (Option Json) :=
  match inputs.get? d.name with
  | some input => (input d.type).toOption.map some
  | none => absentGives d

/-- What an argument is given by what is written. -/
def argumentGives (schema : Schema) (vars : Entries Json) (arguments : List Ast.Argument)
    (d : InputValue) : Option (Option Json) :=
  (argumentValue schema vars d (writtenArgument arguments d.name)).toOption

theorem absentGives_eq_value {d : InputValue} {value : Json} :
    absentGives d = some (some value) ↔
      ∃ default, d.default = some default ∧ default.toJson = value := by
  unfold absentGives
  cases d.default with
  | none => cases d.type.isNonNull <;> simp
  | some default => simp

theorem default_of_absentGives {d : InputValue} (h : absentGives d = some none) :
    d.default = none := by
  unfold absentGives at h
  cases hd : d.default with
  | none => rfl
  | some default =>
    rw [hd] at h
    cases h

namespace Entries

variable {α β : Type}

theorem mem_insert {entries : Entries α} {key : String} {value : α} {e : String × α}
    (h : e ∈ entries.insert key value) : e = (key, value) ∨ e ∈ entries := by
  induction entries with
  | nil => exact .inl (List.mem_singleton.mp h)
  | cons first rest ih =>
    obtain ⟨k, v⟩ := first
    rw [insert] at h
    split_ifs at h with hk
    · rcases List.mem_cons.mp h with rfl | h
      · exact .inl (by rw [hk])
      · exact .inr (List.mem_cons_of_mem _ h)
    · rcases List.mem_cons.mp h with rfl | h
      · exact .inr List.mem_cons_self
      · exact (ih h).imp_right (List.mem_cons_of_mem _)

theorem mem_keys_insert (entries : Entries α) (key other : String) (value : α) :
    other ∈ (entries.insert key value).keys ↔ other = key ∨ other ∈ entries.keys := by
  rw [keys_insert]
  split
  · rename_i present
    constructor
    · exact .inr
    · rintro (rfl | h)
      · exact present
      · exact h
  · rw [List.mem_append, List.mem_singleton, or_comm]

theorem insert_of_not_mem {entries : Entries α} {key : String} (h : key ∉ entries.keys)
    (value : α) :
    entries.insert key value = entries ++ [(key, value)] := by
  induction entries with
  | nil => rfl
  | cons e entries ih =>
    obtain ⟨k, v⟩ := e
    rw [keys, List.map_cons, List.mem_cons, not_or] at h
    rw [insert, if_neg (Ne.symm h.1), ih h.2, List.cons_append]

theorem ofList_eq {entries : Entries α} (h : entries.keys.Nodup) : ofList entries = entries := by
  have built (done : Entries α) (hd : (done ++ entries).keys.Nodup) :
      entries.foldl (fun built e => built.insert e.1 e.2) done = done ++ entries := by
    induction entries generalizing done with
    | nil => exact (List.append_nil done).symm
    | cons e entries ih =>
      have split : done ++ e :: entries = (done ++ [(e.1, e.2)]) ++ entries := by
        rw [List.append_assoc, List.singleton_append]
      have absent : e.1 ∉ done.keys := by
        rw [keys, List.map_append, List.map_cons] at hd
        exact fun present => (List.nodup_append.mp hd).2.2 _ present _ List.mem_cons_self rfl
      rw [List.foldl_cons, insert_of_not_mem absent, split]
      exact ih (List.nodup_cons.mp h).2 _ (split ▸ hd)
  exact built [] h

theorem mem_keys_of_get? {entries : Entries α} {key : String} {value : α}
    (h : entries.get? key = some value) : key ∈ entries.keys :=
  List.mem_map_of_mem (mem_of_get? h)

theorem exists_get?_of_mem {entries : Entries α} {key : String} (h : key ∈ entries.keys) :
    ∃ value, entries.get? key = some value := by
  induction entries with
  | nil => cases h
  | cons e entries ih =>
    obtain ⟨k, v⟩ := e
    rw [get?]
    split_ifs with same
    · exact ⟨v, rfl⟩
    · exact ih ((List.mem_cons.mp h).resolve_left (Ne.symm same))

theorem nodup_insert {entries : Entries α} (h : entries.keys.Nodup) (key : String) (value : α) :
    (entries.insert key value).keys.Nodup := by
  rw [keys_insert]
  split
  · exact h
  · rename_i absent
    exact List.nodup_append.mpr ⟨h, List.pairwise_singleton _ key, fun k hk k' hk' same =>
      absent ((same.trans (List.mem_singleton.mp hk')) ▸ hk)⟩

theorem get?_of_mem {entries : Entries α} (h : entries.keys.Nodup) {e : String × α}
    (he : e ∈ entries) : entries.get? e.1 = some e.2 := by
  induction entries with
  | nil => cases he
  | cons first entries ih =>
    obtain ⟨k, v⟩ := first
    obtain ⟨absent, rest⟩ := List.nodup_cons.mp h
    rw [get?]
    rcases List.mem_cons.mp he with rfl | later
    · exact if_pos rfl
    · have member : e.1 ∈ entries.map Prod.fst := List.mem_map.mpr ⟨e, later, rfl⟩
      rw [if_neg fun (same : k = e.1) => absent (same ▸ member)]
      exact ih rest later

/-- Entries with the same keys in the same order, and related values under each. -/
def Related (R : String → α → β → Prop) : Entries α → Entries β → Prop :=
  List.Forall₂ fun e f => e.1 = f.1 ∧ R e.1 e.2 f.2

theorem Related.insert {R : String → α → β → Prop} {es : Entries α} {fs : Entries β} {key : String}
    {v : α} {w : β} (h : Related R es fs) (hv : R key v w) :
    Related R (es.insert key v) (fs.insert key w) := by
  induction h with
  | nil => exact .cons ⟨rfl, hv⟩ .nil
  | @cons e f es fs he h ih =>
    obtain ⟨k, a⟩ := e
    obtain ⟨k', b⟩ := f
    obtain ⟨rfl, hab⟩ : k = k' ∧ R k a b := he
    rw [Entries.insert, Entries.insert]
    split_ifs with hk
    · exact .cons ⟨rfl, hk ▸ hv⟩ h
    · exact .cons ⟨rfl, hab⟩ ih

theorem Related.keys_eq {R : String → α → β → Prop} {es : Entries α} {fs : Entries β}
    (h : Related R es fs) : es.keys = fs.keys := by
  induction h with
  | nil => rfl
  | cons he _ ih => exact congrArg₂ List.cons he.1 ih

theorem Related.eq {R : String → α → α → Prop} {es fs : Entries α} (h : Related R es fs)
    (own : ∀ e ∈ es, ∀ v, R e.1 e.2 v → v = e.2) : fs = es := by
  induction h with
  | nil => rfl
  | @cons e f es fs he _ ih =>
    obtain ⟨here, later⟩ := List.forall_mem_cons.mp own
    rw [ih later, ← Prod.ext he.1 (here f.2 he.2).symm]

theorem Related.get? {R : String → α → β → Prop} {es : Entries α} {fs : Entries β}
    (h : Related R es fs) {key : String} {v : α} (found : es.get? key = some v) :
    ∃ w, fs.get? key = some w ∧ R key v w := by
  induction h with
  | nil => cases found
  | @cons e f es fs he _ ih =>
    obtain ⟨k, a⟩ := e
    obtain ⟨k', b⟩ := f
    obtain ⟨rfl, hab⟩ : k = k' ∧ R k a b := he
    rw [Entries.get?] at found ⊢
    split_ifs at found ⊢ with same
    · cases found
      exact ⟨b, rfl, same ▸ hab⟩
    · exact ih found

end Entries

section

variable {give : InputValue → Option (Option Json)} {built out : Entries Json}
variable {ds : List InputValue}

theorem fill_cons_eq_some {d : InputValue} :
    fill give built (d :: ds) = some out ↔
      (give d = some none ∧ fill give built ds = some out) ∨
        ∃ value, give d = some (some value) ∧
          fill give (built.insert d.name value) ds = some out := by
  rw [fill]
  rcases give d with - | - | value <;> simp

theorem fill_congr {give' : InputValue → Option (Option Json)} (h : ∀ d ∈ ds, give d = give' d) :
    fill give built ds = fill give' built ds := by
  induction ds generalizing built with
  | nil => rfl
  | cons d ds ih =>
    obtain ⟨here, later⟩ := List.forall_mem_cons.mp h
    rw [fill, fill, here]
    rcases give' d with - | - | value
    · rfl
    · exact ih later
    · exact ih later

theorem fill_isSome : (fill give built ds).isSome = true ↔ ∀ d ∈ ds, (give d).isSome = true := by
  induction ds generalizing built with
  | nil => simp [fill]
  | cons d ds ih =>
    rw [fill, List.forall_mem_cons]
    rcases give d with - | - | value <;> simp [ih]

theorem exists_fill (h : ∀ d ∈ ds, (give d).isSome = true) : ∃ out, fill give [] ds = some out :=
  Option.isSome_iff_exists.mp (fill_isSome.mpr h)

/-- New keys are in the order of their definitions. -/
theorem keys_of_fill (h : fill give built ds = some out) :
    ∃ more, out.keys = built.keys ++ more ∧ more.Sublist (ds.map (·.name)) := by
  induction ds generalizing built with
  | nil =>
    cases h
    exact ⟨[], (List.append_nil _).symm, .slnil⟩
  | cons d ds ih =>
    rw [List.map_cons]
    rcases fill_cons_eq_some.mp h with ⟨-, h⟩ | ⟨value, -, h⟩
    · obtain ⟨more, keys, inOrder⟩ := ih h
      exact ⟨more, keys, inOrder.cons _⟩
    · obtain ⟨more, keys, inOrder⟩ := ih h
      rw [Entries.keys_insert] at keys
      split_ifs at keys
      · exact ⟨more, keys, inOrder.cons _⟩
      · exact ⟨d.name :: more, by rw [keys, List.append_assoc, List.singleton_append],
          inOrder.cons_cons _⟩

theorem keys_sublist_of_fill (h : fill give [] ds = some out) :
    out.keys.Sublist (ds.map (·.name)) := by
  obtain ⟨more, keys, inOrder⟩ := keys_of_fill h
  rw [keys]
  exact inOrder

theorem mem_of_fill (h : fill give built ds = some out) {e : String × Json} (he : e ∈ out) :
    e ∈ built ∨ ∃ d ∈ ds, d.name = e.1 ∧ give d = some (some e.2) := by
  induction ds generalizing built with
  | nil =>
    cases h
    exact .inl he
  | cons d ds ih =>
    rcases fill_cons_eq_some.mp h with ⟨-, h⟩ | ⟨value, given, h⟩
    · refine (ih h).imp_right ?_
      rintro ⟨c, hc, from_c⟩
      exact ⟨c, List.mem_cons_of_mem _ hc, from_c⟩
    · rcases ih h with inserted | ⟨c, hc, from_c⟩
      · rcases Entries.mem_insert inserted with rfl | old
        · exact .inr ⟨d, List.mem_cons_self, rfl, given⟩
        · exact .inl old
      · exact .inr ⟨c, List.mem_cons_of_mem _ hc, from_c⟩

theorem exists_of_mem_fill (h : fill give [] ds = some out) {e : String × Json} (he : e ∈ out) :
    ∃ d ∈ ds, d.name = e.1 ∧ give d = some (some e.2) :=
  (mem_of_fill h he).resolve_left List.not_mem_nil

theorem mem_keys_of_fill (h : fill give built ds = some out) {key : String}
    (hk : key ∈ built.keys ∨ ∃ d ∈ ds, d.name = key ∧ ∃ value, give d = some (some value)) :
    key ∈ out.keys := by
  induction ds generalizing built with
  | nil =>
    cases h
    exact hk.resolve_right (by simp)
  | cons d ds ih =>
    rcases fill_cons_eq_some.mp h with ⟨given, h⟩ | ⟨value, given, h⟩
    · refine ih h (hk.imp_right ?_)
      rintro ⟨c, hc, name, w, hw⟩
      rcases List.mem_cons.mp hc with rfl | hc
      · rw [given] at hw
        cases hw
      · exact ⟨c, hc, name, w, hw⟩
    · refine ih h ?_
      rw [Entries.mem_keys_insert]
      rcases hk with old | ⟨c, hc, name, w⟩
      · exact .inl (.inr old)
      · rcases List.mem_cons.mp hc with rfl | hc
        · exact .inl (.inl name.symm)
        · exact .inr ⟨c, hc, name, w⟩

theorem name_mem_of_fill (h : fill give [] ds = some out) {d : InputValue} (hd : d ∈ ds)
    (gives : give d ≠ some none) : d.name ∈ out.keys := by
  have given := fill_isSome.mp (Option.isSome_of_eq_some h) d hd
  match hg : give d with
  | none =>
    rw [hg] at given
    cases given
  | some none => exact absurd hg gives
  | some (some value) => exact mem_keys_of_fill h (.inr ⟨d, hd, rfl, value, hg⟩)

/-- Objects which correspond are filled to such objects. -/
theorem fill_related_from {give' : InputValue → Option (Option Json)}
    {R : String → Json → Json → Prop} {built' : Entries Json}
    (gives : ∀ d ∈ ds, ∀ given, give d = some given →
      ∃ given', give' d = some given' ∧ Option.Rel (R d.name) given given')
    (before : Entries.Related R built built') (h : fill give built ds = some out) :
    ∃ out', fill give' built' ds = some out' ∧ Entries.Related R out out' := by
  induction ds generalizing built built' with
  | nil =>
    cases h
    exact ⟨built', rfl, before⟩
  | cons d ds ih =>
    obtain ⟨here, later⟩ := List.forall_mem_cons.mp gives
    rcases fill_cons_eq_some.mp h with ⟨given, h⟩ | ⟨value, given, h⟩
    · obtain ⟨given', hg, related⟩ := here _ given
      cases related
      obtain ⟨out', filled, all⟩ := ih later before h
      exact ⟨out', fill_cons_eq_some.mpr (.inl ⟨hg, filled⟩), all⟩
    · obtain ⟨given', hg, related⟩ := here _ given
      cases related with
      | some hv =>
        obtain ⟨out', filled, all⟩ := ih later (before.insert hv) h
        exact ⟨out', fill_cons_eq_some.mpr (.inr ⟨_, hg, filled⟩), all⟩

theorem fill_related {give' : InputValue → Option (Option Json)} {R : String → Json → Json → Prop}
    (gives : ∀ d ∈ ds, ∀ given, give d = some given →
      ∃ given', give' d = some given' ∧ Option.Rel (R d.name) given given')
    (h : fill give [] ds = some out) :
    ∃ out', fill give' [] ds = some out' ∧ Entries.Related R out out' :=
  fill_related_from gives .nil h

theorem nodup_of_fill (h : fill give built ds = some out) (before : built.keys.Nodup) :
    out.keys.Nodup := by
  induction ds generalizing built with
  | nil =>
    cases h
    exact before
  | cons d ds ih =>
    rcases fill_cons_eq_some.mp h with ⟨-, h⟩ | ⟨value, -, h⟩
    · exact ih h before
    · exact ih h (Entries.nodup_insert before _ _)

/-- A filled object is filled again, in the same order, where its definitions give what it holds
under their names. -/
theorem fill_again {give' : InputValue → Option (Option Json)} (h : fill give [] ds = some out)
    (absent : ∀ d ∈ ds, give d = some none → give' d = some none)
    (present : ∀ d ∈ ds, ∀ value, out.get? d.name = some value → give' d = some (some value)) :
    fill give' [] ds = some out := by
  have keys : out.keys.Nodup := nodup_of_fill h List.nodup_nil
  have gives : ∀ d ∈ ds, ∀ given, give d = some given →
      ∃ given', give' d = some given' ∧
        Option.Rel (fun _ value => out.get? d.name = some value) given given' := by
    intro d hd given hg
    cases given with
    | none => exact ⟨none, absent d hd hg, .none⟩
    | some _ =>
      obtain ⟨value, hv⟩ := Entries.exists_get?_of_mem (name_mem_of_fill h hd (by simp [hg]))
      exact ⟨some value, present d hd value hv, .some hv⟩
  obtain ⟨out', filled, related⟩ :=
    fill_related (R := fun key _ value => out.get? key = some value) gives h
  have same : out' = out := related.eq fun e he value found =>
    Option.some.inj (found.symm.trans (Entries.get?_of_mem keys he))
  rw [filled, same]

end

theorem literalFields_eq_fill (fields : Entries (Bool × TypedLiteral)) (built : Entries Json)
    (ds : List InputValue) :
    literalFields fields built ds = fill (literalGives fields) built ds := by
  induction ds generalizing built with
  | nil => rfl
  | cons d ds ih =>
    rw [literalFields, fill, literalGives, absentGives]
    rcases fields.get? d.name with - | ⟨provided, literal⟩
    · rcases d.default with - | default <;> cases d.type.isNonNull <;> simp [ih]
    · cases provided with
      | false => rcases d.default with - | default <;> cases d.type.isNonNull <;> simp [ih]
      | true => cases hl : literal d.type <;> simp [hl, ih]

theorem coerceFields_toOption (value : Json) (inputs : Entries TypedInput) (built : Entries Json)
    (ds : List InputValue) :
    (coerceFields value inputs built ds).toOption = fill (inputGives inputs) built ds := by
  have failing {α : Type} (es : List InputError) (result : Coerced α) :
      (result.failing es).toOption = none := by cases result <;> rfl
  induction ds generalizing built with
  | nil => rfl
  | cons d ds ih =>
    rw [coerceFields, fill, inputGives, absentGives]
    rcases inputs.get? d.name with - | input
    · rcases d.default with - | default <;> cases d.type.isNonNull <;> simp [ih, failing]
    · cases hi : input d.type with
      | error es =>
        simp only [hi, failing]
        rfl
      | ok v =>
        simp only [hi]
        exact ih (built.insert d.name v)

theorem argumentValuesFrom_toOption (schema : Schema) (vars : Entries Json)
    (arguments : List Ast.Argument) (built : Entries Json) (ds : List InputValue) :
    (argumentValuesFrom schema vars arguments built ds).toOption =
      fill (argumentGives schema vars arguments) built ds := by
  induction ds generalizing built with
  | nil => rfl
  | cons d ds ih =>
    rw [argumentValuesFrom, fill, argumentGives]
    rcases argumentValue schema vars d (writtenArgument arguments d.name) with e | - | value
    · rfl
    · exact ih built
    · exact ih (built.insert d.name value)

end GraphQL
