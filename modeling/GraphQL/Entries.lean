/-!
Association lists in insertion order. Writing a key that is present replaces its value in
place, so the order of keys is that of their first insertion.
-/
namespace GraphQL

abbrev Entries (α : Type) := List (String × α)

namespace Entries

variable {α : Type}

/-- The value of the first entry with this key. -/
def get? : Entries α → String → Option α
  | [], _ => none
  | (k, v) :: rest, key => if k = key then some v else get? rest key

def contains (entries : Entries α) (key : String) : Bool := (entries.get? key).isSome

def keys (entries : Entries α) : List String := entries.map Prod.fst

/-- Replaces the value of the key in place, or appends a new entry. -/
def insert : Entries α → String → α → Entries α
  | [], key, value => [(key, value)]
  | (k, v) :: rest, key, value =>
    if k = key then (k, value) :: rest else (k, v) :: insert rest key value

/-- Appends an entry unless the key is present. -/
def insertNew (entries : Entries α) (key : String) (value : α) : Entries α :=
  if entries.contains key then entries else entries ++ [(key, value)]

/-- Applies a function to the value of the key, a missing one taken as `empty`. -/
def modify : Entries α → String → α → (α → α) → Entries α
  | [], key, empty, f => [(key, f empty)]
  | (k, v) :: rest, key, empty, f =>
    if k = key then (k, f v) :: rest else (k, v) :: modify rest key empty f

def ofList (entries : List (String × α)) : Entries α :=
  entries.foldl (fun built (key, value) => built.insert key value) []

theorem mem_of_get? {entries : Entries α} {key : String} {v : α} (h : entries.get? key = some v) :
    (key, v) ∈ entries := by
  induction entries with
  | nil => cases h
  | cons entry rest ih =>
    obtain ⟨k, w⟩ := entry
    by_cases hk : k = key
    · rw [get?, if_pos hk] at h
      cases h
      exact hk ▸ List.mem_cons_self
    · rw [get?, if_neg hk] at h
      exact List.mem_cons_of_mem _ (ih h)

theorem get?_insert (entries : Entries α) (key other : String) (value : α) :
    (entries.insert key value).get? other =
      if key = other then some value else entries.get? other := by
  induction entries with
  | nil => simp [insert, get?]
  | cons entry rest ih =>
    obtain ⟨k, v⟩ := entry
    by_cases hk : k = key
    · subst hk
      by_cases ho : k = other <;> simp [insert, get?, ho]
    · by_cases ho : k = other
      · subst ho
        simp [insert, get?, hk, Ne.symm hk]
      · simp [insert, get?, hk, ho, ih]

theorem get?_mapWithKey {β : Type} (entries : Entries α) (f : String → α → β) (key : String) :
    get? (entries.map fun e => (e.1, f e.1 e.2)) key = (entries.get? key).map (f key) := by
  induction entries with
  | nil => rfl
  | cons e entries ih =>
    rw [List.map_cons, get?, get?]
    split
    · rename_i same
      exact congrArg (fun k => some (f k e.2)) same
    · exact ih

theorem get?_map {β : Type} (entries : Entries α) (f : α → β) (key : String) :
    get? (entries.map fun e => (e.1, f e.2)) key = (entries.get? key).map f :=
  entries.get?_mapWithKey (fun _ => f) key

theorem keys_insert (entries : Entries α) (key : String) (value : α) :
    (entries.insert key value).keys =
      if key ∈ entries.keys then entries.keys else entries.keys ++ [key] := by
  induction entries with
  | nil => simp [insert, keys]
  | cons entry rest ih =>
    obtain ⟨k, v⟩ := entry
    by_cases hk : k = key
    · simp [insert, keys, hk]
    · simp only [keys] at ih
      simp only [insert, hk, keys, if_false, List.map_cons, List.mem_cons, Ne.symm hk, false_or, ih]
      split <;> simp_all

end Entries

end GraphQL
