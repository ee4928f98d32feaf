import GraphQL.Source.Lexer
import Mathlib.Tactic.SplitIfs

/-!
Byte offsets of positions. Main statements: whatever the position, its offset is where a character
of the text starts, or the end of the text; and the offset of the position after a part of the text
is the length of that part.
-/
namespace GraphQL

theorem bytes_append (xs ys : List Char) : bytes (xs ++ ys) = bytes xs + bytes ys := by
  induction xs with
  | nil => simp [bytes]
  | cons c xs ih => rw [List.cons_append, bytes, bytes, ih, Nat.add_assoc]

theorem bytes_pos {xs : List Char} (h : xs ≠ []) : 0 < bytes xs := by
  obtain ⟨c, rest, rfl⟩ := List.exists_cons_of_ne_nil h
  have := c.utf8Size_pos
  rw [bytes]
  omega

/-- A character starts after so many bytes, or the text ends there. -/
def IsBoundary (source : List Char) (n : Nat) : Prop :=
  ∃ before after, source = before ++ after ∧ bytes before = n

theorem IsBoundary.le {source : List Char} {n : Nat} (h : IsBoundary source n) :
    n ≤ bytes source := by
  obtain ⟨before, after, rfl, rfl⟩ := h
  rw [bytes_append]
  exact Nat.le_add_right _ _

namespace Position

theorem after_append (p : Position) (xs ys : List Char) :
    p.after (xs ++ ys) = (p.after xs).after ys := by
  induction xs generalizing p with
  | nil => rfl
  | cons c xs ih => rw [List.cons_append, after, after, ih]

theorem line_le_after (p : Position) (cs : List Char) : p.line ≤ (p.after cs).line := by
  induction cs generalizing p with
  | nil => exact Nat.le_refl _
  | cons c cs ih =>
    rw [after]
    refine Nat.le_trans ?_ (ih _)
    split <;> simp [nextLine, right]

end Position

namespace Lines

variable {source : List Char}

theorem mem_startsFrom {byte index : Nat} {cs : List Char} {s : LineStart}
    (h : s ∈ startsFrom byte index cs) :
    ∃ before, cs = before ++ s.text ∧ s.byte = byte + bytes before ∧
      s.index = index + before.length := by
  induction cs generalizing byte index with
  | nil => cases h
  | cons c cs ih =>
    have later (h : s ∈ startsFrom (byte + c.utf8Size) (index + 1) cs) : ∃ before,
        c :: cs = before ++ s.text ∧ s.byte = byte + bytes before ∧
          s.index = index + before.length := by
      obtain ⟨before, text, hb, hi⟩ := ih h
      refine ⟨c :: before, by rw [text, List.cons_append], ?_, ?_⟩
      · rw [bytes, hb]
        omega
      · rw [List.length_cons, hi]
        omega
    rw [startsFrom] at h
    split at h
    · rcases List.mem_cons.mp h with rfl | h
      · exact ⟨[c], rfl, by simp [bytes], rfl⟩
      · exact later h
    · exact later h

theorem mem_starts {s : LineStart} (h : s ∈ (ofText source).starts) :
    ∃ before, source = before ++ s.text ∧ s.byte = bytes before ∧ s.index = before.length := by
  rcases List.mem_cons.mp h with rfl | h
  · exact ⟨[], rfl, rfl, rfl⟩
  · obtain ⟨before, text, hb, hi⟩ := mem_startsFrom h
    exact ⟨before, text, by omega, by omega⟩

/-- The offset of a position is the length of the characters before it. -/
theorem offset_eq_bytes_take (p : Position) :
    (ofText source).offset p = bytes (source.take ((ofText source).charsBefore p)) := by
  unfold offset charsBefore
  cases hs : (ofText source).starts[p.line - 1]? with
  | none =>
    dsimp only
    rw [size, show (ofText source).source = source from rfl, List.take_length]
  | some s =>
    obtain ⟨before, text, hb, hi⟩ := mem_starts (List.mem_of_getElem? hs)
    dsimp only
    rw [text, hb, hi, List.take_length_add_append, bytes_append,
      ← List.take_eq_take_min]

theorem isBoundary_offset (source : List Char) (p : Position) :
    IsBoundary source ((ofText source).offset p) :=
  ⟨_, _, (List.take_append_drop _ _).symm, (offset_eq_bytes_take p).symm⟩

theorem offset_le_size (source : List Char) (p : Position) :
    (ofText source).offset p ≤ (ofText source).size :=
  (isBoundary_offset source p).le

theorem getElem?_starts_after (before rest mid : List Char) (byte line : Nat) (first : LineStart)
    (text : first.text = mid ++ (before ++ rest)) :
    ∃ s, (first :: startsFrom byte (first.index + mid.length) (before ++ rest))[
        ((⟨line, mid.length + 1⟩ : Position).after before).line - line]? = some s ∧
      s.index + min (((⟨line, mid.length + 1⟩ : Position).after before).column - 1) s.text.length =
        first.index + mid.length + before.length := by
  induction before generalizing mid byte line first with
  | nil =>
    refine ⟨first, by simp [Position.after], ?_⟩
    rw [text]
    simp [Position.after]
  | cons c before ih =>
    rw [List.cons_append, startsFrom, Position.after]
    by_cases newline : c = '\n'
    · rw [if_pos newline, if_pos newline, Position.nextLine]
      obtain ⟨s, found, index⟩ := ih [] (byte + c.utf8Size) (line + 1)
        ⟨byte + c.utf8Size, first.index + mid.length + 1, before ++ rest⟩ rfl
      have later : line + 1 ≤ ((⟨line + 1, 1⟩ : Position).after before).line :=
        Position.line_le_after ⟨line + 1, 1⟩ before
      have down : ((⟨line + 1, 1⟩ : Position).after before).line - line =
          ((⟨line + 1, 1⟩ : Position).after before).line - (line + 1) + 1 := by omega
      refine ⟨s, ?_, ?_⟩
      · rw [down, List.getElem?_cons_succ]
        exact found
      · refine index.trans ?_
        change first.index + mid.length + 1 + 0 + before.length = _
        rw [List.length_cons]
        omega
    · have right : (⟨line, mid.length + 1⟩ : Position).right 1 =
          ⟨line, (mid ++ [c]).length + 1⟩ := by
        simp [Position.right]
      have length : first.index + mid.length + 1 = first.index + (mid ++ [c]).length := by
        simp [Nat.add_assoc]
      rw [if_neg newline, if_neg newline, right, length]
      obtain ⟨s, found, index⟩ := ih (mid ++ [c]) (byte + c.utf8Size) line first (by simp [text])
      refine ⟨s, found, ?_⟩
      rw [index, ← length, List.length_cons]
      omega

/-- Before the position after a part of the text stands that part. -/
theorem charsBefore_after {before rest : List Char} (h : source = before ++ rest) :
    (ofText source).charsBefore (Position.start.after before) = before.length := by
  obtain ⟨s, found, index⟩ := getElem?_starts_after before rest [] 0 1 ⟨0, 0, source⟩ h
  rw [← h] at found
  unfold charsBefore
  rw [show (ofText source).starts[(Position.start.after before).line - 1]? = some s from found]
  simpa [Position.start] using index

theorem offset_after {before rest : List Char} (h : source = before ++ rest) :
    (ofText source).offset (Position.start.after before) = bytes before := by
  rw [offset_eq_bytes_take, charsBefore_after h, h, List.take_left]

theorem lastSpread_eq_after {p q : Position} {cs : List Char} (h : lastSpread p cs = some q) :
    ∃ before rest, cs = before ++ rest ∧ q = p.after before := by
  induction cs generalizing p with
  | nil => cases h
  | cons c cs ih =>
    rw [lastSpread] at h
    split at h
    · cases h
      obtain ⟨before, rest, rfl, rfl⟩ := ih ‹_›
      exact ⟨c :: before, rest, rfl, rfl⟩
    · split_ifs at h
      cases h
      exact ⟨[], c :: cs, rfl, rfl⟩

/-- The last three dots do not start before any three dots of the text. -/
theorem lastSpread_of_dots (p : Position) (dotsBefore rest : List Char) :
    ∃ before tail, dotsBefore ++ '.' :: '.' :: '.' :: rest = before ++ tail ∧
      lastSpread p (dotsBefore ++ '.' :: '.' :: '.' :: rest) = some (p.after before) ∧
        dotsBefore.length ≤ before.length := by
  induction dotsBefore generalizing p with
  | nil =>
    rw [List.nil_append, lastSpread]
    split
    · obtain ⟨before, tail, split, rfl⟩ := lastSpread_eq_after ‹_›
      exact ⟨'.' :: before, tail, by rw [split, List.cons_append], rfl, Nat.zero_le _⟩
    · exact ⟨[], _, rfl, by simp [Position.after], Nat.le_refl _⟩
  | cons c dotsBefore ih =>
    obtain ⟨before, tail, split, last, le⟩ := ih (if c = '\n' then p.nextLine else p.right 1)
    refine ⟨c :: before, tail, by rw [List.cons_append, split, List.cons_append], ?_, ?_⟩
    · rw [List.cons_append, lastSpread, last]
      rfl
    · simpa using le

/-- Of an inline fragment whose next token stands after the dots and a gap, the dots that are found
stand between these two. -/
theorem offset_spreadStart {dotsBefore gap rest : List Char}
    (h : source = dotsBefore ++ '.' :: '.' :: '.' :: gap ++ rest) :
    let p := Position.start.after (dotsBefore ++ '.' :: '.' :: '.' :: gap)
    bytes dotsBefore ≤ (ofText source).offset ((ofText source).spreadStart p) ∧
      (ofText source).offset ((ofText source).spreadStart p) ≤ (ofText source).offset p := by
  intro p
  have here : (ofText source).offset p = bytes (dotsBefore ++ '.' :: '.' :: '.' :: gap) :=
    offset_after h
  unfold spreadStart
  dsimp only
  split
  · rw [here, bytes_append]
    exact ⟨Nat.le_add_right _ _, Nat.le_refl _⟩
  · have taken : source.take ((ofText source).charsBefore p) =
        dotsBefore ++ '.' :: '.' :: '.' :: gap := by
      rw [charsBefore_after h, h, List.take_left]
    obtain ⟨before, tail, split, last, le⟩ := lastSpread_of_dots Position.start dotsBefore gap
    have found : source = before ++ (tail ++ rest) := by
      rw [h, split, List.append_assoc]
    rw [show (ofText source).source = source from rfl, taken, last, Option.getD_some,
      offset_after found, here, split, bytes_append]
    refine ⟨?_, Nat.le_add_right _ _⟩
    obtain ⟨more, rfl⟩ : dotsBefore <+: before :=
      List.prefix_of_prefix_length_le ⟨_, split⟩ ⟨_, rfl⟩ le
    rw [bytes_append]
    exact Nat.le_add_right _ _

end Lines

end GraphQL
