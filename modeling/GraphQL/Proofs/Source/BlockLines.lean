import GraphQL.Proofs.Source.Layout
import GraphQL.Proofs.Source.Offsets
import GraphQL.Proofs.Source.TripleQuotes
import Mathlib.Data.List.DropRight

/-!
The values of block strings, line by line. Main statements: lines are the value of a block string
that has them on lines of its own, however far it is indented, if none of them is lost as blank line
and no indentation is common to them; and no other values come of such block strings.
-/
namespace GraphQL

open Ast

theorem joinLines_eq_intercalate (lines : List (List Char)) :
    joinLines lines = ['\n'].intercalate lines := by
  induction lines using joinLines.induct with
  | case1 => rfl
  | case2 line => simp [joinLines]
  | case3 line lines some ih =>
    rw [joinLines_cons line some, List.intercalate_cons_of_ne_nil some, ih, List.append_assoc]
    rfl

theorem joinLines_splitOn (cs : List Char) : joinLines (cs.splitOn '\n') = cs := by
  rw [joinLines_eq_intercalate, List.intercalate_splitOn]

theorem splitOn_joinLines {lines : List (List Char)} (h : ∀ line ∈ lines, '\n' ∉ line)
    (some : lines ≠ []) : (joinLines lines).splitOn '\n' = lines := by
  rw [joinLines_eq_intercalate, List.splitOn_intercalate _ h some]

theorem not_mem_splitOn {cs line : List Char} (h : line ∈ cs.splitOn '\n') : '\n' ∉ line := by
  induction cs generalizing line with
  | nil =>
    obtain rfl : line = [] := by simpa using h
    exact List.not_mem_nil
  | cons c cs ih =>
    rw [List.splitOn_cons_eq_if_modifyHead] at h
    obtain ⟨first, rest, split⟩ := List.exists_cons_of_ne_nil (List.splitOn_ne_nil '\n' cs)
    rw [split] at h ih
    split at h
    · rcases List.mem_cons.mp h with rfl | h
      · exact List.not_mem_nil
      · exact ih h
    next other =>
      rcases List.mem_cons.mp h with rfl | h
      · rw [List.mem_cons, not_or]
        exact ⟨fun newline => other (beq_iff_eq.mpr newline.symm), ih List.mem_cons_self⟩
      · exact ih (List.mem_cons_of_mem _ h)

theorem sublist_joinLines {lines : List (List Char)} {line : List Char} (h : line ∈ lines) :
    line.Sublist (joinLines lines) := by
  induction lines using joinLines.induct with
  | case1 => cases h
  | case2 =>
    rw [List.mem_singleton.mp h]
    exact .refl _
  | case3 first lines some ih =>
    rw [joinLines_cons first some]
    rcases List.mem_cons.mp h with rfl | h
    · exact List.sublist_append_left _ _
    · exact (ih h).trans ((List.sublist_cons_self _ _).trans (List.sublist_append_right _ _))

theorem splitLinesFrom_line {line : List Char} (h : '\n' ∉ line) (current rest : List Char) :
    splitLinesFrom current (line ++ rest) = splitLinesFrom (line.reverse ++ current) rest := by
  induction line generalizing current with
  | nil => rfl
  | cons c line ih =>
    rw [List.mem_cons, not_or] at h
    rw [List.cons_append, splitLinesFrom_cons (Ne.symm h.1), ih h.2]
    simp

theorem not_mem_splitLinesFrom {current cs line : List Char} (h : '\n' ∉ current)
    (hl : line ∈ splitLinesFrom current cs) : '\n' ∉ line := by
  induction cs generalizing current with
  | nil =>
    rw [splitLinesFrom] at hl
    split_ifs at hl
    · cases hl
    · rwa [List.mem_singleton.mp hl, List.mem_reverse]
  | cons c cs ih =>
    by_cases newline : c = '\n'
    · rw [splitLinesFrom.eq_def] at hl
      dsimp only at hl
      rw [if_pos newline] at hl
      rcases List.mem_cons.mp hl with rfl | hl
      · split
        · exact fun mem => h (List.mem_cons_of_mem _ (List.mem_reverse.mp mem))
        · exact fun mem => h (List.mem_reverse.mp mem)
      · exact ih List.not_mem_nil hl
    · rw [splitLinesFrom_cons newline] at hl
      exact ih (by simp [h, Ne.symm newline]) hl

theorem splitLines_joinLines {lines : List (List Char)} {last : List Char}
    (h : ∀ line ∈ lines ++ [last], '\n' ∉ line ∧ '\r' ∉ line) :
    splitLines (joinLines (lines ++ [last])) = lines ++ if last = [] then [] else [last] := by
  induction lines with
  | nil =>
    have all := splitLinesFrom_line (h last (by simp)).1 [] []
    rw [List.append_nil, List.append_nil] at all
    rw [splitLines, List.nil_append, joinLines, all, splitLinesFrom]
    by_cases none : last = [] <;> simp [none]
  | cons line lines ih =>
    rw [List.cons_append, List.forall_mem_cons] at h
    rw [List.cons_append, joinLines_cons _ (by simp), splitLines, splitLinesFrom_line h.1.1,
      List.append_nil, splitLinesFrom_newline (by simpa using h.1.2), List.reverse_reverse]
    exact congrArg (line :: ·) (ih h.2)

theorem dropBytes_append (cs ds : List Char) :
    dropBytes (bytes cs) (cs ++ ds) = dropBytes 0 ds := by
  induction cs with
  | nil => rfl
  | cons c cs ih =>
    rw [List.cons_append, bytes, dropBytes, if_pos (Nat.le_add_right _ _), Nat.add_sub_cancel_left,
      ih]

theorem dropBytes_zero (cs : List Char) : dropBytes 0 cs = cs := by
  cases cs with
  | nil => rfl
  | cons c cs => rw [dropBytes, if_neg (Nat.not_le_of_lt c.utf8Size_pos)]

theorem dedent_append (cs ds : List Char) : dedent (bytes cs) (cs ++ ds) = ds := by
  rw [dedent, if_pos (by rw [bytes_append]; omega), dropBytes_append, dropBytes_zero]

theorem bytes_spaces (n : Nat) : bytes (List.replicate n ' ') = n := by
  induction n with
  | zero => rfl
  | succ n ih =>
    rw [List.replicate_succ, bytes, ih, Nat.add_comm]
    rfl

theorem dedent_spaces (n : Nat) (cs : List Char) :
    dedent n (List.replicate n ' ' ++ cs) = cs := by
  have all := dedent_append (List.replicate n ' ') cs
  rwa [bytes_spaces] at all

theorem isBlankLine_spaces (n : Nat) (cs : List Char) :
    isBlankLine (List.replicate n ' ' ++ cs) = isBlankLine cs := by
  have blank : isWhiteSpace ' ' = true := by decide
  simp [isBlankLine, blank]

theorem indentation_spaces (n : Nat) (cs : List Char) :
    indentation (List.replicate n ' ' ++ cs) = n + indentation cs := by
  have blank : ∀ c ∈ List.replicate n ' ', isWhiteSpace c = true := by
    intro c hc
    rw [List.eq_of_mem_replicate hc]
    decide
  rw [indentation, List.takeWhile_append_of_pos blank, bytes_append, bytes_spaces, indentation]

theorem dedent_indentation (line : List Char) :
    dedent (indentation line) line = line.dropWhile isWhiteSpace := by
  have all := dedent_append (line.takeWhile isWhiteSpace) (line.dropWhile isWhiteSpace)
  rwa [List.takeWhile_append_dropWhile] at all

theorem commonIndentation_eq_min? (lines : List (List Char)) :
    commonIndentation lines =
      ((lines.filter fun line => !isBlankLine line).map indentation).min? := by
  induction lines with
  | nil => rfl
  | cons line lines ih =>
    rw [commonIndentation]
    split_ifs with blank
    · rw [ih, List.filter_cons_of_neg (by simp [blank])]
    · rw [List.filter_cons_of_pos (by simp [blank]), List.map_cons, List.min?_cons, ← ih]
      cases commonIndentation lines <;> rfl

/-- The common indentation is that of one of the lines that are not blank, and the least. -/
theorem commonIndentation_eq_some_iff {lines : List (List Char)} {n : Nat} :
    commonIndentation lines = some n ↔
      (∃ line ∈ lines, isBlankLine line = false ∧ indentation line = n) ∧
        ∀ line ∈ lines, isBlankLine line = false → n ≤ indentation line := by
  rw [commonIndentation_eq_min?, List.min?_eq_some_iff]
  simp only [List.mem_map, List.mem_filter, Bool.not_eq_true', and_assoc]
  refine and_congr_right fun _ => ⟨fun h line hl some => h _ ⟨line, hl, some, rfl⟩, ?_⟩
  rintro h _ ⟨line, hl, some, rfl⟩
  exact h line hl some

theorem commonIndentation_eq_none_iff {lines : List (List Char)} :
    commonIndentation lines = none ↔ ∀ line ∈ lines, isBlankLine line = true := by
  rw [commonIndentation_eq_min?, List.min?_eq_none_iff]
  simp

def IsFlush (line : List Char) : Prop := ∃ c ∈ line.head?, isWhiteSpace c = false

instance : DecidablePred IsFlush := fun line => line.head?.decidableExistsMem

theorem IsFlush.isBlankLine {line : List Char} (h : IsFlush line) : isBlankLine line = false := by
  obtain ⟨c, hc, some⟩ := h
  obtain ⟨rest, rfl⟩ := List.head?_eq_some_iff.mp hc
  simp [GraphQL.isBlankLine, some]

theorem IsFlush.indentation {line : List Char} (h : IsFlush line) : indentation line = 0 := by
  obtain ⟨c, hc, some⟩ := h
  obtain ⟨rest, rfl⟩ := List.head?_eq_some_iff.mp hc
  rw [GraphQL.indentation, List.takeWhile_cons_of_neg (by simp [some]), bytes]

theorem not_of_mem_head?_dropWhile {α : Type} {p : α → Bool} {l : List α} {x : α}
    (h : x ∈ (l.dropWhile p).head?) : p x = false := by
  have first := List.head?_dropWhile_not p l
  rw [Option.mem_def.mp h] at first
  simpa using first

/-- Without its whole indentation, a line that is not blank is flush. -/
theorem isFlush_dropWhile {line : List Char} (some : isBlankLine line = false) :
    IsFlush (line.dropWhile isWhiteSpace) := by
  have left : line.dropWhile isWhiteSpace ≠ [] := by
    intro none
    rw [List.dropWhile_eq_nil_iff] at none
    rw [isBlankLine, List.all_eq_false] at some
    obtain ⟨c, hc, other⟩ := some
    exact other (none c hc)
  have first := List.head?_eq_some_head left
  exact ⟨_, first, not_of_mem_head?_dropWhile first⟩

theorem isFlush_unescape {line : List Char} :
    IsFlush (unescapeTripleQuotes line) ↔ IsFlush line := by
  cases line using unescapeTripleQuotes.induct with
  | case1 => exact Iff.rfl
  | case2 rest => exact iff_of_true ⟨_, rfl, by decide⟩ ⟨_, rfl, by decide⟩
  | case3 c rest other =>
    rw [unescapeTripleQuotes.eq_3 _ _ other]
    exact Iff.rfl

theorem isFlush_escape {line : List Char} : IsFlush (escapeTripleQuotes line) ↔ IsFlush line := by
  rw [← isFlush_unescape, unescape_escape]

theorem isBlankLine_unescape (line : List Char) :
    isBlankLine (unescapeTripleQuotes line) = isBlankLine line := by
  have quote : isWhiteSpace '"' = false := by decide
  have backslash : isWhiteSpace '\\' = false := by decide
  induction line using unescapeTripleQuotes.induct with
  | case1 => rfl
  | case2 rest => simp [unescapeTripleQuotes, isBlankLine, quote, backslash]
  | case3 c rest other ih =>
    rw [unescapeTripleQuotes.eq_3 _ _ other]
    exact congrArg (isWhiteSpace c && ·) ih

theorem notBlank_map {f : List Char → List Char}
    (h : ∀ line, isBlankLine (f line) = isBlankLine line) {line? : Option (List Char)}
    (some : ∀ line ∈ line?, isBlankLine line = false) :
    ∀ line ∈ line?.map f, isBlankLine line = false := by
  cases line? with
  | none => nofun
  | some line =>
    rintro _ ⟨⟩
    rw [h, some line rfl]

theorem isBlankLine_escape (line : List Char) :
    isBlankLine (escapeTripleQuotes line) = isBlankLine line := by
  rw [← isBlankLine_unescape, unescape_escape]

def trimBlank (lines : List (List Char)) : List (List Char) :=
  ((lines.dropWhile isBlankLine).reverse.dropWhile isBlankLine).reverse

/-- The lines without the indentation common to them. -/
def unindented (lines : List (List Char)) : List (List Char) :=
  match commonIndentation lines with
  | none => lines
  | some n => lines.map (dedent n)

theorem blockStringValue_eq {raw first : List Char} {rest : List (List Char)}
    (h : splitLines raw = first :: rest) : blockStringValue raw =
      joinLines ((trimBlank (first :: unindented rest)).map unescapeTripleQuotes) := by
  rw [blockStringValue, h, unindented]
  dsimp only
  cases commonIndentation rest <;> rfl

theorem mem_trimBlank {lines : List (List Char)} {line : List Char} (h : line ∈ lines)
    (some : isBlankLine line = false) : line ∈ trimBlank lines := by
  have kept {ls : List (List Char)} (h : line ∈ ls) : line ∈ ls.dropWhile isBlankLine := by
    rw [← List.takeWhile_append_dropWhile (p := isBlankLine) (l := ls)] at h
    refine (List.mem_append.mp h).resolve_left fun h => ?_
    rw [List.all_eq_true.mp List.all_takeWhile line h] at some
    cases some
  exact List.mem_reverse.mpr (kept (List.mem_reverse.mpr (kept h)))

theorem trimBlank_sublist (lines : List (List Char)) : (trimBlank lines).Sublist lines :=
  (List.rdropWhile_prefix isBlankLine (lines.dropWhile isBlankLine)).sublist.trans
    (List.dropWhile_sublist isBlankLine)

theorem trimBlank_append {first : List Char} {lines after : List (List Char)}
    (blank : isBlankLine first = true) (some : lines ≠ [])
    (starts : ∀ line ∈ lines.head?, isBlankLine line = false)
    (ends : ∀ line ∈ lines.getLast?, isBlankLine line = false)
    (blanks : ∀ line ∈ after, isBlankLine line = true) :
    trimBlank (first :: (lines ++ after)) = lines := by
  have start : (lines ++ after).dropWhile isBlankLine = lines ++ after := by
    obtain ⟨line, rest, rfl⟩ := List.exists_cons_of_ne_nil some
    rw [List.cons_append, List.dropWhile_cons_of_neg (by simp [starts line rfl])]
  have stop : lines.reverse.dropWhile isBlankLine = lines.reverse := by
    obtain ⟨line, rest, reversed⟩ :=
      List.exists_cons_of_ne_nil (mt List.reverse_eq_nil_iff.mp some)
    have last : lines.getLast? = Option.some line := by
      rw [← List.head?_reverse, reversed]
      rfl
    rw [reversed, List.dropWhile_cons_of_neg (by simp [ends line last])]
  rw [trimBlank, List.dropWhile_cons_of_pos blank, start, List.reverse_append,
    List.dropWhile_append_of_pos (by simpa using blanks), stop, List.reverse_reverse]

theorem head?_trimBlank {lines : List (List Char)} :
    ∀ line ∈ (trimBlank lines).head?, isBlankLine line = false := by
  intro line h
  obtain ⟨after, whole⟩ := List.rdropWhile_prefix isBlankLine (lines.dropWhile isBlankLine)
  refine not_of_mem_head?_dropWhile (l := lines) (Option.mem_def.mpr ?_)
  rw [← whole, List.head?_append]
  exact Option.or_eq_some_iff.mpr (.inl h)

theorem getLast?_trimBlank {lines : List (List Char)} :
    ∀ line ∈ (trimBlank lines).getLast?, isBlankLine line = false := by
  intro line h
  rw [trimBlank, List.getLast?_reverse] at h
  exact not_of_mem_head?_dropWhile h

theorem dropBytes_sublist (n : Nat) (cs : List Char) : (dropBytes n cs).Sublist cs := by
  induction cs generalizing n with
  | nil => exact .slnil
  | cons c cs ih =>
    rw [dropBytes]
    split
    · exact (ih _).cons c
    · exact .refl _

theorem dedent_sublist (n : Nat) (line : List Char) : (dedent n line).Sublist line := by
  rw [dedent]
  split
  · exact dropBytes_sublist n line
  · exact .refl _

/-- Lines of which a block string loses none and no indentation. -/
structure KeepsLines (lines : List (List Char)) : Prop where
  first : ∀ line ∈ lines.head?, isBlankLine line = false
  last : ∀ line ∈ lines.getLast?, isBlankLine line = false
  flush : ∃ line ∈ lines, IsFlush line

instance : DecidablePred KeepsLines := fun lines =>
  decidable_of_iff ((∀ line ∈ lines.head?, isBlankLine line = false) ∧
      (∀ line ∈ lines.getLast?, isBlankLine line = false) ∧ ∃ line ∈ lines, IsFlush line)
    ⟨fun h => ⟨h.1, h.2.1, h.2.2⟩, fun h => ⟨h.first, h.last, h.flush⟩⟩

def ownLines (n : Nat) (lines : List (List Char)) : List (List Char) :=
  lines.map (List.replicate n ' ' ++ escapeTripleQuotes ·)

theorem KeepsLines.unindented {lines : List (List Char)} (keeps : KeepsLines lines) (n : Nat) :
    unindented (ownLines n lines ++ if n = 0 then [] else [List.replicate n ' ']) =
      lines.map escapeTripleQuotes ++ if n = 0 then [] else [[]] := by
  have blank : isBlankLine (List.replicate n ' ') = true := by
    have spaces := isBlankLine_spaces n []
    rwa [List.append_nil] at spaces
  have common : commonIndentation
      (ownLines n lines ++ if n = 0 then [] else [List.replicate n ' ']) = some n := by
    rw [commonIndentation_eq_some_iff]
    constructor
    · obtain ⟨line, hl, flush⟩ := keeps.flush
      have flush := isFlush_escape.mpr flush
      refine ⟨_, List.mem_append_left _ (List.mem_map_of_mem hl), ?_, ?_⟩
      · rw [isBlankLine_spaces, flush.isBlankLine]
      · rw [indentation_spaces, flush.indentation, Nat.add_zero]
    · intro line hl some
      rcases List.mem_append.mp hl with hl | hl
      · obtain ⟨line, -, rfl⟩ := List.mem_map.mp hl
        rw [indentation_spaces]
        exact Nat.le_add_right _ _
      · split_ifs at hl
        · cases hl
        · rw [List.mem_singleton.mp hl, blank] at some
          cases some
  have last : dedent n (List.replicate n ' ') = [] := by
    have spaces := dedent_spaces n []
    rwa [List.append_nil] at spaces
  rw [GraphQL.unindented, common]
  simp only [List.map_append, ownLines, List.map_map]
  congr 1
  · exact List.map_congr_left fun line _ => dedent_spaces n _
  · split_ifs <;> simp [last]

theorem splitLines_ownLines {lines : List (List Char)}
    (plain : ∀ line ∈ lines, '\n' ∉ line ∧ '\r' ∉ line) (n : Nat) :
    splitLines (joinLines ([] :: (ownLines n lines ++ [List.replicate n ' ']))) =
      [] :: (ownLines n lines ++ if n = 0 then [] else [List.replicate n ' ']) := by
  have spaces : '\n' ∉ List.replicate n ' ' ∧ '\r' ∉ List.replicate n ' ' := by simp
  have none : (List.replicate n ' ' = []) = (n = 0) := by simp
  rw [← List.cons_append, splitLines_joinLines, List.cons_append]
  · simp only [none]
  · intro line hl
    simp only [List.cons_append, List.mem_cons, List.mem_append, List.not_mem_nil, or_false] at hl
    rcases hl with rfl | hl | rfl
    · simp
    · obtain ⟨line, here, rfl⟩ := List.mem_map.mp hl
      rw [List.mem_append, List.mem_append, not_or, not_or, mem_escape (by decide),
        mem_escape (by decide)]
      exact ⟨⟨spaces.1, (plain line here).1⟩, spaces.2, (plain line here).2⟩
    · exact spaces

/-- Lines that are kept are the value of the block string, however far it is indented. -/
theorem KeepsLines.value {lines : List (List Char)} (keeps : KeepsLines lines)
    (plain : ∀ line ∈ lines, '\n' ∉ line ∧ '\r' ∉ line) (n : Nat) :
    blockStringValue (joinLines ([] :: (ownLines n lines ++ [List.replicate n ' ']))) =
      joinLines lines := by
  have some : lines ≠ [] := by
    obtain ⟨line, hl, -⟩ := keeps.flush
    exact List.ne_nil_of_mem hl
  have trimmed : trimBlank ([] :: (lines.map escapeTripleQuotes ++ if n = 0 then [] else [[]])) =
      lines.map escapeTripleQuotes := by
    refine trimBlank_append rfl (by simpa using some) ?_ ?_ ?_
    · rw [List.head?_map]
      exact notBlank_map isBlankLine_escape keeps.first
    · rw [List.getLast?_map]
      exact notBlank_map isBlankLine_escape keeps.last
    · intro line hl
      split_ifs at hl
      · cases hl
      · rw [List.mem_singleton.mp hl]
        rfl
  have unescaped : lines.map (unescapeTripleQuotes ∘ escapeTripleQuotes) = lines :=
    (List.map_congr_left fun line _ => unescape_escape line).trans (List.map_id' lines)
  rw [blockStringValue_eq (splitLines_ownLines plain n), keeps.unindented, trimmed, List.map_map,
    unescaped]

theorem sublist_of_mem_unindented {lines : List (List Char)} {row : List Char}
    (h : row ∈ unindented lines) : ∃ line ∈ lines, row.Sublist line := by
  unfold unindented at h
  split at h
  · exact ⟨row, h, .refl _⟩
  · obtain ⟨line, hl, rfl⟩ := List.mem_map.mp h
    exact ⟨line, hl, dedent_sublist _ _⟩

/-- Of lines that are not all blank, the least indented become flush. -/
theorem exists_flush_unindented {lines : List (List Char)} {row : List Char}
    (h : row ∈ unindented lines) (notBlank : isBlankLine row = false) :
    ∃ flush ∈ unindented lines, IsFlush flush := by
  have common : commonIndentation lines ≠ none := by
    rw [Ne, commonIndentation_eq_none_iff]
    intro blanks
    obtain ⟨line, hl, sub⟩ := sublist_of_mem_unindented h
    have all := List.all_eq_true.mp (blanks line hl)
    rw [isBlankLine, List.all_eq_true.mpr fun c hc => all c (sub.subset hc)] at notBlank
    cases notBlank
  obtain ⟨m, hm⟩ := Option.ne_none_iff_exists'.mp common
  obtain ⟨least, hleast, some, rfl⟩ := (commonIndentation_eq_some_iff.mp hm).1
  have flush := isFlush_dropWhile some
  rw [← dedent_indentation] at flush
  refine ⟨_, ?_, flush⟩
  rw [unindented, hm]
  exact List.mem_map_of_mem hleast

/-- The lines of what a block string stands for are kept, unless it starts in its first line. -/
theorem keepsLines_of_value {raw first : List Char} {rest : List (List Char)}
    (h : splitLines raw = first :: rest) (blank : isBlankLine first = true)
    (some : blockStringValue raw ≠ []) : KeepsLines ((blockStringValue raw).splitOn '\n') := by
  have oneLine : ∀ line ∈ first :: rest, '\n' ∉ line := fun line hl =>
    not_mem_splitLinesFrom List.not_mem_nil (h ▸ hl)
  have value := blockStringValue_eq h
  generalize hrows : first :: unindented rest = rows at value
  have kept : trimBlank rows ≠ [] := by
    intro none
    rw [none] at value
    exact some value
  have lines : ∀ line ∈ (trimBlank rows).map unescapeTripleQuotes, '\n' ∉ line := by
    intro line hl newline
    obtain ⟨row, hr, rfl⟩ := List.mem_map.mp hl
    have newline := (unescape_sublist row).subset newline
    have hr := (trimBlank_sublist rows).subset hr
    rw [← hrows, List.mem_cons] at hr
    rcases hr with rfl | hr
    · exact oneLine row List.mem_cons_self newline
    · obtain ⟨line, hl, sub⟩ := sublist_of_mem_unindented hr
      exact oneLine line (List.mem_cons_of_mem _ hl) (sub.subset newline)
  rw [value, splitOn_joinLines lines (by simpa using kept)]
  refine ⟨?_, ?_, ?_⟩
  · rw [List.head?_map]
    exact notBlank_map isBlankLine_unescape head?_trimBlank
  · rw [List.getLast?_map]
    exact notBlank_map isBlankLine_unescape getLast?_trimBlank
  · -- The first line is blank, so one after it is not.
    obtain ⟨row, more, starts⟩ := List.exists_cons_of_ne_nil kept
    have notBlank : isBlankLine row = false := head?_trimBlank row (by rw [starts]; rfl)
    have member : row ∈ rows := (trimBlank_sublist rows).subset (by rw [starts]; simp)
    rw [← hrows, List.mem_cons] at member
    have later : row ∈ unindented rest := member.resolve_left fun same => by
      rw [same, blank] at notBlank
      cases notBlank
    obtain ⟨least, hl, flush⟩ := exists_flush_unindented later notBlank
    have left : least ∈ trimBlank rows :=
      mem_trimBlank (hrows ▸ List.mem_cons_of_mem _ hl) flush.isBlankLine
    exact ⟨_, List.mem_map_of_mem left, isFlush_unescape.mpr flush⟩

/-- The line that is being read goes on with what it has, but for a carriage return at its end. -/
theorem splitLinesFrom_eq_cons {c : Char} (h : c ≠ '\r') (before more cs : List Char) :
    ∃ line rest,
      splitLinesFrom (more ++ c :: before) cs = (before.reverse ++ c :: line) :: rest := by
  induction cs generalizing more with
  | nil => exact ⟨more.reverse, [], by simp [splitLinesFrom]⟩
  | cons d cs ih =>
    by_cases newline : d = '\n'
    · rw [splitLinesFrom.eq_def]
      dsimp only
      rw [if_pos newline]
      split
      next current same =>
        cases more with
        | nil => exact absurd (List.cons_eq_cons.mp same).1 h
        | cons e more =>
          obtain ⟨rfl, rfl⟩ := List.cons_eq_cons.mp same
          exact ⟨more.reverse, splitLinesFrom [] cs, by simp⟩
      · exact ⟨more.reverse, splitLinesFrom [] cs, by simp⟩
    · rw [splitLinesFrom_cons newline]
      exact ih (d :: more)

/-- A text whose first line goes on with quotes has more of them than the line before these. -/
theorem count_quote_value {before : List Char} (oneLine : '\n' ∉ before)
    (some : isBlankLine before = false) (after : List Char) :
    before.count '"' + 3 ≤ (blockStringValue (before ++ '"' :: '"' :: '"' :: after)).count '"' := by
  obtain ⟨line, rest, rows⟩ : ∃ line rest,
      splitLines (before ++ '"' :: '"' :: '"' :: after) =
        (before ++ '"' :: '"' :: '"' :: line) :: rest := by
    have quotes : '\n' ∉ before ++ ['"', '"', '"'] := by simp [oneLine]
    have split := splitLinesFrom_line quotes [] after
    obtain ⟨line, rest, rows⟩ :=
      splitLinesFrom_eq_cons (c := '"') (by decide) ('"' :: '"' :: before.reverse) [] after
    refine ⟨line, rest, ?_⟩
    simp at split rows
    rw [splitLines, split, rows]
  have starts : isBlankLine (before ++ '"' :: '"' :: '"' :: line) = false := by
    rw [isBlankLine, List.all_append, ← isBlankLine, some, Bool.false_and]
  have kept := mem_trimBlank (List.mem_cons_self (l := unindented rest)) starts
  have unescaped := List.mem_map_of_mem (f := unescapeTripleQuotes) kept
  have count := (sublist_joinLines unescaped).count_le '"'
  rw [count_quote_unescape, ← blockStringValue_eq rows] at count
  refine Nat.le_trans ?_ count
  simp [List.count_append]

/-- The value of a single line, unless it is blank. -/
theorem blockStringValue_oneLine {line : List Char} (oneLine : '\n' ∉ line)
    (noReturn : '\r' ∉ line) :
    blockStringValue (escapeTripleQuotes line) = if isBlankLine line then [] else line := by
  have plain : ∀ row ∈ [] ++ [escapeTripleQuotes line], '\n' ∉ row ∧ '\r' ∉ row := by
    intro row hr
    rw [List.mem_singleton.mp hr, mem_escape (by decide), mem_escape (by decide)]
    exact ⟨oneLine, noReturn⟩
  have rows := splitLines_joinLines plain
  have blank : isBlankLine (escapeTripleQuotes line) = isBlankLine line := isBlankLine_escape line
  rw [List.nil_append, List.nil_append, joinLines] at rows
  by_cases none : escapeTripleQuotes line = []
  · rw [if_pos none] at rows
    rw [none] at blank
    rw [blockStringValue, rows, ← blank]
    rfl
  · rw [if_neg none] at rows
    rw [blockStringValue_eq rows, ← blank]
    change joinLines ((trimBlank [escapeTripleQuotes line]).map unescapeTripleQuotes) = _
    split_ifs with h
    · simp [trimBlank, h, joinLines]
    · simp [trimBlank, h, joinLines, unescape_escape]

end GraphQL
