import GraphQL.Proofs.Source.Offsets
import GraphQL.Proofs.Source.Spelling

/-!
Where the tokens of a text stand. Main statements: in a text whose blanks are counted as characters
of lines the text of every token stands at its position, one token after another; so their offsets
are increasing, and the dots of an inline fragment are found where they stand or after them.
-/
namespace GraphQL

/-- A text whose characters are counted one column each, and whose lines end with newlines: no tabs
and no byte order marks, and carriage returns only before newlines and where there are no comments,
which they would end. -/
structure PlainText (source : List Char) : Prop where
  tab : '\t' ∉ source
  mark : '\ufeff' ∉ source
  return_ : ∀ before after, source = before ++ '\r' :: after →
    '#' ∉ source ∧ after.head? = some '\n'

theorem PlainText.tail {before rest : List Char} (h : PlainText (before ++ rest)) :
    PlainText rest where
  tab mem := h.tab (List.mem_append_right _ mem)
  mark mem := h.mark (List.mem_append_right _ mem)
  return_ start after split := by
    obtain ⟨comment, newline⟩ :=
      h.return_ (before ++ start) after (by rw [split, List.append_assoc])
    exact ⟨fun mem => comment (List.mem_append_right _ mem), newline⟩

namespace Position

theorem nextLine_congr {p q : Position} (h : q.line = p.line) : q.nextLine = p.nextLine := by
  rw [nextLine, nextLine, h]

theorem after_cons_newline (p : Position) (cs : List Char) :
    p.after ('\n' :: cs) = p.nextLine.after cs := by
  rw [after, if_pos rfl]

theorem after_cons {c : Char} (h : c ≠ '\n') (p : Position) (cs : List Char) :
    p.after (c :: cs) = (p.right 1).after cs := by
  rw [after, if_neg h]

end Position

/-- What stands between two places is counted, up to the end of the text; in a comment the column
does not matter. -/
def Counted (inComment : Bool) (p : Position) (cs : List Char) (stop : Position × List Char) :
    Prop :=
  ∃ gap, cs = gap ++ stop.2 ∧ stop.2.head? ≠ some '\n' ∧
    (stop.2 ≠ [] → ∀ q : Position, q.line = p.line → (inComment = false → q = p) →
      stop.1 = q.after gap)

namespace Counted

variable {p : Position} {cs : List Char} {stop : Position × List Char}

theorem newline (inComment : Bool) (h : Counted false p.nextLine cs stop) :
    Counted inComment p ('\n' :: cs) stop := by
  obtain ⟨gap, rfl, last, counts⟩ := h
  refine ⟨'\n' :: gap, rfl, last, fun more q line _ => ?_⟩
  rw [Position.after_cons_newline, Position.nextLine_congr line]
  exact counts more p.nextLine rfl fun _ => rfl

theorem blank {c : Char} (hc : c ≠ '\n') (h : Counted false (p.right 1) cs stop) :
    Counted false p (c :: cs) stop := by
  obtain ⟨gap, rfl, last, counts⟩ := h
  refine ⟨c :: gap, rfl, last, fun more q _ same => ?_⟩
  rw [Position.after_cons hc, same rfl]
  exact counts more (p.right 1) rfl fun _ => rfl

/-- In a comment a character adds to a column that does not matter. -/
theorem comment {c : Char} (inComment : Bool) (hc : c ≠ '\n') (h : Counted true p cs stop) :
    Counted inComment p (c :: cs) stop := by
  obtain ⟨gap, rfl, last, counts⟩ := h
  refine ⟨c :: gap, rfl, last, fun more q line _ => ?_⟩
  rw [Position.after_cons hc]
  exact counts more (q.right 1) line fun no => nomatch no

theorem return_ (newline : cs.head? = some '\n') (h : Counted false p cs stop) :
    Counted false p ('\r' :: cs) stop := by
  obtain ⟨gap, rfl, last, counts⟩ := h
  cases gap with
  | nil => exact absurd newline last
  | cons c gap =>
    obtain rfl : c = '\n' := by simpa using newline
    refine ⟨'\r' :: '\n' :: gap, rfl, last, fun more q _ same => ?_⟩
    rw [counts more p rfl fun _ => rfl, same rfl, Position.after_cons_newline,
      Position.after_cons (c := '\r') (by decide), Position.after_cons_newline]
    rfl

end Counted

theorem skipBlanks_counted {cs : List Char} (plain : PlainText cs) (inComment : Bool)
    (comment : inComment = true → '\r' ∉ cs) (p : Position) :
    Counted inComment p cs (skipBlanks inComment p cs) := by
  induction cs generalizing inComment p with
  | nil => exact ⟨[], rfl, by simp [skipBlanks], fun more => absurd rfl more⟩
  | cons c rest ih =>
    have tail : PlainText rest := @PlainText.tail [c] rest plain
    rw [skipBlanks]
    split_ifs with inside newline return_ tab space newline start
    · rcases newline with rfl | rfl
      · exact .newline _ (ih tail false (by simp) _)
      · exact absurd List.mem_cons_self (comment inside)
    · rw [not_or] at newline
      exact .comment _ newline.1 (ih tail true (fun _ mem => comment inside
        (List.mem_cons_of_mem _ mem)) p)
    all_goals obtain rfl := Bool.not_eq_true _ ▸ inside
    · rcases return_ with rfl | rfl
      · obtain ⟨-, newline⟩ := plain.return_ [] rest rfl
        exact .return_ newline (ih tail false (by simp) p)
      · exact absurd List.mem_cons_self plain.mark
    · exact absurd (tab ▸ List.mem_cons_self) plain.tab
    · refine .blank ?_ (ih tail false (by simp) _)
      rintro rfl
      revert space
      decide
    · subst newline
      exact .newline _ (ih tail false (by simp) _)
    · subst start
      refine .comment _ (by decide) (ih tail true (fun _ mem => ?_) p)
      obtain ⟨before, after, split⟩ := List.append_of_mem (List.mem_cons_of_mem '#' mem)
      exact (plain.return_ before after split).1 List.mem_cons_self
    · exact ⟨[], rfl, by simpa using newline, fun _ q _ same => (same rfl).symm⟩

def Token.text : Token → List Char
  | .punctuator p => p.text
  | .name text => text.toList
  | .int text | .float text => text
  | .string raw => '"' :: raw ++ ['"']
  | .blockString raw => ['"', '"', '"'] ++ raw ++ ['"', '"', '"']

theorem Punctuator.text_of_ofChar? {c : Char} {p : Punctuator} (h : ofChar? c = some p) :
    p.text = [c] := by
  unfold ofChar? at h
  split at h <;> cases h <;> rfl

theorem numberToken?_text {first : Char} {rest : List Char} {token : Token}
    (h : numberToken? first rest = some token) : token.text = first :: rest := by
  unfold numberToken? at h
  split at h <;> split_ifs at h <;> cases h <;> rfl

theorem stringBody?_eq_some {escaped : Bool} {cs raw : List Char}
    (h : stringBody? escaped cs = some raw) : ∃ rest, cs = raw ++ '"' :: rest := by
  induction cs generalizing escaped raw with
  | nil => cases h
  | cons c cs ih =>
    rw [stringBody?] at h
    split_ifs at h with quote
    · cases h
      exact ⟨cs, by rw [quote.1, List.nil_append]⟩
    · obtain ⟨body, found, rfl⟩ := Option.map_eq_some_iff.mp h
      obtain ⟨rest, rfl⟩ := ih found
      exact ⟨rest, rfl⟩

theorem blockStringBody?_eq_some {afterBackslash : Bool} {cs raw : List Char}
    (h : blockStringBody? afterBackslash cs = some raw) :
    ∃ rest, cs = raw ++ '"' :: '"' :: '"' :: rest := by
  induction afterBackslash, cs using blockStringBody?.induct generalizing raw with
  | case1 => cases h
  | case2 rest ih =>
    rw [blockStringBody?, if_pos rfl] at h
    obtain ⟨body, found, rfl⟩ := Option.map_eq_some_iff.mp h
    obtain ⟨rest, rfl⟩ := ih found
    exact ⟨rest, rfl⟩
  | case3 afterBackslash rest escaped =>
    rw [blockStringBody?, if_neg escaped] at h
    cases h
    exact ⟨rest, rfl⟩
  | case4 afterBackslash c cs other ih =>
    rw [blockStringBody?.eq_3 _ _ _ other] at h
    obtain ⟨body, found, rfl⟩ := Option.map_eq_some_iff.mp h
    obtain ⟨rest, rfl⟩ := ih found
    exact ⟨rest, rfl⟩

theorem scanToken?_eq_some {cs : List Char} {token : Token} {length : Nat}
    (h : scanToken? cs = some (token, length)) :
    ∃ rest, cs = token.text ++ rest ∧ length = token.text.length ∧ token.text ≠ [] := by
  unfold scanToken? at h
  split at h
  · cases h
  · split_ifs at h with dots
    cases h
    obtain ⟨rest, rfl⟩ := List.isPrefixOf_iff_prefix.mp dots
    exact ⟨rest, rfl, rfl, by simp [Token.text, Punctuator.text]⟩
  · obtain ⟨raw, found, h⟩ := Option.map_eq_some_iff.mp h
    cases h
    obtain ⟨rest, rfl⟩ := blockStringBody?_eq_some found
    exact ⟨rest, by simp [Token.text], by simp [Token.text], by simp [Token.text]⟩
  · obtain ⟨raw, found, h⟩ := Option.map_eq_some_iff.mp h
    cases h
    obtain ⟨rest, rfl⟩ := stringBody?_eq_some found
    exact ⟨rest, by simp [Token.text], by simp [Token.text], by simp [Token.text]⟩
  · rename_i c cs _ _ _
    split at h
    · rename_i p found
      cases h
      have text := Punctuator.text_of_ofChar? found
      exact ⟨cs, by simp [Token.text, text], by simp [Token.text, text], by simp [Token.text, text]⟩
    · split_ifs at h
      · cases h
        refine ⟨cs.dropWhile isNameChar, ?_, ?_, ?_⟩ <;> simp [Token.text]
      · obtain ⟨token, number, h⟩ := Option.map_eq_some_iff.mp h
        cases h
        have text := numberToken?_text number
        refine ⟨cs.dropWhile (!endsNumber ·), ?_, ?_, ?_⟩ <;> simp [text]

/-- The offset of the next token, or the end of the text. -/
def nextOffset (lines : Lines) : List Lexeme → Nat
  | [] => lines.size
  | lexeme :: _ => lines.offset lexeme.position

/-- The offsets of tokens increase, and before the token after three dots the dots are found between
the two. -/
inductive Ordered (lines : Lines) : List Lexeme → Prop where
  | nil : Ordered lines []
  | cons {lexeme : Lexeme} {rest : List Lexeme} :
      lines.offset lexeme.position < nextOffset lines rest →
      (lexeme.token = .punctuator .spread → ∀ next ∈ rest.head?,
        lines.offset lexeme.position ≤ lines.offset (lines.spreadStart next.position) ∧
          lines.offset (lines.spreadStart next.position) ≤ lines.offset next.position) →
      Ordered lines rest → Ordered lines (lexeme :: rest)

theorem Ordered.tail {lines : Lines} {lexeme : Lexeme} {rest : List Lexeme}
    (h : Ordered lines (lexeme :: rest)) :
    Ordered lines rest ∧ lines.offset lexeme.position < nextOffset lines rest := by
  cases h with
  | cons less _ ordered => exact ⟨ordered, less⟩

theorem Ordered.nextOffset_le_size {lines : Lines} {lexemes : List Lexeme}
    (h : Ordered lines lexemes) : nextOffset lines lexemes ≤ lines.size := by
  induction h with
  | nil => exact Nat.le_refl _
  | cons less _ _ ih => exact Nat.le_trans (Nat.le_of_lt less) ih

/-- The next token, if there is one, stands where it is counted, after a gap that follows a part of
the text. -/
def Placed (source before : List Char) (lexemes : List Lexeme) : Prop :=
  ∀ lexeme ∈ lexemes.head?, ∃ gap rest, source = before ++ gap ++ rest ∧
    lexeme.position = Position.start.after (before ++ gap)

theorem placed_nil (source before : List Char) : Placed source before [] :=
  fun lexeme h => by cases h

theorem Placed.le_nextOffset {source before rest : List Char} {lexemes : List Lexeme}
    (h : Placed source before lexemes) (split : source = before ++ rest) :
    bytes before ≤ nextOffset (Lines.ofText source) lexemes := by
  cases lexemes with
  | nil =>
    rw [nextOffset, Lines.size, show (Lines.ofText source).source = source from rfl, split,
      bytes_append]
    exact Nat.le_add_right _ _
  | cons lexeme lexemes =>
    obtain ⟨gap, rest, split, position⟩ := h lexeme rfl
    rw [nextOffset, position, Lines.offset_after split, bytes_append]
    exact Nat.le_add_right _ _

theorem Ordered.token {source place rest : List Char} {token : Token} {later : List Lexeme}
    (split : source = place ++ token.text ++ rest) (some : token.text ≠ [])
    (ordered : Ordered (Lines.ofText source) later)
    (placed : Placed source (place ++ token.text) later) :
    Ordered (Lines.ofText source) (⟨Position.start.after place, token⟩ :: later) := by
  have offset : (Lines.ofText source).offset (Position.start.after place) = bytes place :=
    Lines.offset_after (split.trans (List.append_assoc _ _ _))
  refine .cons ?_ ?_ ordered
  · have next := placed.le_nextOffset split
    have := bytes_pos some
    rw [bytes_append] at next
    dsimp only
    omega
  · rintro rfl next hn
    obtain ⟨gap, tail, found, position⟩ := placed next hn
    rw [position, offset]
    have whole : source = place ++ '.' :: '.' :: '.' :: gap ++ tail := found.trans (by
      simp [Token.text, Punctuator.text])
    simpa [Token.text, Punctuator.text] using Lines.offset_spreadStart whole

/-- After a part of the text the tokens stand one after another, with gaps before them, each at the
position where its text is counted. -/
inductive Standing (source : List Char) : List Char → List Lexeme → Prop where
  | nil {before : List Char} : Standing source before []
  | cons {before gap rest : List Char} {token : Token} {later : List Lexeme} :
      source = before ++ gap ++ token.text ++ rest →
      scanToken? (token.text ++ rest) = some (token, token.text.length) →
      Standing source (before ++ gap ++ token.text) later →
      Standing source before (⟨Position.start.after (before ++ gap), token⟩ :: later)

namespace Standing

variable {source before : List Char} {lexemes : List Lexeme}

theorem placed (h : Standing source before lexemes) : Placed source before lexemes := by
  cases h with
  | nil => exact placed_nil _ _
  | cons split scanned later =>
    rintro _ ⟨⟩
    exact ⟨_, _, split.trans (List.append_assoc _ _ _), rfl⟩

theorem ordered (h : Standing source before lexemes) : Ordered (Lines.ofText source) lexemes := by
  induction h with
  | nil => exact .nil
  | cons split scanned later ih =>
    obtain ⟨-, -, -, some⟩ := scanToken?_eq_some scanned
    exact .token split some ih later.placed

theorem of_append {xs ys : List Lexeme} (h : Standing source before (xs ++ ys)) :
    ∃ more, Standing source (before ++ more) ys := by
  induction xs generalizing before with
  | nil => exact ⟨[], by rwa [List.append_nil]⟩
  | cons x xs ih =>
    cases h with
    | cons split scanned later =>
      obtain ⟨more, standing⟩ := ih later
      exact ⟨_, by rwa [List.append_assoc, List.append_assoc] at standing⟩

/-- Before a token stands the text that its position counts, and the token is read from the rest. -/
theorem mem (h : Standing source before lexemes) {lexeme : Lexeme} (hl : lexeme ∈ lexemes) :
    ∃ before after, source = before ++ after ∧ lexeme.position = Position.start.after before ∧
      lexeme.token.text <+: after ∧
      scanToken? after = some (lexeme.token, lexeme.token.text.length) := by
  induction h with
  | nil => cases hl
  | cons split scanned later ih =>
    rcases List.mem_cons.mp hl with rfl | hl
    · exact ⟨_, _, split.trans (List.append_assoc _ _ _), rfl, List.prefix_append _ _, scanned⟩
    · exact ih hl

/-- Of two tokens the second stands after the text of the first, with a part between them. -/
theorem between {opening closing : Lexeme} {inner : List Lexeme}
    (h : Standing source before lexemes) (part : opening :: inner ++ [closing] <:+: lexemes) :
    ∃ before mid rest,
      source = before ++ (opening.token.text ++ (mid ++ (closing.token.text ++ rest))) ∧
      opening.position = Position.start.after before ∧
      closing.position = Position.start.after (before ++ (opening.token.text ++ mid)) := by
  obtain ⟨xs, ys, rfl⟩ := part
  rw [List.append_assoc, List.append_assoc] at h
  obtain ⟨more, h⟩ := h.of_append
  cases h with
  | cons split scanned later =>
    obtain ⟨mid, later⟩ := later.of_append
    cases later with
    | @cons _ gap rest _ _ split' =>
      refine ⟨_, mid ++ gap, rest, ?_, rfl, ?_⟩
      · simpa using split'
      · simp

end Standing

theorem lexFrom_cons {before cs : List Char} (plain : PlainText cs) {left budget : Nat}
    {lexeme : Lexeme} {later : List Lexeme}
    (h : (lexFrom left (Position.start.after before) cs budget).lexemes = lexeme :: later) :
    ∃ gap rest left budget, cs = gap ++ (lexeme.token.text ++ rest) ∧
      lexeme.position = Position.start.after (before ++ gap) ∧
      (skipBlanks false (Position.start.after before) cs).2 = lexeme.token.text ++ rest ∧
      scanToken? (lexeme.token.text ++ rest) = some (lexeme.token, lexeme.token.text.length) ∧
      (lexFrom left (Position.start.after (before ++ gap ++ lexeme.token.text)) rest
        budget).lexemes = later := by
  cases budget with
  | zero => cases h
  | succ budget =>
    obtain ⟨gap, gapped, -, counts⟩ := skipBlanks_counted plain false (by simp)
      (Position.start.after before)
    rw [lexFrom] at h
    split at h
    · cases h
    · rename_i p rest more skipped
      rw [skipped] at gapped counts ⊢
      obtain rfl : p = Position.start.after (before ++ gap) := by
        rw [Position.after_append]
        exact counts (fun nil => more nil) _ rfl fun _ => rfl
      split at h
      · cases h
      · rename_i token length scanned
        split at h
        · cases h
        · rename_i inside nested
          obtain ⟨tail, rfl, rfl, -⟩ := scanToken?_eq_some scanned
          rw [List.take_left, List.drop_left, ← Position.after_append] at h
          obtain ⟨rfl, rfl⟩ := List.cons.inj h
          exact ⟨gap, tail, inside, budget, gapped, rfl, rfl, scanned, rfl⟩

/-- The tokens of a text from a place on stand where they are counted. -/
theorem standing_lexFrom {source before cs : List Char} (split : source = before ++ cs)
    (plain : PlainText cs) (left budget : Nat) :
    Standing source before (lexFrom left (Position.start.after before) cs budget).lexemes := by
  generalize tokens : (lexFrom left (Position.start.after before) cs budget).lexemes = lexemes
  induction lexemes generalizing before cs left budget with
  | nil => exact .nil
  | cons lexeme later ih =>
    obtain ⟨gap, rest, left, budget, rfl, position, -, scanned, tokens⟩ := lexFrom_cons plain tokens
    have whole : source = before ++ gap ++ lexeme.token.text ++ rest := by
      rw [split]
      simp
    rw [← List.append_assoc] at plain
    obtain ⟨p, token⟩ := lexeme
    obtain rfl : p = _ := position
    exact .cons whole scanned (ih whole plain.tail left budget tokens)

theorem standing_lex {source : List Char} (plain : PlainText source) :
    Standing source [] (lex source).lexemes :=
  @standing_lexFrom source [] _ rfl plain nestingLimit (source.length + 1)

end GraphQL
