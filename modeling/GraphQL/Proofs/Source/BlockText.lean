import GraphQL.Proofs.Source.BlockLines

/-!
What printed block strings stand for. Main statement: at any indentation, the text of a block string
is read as one block string with its value if and only if nothing of the value is lost as blank line
or common indentation, and no backslash stands before the closing quotes.
-/
namespace GraphQL

open Ast

/-- The text further right by so many spaces, from its second line on. -/
def indented (n : Nat) (cs : List Char) : List Char :=
  cs.flatMap fun c => c :: if c = '\n' then List.replicate n ' ' else []

theorem indented_append (n : Nat) (cs ds : List Char) :
    indented n (cs ++ ds) = indented n cs ++ indented n ds :=
  List.flatMap_append

theorem indented_newline (n : Nat) (cs : List Char) :
    indented n ('\n' :: cs) = '\n' :: (List.replicate n ' ' ++ indented n cs) := by
  rw [indented, List.flatMap_cons, if_pos rfl]
  rfl

theorem indented_cons {c : Char} (h : c ≠ '\n') (n : Nat) (cs : List Char) :
    indented n (c :: cs) = c :: indented n cs := by
  rw [indented, List.flatMap_cons, if_neg h]
  rfl

theorem indented_zero (cs : List Char) : indented 0 cs = cs := by
  simp [indented]

theorem mem_indented {c : Char} (h : c ≠ ' ') {n : Nat} {cs : List Char} :
    c ∈ indented n cs ↔ c ∈ cs := by
  rw [indented, List.mem_flatMap]
  constructor
  · rintro ⟨d, hd, hc⟩
    rcases List.mem_cons.mp hc with rfl | hc
    · exact hd
    · split_ifs at hc
      · exact absurd (List.eq_of_mem_replicate hc) h
      · cases hc
  · exact fun hc => ⟨c, hc, List.mem_cons_self⟩

theorem indented_of_oneLine {cs : List Char} (h : '\n' ∉ cs) (n : Nat) : indented n cs = cs := by
  induction cs with
  | nil => rfl
  | cons c cs ih =>
    rw [List.mem_cons, not_or] at h
    rw [indented_cons (Ne.symm h.1), ih h.2]

theorem indented_joinLines {lines : List (List Char)} (h : ∀ line ∈ lines, '\n' ∉ line)
    (some : lines ≠ []) (n : Nat) : indented n ('\n' :: joinLines lines) =
      '\n' :: joinLines (lines.map (List.replicate n ' ' ++ ·)) := by
  induction lines using joinLines.induct with
  | case1 => exact absurd rfl some
  | case2 line => rw [indented_newline, joinLines, indented_of_oneLine (h line (by simp))]; rfl
  | case3 line lines more ih =>
    obtain ⟨here, h⟩ := List.forall_mem_cons.mp h
    rw [indented_newline, joinLines_cons line more, indented_append, indented_of_oneLine here,
      ih h more, List.map_cons, joinLines_cons _ (by simpa using more), List.append_assoc]

theorem escape_joinLines (lines : List (List Char)) :
    escapeTripleQuotes (joinLines lines) = joinLines (lines.map escapeTripleQuotes) := by
  induction lines using joinLines.induct with
  | case1 => rfl
  | case2 => rfl
  | case3 line lines some ih =>
    rw [joinLines_cons line some, escape_append _ (by simp),
      escapeTripleQuotes_cons (not_triple_of_ne (by decide) _), ih, List.map_cons,
      joinLines_cons _ (by simpa using some)]

theorem joinLines_concat {lines : List (List Char)} (some : lines ≠ []) (last : List Char) :
    joinLines (lines ++ [last]) = joinLines lines ++ '\n' :: last := by
  induction lines using joinLines.induct with
  | case1 => exact absurd rfl some
  | case2 => rfl
  | case3 line lines more ih =>
    rw [List.cons_append, joinLines_cons line (by simp), ih more, joinLines_cons line more,
      List.append_assoc]
    rfl

def OnOwnLines (value : String) : Prop :=
  '\n' ∈ value.toList ∨ value.toList.getLast? = some '"'

instance : DecidablePred OnOwnLines := fun value =>
  inferInstanceAs (Decidable ('\n' ∈ value.toList ∨ value.toList.getLast? = some '"'))

/-- What stands between the quotes of a block string that is printed at an indentation. -/
def blockBody (n : Nat) (value : String) : List Char :=
  if OnOwnLines value then
    joinLines ([] :: (ownLines n (value.toList.splitOn '\n') ++ [List.replicate n ' ']))
  else escapeTripleQuotes value.toList

theorem indented_printBlockString (n : Nat) (value : String) :
    indented n (printBlockString value).toList =
      '"' :: '"' :: '"' :: (blockBody n value ++ ['"', '"', '"']) := by
  have quotes (cs : List Char) : indented n ('"' :: '"' :: '"' :: (cs ++ ['"', '"', '"'])) =
      '"' :: '"' :: '"' :: (indented n cs ++ ['"', '"', '"']) := by
    have split : '"' :: '"' :: '"' :: (cs ++ ['"', '"', '"']) =
        ['"', '"', '"'] ++ (cs ++ ['"', '"', '"']) := rfl
    rw [split, indented_append, indented_append, indented_of_oneLine (by decide)]
    rfl
  by_cases own : OnOwnLines value
  · have text : (printBlockString value).toList = '"' :: '"' :: '"' ::
        ('\n' :: (escapeTripleQuotes value.toList ++ ['\n']) ++ ['"', '"', '"']) := by
      unfold printBlockString
      rw [if_pos (show _ ∨ _ from own)]
      simp
    have lines : ∀ line ∈ (value.toList.splitOn '\n').map escapeTripleQuotes ++ [[]],
        '\n' ∉ line := by
      intro line hl
      rcases List.mem_append.mp hl with hl | hl
      · obtain ⟨line, here, rfl⟩ := List.mem_map.mp hl
        rw [mem_escape (by decide)]
        exact not_mem_splitOn here
      · rw [List.mem_singleton.mp hl]
        exact List.not_mem_nil
    have some : (value.toList.splitOn '\n').map escapeTripleQuotes ≠ [] := by simp
    have body : '\n' :: (escapeTripleQuotes value.toList ++ ['\n']) =
        '\n' :: joinLines ((value.toList.splitOn '\n').map escapeTripleQuotes ++ [[]]) := by
      rw [joinLines_concat some, ← escape_joinLines, joinLines_splitOn]
    rw [text, quotes, body, indented_joinLines lines (by simp), blockBody, if_pos own,
      joinLines_cons _ (by simp), List.nil_append, ownLines, List.map_append, List.map_map,
      List.map_singleton, List.append_nil]
    rfl
  · have text : (printBlockString value).toList =
        '"' :: '"' :: '"' :: (escapeTripleQuotes value.toList ++ ['"', '"', '"']) := by
      unfold printBlockString
      rw [if_neg (show ¬(_ ∨ _) from own)]
      simp
    have oneLine : '\n' ∉ escapeTripleQuotes value.toList := by
      rw [mem_escape (by decide)]
      exact fun newline => own (.inl newline)
    rw [text, quotes, indented_of_oneLine oneLine, blockBody, if_neg own]

theorem printBlockString_toList (value : String) :
    (printBlockString value).toList =
      '"' :: '"' :: '"' :: (blockBody 0 value ++ ['"', '"', '"']) := by
  rw [← indented_printBlockString, indented_zero]

theorem indented_printBlockString_ne_nil (n : Nat) (value : String) :
    indented n (printBlockString value).toList ≠ [] := by
  rw [indented_printBlockString]
  exact List.cons_ne_nil _ _

theorem noReturn_indented {value : String} (h : '\r' ∉ value.toList) (n : Nat) :
    '\r' ∉ indented n (printBlockString value).toList := by
  rw [mem_indented (by decide)]
  unfold printBlockString
  split <;> simp [mem_escape, h]

/-- Up to a character that ends no line, the text is what it is further right. -/
theorem shifted_indented {d : Char} (hd : d ≠ '\n') (n : Nat) (cs ds : List Char) :
    shifted (indented n cs ++ d :: ds) = indented (n + 2) cs ++ d :: shifted ds := by
  induction cs with
  | nil => exact if_neg hd
  | cons c cs ih =>
    by_cases newline : c = '\n'
    · have spaces : ∀ c ∈ List.replicate n ' ', c ≠ '\n' := by
        intro c hc
        rw [List.eq_of_mem_replicate hc]
        decide
      subst newline
      rw [indented_newline, indented_newline, List.cons_append, shifted, if_pos rfl,
        if_neg (by simp), List.append_assoc, shifted_append spaces, ih]
      simp [List.replicate_succ]
    · rw [indented_cons newline, indented_cons newline, List.cons_append, shifted, if_neg newline,
        ih, List.cons_append]

theorem shifted_printBlockString (n : Nat) (value : String) (cs : List Char) :
    shifted (indented n (printBlockString value).toList ++ cs) =
      indented (n + 2) (printBlockString value).toList ++ shifted cs := by
  obtain ⟨before, split⟩ : ∃ before, (printBlockString value).toList = before ++ ['"'] :=
    ⟨'"' :: '"' :: '"' :: (blockBody 0 value ++ ['"', '"']), by simp [printBlockString_toList]⟩
  have last (n : Nat) : indented n ['"'] = ['"'] := indented_of_oneLine (by decide) n
  rw [split, indented_append, indented_append, last, last, List.append_assoc, List.append_assoc]
  exact shifted_indented (by decide) n before cs

/-- A value that is printed as a block string of which nothing is lost: of several lines, or one
with a quote at its end, the first and the last are not blank and some line is not indented; of
others, they are empty or not blank, and no backslash escapes the closing quotes. -/
def KeptInBlock (value : String) : Prop :=
  if OnOwnLines value then KeepsLines (value.toList.splitOn '\n')
  else (value = "" ∨ isBlankLine value.toList = false) ∧ value.toList.getLast? ≠ some '\\'

instance : DecidablePred KeptInBlock := fun value =>
  inferInstanceAs (Decidable (if OnOwnLines value then _ else _))

theorem scanToken?_blockString (cs : List Char) : scanToken? ('"' :: '"' :: '"' :: cs) =
    (blockStringBody? false cs).map fun raw => (.blockString raw, raw.length + 6) := rfl

/-- On lines of its own, a block string ends where its quotes close. -/
theorem blockStringBody?_ownLines {value : String} (own : OnOwnLines value) (n : Nat)
    (rest : List Char) :
    blockStringBody? false (blockBody n value ++ ('"' :: '"' :: '"' :: rest)) =
      some (blockBody n value) := by
  generalize hw : joinLines ([] :: (value.toList.splitOn '\n').map (List.replicate n ' ' ++ ·) ++
    [List.replicate n ' ']) = w
  have spaces : '"' ∉ List.replicate n ' ' := by simp
  have body : blockBody n value = escapeTripleQuotes w := by
    have blank : escapeTripleQuotes (List.replicate n ' ') = List.replicate n ' ' := by
      have all := escape_upToQuote spaces []
      rwa [List.append_nil, escapeTripleQuotes, List.append_nil] at all
    rw [blockBody, if_pos own, ← hw, escape_joinLines, ownLines]
    simp only [List.cons_append, List.map_cons, List.map_append, List.map_map, List.map_nil, blank]
    congr 3
    exact List.map_congr_left fun line _ => (escape_upToQuote spaces line).symm
  have last : w.getLast? = some '\n' ∨ w.getLast? = some ' ' := by
    rw [← hw, joinLines_concat (by simp), List.getLast?_append]
    cases n with
    | zero => exact .inl rfl
    | succ n =>
      rw [List.replicate_succ', ← List.cons_append, List.getLast?_concat]
      exact .inr rfl
  have ends : w.getLast? ≠ some '"' := by rcases last with h | h <;> simp [h]
  have noBackslash : endsWithBackslash false w = false := by
    rcases last with h | h <;> simp [endsWithBackslash, h]
  rw [body, blockStringBody?_escape w false fun quote => absurd quote ends, noBackslash]
  simp [blockStringBody?]

theorem scanToken?_printBlockString (value : String) (n : Nat) (rest : List Char) :
    scanToken? (indented n (printBlockString value).toList ++ rest) =
      (blockStringBody? false (blockBody n value ++ '"' :: '"' :: '"' :: rest)).map fun raw =>
        (.blockString raw, raw.length + 6) := by
  rw [indented_printBlockString, List.cons_append, List.cons_append, List.cons_append,
    List.append_assoc]
  exact scanToken?_blockString _

/-- A single line is read up to its quotes, unless a backslash escapes them. -/
theorem blockStringBody?_oneLine {value : String} (own : ¬OnOwnLines value) (n : Nat)
    (rest : List Char) :
    blockStringBody? false (blockBody n value ++ '"' :: '"' :: '"' :: rest) =
      if value.toList.getLast? = some '\\' then
        (blockStringBody? false rest).map (blockBody n value ++ '"' :: '"' :: '"' :: ·)
      else some (blockBody n value) := by
  have ends : value.toList.getLast? ≠ some '"' := fun quote => own (.inr quote)
  rw [blockBody, if_neg own, blockStringBody?_escape _ _ fun quote => absurd quote ends]
  have seen : endsWithBackslash false value.toList =
      decide (value.toList.getLast? = some '\\') := by
    rw [endsWithBackslash]
    cases value.toList.getLast? <;> simp
  by_cases backslash : value.toList.getLast? = some '\\'
  · simp [seen, backslash, blockStringBody?, Function.comp_def]
  · simp [seen, backslash, blockStringBody?]

theorem plain_splitOn {cs : List Char} (noReturn : '\r' ∉ cs) :
    ∀ line ∈ cs.splitOn '\n', '\n' ∉ line ∧ '\r' ∉ line := by
  intro line hl
  refine ⟨not_mem_splitOn hl, fun h => noReturn ?_⟩
  rw [← joinLines_splitOn cs]
  exact (sublist_joinLines hl).subset h

/-- A value that is kept is read back, whatever follows its text. -/
theorem KeptInBlock.scan {value : String} (kept : KeptInBlock value)
    (noReturn : '\r' ∉ value.toList) (n : Nat) (rest : List Char) : ∃ raw,
      scanToken? (indented n (printBlockString value).toList ++ rest) =
        some (.blockString raw, (indented n (printBlockString value).toList).length) ∧
      blockStringValue raw = value.toList := by
  have length : (indented n (printBlockString value).toList).length =
      (blockBody n value).length + 6 := by
    rw [indented_printBlockString]
    simp
  refine ⟨blockBody n value, ?_⟩
  rw [scanToken?_printBlockString, length]
  by_cases own : OnOwnLines value
  · rw [KeptInBlock, if_pos own] at kept
    refine ⟨by rw [blockStringBody?_ownLines own]; rfl, ?_⟩
    rw [blockBody, if_pos own, kept.value (plain_splitOn noReturn), joinLines_splitOn]
  · rw [KeptInBlock, if_neg own] at kept
    refine ⟨by rw [blockStringBody?_oneLine own, if_neg kept.2]; rfl, ?_⟩
    rw [blockBody, if_neg own, blockStringValue_oneLine (fun h => own (.inl h)) noReturn]
    rcases kept.1 with rfl | some
    · rfl
    · rw [some]
      rfl

/-- A value that is read back, whatever follows its text, is one that is kept. -/
theorem keptInBlock_of_scan {value : String} (noReturn : '\r' ∉ value.toList) {n length : Nat}
    {rest raw : List Char} (scan : scanToken? (indented n (printBlockString value).toList ++ rest) =
      some (.blockString raw, length)) (same : blockStringValue raw = value.toList) :
    KeptInBlock value := by
  rw [scanToken?_printBlockString] at scan
  obtain ⟨body, found, token⟩ := Option.map_eq_some_iff.mp scan
  obtain rfl : body = raw := by
    cases token
    rfl
  rw [KeptInBlock]
  split_ifs with own
  · rw [blockStringBody?_ownLines own, Option.some.injEq, blockBody, if_pos own] at found
    rw [← same]
    refine keepsLines_of_value (found ▸ splitLines_ownLines (plain_splitOn noReturn) n) rfl ?_
    rw [same]
    intro none
    rw [OnOwnLines, none] at own
    rcases own with newline | quote
    · cases newline
    · cases quote
  · have oneLine : '\n' ∉ value.toList := fun newline => own (.inl newline)
    rw [blockStringBody?_oneLine own, blockBody, if_neg own] at found
    split_ifs at found with backslash
    · -- The quotes after the backslash are in the body as well.
      obtain ⟨after, -, rfl⟩ := Option.map_eq_some_iff.mp found
      have notBlank : isBlankLine (escapeTripleQuotes value.toList) = false := by
        rw [isBlankLine_escape, isBlankLine, List.all_eq_false]
        exact ⟨_, List.mem_of_getLast? backslash, by decide⟩
      have more := count_quote_value (by rwa [mem_escape (by decide)]) notBlank after
      rw [same, count_quote_escape] at more
      omega
    · refine ⟨?_, backslash⟩
      rw [← Option.some.inj found, blockStringValue_oneLine oneLine noReturn] at same
      split_ifs at same with blank
      · exact .inl (String.toList_eq_nil_iff.mp same.symm)
      · exact .inr (Bool.eq_false_iff.mpr blank)

end GraphQL
