import GraphQL.Proofs.Source.BlockText
import GraphQL.Proofs.Source.TokenText
import GraphQL.Proofs.Source.WellFormed

/-!
Texts with block strings in them. Main statements: however the text around block strings is laid
out, they are read one by one as what they stand for if and only if each of them is kept; and the
pieces that printed text is put together from lay it out that way.
-/
namespace GraphQL

def Token.blockValue? : Token → Option String
  | .blockString raw => some (String.ofList (blockStringValue raw))
  | _ => none

def Lexed.blockValues (lexed : Lexed) : List String :=
  lexed.lexemes.filterMap (·.token.blockValue?)

/-- The whole text is read, and its block strings stand for these values. -/
def Lexed.Shows (lexed : Lexed) (values : List String) : Prop :=
  lexed.complete = true ∧ lexed.blockValues = values

instance (lexed : Lexed) (values : List String) : Decidable (lexed.Shows values) :=
  inferInstanceAs (Decidable (_ ∧ _))

/-- Neither a punctuator nor a block string. -/
def Token.isWord : Token → Bool
  | .punctuator _ | .blockString _ => false
  | .name _ | .int _ | .float _ | .string _ => true

/-- The text is that of words, punctuators and printed block strings with these values, at whatever
indentation, with blanks between them. Its brackets nest from one level to the other. -/
inductive Writes : Nat → Nat → List Char → List String → Prop where
  | nil {k : Nat} : Writes k k [] []
  | blank {k l : Nat} {c : Char} {cs : List Char} {values : List String} :
      IsBlank c → Writes k l cs values → Writes k l (c :: cs) values
  | punctuator {k m l : Nat} {p : Punctuator} {cs : List Char} {values : List String} :
      nestingAfter? k (.punctuator p) = some m → Writes m l cs values →
      Writes k l (p.text ++ cs) values
  | word {k l : Nat} {t : Token} {text cs : List Char} {values : List String} :
      t.isWord = true → HasText t text → Stops cs → Writes k l cs values →
      Writes k l (text ++ cs) values
  | block {k l n : Nat} {value : String} {cs : List Char} {values : List String} :
      '\r' ∉ value.toList → Writes k l cs values →
      Writes k l (indented n (Ast.printBlockString value).toList ++ cs) (value :: values)

theorem nestingAfter?_of_isWord {t : Token} (h : t.isWord = true) (k : Nat) :
    nestingAfter? k t = some k := by
  cases t <;> first | rfl | cases h

theorem blockValue?_of_isWord {t : Token} (h : t.isWord = true) : t.blockValue? = none := by
  cases t <;> first | rfl | cases h

theorem Lexed.shows_cons (lexed : Lexed) (p : Position) (token : Token) (values : List String) :
    ({ lexed with lexemes := ⟨p, token⟩ :: lexed.lexemes } : Lexed).Shows
      (token.blockValue?.toList ++ values) ↔ lexed.Shows values := by
  unfold Lexed.Shows Lexed.blockValues
  rw [List.filterMap_cons]
  cases token.blockValue? <;> simp

theorem shows_token {token : Token} {text rest : List Char} {k m : Nat}
    (scan : scanToken? (text ++ rest) = some (token, text.length))
    (nests : nestingAfter? k token = some m) (p : Position) (budget : Nat) (values : List String) :
    (lexFrom k p (text ++ rest) (budget + 1)).Shows (token.blockValue?.toList ++ values) ↔
      (lexFrom m (p.after text) rest budget).Shows values := by
  rw [lexFrom_token rfl scan nests]
  exact Lexed.shows_cons _ _ _ _

/-- A block string that is read as its value is kept, whatever follows. -/
theorem keptInBlock_of_shows {value : String} (noReturn : '\r' ∉ value.toList) {k n budget : Nat}
    {p : Position} {cs : List Char} {values : List String}
    (h : (lexFrom k p (indented n (Ast.printBlockString value).toList ++ cs) (budget + 1)).Shows
      (value :: values)) : KeptInBlock value := by
  generalize htext : indented n (Ast.printBlockString value).toList ++ cs = text at h
  have start : skipBlanks false p text = (p, text) := by
    rw [← htext, indented_printBlockString]
    rfl
  have some : text ≠ [] := by
    rw [← htext]
    exact List.append_ne_nil_of_left_ne_nil (indented_printBlockString_ne_nil n value) cs
  obtain ⟨c, rest, rfl⟩ := List.exists_cons_of_ne_nil some
  rw [lexFrom, start] at h
  dsimp only at h
  have scanned := scanToken?_printBlockString value n cs
  rw [htext] at scanned
  cases body : blockStringBody? false (blockBody n value ++ '"' :: '"' :: '"' :: cs) with
  | none =>
    rw [scanned, body] at h
    cases h.1
  | some raw =>
    rw [body] at scanned
    rw [scanned] at h
    have first := (List.cons_eq_cons.mp h.2).1
    refine keptInBlock_of_scan noReturn (htext ▸ scanned) ?_
    rw [← first, String.toList_ofList]

namespace Writes

variable {k l m n : Nat} {cs ds : List Char} {values others : List String}

/-- Block strings are read as their values if and only if all of them are kept. -/
theorem shows_iff (h : Writes k l cs values) (p : Position) {budget : Nat}
    (enough : cs.length ≤ budget) :
    (lexFrom k p cs (budget + 1)).Shows values ↔ ∀ value ∈ values, KeptInBlock value := by
  have next {text rest : List Char} (some : text ≠ []) {budget : Nat}
      (enough : (text ++ rest).length ≤ budget) : ∃ b, budget = b + 1 ∧ rest.length ≤ b := by
    have length := List.length_pos_iff.mpr some
    rw [List.length_append] at enough
    exact ⟨budget - 1, by omega, by omega⟩
  induction h generalizing p budget with
  | nil => exact iff_of_true ⟨rfl, rfl⟩ nofun
  | blank hc _ ih =>
    obtain ⟨q, same⟩ := lexFrom_blank hc _ p _ budget
    rw [same]
    exact ih q (Nat.le_of_succ_le enough)
  | @punctuator k m l mark cs values nests _ ih =>
    obtain ⟨budget, rfl, left⟩ := next mark.text_ne_nil enough
    exact (shows_token (mark.scanToken?_text cs) nests p _ values).trans (ih _ left)
  | @word k l t text cs values isWord ht stops _ ih =>
    obtain ⟨budget, rfl, left⟩ := next ht.ne_nil enough
    have token := shows_token (ht.scan cs stops) (nestingAfter?_of_isWord isWord k) p (budget + 1)
      values
    rw [blockValue?_of_isWord isWord] at token
    exact token.trans (ih _ left)
  | @block k l n value cs values noReturn _ ih =>
    rw [List.forall_mem_cons]
    by_cases kept : KeptInBlock value
    · obtain ⟨raw, scan, same⟩ := kept.scan noReturn n cs
      obtain ⟨budget, rfl, left⟩ := next (indented_printBlockString_ne_nil n value) enough
      have token := shows_token (k := k) scan rfl p (budget + 1) values
      rw [Token.blockValue?, same, String.ofList_toList] at token
      exact (token.trans (ih _ left)).trans (and_iff_right kept).symm
    · exact iff_of_false (fun shows => kept (keptInBlock_of_shows noReturn shows))
        fun all => kept all.1

theorem append (h : Writes k m cs values) (stops : Stops ds) (h' : Writes m l ds others) :
    Writes k l (cs ++ ds) (values ++ others) := by
  induction h with
  | nil => exact h'
  | blank hc _ ih => exact .blank hc (ih h')
  | punctuator nests _ ih =>
    rw [List.append_assoc]
    exact .punctuator nests (ih h')
  | word isWord ht hs _ ih =>
    rw [List.append_assoc]
    exact .word isWord ht (hs.append stops) (ih h')
  | block noReturn _ ih =>
    rw [List.append_assoc]
    exact .block noReturn (ih h')

theorem noReturn (h : Writes k l cs values) : '\r' ∉ cs := by
  induction h with
  | nil => exact List.not_mem_nil
  | blank hc _ ih => rcases hc with rfl | rfl | rfl <;> simpa using ih
  | @punctuator _ _ _ p _ _ _ _ ih =>
    rw [List.mem_append, not_or]
    exact ⟨fun h => (p.oneLine _ h).2 rfl, ih⟩
  | word _ ht _ _ ih =>
    rw [List.mem_append, not_or]
    exact ⟨fun h => (ht.oneLine _ h).2 rfl, ih⟩
  | block noReturn _ ih =>
    rw [List.mem_append, not_or]
    exact ⟨noReturn_indented noReturn _, ih⟩

theorem of_nil (h : Writes k l [] values) : values = [] ∧ k = l := by
  generalize hcs : [] = cs at h
  cases h with
  | nil => exact ⟨rfl, rfl⟩
  | blank => cases hcs
  | punctuator => exact absurd (List.append_eq_nil_iff.mp hcs.symm).1 (Punctuator.text_ne_nil _)
  | word _ ht => exact absurd (List.append_eq_nil_iff.mp hcs.symm).1 ht.ne_nil
  | block =>
    exact absurd (List.append_eq_nil_iff.mp hcs.symm).1 (indented_printBlockString_ne_nil _ _)

theorem shifted (h : Writes k l cs values) : Writes k l (shifted cs) values := by
  induction h with
  | nil => exact .nil
  | @blank k l c cs values hc h ih =>
    rw [GraphQL.shifted]
    split
    · split
      · subst cs
        exact h
      · exact .blank (.inr (.inr rfl)) (.blank (.inl rfl) (.blank (.inl rfl) ih))
    · exact .blank hc ih
  | @punctuator _ _ _ p _ _ nests _ ih =>
    rw [shifted_append fun c hc => (p.oneLine c hc).1]
    exact .punctuator nests ih
  | word isWord ht hs _ ih =>
    rw [shifted_append fun c hc => (ht.oneLine c hc).1]
    exact .word isWord ht hs.shifted ih
  | block noReturn _ ih =>
    rw [shifted_printBlockString]
    exact .block noReturn ih

end Writes

/-- The text may stand before any other; its brackets nest from one level to the other. -/
structure Heads (k l : Nat) (text : String) : Prop where
  writes {m : Nat} {cs : List Char} {values : List String} :
    Writes l m cs values → Writes k m (text.toList ++ cs) values

/-- The text may stand between any others. -/
structure Separates (k : Nat) (text : String) : Prop where
  heads : Heads k k text
  stops : ∀ after, Stops (text ++ after).toList

/-- The texts are brackets that may stand around any other. -/
structure Encloses (before after : String) : Prop where
  opens (k : Nat) : Heads (k + 1) k before
  closes (k : Nat) : Heads k (k + 1) after
  stops : Stops after.toList

/-- The text has block strings with these values; its brackets close. -/
def Lays (k : Nat) (text : String) (values : List String) : Prop :=
  Writes k k text.toList values

namespace Heads

variable {k l m : Nat} {text other : String}

theorem mark (p : Punctuator) (ht : text.toList = p.text)
    (nests : nestingAfter? k (.punctuator p) = some l) : Heads k l text where
  writes h := by
    rw [ht]
    exact .punctuator nests h

theorem blanks (h : ∀ b ∈ text.toList, IsBlank b) : Heads k k text where
  writes h' := by
    generalize text.toList = bs at h
    induction bs with
    | nil => exact h'
    | cons b bs ih =>
      obtain ⟨hb, hbs⟩ := List.forall_mem_cons.mp h
      exact .blank hb (ih hbs)

theorem append (h : Heads k m text) (h' : Heads m l other) : Heads k l (text ++ other) where
  writes writes := by
    rw [String.toList_append, List.append_assoc]
    exact h.writes (h'.writes writes)

theorem word (hn : isName text = true) : Heads k k (text ++ " ") where
  writes h := by
    rw [String.toList_append, List.append_assoc]
    exact .word rfl (.name hn) (.cons rfl _) (.blank (.inl rfl) h)

end Heads

namespace Separates

variable {k : Nat} {text : String}

theorem blanks (h : ∀ b ∈ text.toList, IsBlank b) (some : text ≠ "") : Separates k text := by
  obtain ⟨b, bs, split⟩ := List.exists_cons_of_ne_nil (mt String.toList_eq_nil_iff.mp some)
  have blank : IsBlank b := h b (by rw [split]; exact List.mem_cons_self)
  exact ⟨.blanks h, fun after => .text split blank.ends after⟩

theorem mark (p : Punctuator) {mark : String} (hm : mark.toList = p.text)
    (flat : nestingAfter? k (.punctuator p) = some k) : Separates k (" " ++ (mark ++ " ")) where
  heads := by
    have space : Heads k k " " := .blanks (by simp [IsBlank])
    exact space.append ((Heads.mark p hm flat).append space)
  stops after := by
    rw [String.append_assoc]
    exact .text rfl rfl _

end Separates

/-- Brackets, and blanks between them and what they enclose. -/
theorem encloses (opening closing : Punctuator) (blanks : List Char) {before after : String}
    (ho : before.toList = opening.text ++ blanks) (hc : after.toList = blanks ++ closing.text)
    (hb : ∀ b ∈ blanks, IsBlank b) (opens : opening.isOpening = true)
    (closes : closing.isClosing = true) (stops : Stops closing.text) : Encloses before after := by
  have between (k : Nat) : Heads k k (String.ofList blanks) :=
    .blanks (by rwa [String.toList_ofList])
  have flat : closing.isOpening = false := by
    cases closing <;> first | rfl | cases closes
  refine ⟨fun k => ?_, fun k => ?_, ?_⟩
  · have split : before = String.ofList opening.text ++ String.ofList blanks := by
      rw [← String.ofList_append, ← ho, String.ofList_toList]
    rw [split]
    exact (Heads.mark opening String.toList_ofList (by simp [nestingAfter?, opens])).append
      (between k)
  · have split : after = String.ofList blanks ++ String.ofList closing.text := by
      rw [← String.ofList_append, ← hc, String.ofList_toList]
    rw [split]
    exact (between k).append
      (.mark closing String.toList_ofList (by simp [nestingAfter?, flat, closes]))
  · rw [hc]
    cases blanks with
    | nil => exact stops
    | cons b blanks => exact .cons (hb b List.mem_cons_self).ends _

namespace Lays

open Ast

variable {k : Nat} {text other : String} {values others : List String}

theorem empty : Lays k "" [] := Writes.nil

theorem token {t : Token} (isWord : t.isWord = true) (ht : HasText t text.toList) :
    Lays k text [] := by
  have all := @Writes.word k k t text.toList [] [] isWord ht .nil .nil
  rwa [List.append_nil] at all

theorem name (hn : isName text = true) : Lays k text [] := token rfl (.name hn)

theorem string {s : StringValue} (noReturn : s.block = true → '\r' ∉ s.value.toList) :
    Lays k s.print (if s.block then [s.value] else []) := by
  rw [StringValue.print]
  split_ifs with block
  · have all := @Writes.block k k 0 s.value [] [] (noReturn block) .nil
    rwa [indented_zero, List.append_nil] at all
  · exact token rfl (.quoted s.value)

theorem after {before : String} (h : Lays k text values) (heads : Heads k k before) :
    Lays k (before ++ text) values := by
  unfold Lays
  rw [String.toList_append]
  exact heads.writes h

theorem of_heads (h : Heads k k text) : Lays k text [] := by
  have all := h.writes .nil
  rwa [List.append_nil] at all

theorem append (h : Lays k text values) (stops : Stops other.toList) (h' : Lays k other others) :
    Lays k (text ++ other) (values ++ others) := by
  unfold Lays
  rw [String.toList_append]
  exact Writes.append h stops h'

theorem enclosed {before after : String} (h : Lays k text values)
    (encloses : Encloses before after) : Lays (k + 1) (before ++ text ++ after) values := by
  have close : Writes k (k + 1) after.toList [] := by
    have all := (encloses.closes k).writes .nil
    rwa [List.append_nil] at all
  unfold Lays
  rw [String.toList_append, String.toList_append, List.append_assoc, ← List.append_nil values]
  exact (encloses.opens k).writes (Writes.append h encloses.stops close)

theorem values_of_empty (h : Lays k "" values) : values = [] := h.of_nil.1

theorem wrap {l : Nat} {before after : String} (h : Lays k text values)
    (some : text ≠ "" → Lays l (before ++ text ++ after) values) :
    Lays l (Ast.wrap before text after) values := by
  unfold Ast.wrap
  split
  · next none =>
    subst none
    rw [h.values_of_empty]
    exact empty
  · next other => exact some other

theorem preceded {before : String} (h : Lays k text values) (heads : Heads k k before) :
    Lays k (Ast.wrap before text "") values :=
  h.wrap fun _ => by
    rw [String.append_empty]
    exact h.after heads

theorem indent (h : Lays k text values) : Lays k (indent text) values := by
  unfold Lays at h ⊢
  rw [Ast.indent, splitLines]
  cases hcs : text.toList with
  | nil =>
    rw [hcs] at h
    exact h
  | cons c cs =>
    rw [hcs] at h
    rw [joinLines_indented List.not_mem_nil h.noReturn (.inr (List.cons_ne_nil c cs)),
      String.toList_ofList]
    exact .blank (.inl rfl) (.blank (.inl rfl) h.shifted)

theorem separated {separator : String} (separates : Separates k separator)
    (h : Lays k text values) (h' : Lays k other others) :
    Lays k (text ++ separator ++ other) (values ++ others) := by
  rw [String.append_assoc]
  exact h.append (separates.stops _) (h'.after separates.heads)

theorem before {separator : String} (separates : Separates k separator)
    (h : Lays k text values) (h' : Lays k other others) :
    Lays k (Ast.wrap "" text separator ++ other) (values ++ others) := by
  unfold Ast.wrap
  split
  · next none =>
    subst none
    rw [h.values_of_empty, String.empty_append]
    exact h'
  · rw [String.empty_append]
    exact h.separated separates h'

/-- Parts with separators between them; those without text are left out. -/
theorem part {separator : String} (separates : Separates k separator) {parts : List String}
    (h : Lays k text values) (h' : Lays k (joinParts separator parts) others) :
    Lays k (joinParts separator (text :: parts)) (values ++ others) := by
  unfold Ast.joinParts at h' ⊢
  by_cases none : text = ""
  · subst none
    rw [h.values_of_empty, List.filter_cons_of_neg (by simp)]
    exact h'
  rw [List.filter_cons_of_pos (by simp [none])]
  by_cases last : parts.filter (· ≠ "") = []
  · rw [last, String.intercalate_nil] at h'
    rw [last, String.intercalate_singleton, h'.values_of_empty, List.append_nil]
    exact h
  · rw [String.intercalate_cons_of_ne_nil last]
    exact h.separated separates h'

theorem lastPart {separator : String} (separates : Separates k separator)
    (h : Lays k text values) : Lays k (joinParts separator [text]) values := by
  have none : Lays k (joinParts separator []) [] := empty
  have all := h.part separates none
  rwa [List.append_nil] at all

/-- Parts with separators between them, whether they have text or not. -/
theorem intercalate {separator : String} (separates : Separates k separator) {α : Type}
    {items : List α} {print : α → String} {values : α → List String}
    (h : ∀ a ∈ items, Lays k (print a) (values a)) :
    Lays k (separator.intercalate (items.map print)) (items.flatMap values) := by
  induction items with
  | nil => exact empty
  | cons a items ih =>
    obtain ⟨here, h⟩ := List.forall_mem_cons.mp h
    cases items with
    | nil =>
      rw [List.map_singleton, String.intercalate_singleton, List.flatMap_singleton]
      exact here
    | cons b items =>
      rw [List.map_cons, String.intercalate_cons_of_ne_nil (by simp)]
      exact here.separated separates (ih h)

theorem joinParts {separator : String} (separates : Separates k separator) {α : Type}
    {items : List α} {print : α → String} {values : α → List String}
    (h : ∀ a ∈ items, Lays k (print a) (values a)) :
    Lays k (joinParts separator (items.map print)) (items.flatMap values) := by
  induction items with
  | nil => exact empty
  | cons a items ih =>
    obtain ⟨here, h⟩ := List.forall_mem_cons.mp h
    exact here.part separates (ih h)

theorem optional {α : Type} {item : Option α} {print : α → String} {values : α → List String}
    (h : ∀ a ∈ item.toList, Lays k (print a) (values a)) :
    Lays k ((item.map print).getD "") (item.toList.flatMap values) := by
  cases item with
  | none => exact empty
  | some a => simpa using h a (by simp)

/-- Items between brackets, or nothing if there are none, however they are laid out. -/
theorem bracketed (layout : List String → String) {before after : String}
    (encloses : Encloses before after) {α : Type} {items : List α} {print : α → String}
    {values : α → List String} (none : layout [] = "")
    (laid : ∀ {k}, (∀ a ∈ items, Lays k (print a) (values a)) →
      Lays k (layout (items.map print)) (items.flatMap values))
    (h : Bracketed (fun j a => Lays j (print a) (values a)) k items) :
    Lays k (Ast.wrap before (layout (items.map print)) after) (items.flatMap values) := by
  cases k with
  | zero =>
    obtain rfl : items = [] := h
    rw [List.map_nil, none]
    exact empty
  | succ k => exact (laid h).wrap fun _ => (laid h).enclosed encloses

end Lays

end GraphQL
