import GraphQL.Proofs.Source.Spelling

/-!
The layout of printed text does not change the tokens that it spells: separators, indentation and
braces around indented lines.
-/
namespace GraphQL

/-- The text two spaces to the right from its second line on, without a line end at its end. -/
def shifted : List Char → List Char
  | [] => []
  | c :: rest =>
    if c = '\n' then (if rest = [] then [] else '\n' :: ' ' :: ' ' :: shifted rest)
    else c :: shifted rest

theorem shifted_append {text : List Char} (h : ∀ c ∈ text, c ≠ '\n') (cs : List Char) :
    shifted (text ++ cs) = text ++ shifted cs := by
  induction text with
  | nil => rfl
  | cons c text ih =>
    obtain ⟨hc, h⟩ := List.forall_mem_cons.mp h
    rw [List.cons_append, shifted, if_neg hc, ih h, List.cons_append]

theorem Stops.shifted {cs : List Char} (h : Stops cs) : Stops (shifted cs) := by
  cases cs with
  | nil => exact .nil
  | cons c cs =>
    have ends : endsNumber c = true := h c rfl
    rw [GraphQL.shifted]
    split
    · split
      · exact .nil
      · exact .cons rfl _
    · exact .cons ends _

theorem splitLinesFrom_newline {current : List Char} (h : '\r' ∉ current) (rest : List Char) :
    splitLinesFrom current ('\n' :: rest) = current.reverse :: splitLinesFrom [] rest := by
  have line : ∀ before, current = '\r' :: before → False := by
    rintro before rfl
    exact h List.mem_cons_self
  rw [splitLinesFrom, if_pos rfl]
  exact line

theorem splitLinesFrom_cons {c : Char} (h : c ≠ '\n') (current rest : List Char) :
    splitLinesFrom current (c :: rest) = splitLinesFrom (c :: current) rest := by
  rw [splitLinesFrom.eq_def]
  exact if_neg h

theorem joinLines_cons (line : List Char) {lines : List (List Char)} (h : lines ≠ []) :
    joinLines (line :: lines) = line ++ '\n' :: joinLines lines := by
  cases lines with
  | nil => exact absurd rfl h
  | cons => rfl

/-- Splitting a text without carriage returns and joining its lines further right shifts it. -/
theorem joinLines_indented {current cs : List Char} (hc : '\r' ∉ current) (h : '\r' ∉ cs)
    (some : current ≠ [] ∨ cs ≠ []) :
    joinLines ((splitLinesFrom current cs).map (' ' :: ' ' :: ·)) =
      ' ' :: ' ' :: (current.reverse ++ shifted cs) := by
  induction cs generalizing current with
  | nil =>
    have some : current ≠ [] := some.resolve_right fun h => h rfl
    simp [splitLinesFrom, some, joinLines, shifted]
  | cons c rest ih =>
    obtain ⟨hr, hrest⟩ := not_or.mp (mt List.mem_cons.mpr h)
    by_cases newline : c = '\n'
    · subst newline
      rw [splitLinesFrom_newline hc, shifted, if_pos rfl]
      cases rest with
      | nil => simp [splitLinesFrom, joinLines]
      | cons d rest =>
        have later := ih List.not_mem_nil hrest (.inr (List.cons_ne_nil d rest))
        have lines : splitLinesFrom [] (d :: rest) ≠ [] := by
          intro none
          rw [none] at later
          cases later
        rw [List.map_cons, joinLines_cons _ (by simpa using lines), later]
        simp
    · rw [splitLinesFrom_cons newline, shifted, if_neg newline,
        ih (by simp [hr, hc]) hrest (.inl (by simp))]
      simp

namespace Spells

variable {cs : List Char} {ts : List Token}

theorem noReturn (h : Spells cs ts) : '\r' ∉ cs := by
  induction h with
  | nil => exact List.not_mem_nil
  | blank hc _ ih =>
    rcases hc with rfl | rfl | rfl <;> simpa using ih
  | @punctuator p _ _ _ ih =>
    rw [List.mem_append, not_or]
    exact ⟨fun h => (p.oneLine _ h).2 rfl, ih⟩
  | token ht _ _ ih =>
    rw [List.mem_append, not_or]
    exact ⟨fun h => (ht.oneLine _ h).2 rfl, ih⟩

theorem tokens_of_nil (h : Spells [] ts) : ts = [] := by
  generalize hcs : [] = cs at h
  cases h with
  | nil => rfl
  | blank => cases hcs
  | punctuator => exact absurd (List.append_eq_nil_iff.mp hcs.symm).1 (Punctuator.text_ne_nil _)
  | token ht => exact absurd (List.append_eq_nil_iff.mp hcs.symm).1 ht.ne_nil

theorem shifted (h : Spells cs ts) : Spells (shifted cs) ts := by
  induction h with
  | nil => exact .nil
  | @blank c cs ts hc h ih =>
    rw [GraphQL.shifted]
    split
    · split
      · subst cs
        exact h
      · exact .blank (.inr (.inr rfl)) (.blank (.inl rfl) (.blank (.inl rfl) ih))
    · exact .blank hc ih
  | @punctuator p _ _ _ ih =>
    rw [shifted_append fun c hc => (p.oneLine c hc).1]
    exact .punctuator ih
  | token ht hs _ ih =>
    rw [shifted_append fun c hc => (ht.oneLine c hc).1]
    exact .token ht hs.shifted ih

end Spells

/-- The text spells the tokens, and these nest within the levels. -/
structure Prints (levels : Nat) (text : String) (ts : List Token) : Prop where
  spells : Spells text.toList ts
  nests : levelsAfter? levels ts = some levels

/-- A relation between texts and tokens that holds of a text if it does of the parts which the text
is put together from. -/
structure Composes (R : String → List Token → Prop) : Prop where
  empty : R "" []
  tokens {ts : List Token} : R "" ts → ts = []
  append {text other : String} {ts us : List Token} :
    R text ts → Stops other.toList → R other us → R (text ++ other) (ts ++ us)
  blanks {before text : String} {ts : List Token} :
    (∀ b ∈ before.toList, IsBlank b) → R text ts → R (before ++ text) ts

/-- Parts with blanks between them; those without text are left out. -/
theorem Composes.joinParts {R : String → List Token → Prop} (composes : Composes R)
    (separator : String) (blank : ∀ b ∈ separator.toList, IsBlank b) (some : separator ≠ "")
    {parts : List String} {tss : List (List Token)} (h : List.Forall₂ R parts tss) :
    R (Ast.joinParts separator parts) tss.flatten := by
  obtain ⟨b, bs, hbs⟩ := List.exists_cons_of_ne_nil (mt String.toList_eq_nil_iff.mp some)
  have ends : endsNumber b = true := (blank b (hbs ▸ List.mem_cons_self)).ends
  induction h with
  | nil => exact composes.empty
  | @cons part ts parts tss hp _ ih =>
    unfold Ast.joinParts at ih ⊢
    rw [List.flatten_cons]
    by_cases he : part = ""
    · subst he
      rw [composes.tokens hp, List.filter_cons_of_neg (by simp)]
      exact ih
    rw [List.filter_cons_of_pos (by simpa using he)]
    by_cases hn : parts.filter (· ≠ "") = []
    · rw [hn] at ih ⊢
      rw [String.intercalate_nil] at ih
      rw [String.intercalate_singleton, composes.tokens ih, List.append_nil]
      exact hp
    · rw [String.intercalate_cons_of_ne_nil hn, String.append_assoc]
      exact composes.append hp (.text hbs ends _) (composes.blanks blank ih)

theorem stops_wrap {before : String} {c : Char} {cs : List Char} (h : before.toList = c :: cs)
    (ends : endsNumber c = true) (inner after : String) :
    Stops (Ast.wrap before inner after).toList := by
  unfold Ast.wrap
  split
  · exact .nil
  · rw [String.append_assoc]
    exact .text h ends _

namespace Prints

open Ast

variable {k : Nat} {text other : String} {ts us : List Token}

theorem empty : Prints k "" [] := ⟨.nil, rfl⟩

theorem ne_empty (h : Prints k text ts) (some : ts ≠ []) : text ≠ "" := by
  rintro rfl
  exact some h.spells.tokens_of_nil

theorem token {t : Token} (ht : HasText t text.toList)
    (level : nestingAfter? k t = Option.some k) : Prints k text [t] :=
  ⟨.of_hasText ht, by rw [levelsAfter?, List.foldlM_cons, level]; rfl⟩

theorem append (h : Prints k text ts) (stops : Stops other.toList) (h' : Prints k other us) :
    Prints k (text ++ other) (ts ++ us) where
  spells := by
    rw [String.toList_append]
    exact h.spells.append stops h'.spells
  nests := levelsAfter?_append h.nests h'.nests

theorem blanks {before : String} (hb : ∀ b ∈ before.toList, IsBlank b) (h : Prints k text ts) :
    Prints k (before ++ text) ts where
  spells := by
    rw [String.toList_append]
    exact h.spells.blanks hb
  nests := h.nests

theorem punctuator (p : Punctuator) (before : String) (hp : before.toList = p.text)
    (flat : (p.isOpening || p.isClosing) = false) (h : Prints k text ts) :
    Prints k (before ++ text) (.punctuator p :: ts) where
  spells := by
    rw [String.toList_append, hp]
    exact .punctuator h.spells
  nests := by
    rw [Bool.or_eq_false_iff] at flat
    have level : nestingAfter? k (.punctuator p) = some k := by simp [nestingAfter?, flat]
    rw [levelsAfter?, List.foldlM_cons, level]
    exact h.nests

theorem enclosed (opening closing : Punctuator) {before after : String}
    (ho : before.toList = opening.text) (hc : after.toList = closing.text)
    (opens : opening.isOpening = true) (closes : closing.isClosing = true)
    (stops : Stops closing.text) (h : Prints k text ts) :
    Prints (k + 1) (before ++ text ++ after)
      (.punctuator opening :: (ts ++ [.punctuator closing])) where
  spells := by
    have last : Spells closing.text [.punctuator closing] := by
      have all := @Spells.punctuator closing _ _ .nil
      rwa [List.append_nil] at all
    rw [String.toList_append, String.toList_append, ho, hc, List.append_assoc]
    exact .punctuator (h.spells.append stops last)
  nests := by
    have opened : nestingAfter? (k + 1) (.punctuator opening) = some k := by
      simp [nestingAfter?, opens]
    have flat : closing.isOpening = false := by
      cases closing <;> first | rfl | cases closes
    have closed : levelsAfter? k [.punctuator closing] = some (k + 1) := by
      simp [levelsAfter?, nestingAfter?, closes, flat]
    rw [levelsAfter?, List.foldlM_cons, opened]
    exact levelsAfter?_append h.nests closed

theorem indent (h : Prints k text ts) : Prints k (indent text) ts where
  spells := by
    have spells := h.spells
    rw [Ast.indent, splitLines]
    cases hcs : text.toList with
    | nil =>
      rw [hcs] at spells
      exact spells
    | cons c cs =>
      rw [hcs] at spells
      rw [joinLines_indented List.not_mem_nil spells.noReturn (.inr (List.cons_ne_nil c cs)),
        String.toList_ofList]
      exact .blank (.inl rfl) (.blank (.inl rfl) spells.shifted)
  nests := h.nests

theorem composes : Composes (Prints k) where
  empty := empty
  tokens h := h.spells.tokens_of_nil
  append := append
  blanks := blanks

theorem joinParts (separator : String) (blank : ∀ b ∈ separator.toList, IsBlank b)
    (some : separator ≠ "") {parts : List String} {tss : List (List Token)}
    (h : List.Forall₂ (Prints k) parts tss) :
    Prints k (joinParts separator parts) tss.flatten :=
  composes.joinParts separator blank some h

theorem wrap (opening closing : Punctuator) {before after : String}
    (ho : before.toList = opening.text) (hc : after.toList = closing.text)
    (opens : opening.isOpening = true) (closes : closing.isClosing = true)
    (stops : Stops closing.text) (h : Prints k text ts) (some : ts ≠ []) :
    Prints (k + 1) (wrap before text after)
      (.punctuator opening :: (ts ++ [.punctuator closing])) := by
  rw [Ast.wrap, if_neg (h.ne_empty some)]
  exact enclosed _ _ ho hc opens closes stops h

theorem wrap_blank (before : String) (hb : ∀ b ∈ before.toList, IsBlank b) (h : Prints k text ts) :
    Prints k (Ast.wrap before text "") ts := by
  unfold Ast.wrap
  split
  · next none => exact none ▸ h
  · rw [String.append_empty]
    exact h.blanks hb

theorem lines (opening closing : Punctuator) {before after : String}
    (ho : before.toList = opening.text ++ ['\n']) (hc : after.toList = '\n' :: closing.text)
    (opens : opening.isOpening = true) (closes : closing.isClosing = true)
    (stops : Stops closing.text) {items : List String} {tss : List (List Token)}
    (some : tss.flatten ≠ []) (h : List.Forall₂ (Prints k) items tss) :
    Prints (k + 1) (Ast.wrap before (Ast.indent (Ast.joinParts "\n" items)) after)
      (.punctuator opening :: (tss.flatten ++ [.punctuator closing])) := by
  have newline : ∀ b ∈ "\n".toList, IsBlank b := by simp [IsBlank]
  have inner := (joinParts "\n" newline (by decide) h).indent
  have lines : Prints k ("\n" ++ (Ast.indent (Ast.joinParts "\n" items) ++ "\n")) tss.flatten := by
    have last : Prints k "\n" [] := empty.blanks newline
    have stops : Stops "\n".toList := .cons rfl []
    have all := (inner.append stops last).blanks newline
    rwa [List.append_nil] at all
  have text : Ast.wrap before (Ast.indent (Ast.joinParts "\n" items)) after =
      String.ofList opening.text ++
        ("\n" ++ (Ast.indent (Ast.joinParts "\n" items) ++ "\n")) ++
          String.ofList closing.text := by
    have first : before = String.ofList opening.text ++ "\n" := by
      rw [← String.toList_inj, ho, String.toList_append, String.toList_ofList]
      rfl
    have last : after = "\n" ++ String.ofList closing.text := by
      rw [← String.toList_inj, hc, String.toList_append, String.toList_ofList,
        String.toList_ofList]
      rfl
    rw [Ast.wrap, if_neg (inner.ne_empty some), first, last]
    simp only [String.append_assoc]
  rw [text]
  exact enclosed _ _ String.toList_ofList String.toList_ofList opens closes stops lines

theorem block {items : List String} {tss : List (List Token)} (some : tss.flatten ≠ [])
    (h : List.Forall₂ (Prints k) items tss) :
    Prints (k + 1) (blockOf items)
      (.punctuator .braceLeft :: (tss.flatten ++ [.punctuator .braceRight])) :=
  lines .braceLeft .braceRight rfl rfl rfl rfl (.cons rfl _) some h

end Prints

end GraphQL
