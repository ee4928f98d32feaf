import GraphQL.Ast.Printer
import GraphQL.Source.Lexer
import GraphQL.Source.StringLiteral

/-!
Escaped triple quotes. Main statements: a text is what its escaped form stands for, and the scanner
of block strings passes over an escaped text, after which only a backslash at its end matters.
-/
namespace GraphQL

open Ast

def Triple (cs : List Char) : Prop := ['"', '"', '"'] <+: cs

theorem triple_iff {c : Char} {rest : List Char} :
    Triple (c :: rest) ↔ c = '"' ∧ ∃ more, rest = '"' :: '"' :: more := by
  constructor
  · rintro ⟨more, split⟩
    cases split
    exact ⟨rfl, more, rfl⟩
  · rintro ⟨rfl, more, rfl⟩
    exact ⟨more, rfl⟩

theorem not_triple_of_ne {c : Char} (h : c ≠ '"') (rest : List Char) : ¬Triple (c :: rest) :=
  fun triple => h (triple_iff.mp triple).1

/-- Triple quotes are passed over together, everything else one character at a time. -/
theorem quoteInduction {P : List Char → Prop} (nil : P [])
    (triple : ∀ rest, P rest → P ('"' :: '"' :: '"' :: rest))
    (cons : ∀ c rest, ¬Triple (c :: rest) → P rest → P (c :: rest)) (cs : List Char) : P cs := by
  induction cs using escapeTripleQuotes.induct with
  | case1 => exact nil
  | case2 rest ih => exact triple rest ih
  | case3 c rest other ih =>
    refine cons c rest (fun ht => ?_) ih
    obtain ⟨hc, more, hr⟩ := triple_iff.mp ht
    exact other more hc hr

theorem escapeTripleQuotes_cons {c : Char} {rest : List Char} (h : ¬Triple (c :: rest)) :
    escapeTripleQuotes (c :: rest) = c :: escapeTripleQuotes rest :=
  escapeTripleQuotes.eq_3 _ _ fun more hc hr => h (triple_iff.mpr ⟨hc, more, hr⟩)

theorem escapeTripleQuotes_triple (rest : List Char) :
    escapeTripleQuotes ('"' :: '"' :: '"' :: rest) =
      '\\' :: '"' :: '"' :: '"' :: escapeTripleQuotes rest :=
  escapeTripleQuotes.eq_2 _

theorem blockStringBody?_cons {c : Char} {rest : List Char} (h : ¬Triple (c :: rest))
    (afterBackslash : Bool) : blockStringBody? afterBackslash (c :: rest) =
      (blockStringBody? (c = '\\') rest).map (c :: ·) :=
  blockStringBody?.eq_3 _ _ _ fun more hc hr => h (triple_iff.mpr ⟨hc, more, hr⟩)

theorem unescapeTripleQuotes_cons {c : Char} {rest : List Char} (h : c ≠ '\\' ∨ ¬Triple rest) :
    unescapeTripleQuotes (c :: rest) = c :: unescapeTripleQuotes rest := by
  refine unescapeTripleQuotes.eq_3 _ _ fun more hc hr => ?_
  exact h.elim (fun other => other hc) fun other => other ⟨more, hr.symm⟩

/-- Quotes of the text itself do not add up to triple quotes once it is escaped, nor do they with
those of what follows. -/
theorem not_triple_escaped {c : Char} {rest tail : List Char} (h : ¬Triple (c :: rest))
    (ends : (c :: rest).getLast? = some '"' → tail.head? ≠ some '"') :
    ¬Triple (c :: (escapeTripleQuotes rest ++ tail)) := by
  rw [triple_iff]
  rintro ⟨rfl, more, split⟩
  cases rest with
  | nil =>
    rw [escapeTripleQuotes, List.nil_append] at split
    exact ends rfl (by rw [split]; rfl)
  | cons d rest =>
    have second : ¬Triple (d :: rest) := by
      intro second
      obtain ⟨rfl, more, rfl⟩ := triple_iff.mp second
      exact h ⟨_, rfl⟩
    rw [escapeTripleQuotes_cons second, List.cons_append] at split
    obtain ⟨rfl, below⟩ := List.cons_eq_cons.mp split
    cases rest with
    | nil =>
      rw [escapeTripleQuotes, List.nil_append] at below
      exact ends rfl (by rw [below]; rfl)
    | cons e rest =>
      have third : ¬Triple (e :: rest) := by
        intro third
        obtain ⟨rfl, more, rfl⟩ := triple_iff.mp third
        exact h ⟨_, rfl⟩
      rw [escapeTripleQuotes_cons third, List.cons_append] at below
      obtain ⟨rfl, -⟩ := List.cons_eq_cons.mp below
      exact h ⟨_, rfl⟩

theorem not_triple_escape (cs : List Char) : ¬Triple (escapeTripleQuotes cs) := by
  cases cs with
  | nil => exact fun h => nomatch List.prefix_nil.mp h
  | cons c rest =>
    by_cases triple : Triple (c :: rest)
    · obtain ⟨rfl, more, rfl⟩ := triple_iff.mp triple
      rw [escapeTripleQuotes_triple]
      exact not_triple_of_ne (by decide) _
    · have plain := @not_triple_escaped c rest [] triple (by simp)
      rwa [List.append_nil, ← escapeTripleQuotes_cons triple] at plain

theorem unescape_escape (cs : List Char) : unescapeTripleQuotes (escapeTripleQuotes cs) = cs := by
  induction cs using quoteInduction with
  | nil => rfl
  | triple rest ih => rw [escapeTripleQuotes_triple, unescapeTripleQuotes, ih]
  | cons c rest plain ih =>
    rw [escapeTripleQuotes_cons plain, unescapeTripleQuotes_cons (.inr (not_triple_escape rest)),
      ih]

/-- What comes before the first quote is not escaped. -/
theorem escape_upToQuote {xs : List Char} (h : '"' ∉ xs) (cs : List Char) :
    escapeTripleQuotes (xs ++ cs) = xs ++ escapeTripleQuotes cs := by
  induction xs with
  | nil => rfl
  | cons c xs ih =>
    rw [List.mem_cons, not_or] at h
    rw [List.cons_append, escapeTripleQuotes_cons (not_triple_of_ne (Ne.symm h.1) _), ih h.2,
      List.cons_append]

/-- Quotes do not run on into a text that starts with something else. -/
theorem escape_append {cs : List Char} (xs : List Char) (h : cs.head? ≠ some '"') :
    escapeTripleQuotes (xs ++ cs) = escapeTripleQuotes xs ++ escapeTripleQuotes cs := by
  induction xs using quoteInduction with
  | nil => rfl
  | triple rest ih =>
    change escapeTripleQuotes ('"' :: '"' :: '"' :: (rest ++ cs)) = _
    rw [escapeTripleQuotes_triple, escapeTripleQuotes_triple, ih]
    rfl
  | cons c rest plain ih =>
    have apart : ¬Triple (c :: (rest ++ cs)) := by
      rw [triple_iff]
      rintro ⟨rfl, more, split⟩
      match rest with
      | [] => exact h (by rw [show cs = _ from split]; rfl)
      | [d] =>
        obtain ⟨-, below⟩ := List.cons_eq_cons.mp split
        exact h (by rw [show cs = _ from below]; rfl)
      | d :: e :: rest =>
        obtain ⟨rfl, below⟩ := List.cons_eq_cons.mp split
        obtain ⟨rfl, -⟩ := List.cons_eq_cons.mp below
        exact plain ⟨_, rfl⟩
    rw [List.cons_append, escapeTripleQuotes_cons apart, escapeTripleQuotes_cons plain, ih,
      List.cons_append]

theorem mem_escape {c : Char} (h : c ≠ '\\') {cs : List Char} :
    c ∈ escapeTripleQuotes cs ↔ c ∈ cs := by
  induction cs using quoteInduction with
  | nil => exact Iff.rfl
  | triple rest ih => simp [escapeTripleQuotes_triple, ih, h]
  | cons d rest plain ih => simp [escapeTripleQuotes_cons plain, ih]

theorem count_quote_unescape (cs : List Char) :
    (unescapeTripleQuotes cs).count '"' = cs.count '"' := by
  induction cs using unescapeTripleQuotes.induct with
  | case1 => rfl
  | case2 rest ih => simp [unescapeTripleQuotes, ih]
  | case3 c rest other ih =>
    rw [unescapeTripleQuotes.eq_3 _ _ other, List.count_cons, List.count_cons, ih]

theorem count_quote_escape (cs : List Char) : (escapeTripleQuotes cs).count '"' = cs.count '"' := by
  rw [← count_quote_unescape, unescape_escape]

theorem unescape_sublist (cs : List Char) : (unescapeTripleQuotes cs).Sublist cs := by
  induction cs using unescapeTripleQuotes.induct with
  | case1 => exact .slnil
  | case2 rest ih => exact ((ih.cons_cons _).cons_cons _ |>.cons_cons _).cons _
  | case3 c rest other ih =>
    rw [unescapeTripleQuotes.eq_3 _ _ other]
    exact ih.cons_cons c

/-- Whether the character before what follows is a backslash. -/
def endsWithBackslash (before : Bool) (cs : List Char) : Bool :=
  (cs.getLast?.map fun c => decide (c = '\\')).getD before

theorem endsWithBackslash_cons (before : Bool) (c : Char) (rest : List Char) :
    endsWithBackslash before (c :: rest) = endsWithBackslash (c = '\\') rest := by
  cases rest <;> rfl

/-- The scanner passes over an escaped text, and has seen a backslash if the text ends with one. -/
theorem blockStringBody?_escape (cs : List Char) {tail : List Char} (before : Bool)
    (ends : cs.getLast? = some '"' → tail.head? ≠ some '"') :
    blockStringBody? before (escapeTripleQuotes cs ++ tail) =
      (blockStringBody? (endsWithBackslash before cs) tail).map (escapeTripleQuotes cs ++ ·) := by
  induction cs using quoteInduction generalizing before with
  | nil => simp [escapeTripleQuotes, endsWithBackslash]
  | triple rest ih =>
    have later : rest.getLast? = some '"' → tail.head? ≠ some '"' := by
      cases rest with
      | nil => nofun
      | cons => exact ends
    have seen : endsWithBackslash before ('"' :: '"' :: '"' :: rest) =
        endsWithBackslash false rest := by
      rw [endsWithBackslash_cons, endsWithBackslash_cons, endsWithBackslash_cons]
      rfl
    rw [escapeTripleQuotes_triple, List.cons_append,
      blockStringBody?_cons (not_triple_of_ne (by decide) _)]
    simp only [List.cons_append, decide_true, blockStringBody?, if_true]
    rw [ih false later, seen, Option.map_map, Option.map_map]
    rfl
  | cons c rest plain ih =>
    have later : rest.getLast? = some '"' → tail.head? ≠ some '"' := by
      cases rest with
      | nil => nofun
      | cons => exact ends
    rw [escapeTripleQuotes_cons plain, List.cons_append,
      blockStringBody?_cons (not_triple_escaped plain ends), ih _ later, endsWithBackslash_cons,
      Option.map_map]
    rfl

end GraphQL
