import GraphQL.Ast.Printer
import GraphQL.Source.Lexer
import Mathlib.Data.List.Forall2

/-!
Texts that spell tokens: the texts of tokens with blanks between them. Main statement: a text is
split into the tokens that it spells, unless they nest too deeply.
-/
namespace GraphQL

/-- The text ends, or goes on with a character that ends numbers and names. -/
def Stops (cs : List Char) : Prop := ∀ c ∈ cs.head?, endsNumber c = true

def IsBlank (c : Char) : Prop := c = ' ' ∨ c = ',' ∨ c = '\n'

def Punctuator.text : Punctuator → List Char
  | bang => ['!']
  | dollar => ['$']
  | colon => [':']
  | equals => ['=']
  | .at => ['@']
  | pipe => ['|']
  | ampersand => ['&']
  | parenLeft => ['(']
  | parenRight => [')']
  | bracketLeft => ['[']
  | bracketRight => [']']
  | braceLeft => ['\x7b']
  | braceRight => ['\x7d']
  | spread => ['.', '.', '.']

/-- The token has this text, on one line, wherever its text stops. -/
structure HasText (t : Token) (text : List Char) : Prop where
  scan : ∀ rest, Stops rest → scanToken? (text ++ rest) = some (t, text.length)
  oneLine : ∀ c ∈ text, c ≠ '\n' ∧ c ≠ '\r'

/-- The text is that of the tokens, with blanks between them. -/
inductive Spells : List Char → List Token → Prop where
  | nil : Spells [] []
  | blank {c : Char} {cs : List Char} {ts : List Token} :
      IsBlank c → Spells cs ts → Spells (c :: cs) ts
  | punctuator {p : Punctuator} {cs : List Char} {ts : List Token} :
      Spells cs ts → Spells (p.text ++ cs) (.punctuator p :: ts)
  | token {t : Token} {text cs : List Char} {ts : List Token} :
      HasText t text → Stops cs → Spells cs ts → Spells (text ++ cs) (t :: ts)

/-- The levels left after tokens, unless one of them opens one too many. -/
def levelsAfter? (left : Nat) (ts : List Token) : Option Nat := ts.foldlM nestingAfter? left

theorem Stops.nil : Stops [] := by simp [Stops]

theorem Stops.cons {c : Char} (h : endsNumber c = true) (cs : List Char) : Stops (c :: cs) := by
  simpa [Stops] using h

theorem Stops.append {cs ds : List Char} (h : Stops cs) (h' : Stops ds) : Stops (cs ++ ds) := by
  cases cs with
  | nil => exact h'
  | cons c cs => exact .cons (h c rfl) _

theorem Stops.text {before : String} {c : Char} {cs : List Char} (h : before.toList = c :: cs)
    (ends : endsNumber c = true) (after : String) : Stops (before ++ after).toList := by
  rw [String.toList_append, h]
  exact .cons ends _

theorem IsBlank.ends {c : Char} (h : IsBlank c) : endsNumber c = true := by
  rcases h with rfl | rfl | rfl <;> rfl

theorem HasText.ne_nil {t : Token} {text : List Char} (h : HasText t text) : text ≠ [] := by
  rintro rfl
  cases h.scan [] .nil

theorem Punctuator.scanToken?_text (p : Punctuator) (rest : List Char) :
    scanToken? (p.text ++ rest) = some (.punctuator p, p.text.length) := by
  cases p <;> rfl

theorem Punctuator.text_ne_nil (p : Punctuator) : p.text ≠ [] := by cases p <;> simp [text]

theorem Punctuator.oneLine (p : Punctuator) : ∀ c ∈ p.text, c ≠ '\n' ∧ c ≠ '\r' := by
  cases p <;> simp [Punctuator.text]

theorem skipBlanks_of_scan {cs : List Char} {found : Token × Nat} (h : scanToken? cs = some found)
    (p : Position) : skipBlanks false p cs = (p, cs) := by
  cases cs with
  | nil => rfl
  | cons c rest =>
    have blank {b : Char} (hb : scanToken? (b :: rest) = none) : c ≠ b := by
      rintro rfl
      rw [hb] at h
      cases h
    rw [skipBlanks]
    simp [blank (b := '\r') rfl, blank (b := '\ufeff') rfl, blank (b := '\t') rfl,
      blank (b := ' ') rfl, blank (b := ',') rfl, blank (b := '\n') rfl, blank (b := '#') rfl]

theorem skipBlanks_blank {c : Char} (h : IsBlank c) (p : Position) (cs : List Char) :
    ∃ q, skipBlanks false p (c :: cs) = skipBlanks false q cs := by
  rcases h with rfl | rfl | rfl <;> exact ⟨_, rfl⟩

namespace Spells

variable {cs ds : List Char} {ts us : List Token}

theorem append (h : Spells cs ts) (stops : Stops ds) (h' : Spells ds us) :
    Spells (cs ++ ds) (ts ++ us) := by
  induction h with
  | nil => exact h'
  | blank hc _ ih => exact .blank hc ih
  | punctuator _ ih =>
    rw [List.append_assoc]
    exact .punctuator ih
  | token ht hs _ ih =>
    rw [List.append_assoc]
    exact .token ht (hs.append stops) ih

theorem blanks {bs : List Char} (hb : ∀ b ∈ bs, IsBlank b) (h : Spells cs ts) :
    Spells (bs ++ cs) ts := by
  induction bs with
  | nil => exact h
  | cons b bs ih =>
    obtain ⟨hb, hbs⟩ := List.forall_mem_cons.mp hb
    exact .blank hb (ih hbs)

theorem of_hasText {t : Token} {text : List Char} (h : HasText t text) : Spells text [t] := by
  have all := Spells.token h .nil .nil
  rwa [List.append_nil] at all

end Spells

theorem levelsAfter?_append {left middle last : Nat} {ts us : List Token}
    (h : levelsAfter? left ts = some middle) (h' : levelsAfter? middle us = some last) :
    levelsAfter? left (ts ++ us) = some last := by
  unfold levelsAfter? at h h' ⊢
  rw [List.foldlM_append, h]
  exact h'

theorem lexFrom_token {cs : List Char} {token : Token} {text rest : List Char} {left n : Nat}
    (split : cs = text ++ rest) (scan : scanToken? cs = some (token, text.length))
    (nests : nestingAfter? left token = some n) (p : Position) (budget : Nat) :
    lexFrom left p cs (budget + 1) =
      { lexFrom n (p.after text) rest budget with
        lexemes := ⟨p, token⟩ :: (lexFrom n (p.after text) rest budget).lexemes } := by
  rw [lexFrom, skipBlanks_of_scan scan p]
  cases cs with
  | nil => cases scan
  | cons c cs =>
    dsimp only
    rw [scan]
    dsimp only
    rw [nests, split, List.take_left, List.drop_left]

/-- The text is split into these tokens, from wherever it starts, if they do not nest too deeply. -/
def Lexes (cs : List Char) (ts : List Token) : Prop :=
  ∀ left budget p, cs.length ≤ budget → levelsAfter? left ts ≠ none →
    (lexFrom left p cs (budget + 1)).complete = true ∧
      (lexFrom left p cs (budget + 1)).lexemes.map (·.token) = ts

theorem lexFrom_blank {c : Char} (hc : IsBlank c) (left : Nat) (p : Position) (cs : List Char)
    (budget : Nat) :
    ∃ q, lexFrom left p (c :: cs) (budget + 1) = lexFrom left q cs (budget + 1) := by
  obtain ⟨q, hq⟩ := skipBlanks_blank hc p cs
  exact ⟨q, by rw [lexFrom, lexFrom, hq]⟩

theorem Lexes.blank {c : Char} (hc : IsBlank c) {cs : List Char} {ts : List Token}
    (h : Lexes cs ts) : Lexes (c :: cs) ts := by
  intro left budget p budgeted nests
  obtain ⟨q, same⟩ := lexFrom_blank hc left p cs budget
  rw [same]
  exact h left budget q (Nat.le_of_succ_le budgeted) nests

theorem Lexes.token {t : Token} {text cs : List Char} {ts : List Token}
    (scan : scanToken? (text ++ cs) = some (t, text.length)) (some : text ≠ [])
    (h : Lexes cs ts) : Lexes (text ++ cs) (t :: ts) := by
  intro left budget p budgeted nests
  rw [levelsAfter?, List.foldlM_cons] at nests
  obtain ⟨n, hn⟩ : ∃ n, nestingAfter? left t = Option.some n :=
    Option.ne_none_iff_exists'.mp fun none => nests (by rw [none]; rfl)
  rw [hn] at nests
  have length := List.length_pos_iff.mpr some
  rw [List.length_append] at budgeted
  obtain ⟨budget, rfl⟩ : ∃ b, budget = b + 1 := ⟨budget - 1, by omega⟩
  obtain ⟨complete, tokens⟩ := h n budget (p.after text) (by omega) nests
  rw [lexFrom_token rfl scan hn]
  exact ⟨complete, by rw [List.map_cons, tokens]⟩

theorem Spells.lexes {cs : List Char} {ts : List Token} (h : Spells cs ts) : Lexes cs ts := by
  induction h with
  | nil => exact fun _ _ _ _ _ => ⟨rfl, rfl⟩
  | blank hc _ ih => exact ih.blank hc
  | @punctuator p _ _ _ ih => exact ih.token (p.scanToken?_text _) p.text_ne_nil
  | token ht hs _ ih => exact ih.token (ht.scan _ hs) ht.ne_nil

end GraphQL
