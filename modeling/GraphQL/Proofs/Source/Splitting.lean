import GraphQL.Proofs.Source.Layout

/-!
What a text is split into, if it is split to its end. Main statement: splitting is unique, so a text
that spells tokens is split into no others.
-/
namespace GraphQL

/-- The text is split to its end, into these tokens. -/
def SplitsTo (cs : List Char) (ts : List Token) : Prop :=
  ∃ left p budget, (lexFrom left p cs budget).complete = true ∧
    (lexFrom left p cs budget).lexemes.map (·.token) = ts

namespace SplitsTo

variable {cs : List Char} {ts : List Token}

theorem of_nil (h : SplitsTo [] ts) : ts = [] := by
  obtain ⟨left, p, budget, complete, tokens⟩ := h
  cases budget with
  | zero => cases complete
  | succ budget => exact tokens.symm

theorem of_blank {c : Char} (hc : IsBlank c) (h : SplitsTo (c :: cs) ts) : SplitsTo cs ts := by
  obtain ⟨left, p, budget, complete, tokens⟩ := h
  cases budget with
  | zero => cases complete
  | succ budget =>
    obtain ⟨q, hq⟩ := skipBlanks_blank hc p cs
    have same : lexFrom left p (c :: cs) (budget + 1) = lexFrom left q cs (budget + 1) := by
      rw [lexFrom, lexFrom, hq]
    rw [same] at complete tokens
    exact ⟨left, q, budget + 1, complete, tokens⟩

theorem of_token {t : Token} {text : List Char}
    (scan : scanToken? (text ++ cs) = some (t, text.length)) (h : SplitsTo (text ++ cs) ts) :
    ∃ us, ts = t :: us ∧ SplitsTo cs us := by
  obtain ⟨left, p, budget, complete, tokens⟩ := h
  cases budget with
  | zero => cases complete
  | succ budget =>
    cases level : nestingAfter? left t with
    | none =>
      rw [lexFrom, skipBlanks_of_scan scan p] at complete
      cases hcs : text ++ cs with
      | nil =>
        rw [hcs] at scan
        cases scan
      | cons c rest =>
        rw [hcs] at scan complete
        dsimp only at complete
        rw [scan] at complete
        dsimp only at complete
        rw [level] at complete
        cases complete
    | some n =>
      rw [lexFrom_token rfl scan level] at complete tokens
      exact ⟨_, tokens.symm, n, p.after text, budget, complete, rfl⟩

/-- Where a number should be but is none, splitting ends. -/
theorem not_of_scan {c : Char} (start : c = '-' ∨ isAsciiDigit c = true)
    (scan : scanToken? (c :: cs) = none) : ¬ SplitsTo (c :: cs) ts := by
  rintro ⟨left, p, budget, complete, -⟩
  cases budget with
  | zero => cases complete
  | succ budget =>
    have plain : skipBlanks false p (c :: cs) = (p, c :: cs) := by
      have other {b : Char} (hb : (b = '-' ∨ isAsciiDigit b = true) → False) : c ≠ b := by
        rintro rfl
        exact hb start
      rw [skipBlanks]
      simp [other (b := '\r') (by decide), other (b := '\ufeff') (by decide),
        other (b := '\t') (by decide), other (b := ' ') (by decide), other (b := ',') (by decide),
        other (b := '\n') (by decide), other (b := '#') (by decide)]
    rw [lexFrom, plain] at complete
    dsimp only at complete
    rw [scan] at complete
    cases complete

end SplitsTo

/-- If a text that begins with this one is split to its end, the tokens begin with these. -/
structure SplitsAs (text : String) (ts : List Token) : Prop where
  tokens : text = "" → ts = []
  first : ∀ rest us, Stops rest → SplitsTo (text.toList ++ rest) us →
    ∃ vs, us = ts ++ vs ∧ SplitsTo rest vs

namespace SplitsAs

variable {text other : String} {ts us : List Token}

theorem of_spells (h : Spells text.toList ts) : SplitsAs text ts where
  tokens := by
    rintro rfl
    exact h.tokens_of_nil
  first := by
    generalize text.toList = cs at h
    induction h with
    | nil => exact fun rest us _ split => ⟨us, rfl, split⟩
    | blank hc _ ih => exact fun rest us stops split => ih rest us stops (split.of_blank hc)
    | @punctuator p cs ts _ ih =>
      intro rest us stops split
      rw [List.append_assoc] at split
      obtain ⟨vs, rfl, later⟩ := split.of_token (p.scanToken?_text _)
      obtain ⟨vs, rfl, last⟩ := ih rest vs stops later
      exact ⟨vs, rfl, last⟩
    | @token t text cs ts ht hs _ ih =>
      intro rest us stops split
      rw [List.append_assoc] at split
      obtain ⟨vs, rfl, later⟩ := split.of_token (ht.scan _ (hs.append stops))
      obtain ⟨vs, rfl, last⟩ := ih rest vs stops later
      exact ⟨vs, rfl, last⟩

/-- A text that cannot be split goes for any tokens. -/
theorem of_unread (some : text ≠ "")
    (h : ∀ rest us, Stops rest → ¬ SplitsTo (text.toList ++ rest) us) : SplitsAs text ts where
  tokens := fun empty => absurd empty some
  first := fun rest us stops split => absurd split (h rest us stops)

theorem append (h : SplitsAs text ts) (stops : Stops other.toList) (h' : SplitsAs other us) :
    SplitsAs (text ++ other) (ts ++ us) where
  tokens := by
    intro empty
    obtain ⟨rfl, rfl⟩ := String.append_eq_empty_iff.mp empty
    rw [h.tokens rfl, h'.tokens rfl, List.append_nil]
  first := by
    intro rest vs restStops split
    rw [String.toList_append, List.append_assoc] at split
    obtain ⟨vs, rfl, later⟩ := h.first _ vs (stops.append restStops) split
    obtain ⟨vs, rfl, last⟩ := h'.first rest vs restStops later
    exact ⟨vs, (List.append_assoc ts us vs).symm, last⟩

/-- Before a text there may be tokens that nothing after them changes. -/
theorem after {before : String} (us : List Token) (some : before = "" → us = [])
    (h : ∀ cs vs, SplitsTo (before.toList ++ cs) vs → ∃ ws, vs = us ++ ws ∧ SplitsTo cs ws)
    (h' : SplitsAs text ts) :
    SplitsAs (before ++ text) (us ++ ts) where
  tokens := by
    intro empty
    obtain ⟨rfl, rfl⟩ := String.append_eq_empty_iff.mp empty
    rw [some rfl, h'.tokens rfl, List.append_nil]
  first := by
    intro rest vs stops split
    rw [String.toList_append, List.append_assoc] at split
    obtain ⟨vs, rfl, later⟩ := h _ vs split
    obtain ⟨vs, rfl, last⟩ := h'.first rest vs stops later
    exact ⟨vs, (List.append_assoc us ts vs).symm, last⟩

theorem blanks {before : String} (hb : ∀ b ∈ before.toList, IsBlank b) (h : SplitsAs text ts) :
    SplitsAs (before ++ text) ts := by
  refine after [] (fun _ => rfl) (fun cs vs split => ⟨vs, rfl, ?_⟩) h
  revert hb split
  generalize before.toList = bs
  intro hb split
  induction bs with
  | nil => exact split
  | cons b bs ih =>
    obtain ⟨hb, hbs⟩ := List.forall_mem_cons.mp hb
    exact ih hbs (split.of_blank hb)

theorem punctuator (p : Punctuator) {before : String} (hp : before.toList = p.text)
    (h : SplitsAs text ts) : SplitsAs (before ++ text) (.punctuator p :: ts) := by
  refine after [.punctuator p] ?_ (fun cs vs split => ?_) h
  · rintro rfl
    exact absurd hp.symm p.text_ne_nil
  · rw [hp] at split
    exact split.of_token (p.scanToken?_text _)

theorem composes : Composes SplitsAs where
  empty := of_spells .nil
  tokens h := h.tokens rfl
  append := append
  blanks := blanks

theorem enclosed (opening closing : Punctuator) {before after : String}
    (ho : before.toList = opening.text) (hc : after.toList = closing.text)
    (stops : Stops closing.text) (h : SplitsAs text ts) :
    SplitsAs (before ++ text ++ after) (.punctuator opening :: (ts ++ [.punctuator closing])) := by
  have last : SplitsAs after [.punctuator closing] := by
    have all := (composes.empty).punctuator closing hc
    rwa [String.append_empty] at all
  rw [String.append_assoc]
  exact (h.append (hc ▸ stops) last).punctuator opening ho

theorem labelled {name : String} (hn : SplitsAs name [.name name]) (h : SplitsAs text ts) :
    SplitsAs (name ++ ": " ++ text) (.name name :: .punctuator .colon :: ts) := by
  have mark : ": " = ":" ++ " " := rfl
  have space : ∀ b ∈ " ".toList, IsBlank b := by simp [IsBlank]
  have colon := (h.blanks space).punctuator .colon (show ":".toList = _ from rfl)
  rw [mark, String.append_assoc, String.append_assoc]
  exact hn.append (.text rfl rfl _) colon

theorem eq (h : SplitsAs text ts) (split : SplitsTo text.toList us) : us = ts := by
  rw [← List.append_nil text.toList] at split
  obtain ⟨vs, rfl, last⟩ := h.first [] us .nil split
  rw [last.of_nil, List.append_nil]

end SplitsAs

end GraphQL
