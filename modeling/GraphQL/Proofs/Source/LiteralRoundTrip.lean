import GraphQL.Proofs.Source.Parsed
import GraphQL.Proofs.Source.RoundTrip
import GraphQL.Proofs.Source.Splitting
import GraphQL.Proofs.Source.Yields

/-!
Printing literals and reading them again. Main statement: the printed text of a literal that was
read is read as the literal again if and only if the literal is printable.
-/
namespace GraphQL

open Ast
open GraphQL.Parser

namespace Literal

variable {constant : Bool} {k : Nat}

/-- The literal is printable if it is the one that was found. -/
def PrintableIfFound (literal found : Literal) : Prop :=
  Value.ofLiteral found = .ofLiteral literal → (Node.value (.ofLiteral literal)).Printable

/-- If the text of the literal is read as the literal, the literal is printable. -/
def RereadsOnlyIfPrintable (constant : Bool) (literal : Literal) : Prop :=
  ∃ ts, SplitsAs (Value.ofLiteral literal).print ts ∧
    StartsWith (· ≠ .punctuator .bracketRight) ts ∧
    ∀ budget, ts.length ≤ budget →
      Reads (Parser.value constant budget) ts literal.PrintableIfFound []

theorem TextReadsBack.rereads {literal : Literal} (h : TextReadsBack constant k literal)
    (printable : (Node.value (.ofLiteral literal)).Printable) :
    RereadsOnlyIfPrintable constant literal := by
  obtain ⟨ts, prints, starts, reads⟩ := h
  exact ⟨ts, .of_spells prints.spells, starts,
    fun budget budgeted => (reads budget budgeted).mono fun _ _ _ => printable⟩

/-- A text that should be a number but is none cannot be split. -/
theorem splitsAs_of_not_number {text : String} {first : Char} {rest : List Char}
    (split : text.toList = first :: rest) (start : first = '-' ∨ isAsciiDigit first = true)
    (all : ∀ c ∈ first :: rest, endsNumber c = false) (none : numberToken? first rest = none)
    (ts : List Token) : SplitsAs text ts := by
  refine .of_unread ?_ fun after us stops => ?_
  · rintro rfl
    cases split
  · have scan := scanToken?_number start all stops
    rw [none] at scan
    rw [split, List.cons_append]
    exact SplitsTo.not_of_scan start scan

/-- A float whose text is no number is a name, if its text is anything. -/
theorem splitsAs_name {x : Binary64}
    (plain : ¬ (Node.value (.ofLiteral (.float x))).PlainLiteral) :
    ∃ name, SplitsAs (floatText x) [.name name] := by
  cases x with
  | finite x =>
    have nine : ['e', '9'] <:+: (floatLayout.text x).toList := by
      by_contra nine
      apply plain
      refine ⟨?_, nine⟩
      change (Binary64.ofText? (floatLayout.text x)).any Binary64.isFinite = true
      rw [DecimalLayout.ofText?_text]
      rfl
    obtain ⟨first, rest, split, start, all, none, -⟩ := numberToken?_floatText x
    rw [split] at nine
    exact ⟨"", splitsAs_of_not_number split start all (none nine) _⟩
  | infinite negative =>
    cases negative with
    | true =>
      have all : ∀ c ∈ ['-', 'i', 'n', 'f'], endsNumber c = false := by simp [endsNumber]
      exact ⟨"", splitsAs_of_not_number rfl (.inl rfl) all rfl _⟩
    | false =>
      have name : isName "inf" = true := rfl
      exact ⟨"inf", .of_spells (.of_hasText (.name name))⟩
  | nan =>
    have name : isName "NaN" = true := rfl
    exact ⟨"NaN", .of_spells (.of_hasText (.name name))⟩

theorem float_rereads {x : Binary64}
    (plain : ¬ (Node.value (.ofLiteral (.float x))).PlainLiteral) :
    RereadsOnlyIfPrintable constant (.float x) := by
  obtain ⟨name, splits⟩ := splitsAs_name plain
  refine ⟨_, splits, ⟨_, rfl, by simp⟩, fun budget budgeted => ?_⟩
  obtain ⟨budget, rfl⟩ : ∃ b, budget = b + 1 := ⟨budget - 1, by simp at budgeted; omega⟩
  refine .peek (.advance (.pure fun same => ?_))
  split_ifs at same <;> cases same

/-- The escape of U+0008 is read as another character. -/
theorem string_rereads {text : String} (control : '\x08' ∈ text.toList) :
    RereadsOnlyIfPrintable constant (.string text) := by
  refine ⟨_, .of_spells (.of_hasText (.quoted text)), ⟨_, rfl, by simp⟩, fun budget budgeted => ?_⟩
  obtain ⟨budget, rfl⟩ : ∃ b, budget = b + 1 := ⟨budget - 1, by simp at budgeted; omega⟩
  refine .peek (.quoted (.pure fun same => ?_))
  have equal : String.ofList (text.toList.map readChar) = text :=
    congrArg StringValue.value (Value.string.inj same)
  have kept := congrArg String.toList equal
  rw [String.toList_ofList, map_readChar_eq_iff] at kept
  exact absurd control kept

theorem printable_list {items : List Literal}
    (h : ∀ item ∈ items, (Node.value (.ofLiteral item)).Printable) :
    (Node.value (.ofLiteral (.list items))).Printable := by
  rw [Node.printable_iff]
  refine ⟨trivial, fun child hc => ?_⟩
  rw [Value.ofLiteral, Node.parts, List.flatten_singleton, valuesOfLiterals_eq, List.map_map] at hc
  obtain ⟨item, hi, rfl⟩ := List.mem_map.mp hc
  exact h item hi

theorem printable_name (n : Name) : (Node.name n).Printable := by
  rw [Node.printable_iff]
  exact ⟨trivial, fun child hc => absurd hc List.not_mem_nil⟩

theorem printable_object {fields : List (String × Literal)}
    (h : ∀ field ∈ fields, (Node.value (.ofLiteral field.2)).Printable) :
    (Node.value (.ofLiteral (.object fields))).Printable := by
  rw [Node.printable_iff]
  refine ⟨trivial, fun child hc => ?_⟩
  rw [Value.ofLiteral, Node.parts, List.flatten_singleton, fieldsOfLiterals_eq, List.map_map] at hc
  obtain ⟨field, hf, rfl⟩ := List.mem_map.mp hc
  refine Node.printable_iff.mpr ⟨trivial, fun child hc => ?_⟩
  rcases List.mem_pair.mp hc with rfl | rfl
  · exact printable_name _
  · exact h field hf

theorem forall₂_of_map_eq {α β γ : Type} {f : α → γ} {g : β → γ} {as : List α} {bs : List β}
    (h : bs.map g = as.map f) : List.Forall₂ (fun a b => g b = f a) as bs := by
  rw [← List.forall₂_eq_eq_eq, List.forall₂_map_left_iff, List.forall₂_map_right_iff] at h
  exact h.flip

theorem list_rereads {items : List Literal}
    (h : ∀ item ∈ items, RereadsOnlyIfPrintable constant item) :
    RereadsOnlyIfPrintable constant (.list items) := by
  obtain ⟨tss, splits, count, reads⟩ := Each.of_texts h
  unfold RereadsOnlyIfPrintable
  rw [print_list]
  have inner := SplitsAs.composes.joinParts ", " (by simp [IsBlank]) (by decide) splits
  refine ⟨_, inner.enclosed .bracketLeft .bracketRight rfl rfl (.cons rfl _), ⟨_, rfl, by simp⟩,
    fun budget budgeted => ?_⟩
  obtain ⟨budget, rfl⟩ : ∃ b, budget = b + 1 := ⟨budget - 1, by simp at budgeted; omega⟩
  simp only [List.length_cons, List.length_append, List.length_nil] at budgeted
  refine (reads_list (reads budget (by omega)) (by omega)).mono ?_
  rintro _ ⟨found, rfl, each⟩ same
  have equal : found.map Value.ofLiteral = items.map Value.ofLiteral := by
    rw [← valuesOfLiterals_eq, ← valuesOfLiterals_eq]
    exact (Value.list.inj same).1
  apply printable_list
  intro item hi
  obtain ⟨index, hi', rfl⟩ := List.mem_iff_getElem.mp hi
  have length := each.length_eq
  exact each.get hi' (length ▸ hi') ((forall₂_of_map_eq equal).get hi' (length ▸ hi'))

theorem named_rereads {name : String} {literal : Literal} (hn : isName name = true)
    (h : RereadsOnlyIfPrintable constant literal) :
    ∃ ts, SplitsAs (name ++ ": " ++ (Value.ofLiteral literal).print) ts ∧ StartsWith IsWord ts ∧
      ∀ budget, ts.length ≤ budget → Reads (argument constant budget) ts
        (fun found => found.1 = name ∧ literal.PrintableIfFound found.2) [] := by
  obtain ⟨ts, splits, -, reads⟩ := h
  have word : SplitsAs name [.name name] := .of_spells (.of_hasText (.name hn))
  refine ⟨_, word.labelled splits, ⟨_, rfl, name, rfl⟩,
    fun budget budgeted => reads_named (reads budget ?_)⟩
  simp only [List.length_cons] at budgeted
  omega

theorem object_rereads {fields : List (String × Literal)} (sorted : fields.Pairwise (·.1 < ·.1))
    (h : ∀ field ∈ fields, isName field.1 = true ∧ RereadsOnlyIfPrintable constant field.2) :
    RereadsOnlyIfPrintable constant (.object fields) := by
  obtain ⟨tss, splits, count, reads⟩ := Each.of_texts fun field hf =>
    named_rereads (h field hf).1 (h field hf).2
  unfold RereadsOnlyIfPrintable
  rw [print_object]
  have inner := SplitsAs.composes.joinParts ", " (by simp [IsBlank]) (by decide) splits
  refine ⟨_, inner.enclosed .braceLeft .braceRight rfl rfl (.cons rfl _), ⟨_, rfl, by simp⟩,
    fun budget budgeted => ?_⟩
  obtain ⟨budget, rfl⟩ : ∃ b, budget = b + 1 := ⟨budget - 1, by simp at budgeted; omega⟩
  simp only [List.length_cons, List.length_append, List.length_nil] at budgeted
  refine (reads_object (reads budget (by omega)) sorted (by omega)).mono ?_
  rintro _ ⟨found, rfl, each⟩ same
  have equal := (Value.object.inj same).1
  rw [fieldsOfLiterals_eq, fieldsOfLiterals_eq] at equal
  apply printable_object
  intro field hf
  obtain ⟨index, hi, rfl⟩ := List.mem_iff_getElem.mp hf
  have length := each.length_eq
  have value := (forall₂_of_map_eq equal).get hi (length ▸ hi)
  exact (each.get hi (length ▸ hi)).2 (congrArg ObjectField.value value)

/-- The text of a literal is read as the literal only if the literal is printable. -/
theorem rereads {literal : Literal} (fits : literal.Fits constant k) :
    RereadsOnlyIfPrintable constant literal := by
  induction k using Nat.strongRecOn generalizing literal with | _ k ih => ?_
  by_cases printable : (Node.value (.ofLiteral literal)).Printable
  · exact (readsBack fits printable).rereads printable
  cases literal with
  | float x =>
    refine float_rereads fun plain => printable (Node.printable_iff.mpr ⟨plain, ?_⟩)
    exact fun child hc => absurd hc List.not_mem_nil
  | string text =>
    refine string_rereads (not_not.mp fun plain => printable (Node.printable_iff.mpr ⟨plain, ?_⟩))
    exact fun child hc => absurd hc List.not_mem_nil
  | list items =>
    cases k with
    | zero => cases fits
    | succ k => exact list_rereads fun item hi => ih k (Nat.lt_succ_self k) (fits item hi)
  | object fields =>
    cases k with
    | zero => cases fits
    | succ k =>
      exact object_rereads fits.1 fun field hf =>
        ⟨(fits.2 field hf).1, ih k (Nat.lt_succ_self k) (fits.2 field hf).2⟩
  | «variable» name =>
    refine (printable (Node.printable_iff.mpr ⟨trivial, fun child hc => ?_⟩)).elim
    rw [List.mem_singleton.mp hc]
    exact printable_name _
  | _ =>
    exact (printable (Node.printable_iff.mpr
      ⟨trivial, fun child hc => absurd hc List.not_mem_nil⟩)).elim

end Literal

/-- A query with the text as the value of an argument. -/
def inPlace (text : String) : String := "\x7b f(v: " ++ text ++ ") \x7d"

/-- The query of one field with one argument. -/
def placedDefinition (value : Value) : Definition :=
  .operation ⟨.query, none, [], [], ⟨[.field ⟨none, ⟨"f", none⟩, [⟨⟨"v", none⟩, value, none⟩], [],
    none, none⟩], none⟩, none⟩

def placed (value : Value) : Document := ⟨[placedDefinition value], none⟩

def argumentTokens (ts : List Token) : List Token := .name "v" :: .punctuator .colon :: ts

def fieldTokens (ts : List Token) : List Token :=
  .name "f" :: (.punctuator .parenLeft :: (argumentTokens ts ++ [.punctuator .parenRight]))

def placeTokens (ts : List Token) : List Token :=
  .punctuator .braceLeft :: (fieldTokens ts ++ [.punctuator .braceRight])

theorem length_placeTokens (ts : List Token) : (placeTokens ts).length = ts.length + 7 := by
  simp [placeTokens, fieldTokens, argumentTokens]

theorem text_inPlace (text : String) :
    inPlace text =
      "\x7b" ++ (" " ++ ("f" ++ ("(" ++ ("v" ++ ": " ++ text) ++ ")") ++ " ")) ++ "\x7d" := by
  have before : "\x7b f(v: " = "\x7b" ++ (" " ++ ("f" ++ ("(" ++ ("v" ++ ": ")))) := rfl
  have after : ") \x7d" = ")" ++ (" " ++ "\x7d") := rfl
  rw [inPlace, before, after]
  simp only [String.append_assoc]

theorem isBlank_space : ∀ b ∈ " ".toList, IsBlank b := by simp [IsBlank]

theorem stops_space : Stops " ".toList := .cons rfl []

theorem stops_arguments (text : String) : Stops ("(" ++ ("v" ++ ": " ++ text) ++ ")").toList := by
  rw [String.append_assoc]
  exact .text rfl rfl _

section

variable {ts : List Token}

theorem inPlace_prints {text : String} {k : Nat} (h : Prints k text ts) :
    Prints (k + 2) (inPlace text) (placeTokens ts) := by
  have argument : Prints k ("v" ++ ": " ++ text) (argumentTokens ts) := h.labelled (by decide)
  have arguments := argument.enclosed .parenLeft .parenRight (show "(".toList = _ from rfl)
    (show ")".toList = _ from rfl) rfl rfl (.cons rfl _)
  have name : Prints (k + 1) "f" [.name "f"] := .token (.name (by decide)) rfl
  have field := name.append (stops_arguments text) arguments
  have space : Prints (k + 1) " " [] := Prints.empty.blanks isBlank_space
  have spaced := (field.append stops_space space).blanks isBlank_space
  rw [List.append_nil] at spaced
  rw [text_inPlace]
  exact spaced.enclosed .braceLeft .braceRight rfl rfl rfl rfl (.cons rfl _)

theorem inPlace_splits {text : String} (h : SplitsAs text ts) :
    SplitsAs (inPlace text) (placeTokens ts) := by
  have label : SplitsAs "v" [.name "v"] := .of_spells (.of_hasText (.name (by decide)))
  have argument : SplitsAs ("v" ++ ": " ++ text) (argumentTokens ts) := label.labelled h
  have arguments := argument.enclosed .parenLeft .parenRight (show "(".toList = _ from rfl)
    (show ")".toList = _ from rfl) (.cons rfl _)
  have name : SplitsAs "f" [.name "f"] := .of_spells (.of_hasText (.name (by decide)))
  have field := name.append (stops_arguments text) arguments
  have space : SplitsAs " " [] := SplitsAs.composes.empty.blanks isBlank_space
  have spaced := (field.append stops_space space).blanks isBlank_space
  rw [List.append_nil] at spaced
  rw [text_inPlace]
  exact spaced.enclosed .braceLeft .braceRight rfl rfl (.cons rfl _)

theorem reads_one {α : Type} {item : Parser α} {result : α → Prop} {heads : Token → Prop}
    {stops : List Punctuator} {opening closing : Punctuator} {budget : Nat}
    {follow : List Token → Prop} (starts : StartsWith heads ts) (reads : Reads item ts result stops)
    (apart : Apart heads (closing :: stops)) (last : closing ∉ stops) :
    ReadsBefore (enclosed opening closing item (budget + 1))
      (.punctuator opening :: (ts ++ [.punctuator closing]))
      (fun r => ∃ x, result x ∧ r.1 = [x]) follow := by
  have each : Each item (fun _ => result) heads stops [()] [ts] := .cons ⟨starts, reads⟩ .nil
  have all : ReadsBefore (enclosed opening closing item (budget + 1))
      (.punctuator opening :: ([ts].flatten ++ [.punctuator closing]))
      (fun r => List.Forall₂ (fun _ => result) [()] r.1) follow :=
    .enclosed each apart last (by simp) (Nat.le_add_left 1 budget)
  rw [List.flatten_singleton] at all
  refine all.mono fun r hr => ?_
  obtain ⟨x, none, hx, hn, found⟩ := List.forall₂_cons_left_iff.mp hr
  rw [List.forall₂_nil_left_iff.mp hn] at found
  exact ⟨x, hx, found⟩

variable {result : Literal → Prop}

theorem reads_field {budget : Nat} (p : Position)
    (h : Reads (value false (budget + 1)) ts result []) :
    Reads (field none (selectionSet none (budget + 1)) (budget + 1) p "f")
      (.punctuator .parenLeft :: (argumentTokens ts ++ [.punctuator .parenRight]))
      (fun found => ∃ literal, result literal ∧ found = ⟨none, ⟨"f", none⟩,
        [⟨⟨"v", none⟩, .ofLiteral literal, none⟩], [], none, none⟩) selectionStops := by
  have arguments : Reads (arguments false (budget + 1))
      (.punctuator .parenLeft :: (argumentTokens ts ++ [.punctuator .parenRight]))
      (fun found => ∃ literal, result literal ∧ found = [("v", literal)]) [] := by
    have starts : StartsWith IsWord (argumentTokens ts) := ⟨_, rfl, "v", rfl⟩
    refine .ifNext (.map (reads_one starts (Literal.reads_named h) ?_ (by simp)) ?_)
    · rintro _ ⟨_, rfl⟩ p hp
      simp
    · rintro r ⟨⟨_, literal⟩, ⟨rfl, found⟩, single⟩
      exact ⟨literal, found, single⟩
  have noAlias :
      Reads (do if ← nextIs .colon then advance; return some (← Parser.name) else return none) []
        ((none : Option String) = ·) [.colon] :=
    .ifNotNext (fun _ notNext => notNext) (.pure rfl)
  have noDirectives : Reads (directives (budget + 1)) [] ([] = ·) [.at] :=
    .ifNotNext (fun _ notNext => notNext) (.pure rfl)
  have noSet :
      Reads (do
        if ← nextIs .braceLeft then return some (← selectionSet none (budget + 1)) else return none)
        [] ((none : Option SelectionSet) = ·) [.braceLeft] :=
    .ifNotNext (fun _ notNext => notNext) (.pure rfl)
  refine ReadsBefore.bind noAlias (fun x hx => ?_) fun us _ => .cons (by simp) _
  rw [← List.append_nil (_ :: _)]
  refine ReadsBefore.bind arguments (fun y hy => ?_) fun us _ => by simp [NotNext]
  rw [← List.append_nil []]
  refine ReadsBefore.bind noDirectives (fun z hz => ?_) fun us notNext => ?_
  · refine .map (noSet.stops_mono (by simp [selectionStops])) fun w hw => ?_
    obtain ⟨literal, found, rfl⟩ := hy
    rw [← hx, ← hz, ← hw]
    exact ⟨literal, found, rfl⟩
  · exact notNext.mono (by simp [selectionStops])

theorem reads_placed {budget : Nat}
    (h : ∀ budget, ts.length ≤ budget → Reads (value false budget) ts result [])
    (budgeted : ts.length + 2 ≤ budget) :
    Reads (executableDefinition none budget) (placeTokens ts)
      (fun d => ∃ literal, result literal ∧ d = placedDefinition (.ofLiteral literal)) [] := by
  obtain ⟨budget, rfl⟩ : ∃ b, budget = b + 2 := ⟨budget - 2, by omega⟩
  have selection : Reads (selection none (selectionSet none (budget + 1)) (budget + 1))
      (fieldTokens ts)
      (fun found => ∃ literal, result literal ∧ found = .field ⟨none, ⟨"f", none⟩,
        [⟨⟨"v", none⟩, .ofLiteral literal, none⟩], [], none, none⟩) selectionStops := by
    refine .ifNotNext (fun us _ => .cons (by simp) _) (.position fun p => .name ?_)
    refine .map (reads_field p (h (budget + 1) (by omega))) ?_
    rintro _ ⟨literal, found, rfl⟩
    exact ⟨literal, found, rfl⟩
  have set : Reads (selectionSet none (budget + 2)) (placeTokens ts)
      (fun found => ∃ literal, result literal ∧ found = ⟨[.field ⟨none, ⟨"f", none⟩,
        [⟨⟨"v", none⟩, .ofLiteral literal, none⟩], [], none, none⟩], none⟩) [] := by
    have starts : StartsWith IsWord (fieldTokens ts) := ⟨_, rfl, "f", rfl⟩
    refine .position fun p => .map (reads_one starts selection ?_ ?_) ?_
    · rintro _ ⟨_, rfl⟩ p hp
      simp
    · decide
    · rintro r ⟨_, ⟨literal, found, rfl⟩, single⟩
      exact ⟨literal, found, congrArg (SelectionSet.mk · none) single⟩
  refine .ifNext (.map set ?_)
  rintro _ ⟨literal, found, rfl⟩
  exact ⟨literal, found, rfl⟩

theorem parseQuery_eq_ok {source : String} {d : Document} :
    parseQuery source false = .ok d ↔
      Parser.run source (fun budget => definitions (executableDefinition none budget) budget) =
        .ok d.definitions ∧ d.loc = none := by
  obtain ⟨ds, loc⟩ := d
  rw [parseQuery_unlocated, mapError_eq_ok]
  cases Parser.run source fun budget => definitions (executableDefinition none budget) budget with
  | error p => exact ⟨nofun, nofun⟩
  | ok xs =>
    constructor
    · rintro ⟨⟩
      exact ⟨rfl, rfl⟩
    · rintro ⟨⟨⟩, rfl⟩
      rfl

/-- A text that is split to its end into the tokens of such a query is parsed to it. -/
theorem parse_inPlace {text : String} (complete : (lex text.toList).complete = true)
    (tokens : (lex text.toList).lexemes.map (·.token) = placeTokens ts)
    (h : ∀ budget, ts.length ≤ budget → Reads (value false budget) ts result []) :
    ∃ literal, result literal ∧ parseQuery text false = .ok (placed (.ofLiteral literal)) := by
  have length := congrArg List.length tokens
  rw [List.length_map, length_placeTokens] at length
  have turn : InTurn (executableDefinition none ((lex text.toList).lexemes.length + 1))
      (fun _ d => ∃ literal, result literal ∧ d = placedDefinition (.ofLiteral literal)) [()]
      [placeTokens ts] :=
    .cons (List.cons_ne_nil _ _)
      ((reads_placed h (by omega)).before_mono fun us _ => by simp [NotNext]) .nil
  obtain ⟨ds, parsed, found⟩ := turn.definitions (List.cons_ne_nil _ _)
    (Nat.le_add_left 1 (lex text.toList).lexemes.length)
    (by rw [tokens, List.flatten_singleton])
  obtain ⟨d, rest, ⟨literal, hl, rfl⟩, hr, rfl⟩ := List.forall₂_cons_left_iff.mp found
  rw [List.forall₂_nil_left_iff.mp hr] at parsed
  refine ⟨literal, hl, ?_⟩
  exact parseQuery_eq_ok.mpr ⟨run_eq_ok.mpr ⟨complete, parsed⟩, rfl⟩

end

/-- The literal of a query that was parsed nests two levels less than the query. -/
theorem fits_of_placed {text : String} {value : Value}
    (parsed : parseQuery (inPlace text) false = .ok (placed value)) :
    ∃ literal, value = .ofLiteral literal ∧ literal.Fits false 48 := by
  have fits := (fits_of_parseQuery parsed).definitions _ (List.mem_singleton_self _)
  have set : SelectionSet.Fits 50 ⟨[.field ⟨none, ⟨"f", none⟩, [⟨⟨"v", none⟩, value, none⟩], [],
      none, none⟩], none⟩ := by
    generalize hd : placedDefinition value = d at fits
    cases fits with
    | operation _ _ _ set =>
      obtain ⟨-, -, -, -, rfl, -⟩ := OperationDefinition.mk.inj (Definition.operation.inj hd)
      exact set
    | fragment => cases hd
  have selection := set.2.2 _ (List.mem_singleton_self _)
  generalize hs : Selection.field _ = s at selection
  cases selection with
  | field _ _ arguments =>
    obtain ⟨-, -, rfl, -, -, -⟩ := Field.mk.inj (Selection.field.inj hs)
    have argument := arguments _ (List.mem_singleton_self _)
    cases argument with
    | intro _ literalFits => exact ⟨_, rfl, literalFits⟩
  | spread => cases hs
  | inlineFragment => cases hs

/-- A literal that was read from a query is what its printed text is read as in its place, if and
only if it is printable: it has no string with U+0008, and no float beyond the finite range or with
an unsigned exponent that starts with nine. -/
theorem literal_rereads_iff {text : String} {value : Value}
    (parsed : parseQuery (inPlace text) false = .ok (placed value)) :
    parseQuery (inPlace value.print) false = .ok (placed value) ↔ (Node.value value).Printable := by
  obtain ⟨literal, rfl, fits⟩ := fits_of_placed parsed
  constructor
  · intro again
    obtain ⟨complete, -⟩ := run_eq_ok.mp (parseQuery_eq_ok.mp again).1
    obtain ⟨ts, splits, -, reads⟩ := Literal.rereads fits
    have tokens := (inPlace_splits splits).eq ⟨_, _, _, complete, rfl⟩
    obtain ⟨found, printable, parsed⟩ := parse_inPlace complete tokens reads
    have same := Except.ok.inj (parsed.symm.trans again)
    obtain ⟨definition, -⟩ := List.cons.inj (congrArg Document.definitions same)
    obtain ⟨-, -, -, -, set, -⟩ := OperationDefinition.mk.inj (Definition.operation.inj definition)
    obtain ⟨selection, -⟩ := List.cons.inj (congrArg SelectionSet.selections set)
    obtain ⟨-, -, arguments, -⟩ := Field.mk.inj (Selection.field.inj selection)
    exact printable (congrArg Argument.value (List.cons.inj arguments).1)
  · intro printable
    obtain ⟨ts, prints, -, reads⟩ := Literal.readsBack fits printable
    have text := inPlace_prints prints
    have nests : levelsAfter? nestingLimit (placeTokens ts) ≠ none := by
      rw [show nestingLimit = 48 + 2 from rfl, text.nests]
      exact Option.some_ne_none _
    obtain ⟨complete, tokens⟩ :=
      text.spells.lexes nestingLimit _ Position.start (Nat.le_refl _) nests
    obtain ⟨_, rfl, parsed⟩ := parse_inPlace complete tokens reads
    exact parsed

/-- `[1.5e-9, {a: $x, b: "\""}]` -/
def looseValue : Value :=
  .ofLiteral (.list [.float (.ofDecimal false 15 (-10)),
    .object [("a", .variable "x"), ("b", .string "\"")]])

/-- `1e+90`, which is printed without the plus sign. -/
def largeValue : Value := .ofLiteral (.float (.ofDecimal false 1 90))

theorem literal_rereads_iff_looseValue :
    parseQuery (inPlace "[15e-10 \x7bb: \"\\u0022\", a: $x\x7d]") false = .ok (placed looseValue) ∧
      (Node.value looseValue).Printable ∧
      parseQuery (inPlace looseValue.print) false = .ok (placed looseValue) ∧
      parseQuery (inPlace "1e+90") false = .ok (placed largeValue) ∧
      ¬ (Node.value largeValue).Printable ∧
      parseQuery (inPlace largeValue.print) false ≠ .ok (placed largeValue) := by
  have loose : parseQuery (inPlace "[15e-10 \x7bb: \"\\u0022\", a: $x\x7d]") false =
      .ok (placed looseValue) := rfl
  have large : parseQuery (inPlace "1e+90") false = .ok (placed largeValue) := rfl
  have printable : (Node.value looseValue).Printable := by decide +kernel
  have unprintable : ¬ (Node.value largeValue).Printable := by decide +kernel
  exact ⟨loose, printable, (literal_rereads_iff loose).mpr printable, large, unprintable,
    mt (literal_rereads_iff large).mp unprintable⟩

end GraphQL
