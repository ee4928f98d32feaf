import GraphQL.Document
import GraphQL.Proofs.Source.SelectionText

/-!
The texts of operations, fragments and whole documents read back. Main statement: a document that
fits into source text is what its printed text is parsed to, unless it has literals whose text does
not read back.
-/
namespace GraphQL

open Ast
open GraphQL.Parser

variable {k : Nat}

namespace Ast

def Definition.TextReadsBack (k : Nat) (d : Definition) : Prop :=
  ReadsBack k d.print (executableDefinition none) (d = ·) (fun _ => True) []

def VariablesReadBack (k : Nat) (vars : List VariableDefinition) : Prop :=
  PartReadsBack k (wrap "(" (joinParts ", " (vars.map VariableDefinition.print)) ")")
    (fun budget => optionalEnclosed .parenLeft .parenRight (variableDefinition none budget) budget)
    (vars = ·) .parenLeft [.parenLeft]

theorem OperationType.ofText?_text (type : OperationType) :
    OperationType.ofText? type.text = some type := by
  cases type <;> rfl

theorem OperationType.isName_text (type : OperationType) : isName type.text = true := by
  cases type <;> decide

theorem shorthand_readsBack {set : SelectionSet} (loc : set.loc = none)
    (h : SelectionSet.TextReadsBack k set) :
    Definition.TextReadsBack k (.operation ⟨.query, none, [], [], set, none⟩) := by
  obtain ⟨ts, prints, ⟨_, head, rfl⟩, reads⟩ := h
  obtain ⟨ts, rfl⟩ := List.head?_eq_some_iff.mp head
  refine ⟨_, prints, ⟨_, rfl, trivial⟩, fun budget budgeted => ?_⟩
  refine .ifNext (.map (reads budget budgeted) ?_)
  rintro _ rfl
  rw [loc]

/-- The name of an operation, if it has one, before tokens that start with a punctuator. -/
theorem operationName_reads {α : Type} {name : Option String} {f : Option Name → Parser α}
    {ts : List Token} {result : α → Prop} {stops : List Punctuator}
    (next : Reads (f (name.map (⟨·, none⟩))) ts result stops)
    (punctuator : ∃ q rest, ts = .punctuator q :: rest) :
    Reads ((do
      match ← peek with
      | some (.name text) => do advance; return some ⟨text, none⟩
      | _ => return none : Parser (Option Name)) >>= f) (name.toList.map .name ++ ts) result
      stops := by
  cases name with
  | none =>
    obtain ⟨q, rest, rfl⟩ := punctuator
    exact .peek_bind next
  | some text => exact .peek_bind (.advance_bind next)

theorem operation_readsBack {type : OperationType} {name : Option String}
    {vars : List VariableDefinition} {directives : List Directive} {set : SelectionSet}
    (hn : ∀ text ∈ name, isName text = true)
    (hvars : VariablesReadBack k vars) (hdirs : DirectivesReadBack k directives)
    (hset : SelectionSet.TextReadsBack k set)
    (long : ¬ (type = .query ∧ name = none ∧ vars.isEmpty ∧ directives.isEmpty)) :
    Definition.TextReadsBack k (.operation ⟨type, name.map (⟨·, none⟩), vars, directives, set,
      none⟩) := by
  obtain ⟨vts, varsPrints, varsOpens, varsReads⟩ := hvars
  obtain ⟨dts, dirsPrints, dirsOpens, dirsReads⟩ := hdirs
  obtain ⟨sts, setPrints, setStarts, setReads⟩ := hset
  have named : Prints k (((name.map fun text => (⟨text, none⟩ : Name)).map Name.value).getD "" ++
      wrap "(" (joinParts ", " (vars.map VariableDefinition.print)) ")")
      (name.toList.map .name ++ vts) := by
    cases name with
    | none => exact String.empty_append.symm ▸ varsPrints
    | some text =>
      exact (Prints.token (.name (hn text rfl)) rfl).append (stops_wrap rfl rfl _ _) varsPrints
  have keyword := Prints.token (k := k) (.name type.isName_text) rfl
  have text := Prints.joinParts " " (by simp [IsBlank]) (by decide)
    (.cons keyword (.cons named (.cons dirsPrints (.cons setPrints .nil))))
  simp only [List.flatten_cons, List.flatten_nil, List.append_nil, List.append_assoc] at text
  have print : Definition.print (.operation ⟨type, name.map (⟨·, none⟩), vars, directives, set,
      none⟩) = _ := if_neg (by simpa using long)
  unfold Definition.TextReadsBack
  rw [print]
  refine ⟨_, text, ⟨_, rfl, trivial⟩, fun budget budgeted => ?_⟩
  simp only [List.length_append, List.length_singleton] at budgeted
  have fragment : Token.name type.text ≠ .name "fragment" := by
    cases type <;> decide
  have operation (p : Position) : Reads (operation none budget p type)
      (name.toList.map .name ++ (vts ++ (dts ++ sts)))
      ((⟨type, name.map (⟨·, none⟩), vars, directives, set, none⟩ : OperationDefinition) = ·)
      [] := by
    have braces : Apart (· = .punctuator .braceLeft) [.at, .parenLeft] := by
      rintro _ rfl
      simp
    refine operationName_reads ?_
      (varsOpens.exists_cons (dirsOpens.exists_cons setStarts.exists_cons))
    refine .bind (varsReads budget (by omega)) (fun y hy => ?_) fun us _ => ?_
    · refine .bind (dirsReads budget (by omega)) (fun z hz => ?_) fun us _ => ?_
      · refine .map (setReads budget (by omega)) fun w hw => ?_
        rw [← hy, ← hz, ← hw]
        rfl
      · exact setStarts.notNext braces us
    · rw [List.append_assoc]
      exact dirsOpens.notNext (by simp) ((setStarts.notNext braces us).mono (by simp))
  refine .ifNotNext (fun us _ => .cons (by simp) _)
    (.position fun p => .ifNotNextName fragment (.peek ?_))
  dsimp only
  rw [OperationType.ofText?_text]
  refine .advance (.map (operation p) ?_)
  rintro _ rfl
  rfl

theorem fragment_readsBack {name condition : String} {directives : List Directive}
    {set : SelectionSet} (hn : isName name = true) (hc : isName condition = true)
    (hdirs : DirectivesReadBack k directives)
    (hset : SelectionSet.TextReadsBack k set) :
    Definition.TextReadsBack k (.fragment ⟨⟨name, none⟩, ⟨⟨condition, none⟩, none⟩, directives, set,
      none⟩) := by
  obtain ⟨dts, dirsPrints, dirsOpens, dirsReads⟩ := hdirs
  obtain ⟨sts, setPrints, setStarts, setReads⟩ := hset
  have blank : ∀ b ∈ " ".toList, IsBlank b := by simp [IsBlank]
  have tail : Prints k (wrap "" (printDirectives directives) " " ++ set.print) (dts ++ sts) := by
    unfold wrap
    split
    · next none =>
      rw [none] at dirsPrints
      rw [dirsPrints.spells.tokens_of_nil]
      rwa [String.empty_append]
    · rw [String.empty_append, String.append_assoc]
      exact dirsPrints.append (.text rfl rfl _) (setPrints.blanks blank)
  have on := @Prints.word k "on" _ _ (by decide) (tail.word hc)
  have text := @Prints.word k "fragment" _ _ (by decide) (on.word hn)
  have regroup : Definition.print (.fragment ⟨⟨name, none⟩, ⟨⟨condition, none⟩, none⟩, directives,
      set, none⟩) = "fragment" ++ (" " ++ (name ++ (" " ++ ("on" ++ (" " ++ (condition ++ (" " ++
        (wrap "" (printDirectives directives) " " ++ set.print)))))))) := by
    have keyword : "fragment " = "fragment" ++ " " := rfl
    have on : " on " = " " ++ ("on" ++ " ") := rfl
    rw [Definition.print, FragmentDefinition.print, NamedType.print, keyword, on]
    simp only [String.append_assoc]
  unfold Definition.TextReadsBack
  rw [regroup]
  refine ⟨_, text, ⟨_, rfl, trivial⟩, fun budget budgeted => ?_⟩
  simp only [List.length_cons, List.length_append] at budgeted
  refine .ifNotNext (fun us _ => .cons (by simp) _) (.position fun p => .ifNextName (.advance ?_))
  have fragment : Reads (fragment none budget p)
      (.name name :: .name "on" :: .name condition :: (dts ++ sts))
      ((⟨⟨name, none⟩, ⟨⟨condition, none⟩, none⟩, directives, set, none⟩ :
        FragmentDefinition) = ·) [] := by
    refine .name (.keyword (.name ?_))
    refine .bind (dirsReads budget (by omega)) (fun z hz => ?_) fun us _ => ?_
    · refine .map (setReads budget (by omega)) fun w hw => ?_
      rw [← hz, ← hw]
      rfl
    · refine setStarts.notNext ?_ us
      rintro _ rfl
      simp
  refine .map fragment ?_
  rintro _ rfl
  rfl

theorem variableDefinitions_readBack {vars : List VariableDefinition}
    (fits : Bracketed VariableDefinition.Fits k vars)
    (printable : ∀ d ∈ vars, (Node.variableDefinition d).Printable) : VariablesReadBack k vars := by
  obtain ⟨ts, prints, opens, reads⟩ := PartReadsBack.bracketed fits
    (fun j d hd fits => fits.readsBack (printable d hd)) (by rintro _ rfl; simp) (by simp)
  refine ⟨ts, prints, opens, fun budget budgeted => (reads budget budgeted).mono fun xs hxs => ?_⟩
  rwa [List.forall₂_eq_eq_eq] at hxs

theorem Definition.Fits.readsBack {d : Definition} (fits : d.Fits k)
    (printable : (Node.definition d).Printable) : Definition.TextReadsBack k d := by
  cases fits with
  | @operation type name vars directives set hn hvars hdirs hset =>
    have setReads := SelectionSet.readsBack hset (printable.part 3 rfl List.mem_cons_self)
    by_cases short : type = .query ∧ name = none ∧ vars.isEmpty ∧ directives.isEmpty
    · obtain ⟨rfl, rfl, noVars, noDirectives⟩ := short
      rw [List.isEmpty_iff] at noVars noDirectives
      subst noVars noDirectives
      exact shorthand_readsBack hset.loc setReads
    · refine operation_readsBack hn (variableDefinitions_readBack hvars fun v hv => ?_)
        (directives_readBack hdirs fun d hd => ?_) setReads short
      · exact printable.part 1 rfl (List.mem_map_of_mem hv)
      · exact printable.part 2 rfl (List.mem_map_of_mem hd)
  | fragment hn hc hdirs hset =>
    refine fragment_readsBack hn hc (directives_readBack hdirs fun d hd => ?_)
      (SelectionSet.readsBack hset (printable.part 3 rfl List.mem_cons_self))
    exact printable.part 2 rfl (List.mem_map_of_mem hd)

end Ast

/-- The text of each value, before those after it, is read as a definition. -/
inductive InTurn {α β : Type} (item : Parser α) (results : β → α → Prop) :
    List β → List (List Token) → Prop where
  | nil : InTurn item results [] []
  | cons {v : β} {ts : List Token} {vs : List β} {tss : List (List Token)} :
      ts ≠ [] → ReadsBefore item ts (results v) (· = tss.flatten) → InTurn item results vs tss →
      InTurn item results (v :: vs) (ts :: tss)

/-- Definitions one after another up to the end of the tokens. -/
theorem InTurn.definitions {α β : Type} {item : Parser α} {results : β → α → Prop}
    {vs : List β} {tss : List (List Token)} (h : InTurn item results vs tss) (some : vs ≠ [])
    {budget : Nat} (budgeted : vs.length ≤ budget) {lexemes : List Lexeme}
    (tokens : lexemes.map (·.token) = tss.flatten) :
    ∃ xs, definitions item budget lexemes = .ok (xs, []) ∧ List.Forall₂ results vs xs := by
  induction h generalizing budget lexemes with
  | nil => exact absurd rfl some
  | @cons v ts vs tss _ first rest ih =>
    obtain ⟨budget, rfl⟩ : ∃ b, budget = b + 1 := ⟨budget - 1, by simp at budgeted; omega⟩
    rw [List.flatten_cons] at tokens
    obtain ⟨x, later, run, hx, tokens'⟩ := first lexemes tss.flatten tokens rfl
    have step : Parser.definitions item (budget + 1) lexemes = (do
      if (← get).isEmpty then return [x]
      return x :: (← Parser.definitions item budget) : Parser (List α)) later := by
      change (item lexemes >>= fun s => (do
        if (← get).isEmpty then return [s.1]
        return s.1 :: (← Parser.definitions item budget) : Parser (List α)) s.2) = _
      rw [run]
      rfl
    rw [step]
    cases rest with
    | nil =>
      obtain rfl : later = [] := by simpa using tokens'
      exact ⟨[x], rfl, .cons hx .nil⟩
    | cons here second rest =>
      obtain ⟨lexeme, others, rfl⟩ : ∃ lexeme others, later = lexeme :: others := by
        refine List.exists_cons_of_ne_nil fun none => here ?_
        rw [none, List.map_nil, List.flatten_cons, List.nil_eq_append_iff] at tokens'
        exact tokens'.1
      obtain ⟨xs, run, hxs⟩ := ih (List.cons_ne_nil _ _) (by simpa using budgeted) tokens'
      refine ⟨x :: xs, ?_, .cons hx hxs⟩
      change (Parser.definitions item budget (lexeme :: others) >>= fun s => .ok (x :: s.1, s.2)) = _
      rw [run]
      rfl

theorem InTurn.length_le {α β : Type} {item : Parser α} {results : β → α → Prop}
    {vs : List β} {tss : List (List Token)} (h : InTurn item results vs tss) :
    vs.length ≤ tss.flatten.length := by
  induction h with
  | nil => exact Nat.le_refl _
  | cons some _ _ ih =>
    have := List.length_pos_iff.mpr some
    rw [List.length_cons, List.flatten_cons, List.length_append]
    omega

theorem InTurn.ne_empty {α β : Type} {item : Parser α} {results : β → α → Prop} {vs : List β}
    {print : β → String} {tss : List (List Token)} (h : InTurn item results vs tss)
    (prints : List.Forall₂ (Prints k) (vs.map print) tss) : ∀ text ∈ vs.map print, text ≠ "" := by
  induction h with
  | nil => simp
  | cons some _ _ ih =>
    obtain ⟨here, prints⟩ := List.forall₂_cons.mp prints
    exact List.forall_mem_cons.mpr ⟨here.ne_empty some, ih prints⟩

/-- Values that are read whatever follows are read in turn. -/
theorem Each.inTurn {α β : Type} {item : Parser α} {results : β → α → Prop}
    {heads : Token → Prop} {vs : List β} {tss : List (List Token)}
    (h : Each item results heads [] vs tss) : InTurn item results vs tss := by
  induction h with
  | nil => exact .nil
  | cons first _ ih => exact .cons first.1.ne_nil (first.2.before_mono (by simp [NotNext])) ih

theorem Prints.run {α β : Type} {item : Nat → Parser α} {results : β → α → Prop} {vs : List β}
    {print : β → String} {tss : List (List Token)}
    (prints : List.Forall₂ (Prints nestingLimit) (vs.map print) tss) (some : vs ≠ [])
    (reads : ∀ budget, tss.flatten.length ≤ budget → InTurn (item budget) results vs tss) :
    ∃ xs, Parser.run ("\n\n".intercalate (vs.map print)) (fun budget =>
      Parser.definitions (item budget) budget) = .ok xs ∧ List.Forall₂ results vs xs := by
  have turns := reads _ (Nat.le_refl _)
  have text : Prints nestingLimit ("\n\n".intercalate (vs.map print)) tss.flatten := by
    have all := Prints.joinParts "\n\n" (by simp [IsBlank]) (by decide) prints
    have nonempty : (vs.map print).filter (· ≠ "") = vs.map print := by
      exact List.filter_eq_self.mpr fun text ht => decide_eq_true (turns.ne_empty prints text ht)
    rwa [Ast.joinParts, nonempty] at all
  have nests : levelsAfter? nestingLimit tss.flatten ≠ none := by
    rw [text.nests]
    exact Option.some_ne_none _
  have lexes := text.spells.lexes nestingLimit _ Position.start (Nat.le_refl _) nests
  change (lex _).complete = true ∧ (lex _).lexemes.map (·.token) = _ at lexes
  obtain ⟨complete, tokens⟩ := lexes
  have length := congrArg List.length tokens
  rw [List.length_map] at length
  have budgeted := Nat.le_succ_of_le (Nat.le_of_eq length.symm)
  obtain ⟨xs, parsed, found⟩ := (reads _ budgeted).definitions some
    (Nat.le_trans turns.length_le budgeted) tokens
  exact ⟨xs, run_eq_ok.mpr ⟨complete, parsed⟩, found⟩

namespace Ast

/-- A document that fits into source text is what its printed text is parsed to. -/
theorem Document.Fits.parse_print {d : Document} (fits : d.Fits)
    (printable : (Node.document d).Printable) : parseQuery d.print false = .ok d := by
  obtain ⟨definitions, loc⟩ := d
  obtain ⟨some, fits, rfl⟩ := fits
  dsimp only at some fits
  obtain ⟨tss, prints, -, reads⟩ := ReadsBack.each fun d hd =>
    (fits d hd).readsBack (printable.part 0 rfl (List.mem_map_of_mem hd))
  obtain ⟨ds, run, same⟩ := Prints.run prints some fun budget budgeted =>
    Each.inTurn (reads budget budgeted)
  rw [List.forall₂_eq_eq_eq] at same
  subst same
  rw [parseQuery_unlocated, Document.print, run]
  rfl

end Ast

end GraphQL
