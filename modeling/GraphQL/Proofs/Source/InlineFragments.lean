import GraphQL.Proofs.Source.FirstTokens
import GraphQL.Proofs.Visit.Tracking

/-!
Where inline fragments start. The parser knows them by the token after their dots, and the dots are
looked for in the text before that token. Main statement: in a text whose characters are all counted
the last dots before the token are found; these are the fragment's own unless a comment between the
dots and the token has dots in it.
-/
namespace GraphQL

open Ast

/-- Kinds of nodes that are selections, or have selections below them. -/
def Ast.Kind.leadsToSelections : Kind → Bool
  | .document | .operationDefinition | .fragmentDefinition | .selectionSet | .field
  | .fragmentSpread | .inlineFragment => true
  | _ => false

theorem Ast.Kind.leadsToSelections_of_slot {k l : Kind} {slot : Slot} (hs : slot ∈ k.slots)
    (ht : slot.takes.has l = true) (hk : k.leadsToSelections = false) :
    l.leadsToSelections = false := by
  have all : ∀ k ∈ all, k.leadsToSelections = false → ∀ slot ∈ k.slots, ∀ l ∈ Kind.all,
      slot.takes.has l = true → l.leadsToSelections = false := by
    decide +kernel
  exact all k k.mem_all hk slot hs l l.mem_all ht

theorem Ast.Tree.Grammatical.noSelections {t : Tree} (h : t.Grammatical)
    (ht : t.node.kind.leadsToSelections = false) :
    ∀ n ∈ t.nodes, n.kind.leadsToSelections = false := by
  induction h with
  | @mk n branches own _ takes _ ih =>
    rw [Tree.nodes, branchesNodes_eq, List.forall_mem_cons]
    refine ⟨ht, fun m hm => ?_⟩
    obtain ⟨⟨slot, items⟩, hb, hm⟩ := List.mem_flatMap.mp hm
    rw [Branch.nodes, treesNodes_eq] at hm
    obtain ⟨u, hu, hm⟩ := List.mem_flatMap.mp hm
    have hs : slot ∈ n.kind.slots := own ▸ List.mem_map_of_mem hb
    exact ih _ hb u hu (Kind.leadsToSelections_of_slot hs (takes _ hb u hu) ht) m hm

def Ast.Node.body : Node → List Node
  | .document d => d.definitions.map .definition
  | .definition (.operation d) => [.selectionSet d.selectionSet]
  | .definition (.fragment d) => [.selectionSet d.selectionSet]
  | .selectionSet s => s.selections.map .selection
  | .selection (.field f) => f.selectionSet.toList.map .selectionSet
  | .selection (.inlineFragment f) => [.selectionSet f.selectionSet]
  | _ => []

theorem Ast.Node.mem_body {n m : Node} (hm : m ∈ n.parts.flatten)
    (leads : m.kind.leadsToSelections = true) : m ∈ n.body := by
  have type (t : TypeNode) : t.kind.leadsToSelections = false := by cases t <;> rfl
  have value (v : Value) : v.kind.leadsToSelections = false := by cases v <;> rfl
  cases n with
  | definition d => cases d <;> simp [parts, body] at hm ⊢ <;> grind [Kind.leadsToSelections, kind]
  | selection s => cases s <;> simp [parts, body] at hm ⊢ <;> grind [Kind.leadsToSelections, kind]
  | value v => cases v <;> simp [parts, body] at hm ⊢ <;> grind [Kind.leadsToSelections, kind]
  | type t => cases t <;> simp [parts, body] at hm ⊢ <;> grind [Kind.leadsToSelections, kind]
  | _ => simp [parts, body] at hm ⊢ <;> grind [Kind.leadsToSelections, kind]

variable {lines : Lines}

/-- The fragment stands on dots, the token that it is known by, and the rest. -/
def Dotted (lines : Lines) (f : InlineFragment) (used : List Lexeme) : Prop :=
  ∃ dots next rest loc, used = dots :: next :: rest ∧ dots.token = .punctuator .spread ∧
    next.token ≠ .punctuator .spread ∧ f.loc = some loc ∧
    StartsAt lines (lines.spreadStart next.position) loc

theorem Dotted.intro {f : InlineFragment} {dots next : Lexeme} {rest : List Lexeme}
    {ends : List (Option Location)} (spread : dots.token = .punctuator .spread)
    (other : next.token ≠ .punctuator .spread)
    (hl : f.loc = span (some lines) (lines.spreadStart next.position) ends) :
    Dotted lines f (dots :: next :: rest) := by
  obtain ⟨loc, spanned, starts⟩ := startsAt_span lines (lines.spreadStart next.position) ends
  exact ⟨dots, next, rest, loc, rfl, spread, other, hl.trans spanned, starts⟩

/-- The parser of selections takes just these lexemes for the fragment. -/
structure ReadFrom (lines : Lines) (f : InlineFragment) (used : List Lexeme) : Prop where
  run : ∃ budget rest,
    Parser.selection (some lines) (Parser.selectionSet (some lines) budget) budget (used ++ rest) =
      .ok (.inlineFragment f, rest)
  dots : Dotted lines f used

/-- All inline fragments in the node are read from parts of the lexemes. -/
def FragmentsRead (lines : Lines) (n : Node) (used : List Lexeme) : Prop :=
  ∀ f, .selection (.inlineFragment f) ∈ n.tree.nodes →
    ∃ part, part <:+: used ∧ ReadFrom lines f part

namespace FragmentsRead

variable {n : Node} {used more : List Lexeme}

theorem mono (h : FragmentsRead lines n used) (part : used <:+: more) :
    FragmentsRead lines n more := by
  intro f hf
  obtain ⟨read, within, hr⟩ := h f hf
  exact ⟨read, within.trans part, hr⟩

theorem after (h : FragmentsRead lines n used) (front : List Lexeme) :
    FragmentsRead lines n (front ++ used) :=
  h.mono (List.suffix_append _ _).isInfix

theorem none (h : n.kind.leadsToSelections = false) : FragmentsRead lines n used := by
  intro f hf
  have kind := n.grammatical.noSelections (n.node_tree.symm ▸ h) _ hf
  cases kind

theorem of_body (h : ∀ m ∈ n.body, FragmentsRead lines m used)
    (own : ∀ f, n = .selection (.inlineFragment f) → ReadFrom lines f used) :
    FragmentsRead lines n used := by
  intro f hf
  rcases Node.mem_nodes_iff.mp hf with rfl | ⟨child, hc, hf⟩
  · exact ⟨used, List.infix_rfl, own f rfl⟩
  · cases leads : child.kind.leadsToSelections with
    | false => exact none leads f hf
    | true => exact h child (Node.mem_body hc leads) f hf

end FragmentsRead

namespace Parser

theorem Series.fragmentsRead {α : Type} {node : α → Node} {xs : List α} {used : List Lexeme}
    (h : Series (fun x => FragmentsRead lines (node x)) xs used) :
    ∀ m ∈ xs.map node, FragmentsRead lines m used := by
  induction h with
  | nil => simp
  | @cons _ _ used more first _ ih =>
    refine List.forall_mem_cons.mpr ⟨first.mono (List.prefix_append _ _).isInfix, ?_⟩
    exact fun m hm => (ih m hm).after used

namespace Takes

theorem run {α : Type} {lexemes : List Lexeme} {parser : Parser α} {P : α → List Lexeme → Prop}
    (h : Takes lexemes parser P) :
    Takes lexemes parser fun x used =>
      P x used ∧ ∃ rest, parser (used ++ rest) = .ok (x, rest) := by
  intro x rest run
  obtain ⟨used, split, hx⟩ := h x rest run
  exact ⟨used, split, hx, rest, split ▸ run⟩

theorem directives_head (budget : Nat) (lexemes : List Lexeme) :
    Takes lexemes (Parser.directives budget)
      fun _ used => ∀ first ∈ used.head?, first.token = .punctuator .at := by
  refine mono (itemsWhile (directive (Lines.ofText []) budget)) fun ds used series => ?_
  cases series with
  | nil => simp
  | cons laid _ =>
    obtain ⟨-, ⟨first, rest, rfl, -, mark⟩, -⟩ := laid
    rintro _ ⟨⟩
    exact mark

variable (lines)

/-- A set stands behind a brace, and so do the inline fragments in it. -/
def SetRead (set : SelectionSet) (used : List Lexeme) : Prop :=
  (∀ first ∈ used.head?, first.token = .punctuator .braceLeft) ∧ used ≠ [] ∧
    FragmentsRead lines (.selectionSet set) used

section Selections

variable {sets : Parser SelectionSet} (h : ∀ lexemes, Takes lexemes sets (SetRead lines))

include h

theorem field_body (budget : Nat) (p : Position) (text : String) (lexemes : List Lexeme) :
    Takes lexemes (Parser.field (some lines) sets budget p text) fun f used =>
      ∀ m ∈ (Node.selection (.field f)).body, FragmentsRead lines m used := by
  have optionalSet (lexemes : List Lexeme) : Takes lexemes
      (do if ← nextIs .braceLeft then return some (← sets) else return none)
      fun found used => ∀ m ∈ found.toList.map Node.selectionSet, FragmentsRead lines m used :=
    ifNext (fun _ _ _ _ => map (h _) fun set used read => by simpa using read.2.2)
      (pure (by simp))
  refine bind (secondName _) fun found u _ _ => bind (Balances.arguments false budget _)
    fun as v _ _ => bind (directives lines budget _) fun ds w _ _ =>
      map (optionalSet _) fun set x hs => ?_
  exact fun m hm => (((hs m hm).after w).after v).after u

theorem inlineFragment_body (budget : Nat) (p : Position) (condition : Option NamedType)
    (lexemes : List Lexeme) :
    Takes lexemes (Parser.inlineFragment (some lines) sets budget p condition) fun f used =>
      (∃ first rest, used = first :: rest ∧ first.token ≠ .punctuator .spread) ∧
        f.loc = span (some lines) (lines.spreadStart p) [f.selectionSet.loc] ∧
        FragmentsRead lines (.selectionSet f.selectionSet) used := by
  refine bind (directives_head budget _) fun ds u _ hd => map (h _) ?_
  rintro set v ⟨opens, some, read⟩
  refine ⟨?_, rfl, read.after u⟩
  cases u with
  | nil =>
    obtain ⟨first, rest, rfl⟩ := List.exists_cons_of_ne_nil some
    exact ⟨first, rest, rfl, by rw [opens first rfl]; decide⟩
  | cons first u => exact ⟨first, u ++ v, rfl, by rw [hd first rfl]; decide⟩

theorem selection_body (budget : Nat) (lexemes : List Lexeme) :
    Takes lexemes (Parser.selection (some lines) sets budget) fun s used =>
      (∀ m ∈ (Node.selection s).body, FragmentsRead lines m used) ∧
        ∀ f, s = .inlineFragment f → Dotted lines f used := by
  refine ifNext ?_ (position ?_)
  · rintro dots later rfl spread
    refine advance (position ?_)
    rintro next rest rfl
    have bare : Takes (next :: rest) (Parser.inlineFragment (some lines) sets budget next.position
        none >>= fun f => Pure.pure (.inlineFragment f)) fun s used =>
          (∀ m ∈ (Node.selection s).body, FragmentsRead lines m (dots :: used)) ∧
            ∀ f, s = .inlineFragment f → Dotted lines f (dots :: used) := by
      refine map (inlineFragment_body lines h budget _ none _).front ?_
      rintro f _ ⟨⟨⟨first, used, rfl, other⟩, hl, read⟩, within⟩
      obtain rfl := (List.cons_prefix_cons.mp within).1
      refine ⟨by simpa [Node.body] using read.after [dots], ?_⟩
      rintro _ ⟨⟩
      exact .intro spread other hl
    refine peek ?_ bare
    rintro t _ _ ⟨⟩ token
    cases t with
    | name text =>
      refine advance ?_
      split_ifs
      · refine name fun type named rest _ _ => map (inlineFragment_body lines h budget _ _ _) ?_
        rintro f used ⟨-, hl, read⟩
        refine ⟨by simpa [Node.body] using read.after [dots, next, named], ?_⟩
        rintro _ ⟨⟩
        exact .intro spread (by simp [token]) hl
      · exact map (directives lines budget _) fun ds used _ => ⟨nofun, nofun⟩
    | _ => exact bare
  · rintro first later -
    refine name ?_
    rintro text _ _ ⟨⟩ named
    exact map (field_body lines h budget _ _ _) fun f used read =>
      ⟨fun m hm => (read m hm).after [first], nofun⟩

end Selections

theorem selectionSet_read (budget : Nat) (lexemes : List Lexeme) :
    Takes lexemes (Parser.selectionSet (some lines) budget) (SetRead lines) := by
  induction budget generalizing lexemes with
  | zero => exact fail
  | succ budget ih =>
    have each (lexemes : List Lexeme) : Takes lexemes
        (Parser.selection (some lines) (Parser.selectionSet (some lines) budget) budget)
        fun s => FragmentsRead lines (.selection s) :=
      mono (selection_body lines ih budget lexemes).run fun s used ⟨⟨read, dotted⟩, rest, run⟩ =>
        .of_body read fun f own => by
          cases own
          exact ⟨⟨budget, rest, run⟩, dotted f rfl⟩
    refine position ?_
    rintro first later -
    refine map (enclosed each) ?_
    rintro r _ ⟨opening, inner, closing, -, rfl, items, -⟩
    refine ⟨?_, by simp, .of_body (fun m hm => ?_) nofun⟩
    · rintro _ ⟨⟩
      exact items.opens
    · refine (items.items.fragmentsRead m hm).mono ⟨[opening], [closing], ?_⟩
      simp

theorem operation_read (budget : Nat) (p : Position) (type : OperationType)
    (lexemes : List Lexeme) :
    Takes lexemes (Parser.operation (some lines) budget p type) fun d =>
      FragmentsRead lines (.definition (.operation d)) := by
  refine bind (operationName _) fun name u _ _ =>
    bind (optionalEnclosed (variableDefinition lines budget)) fun vars v _ _ =>
    bind (directives lines budget _) fun ds w _ _ => map (selectionSet_read lines budget _)
      fun set x hs => ?_
  refine .of_body (fun m hm => ?_) nofun
  rw [List.mem_singleton.mp hm]
  exact ((hs.2.2.after w).after v).after u

theorem fragment_read (budget : Nat) (p : Position) (lexemes : List Lexeme) :
    Takes lexemes (Parser.fragment (some lines) budget p) fun d =>
      FragmentsRead lines (.definition (.fragment d)) := by
  refine name fun text named _ _ _ => keyword fun on _ _ _ => name fun type typed _ _ _ =>
    bind (directives lines budget _) fun ds u _ _ => map (selectionSet_read lines budget _)
      fun set v hs => ?_
  refine .of_body (fun m hm => ?_) nofun
  rw [List.mem_singleton.mp hm]
  exact (hs.2.2.after u).after [named, on, typed]

theorem executableDefinition_read (budget : Nat) (lexemes : List Lexeme) :
    Takes lexemes (Parser.executableDefinition (some lines) budget) fun d =>
      FragmentsRead lines (.definition d) := by
  refine ifNext (fun _ _ _ _ => map (selectionSet_read lines budget _) fun set used hs => ?_) ?_
  · refine .of_body (fun m hm => ?_) nofun
    rw [List.mem_singleton.mp hm]
    exact hs.2.2
  refine position ?_
  rintro first later -
  refine ifNextName ?_ (peek ?_ fail)
  · rintro _ _ ⟨⟩ -
    exact advance (map (fragment_read lines budget _ _) fun d used read => read.after [first])
  · rintro t _ _ ⟨⟩ -
    cases t with
    | name text =>
      dsimp only
      split
      · exact advance (map (operation_read lines budget _ _ _) fun d used read =>
          read.after [first])
      · exact fail
    | _ => exact fail

end Takes

end Parser

/-- The tokens from one on are those of the text from a place on. -/
theorem lexFrom_append {source before cs : List Char} (split : source = before ++ cs)
    (plain : PlainText cs) {left budget : Nat} {xs ys : List Lexeme}
    (h : (lexFrom left (Position.start.after before) cs budget).lexemes = xs ++ ys) :
    ∃ before cs left budget, source = before ++ cs ∧ PlainText cs ∧
      (lexFrom left (Position.start.after before) cs budget).lexemes = ys := by
  induction xs generalizing before cs left budget with
  | nil => exact ⟨before, cs, left, budget, split, plain, h⟩
  | cons x xs ih =>
    obtain ⟨gap, rest, left, budget, rfl, -, -, -, later⟩ := lexFrom_cons plain h
    rw [← List.append_assoc] at plain
    exact ih (by rw [split]; simp) plain.tail later

/-- Between a token and the next one there are blanks and comments. -/
theorem adjacent_lexemes {source : List Char} (plain : PlainText source) {first next : Lexeme}
    {later : List Lexeme} (part : first :: next :: later <:+: (lex source).lexemes) :
    ∃ before gap rest, source = before ++ first.token.text ++ gap ++ (next.token.text ++ rest) ∧
      first.position = Position.start.after before ∧
      next.position = Position.start.after (before ++ first.token.text ++ gap) ∧
      (skipBlanks false (Position.start.after (before ++ first.token.text))
        (gap ++ (next.token.text ++ rest))).2 = next.token.text ++ rest ∧
      scanToken? (next.token.text ++ rest) = some (next.token, next.token.text.length) := by
  obtain ⟨xs, ys, split⟩ := part
  rw [List.append_assoc] at split
  obtain ⟨start, cs, left, budget, rfl, plain, tokens⟩ :=
    @lexFrom_append source [] source rfl plain _ _ _ _ split.symm
  obtain ⟨gap, rest, left, budget, rfl, here, -, -, tokens⟩ := lexFrom_cons plain tokens
  rw [← List.append_assoc] at plain
  obtain ⟨more, rest, -, -, rfl, there, blank, scanned, -⟩ := lexFrom_cons plain.tail tokens
  exact ⟨start ++ gap, more, rest, by simp, here, there, blank, scanned⟩

/-- Three dots stand in the text. -/
def HasDots (cs : List Char) : Prop := ['.', '.', '.'] <:+: cs

theorem hasDots_cons {c : Char} {cs : List Char} :
    HasDots (c :: cs) ↔ ['.', '.', '.'] <+: c :: cs ∨ HasDots cs :=
  List.infix_cons_iff

theorem HasDots.exists_last {cs : List Char} (h : HasDots cs) :
    ∃ before rest, cs = before ++ '.' :: '.' :: '.' :: rest ∧ ¬HasDots ('.' :: '.' :: rest) := by
  induction cs with
  | nil => cases List.infix_nil.mp h
  | cons c cs ih =>
    by_cases later : HasDots cs
    · obtain ⟨before, rest, rfl, last⟩ := ih later
      exact ⟨c :: before, rest, rfl, last⟩
    · obtain ⟨rest, here⟩ := (hasDots_cons.mp h).resolve_right later
      cases here
      exact ⟨[], rest, rfl, later⟩

namespace Lines

theorem lastSpread_eq_none {p : Position} {cs : List Char} (h : ¬HasDots cs) :
    lastSpread p cs = none := by
  induction cs generalizing p with
  | nil => rfl
  | cons c cs ih =>
    obtain ⟨here, later⟩ := not_or.mp (mt hasDots_cons.mpr h)
    rw [lastSpread, ih later, if_neg (mt List.isPrefixOf_iff_prefix.mp here)]

theorem lastSpread_of_last {p : Position} {before rest : List Char}
    (last : ¬HasDots ('.' :: '.' :: rest)) :
    lastSpread p (before ++ '.' :: '.' :: '.' :: rest) = some (p.after before) := by
  induction before generalizing p with
  | nil =>
    rw [List.nil_append, lastSpread, lastSpread_eq_none last]
    rfl
  | cons c before ih =>
    rw [List.cons_append, lastSpread, ih]
    rfl

/-- Before a token that is no dots itself the last dots are found. -/
theorem spreadStart_of_last {source before rest after : List Char}
    (split : source = before ++ '.' :: '.' :: '.' :: rest ++ after)
    (last : ¬HasDots ('.' :: '.' :: rest)) (other : ¬['.', '.', '.'] <+: after) :
    (ofText source).spreadStart (Position.start.after (before ++ '.' :: '.' :: '.' :: rest)) =
      Position.start.after before := by
  unfold spreadStart
  dsimp only
  rw [charsBefore_after split, show (ofText source).source = source from rfl, split,
    List.drop_left, List.take_left, if_neg (mt List.isPrefixOf_iff_prefix.mp other),
    lastSpread_of_last last]
  rfl

end Lines

/-- The fragment's own dots stand after the first part of the text, with blanks and comments behind
them up to the last part, which starts with the next token. -/
structure DotsBetween (source : List Char) (f : InlineFragment) (before gap after : List Char) :
    Prop where
  text : source = before ++ '.' :: '.' :: '.' :: gap ++ after
  blank : (skipBlanks false (Position.start.after (before ++ ['.', '.', '.'])) (gap ++ after)).2 =
    after
  read : ∃ later, ⟨Position.start.after before, .punctuator .spread⟩ :: later <:+:
      (lex source).lexemes ∧
    ReadFrom (Lines.ofText source) f (⟨Position.start.after before, .punctuator .spread⟩ :: later)

theorem DotsBetween.head_gap {source before gap after : List Char} {f : InlineFragment}
    (h : DotsBetween source f before gap after) : gap.head? ≠ some '.' := by
  intro dot
  obtain ⟨more, rfl⟩ : ∃ more, gap = '.' :: more := List.head?_eq_some_iff.mp dot
  have kept : '.' :: more ++ after = after := h.blank
  have length := congrArg List.length kept
  simp at length
  omega

theorem hasDots_of_dots {gap : List Char} (head : gap.head? ≠ some '.')
    (h : HasDots ('.' :: '.' :: gap)) : HasDots gap := by
  have two : ¬['.', '.', '.'] <+: '.' :: '.' :: gap := by
    rintro ⟨rest, split⟩
    cases split
    exact head rfl
  have one : ¬['.', '.', '.'] <+: '.' :: gap := by
    rintro ⟨rest, split⟩
    cases split
    exact head rfl
  exact (hasDots_cons.mp ((hasDots_cons.mp h).resolve_left two)).resolve_left one

theorem ReadFrom.dotsBetween {source : List Char} (plain : PlainText source) {f : InlineFragment}
    {used : List Lexeme} (h : ReadFrom (Lines.ofText source) f used)
    (part : used <:+: (lex source).lexemes) :
    ∃ before gap after loc, DotsBetween source f before gap after ∧ f.loc = some loc ∧
      ∃ skipped rest, '.' :: '.' :: '.' :: gap = skipped ++ '.' :: '.' :: '.' :: rest ∧
        ¬HasDots ('.' :: '.' :: rest) ∧ StartsAfter loc (before ++ skipped) := by
  obtain ⟨⟨p, _⟩, next, later, loc, rfl, rfl, other, hl, starts⟩ := h.dots
  obtain ⟨before, gap, tail, split, rfl, there, blank, scanned⟩ := adjacent_lexemes plain part
  have text : source = before ++ '.' :: '.' :: '.' :: gap ++ (next.token.text ++ tail) := by
    rw [split]
    simp [Token.text, Punctuator.text]
  obtain ⟨skipped, rest, last, noLater⟩ : ∃ skipped rest,
      '.' :: '.' :: '.' :: gap = skipped ++ '.' :: '.' :: '.' :: rest ∧
        ¬HasDots ('.' :: '.' :: rest) :=
    @HasDots.exists_last ('.' :: '.' :: '.' :: gap) ⟨[], gap, rfl⟩
  have found : source = before ++ skipped ++ '.' :: '.' :: '.' :: rest ++
      (next.token.text ++ tail) := by
    rw [text, last]
    simp
  refine ⟨before, gap, _, loc, ⟨text, blank, _, part, h⟩, hl, skipped, rest, last, noLater, ?_⟩
  have place : next.position =
      Position.start.after (before ++ skipped ++ '.' :: '.' :: '.' :: rest) := by
    rw [there, List.append_assoc, List.append_assoc, ← last]
    rfl
  have ended : ¬['.', '.', '.'] <+: next.token.text ++ tail := by
    intro dots
    obtain ⟨more, dots⟩ := dots
    rw [← dots] at scanned
    exact other (congrArg Prod.fst (Option.some.inj scanned)).symm
  have position := Lines.spreadStart_of_last found noLater ended
  exact starts.after (place ▸ position) (found.trans (List.append_assoc _ _ _))

theorem Parser.fragmentsRead_of_parseQuery {source : String} {document : Document}
    (h : parseQuery source = .ok document) :
    FragmentsRead (Lines.ofText source.toList) (.document document)
      (lex source.toList).lexemes := by
  obtain ⟨lines, budget, -, laidOut, parsed⟩ := parseQuery_ok h
  obtain rfl := laidOut rfl
  obtain ⟨used, all, series⟩ := Takes.definitions
    (Takes.executableDefinition_read (Lines.ofText source.toList) budget) _ _ parsed
  obtain rfl : (lex source.toList).lexemes = used := all.trans (List.append_nil used)
  exact .of_body series.fragmentsRead nofun

theorem Ast.Node.exists_inlineFragment {n : Node} (h : n.kind = .inlineFragment) :
    ∃ f, n = .selection (.inlineFragment f) := by
  cases n with
  | selection s =>
    cases s with
    | inlineFragment f => exact ⟨f, rfl⟩
    | _ => cases h
  | definition d => cases d <;> cases h
  | value v => cases v <;> cases h
  | type t => cases t <;> cases h
  | _ => cases h

/-- In a text without tabs, carriage returns and byte order marks the span of an inline fragment
starts where dots start for the last time before the token after its own dots. These are its own
unless there are dots in the comments in between. -/
theorem parseQuery_inlineFragments {source : String} {document : Document}
    (h : parseQuery source = .ok document) (tab : '\t' ∉ source.toList)
    (mark : '\ufeff' ∉ source.toList) (return_ : '\r' ∉ source.toList) {f : InlineFragment}
    (hf : .selection (.inlineFragment f) ∈ (Node.document document).tree.nodes) :
    ∃ before gap after loc, DotsBetween source.toList f before gap after ∧ f.loc = some loc ∧
      (∃ skipped rest, '.' :: '.' :: '.' :: gap = skipped ++ '.' :: '.' :: '.' :: rest ∧
        ¬HasDots ('.' :: '.' :: rest) ∧ StartsAfter loc (before ++ skipped)) ∧
      (StartsAfter loc before ↔ ¬HasDots gap) := by
  have plain := plainText_of_not_mem tab mark return_
  obtain ⟨used, part, read⟩ := Parser.fragmentsRead_of_parseQuery h f hf
  obtain ⟨before, gap, after, loc, between, hl, skipped, rest, last, noLater, starts⟩ :=
    read.dotsBetween plain part
  refine ⟨before, gap, after, loc, between, hl, ⟨skipped, rest, last, noLater, starts⟩, ?_⟩
  constructor
  · intro own dots
    have same : bytes before + bytes skipped = bytes before := by
      rw [← bytes_append, ← starts.start, own.start]
    obtain rfl : skipped = [] := by
      by_contra some
      have := bytes_pos some
      omega
    obtain rfl : gap = rest := by simpa using last
    exact noLater (hasDots_cons.mpr (.inr (hasDots_cons.mpr (.inr dots))))
  · intro none
    cases skipped with
    | nil => rwa [List.append_nil] at starts
    | cons c skipped =>
      have later : HasDots ('.' :: '.' :: gap) :=
        ⟨skipped, rest, by simpa using (List.cons.inj last).2.symm⟩
      exact absurd (hasDots_of_dots between.head_gap later) none

/-- Between the dots and the type condition are a comma and a comment. -/
def commentedQuery : String := "\x7b ..., # é\n on T \x7b a \x7d \x7d"

theorem parseQuery_inlineFragments_commentedQuery :
    ∃ document, parseQuery commentedQuery = .ok document ∧ '\t' ∉ commentedQuery.toList ∧
      '\ufeff' ∉ commentedQuery.toList ∧ '\r' ∉ commentedQuery.toList ∧
      ∃ f, .selection (.inlineFragment f) ∈ (Node.document document).tree.nodes ∧
        f.loc = some ⟨2, 23, 1, 3⟩ ∧
        ∃ before gap after loc, DotsBetween commentedQuery.toList f before gap after ∧
          f.loc = some loc ∧
          (∃ skipped rest, '.' :: '.' :: '.' :: gap = skipped ++ '.' :: '.' :: '.' :: rest ∧
            ¬HasDots ('.' :: '.' :: rest) ∧ StartsAfter loc (before ++ skipped)) ∧
          (StartsAfter loc before ↔ ¬HasDots gap) := by
  obtain ⟨document, parsed, found⟩ := exists_of_any commentedQuery
    (fun d => ∃ n ∈ (Node.document d).tree.nodes, n.kind = .inlineFragment ∧
      n.loc = some ⟨2, 23, 1, 3⟩) (by decide +kernel)
  have tab : '\t' ∉ commentedQuery.toList := by decide +kernel
  have mark : '\ufeff' ∉ commentedQuery.toList := by decide +kernel
  have return_ : '\r' ∉ commentedQuery.toList := by decide +kernel
  obtain ⟨n, hn, kind, located⟩ := of_decide_eq_true found
  obtain ⟨f, rfl⟩ := Node.exists_inlineFragment kind
  exact ⟨document, parsed, tab, mark, return_, f, hn, located,
    parseQuery_inlineFragments parsed tab mark return_ hn⟩

/-- The dots in a comment after those of a fragment are taken for its start, though they are no
token. -/
theorem inlineFragment_in_comment :
    ∃ document, parseQuery "\x7b ... # ...\n \x7b a \x7d \x7d" = .ok document ∧
      (lex "\x7b ... # ...\n \x7b a \x7d \x7d".toList).lexemes.filter
        (·.token = .punctuator .spread) = [⟨⟨1, 3⟩, .punctuator .spread⟩] ∧
      ∃ n ∈ (Node.document document).tree.nodes, n.kind = .inlineFragment ∧
        n.loc = some ⟨8, 18, 1, 9⟩ := by
  obtain ⟨document, parsed, found⟩ := exists_of_any "\x7b ... # ...\n \x7b a \x7d \x7d"
    (fun d => ∃ n ∈ (Node.document d).tree.nodes, n.kind = .inlineFragment ∧
      n.loc = some ⟨8, 18, 1, 9⟩) (by decide +kernel)
  exact ⟨document, parsed, by decide +kernel, of_decide_eq_true found⟩

end GraphQL
