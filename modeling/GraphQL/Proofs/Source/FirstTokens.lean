import GraphQL.Proofs.Source.Located
import GraphQL.Proofs.Source.Takes
import Mathlib.Data.List.DropRight

/-!
Where the nodes of a parsed document stand. Main statement: in a text whose characters are all
counted, the span of a node starts with the first token of the node, and that of a selection set
goes from its own brace to the one that matches it.
-/
namespace GraphQL

open Ast

variable {lines : Lines}

structure StartsAt (lines : Lines) (p : Position) (loc : Location) : Prop where
  start : loc.start = lines.offset p
  line : loc.line = p.line
  column : loc.column = p.column

/-- A query that is a selection set alone. -/
def Ast.OperationDefinition.Shorthand (d : OperationDefinition) : Prop :=
  d.operation = .query ∧ d.name = none ∧ d.variableDefinitions = [] ∧ d.directives = []

/-- A node of its kind starts with the token; selections that start with dots are left out. -/
def Ast.Node.BeginsWith : Node → Token → Prop
  | .definition (.operation d), t =>
    t = .name d.operation.text ∨ t = .punctuator .braceLeft ∧ d.Shorthand
  | .definition (.fragment _), t => t = .name "fragment"
  | .selection (.field f), t => t = .name f.responseKey
  | .variableDefinition _, t => t = .punctuator .dollar
  | .directive _, t => t = .punctuator .at
  | .selectionSet _, t => t = .punctuator .braceLeft
  | _, _ => False

/-- How the span of a node goes with the lexemes of the node. That of a fragment spread starts
after its dots, that of an inline fragment where dots are found before the token after them, and
all others start with the first token. A selection set stands between braces. -/
def SpanFits (lines : Lines) (loc : Location) (used : List Lexeme) : Node → Prop
  | .selection (.spread _) =>
    ∃ dots first rest, used = dots :: first :: rest ∧ StartsAt lines first.position loc
  | .selection (.inlineFragment _) =>
    ∃ dots next rest, used = dots :: next :: rest ∧
      StartsAt lines (lines.spreadStart next.position) loc
  | .selectionSet _ => ∃ opening inner closing, used = opening :: inner ++ [closing] ∧
      Balanced inner ∧ StartsAt lines opening.position loc ∧
      opening.token = .punctuator .braceLeft ∧ closing.token = .punctuator .braceRight ∧
      loc.stop = min (lines.offset closing.position + 1) lines.size
  | n => ∃ first rest, used = first :: rest ∧ StartsAt lines first.position loc ∧
      n.BeginsWith first.token

theorem Ast.OperationType.text_of_ofText? {text : String} {type : OperationType}
    (h : ofText? text = some type) : text = type.text := by
  unfold ofText? at h
  split at h <;> cases h <;> rfl

mutual

/-- A node with a span stands on these lexemes, and the nodes in it on parts of them. -/
inductive Laid (lines : Lines) : Node → List Lexeme → Prop where
  | node {n : Node} {loc : Location} {used : List Lexeme} :
      n.loc = some loc → SpanFits lines loc used n → Balanced used →
      AllLaid lines n.parts.flatten used → Laid lines n used

/-- Nodes stand one after another on parts of the lexemes, those without spans anywhere. -/
inductive AllLaid (lines : Lines) : List Node → List Lexeme → Prop where
  | nil {used : List Lexeme} : AllLaid lines [] used
  | bare {n : Node} {ns : List Node} {used : List Lexeme} :
      n.Bare → AllLaid lines ns used → AllLaid lines (n :: ns) used
  | skip {ns : List Node} {lexeme : Lexeme} {used : List Lexeme} :
      AllLaid lines ns used → AllLaid lines ns (lexeme :: used)
  | cons {n : Node} {ns : List Node} {used more : List Lexeme} :
      Laid lines n used → AllLaid lines ns more → AllLaid lines (n :: ns) (used ++ more)

end

namespace Laid

variable {n : Node} {used : List Lexeme}

theorem balanced : Laid lines n used → Balanced used
  | .node _ _ balanced _ => balanced

theorem one (h : Laid lines n used) : AllLaid lines [n] used := by
  rw [← List.append_nil used]
  exact .cons h .nil

theorem ne_nil {set : SelectionSet} : Laid lines (.selectionSet set) used → used ≠ []
  | .node _ ⟨_, _, _, split, _⟩ _ _ => by simp [split]

theorem shorthand {set : SelectionSet} (h : Laid lines (.selectionSet set) used) :
    Laid lines (.definition (.operation ⟨.query, none, [], [], set, set.loc⟩)) used := by
  have laid := h.one
  obtain ⟨hl, ⟨opening, inner, closing, rfl, -, starts, opens, -⟩, balanced, -⟩ := h
  exact .node hl ⟨opening, _, rfl, starts, .inr ⟨opens, rfl, rfl, rfl, rfl⟩⟩ balanced laid

end Laid

namespace AllLaid

variable {ns ms : List Node} {used more : List Lexeme}

theorem skips (h : AllLaid lines ns more) (used : List Lexeme) :
    AllLaid lines ns (used ++ more) := by
  induction used with
  | nil => exact h
  | cons _ used ih => exact .skip ih

theorem bares (h : AllLaid lines ns used) (free : ∀ m ∈ ms, m.Bare) :
    AllLaid lines (ms ++ ns) used := by
  induction ms with
  | nil => exact h
  | cons m ms ih =>
    obtain ⟨first, later⟩ := List.forall_mem_cons.mp free
    exact .bare first (ih later)

theorem append {ns ms : List Node} {used more : List Lexeme} :
    AllLaid lines ns used → AllLaid lines ms more → AllLaid lines (ns ++ ms) (used ++ more)
  | .nil, h' => h'.skips _
  | .bare free h, h' => .bare free (h.append h')
  | .skip h, h' => .skip (h.append h')
  | .cons first h, h' => by
    rw [List.append_assoc]
    exact .cons first (h.append h')

theorem widen (h : AllLaid lines ns used) (before after : List Lexeme) :
    AllLaid lines ns (before ++ used ++ after) := by
  simpa using (h.skips before).append (.nil : AllLaid lines [] after)

end AllLaid

mutual

theorem Laid.mem_nodes {n : Node} {used : List Lexeme} : Laid lines n used →
    ∀ m ∈ n.tree.nodes, ∀ loc, m.loc = some loc → ∃ part, part <:+: used ∧ Laid lines m part
  | .node hn opens balanced parts => by
    intro m hm loc hl
    rcases Node.mem_nodes_iff.mp hm with rfl | ⟨child, hc, hm⟩
    · exact ⟨used, List.infix_rfl, .node hn opens balanced parts⟩
    · exact parts.mem_nodes child hc m hm loc hl

theorem AllLaid.mem_nodes {ns : List Node} {used : List Lexeme} : AllLaid lines ns used →
    ∀ n ∈ ns, ∀ m ∈ n.tree.nodes, ∀ loc, m.loc = some loc →
      ∃ part, part <:+: used ∧ Laid lines m part
  | .nil => by simp
  | .bare free h => List.forall_mem_cons.mpr
    ⟨fun m hm _ hl => (nomatch (free m hm).symm.trans hl), h.mem_nodes⟩
  | .skip h => fun n hn m hm loc hl => by
    obtain ⟨part, within, laid⟩ := h.mem_nodes n hn m hm loc hl
    exact ⟨part, within.trans (List.suffix_cons _ _).isInfix, laid⟩
  | .cons first h => List.forall_mem_cons.mpr ⟨fun m hm loc hl => by
      obtain ⟨part, within, laid⟩ := first.mem_nodes m hm loc hl
      exact ⟨part, within.trans (List.prefix_append _ _).isInfix, laid⟩,
    fun n hn m hm loc hl => by
      obtain ⟨part, within, laid⟩ := h.mem_nodes n hn m hm loc hl
      exact ⟨part, within.trans (List.suffix_append _ _).isInfix, laid⟩⟩

end

theorem startsAt_span (lines : Lines) (p : Position) (ends : List (Option Location)) :
    ∃ loc, span (some lines) p ends = some loc ∧ StartsAt lines p loc :=
  ⟨_, rfl, rfl, rfl, rfl⟩

namespace Parser

theorem Series.laid {α : Type} {node : α → Node} {xs : List α} {used : List Lexeme}
    (h : Series (fun x => Laid lines (node x)) xs used) : AllLaid lines (xs.map node) used := by
  induction h with
  | nil => exact .nil
  | cons first _ ih => exact .cons first ih

theorem Series.balanced_of_laid {α : Type} {node : α → Node} {xs : List α} {used : List Lexeme}
    (h : Series (fun x => Laid lines (node x)) xs used) : Balanced used :=
  h.balanced fun _ _ laid => laid.balanced

namespace Takes

variable (lines)

theorem directive (budget : Nat) (lexemes : List Lexeme) : Takes lexemes (directive budget)
    fun d => Laid lines (.directive (Directive.located (some lines) d)) := by
  refine position ?_
  rintro first later -
  refine punctuator ?_
  rintro _ _ ⟨⟩ mark
  refine name fun text _ _ _ named => map (Balances.arguments false budget _) fun as used hu => ?_
  refine .node rfl ⟨first, _, rfl, ⟨rfl, rfl, rfl⟩, mark⟩
    (.token mark rfl (.token named rfl hu)) ?_
  rw [← List.append_nil (List.flatten _)]
  refine AllLaid.bares .nil ?_
  simpa [Node.parts, Directive.located] using ⟨.name text, Node.Bare.arguments as⟩

theorem directives (budget : Nat) (lexemes : List Lexeme) : Takes lexemes (directives budget)
    fun ds used => AllLaid lines ((ds.map (Directive.located (some lines))).map .directive) used ∧
      Balanced used := by
  refine mono (itemsWhile (directive lines budget)) fun ds used h => ⟨?_, h.balanced_of_laid⟩
  rw [List.map_map]
  exact h.laid

theorem variableDefinition (budget : Nat) (lexemes : List Lexeme) :
    Takes lexemes (variableDefinition (some lines) budget)
      fun d => Laid lines (.variableDefinition d) := by
  refine position ?_
  rintro first later -
  refine punctuator ?_
  rintro _ _ ⟨⟩ dollar
  refine name fun text _ _ _ named => punctuator fun _ _ _ colon =>
    bind (Balances.typeRef budget _) fun type used _ ht =>
      map (Balances.default budget _) fun found more hd => ?_
  refine .node rfl ⟨first, _, rfl, ⟨rfl, rfl, rfl⟩, dollar⟩
    (.token dollar rfl (.token named rfl (.token colon rfl (ht.append hd)))) ?_
  rw [← List.append_nil (List.flatten _)]
  refine AllLaid.bares .nil ?_
  cases found with
  | none => simpa [Node.parts] using ⟨.variable_ text, .type type⟩
  | some literal => simpa [Node.parts] using ⟨.variable_ text, .type type, .literal literal⟩

omit lines in
theorem secondName (lexemes : List Lexeme) : Takes lexemes (do
      if ← nextIs .colon then
        Parser.advance
        return some (← Parser.name)
      else return none)
    fun _ used => Balanced used := by
  refine ifNext ?_ (pure .nil)
  rintro colon later rfl token
  exact advance (map (Balances.name _) fun _ _ balanced => .token token rfl balanced)

section Selections

variable {sets : Parser SelectionSet}
  (h : ∀ lexemes, Takes lexemes sets fun s => Laid lines (.selectionSet s))

include h

theorem optionalSet (lexemes : List Lexeme) : Takes lexemes
    (do if ← nextIs .braceLeft then return some (← sets) else return none)
    fun found used => AllLaid lines (found.toList.map .selectionSet) used ∧ Balanced used := by
  refine ifNext (fun _ _ _ _ => map (h _) fun s used laid => ?_) (pure ⟨.nil, .nil⟩)
  rw [← List.append_nil used]
  exact ⟨.cons laid .nil, (List.append_nil used).symm ▸ laid.balanced⟩

theorem field (budget : Nat) {first : Lexeme} {text : String} (named : first.token = .name text)
    (lexemes : List Lexeme) :
    Takes lexemes (field (some lines) sets budget first.position text) fun f used =>
      Laid lines (.selection (.field f)) (first :: used) := by
  refine bind (secondName _) fun found u _ hu => bind (Balances.arguments false budget _) fun as v _ hv =>
    bind (directives lines budget _) fun ds w _ hd => bind (optionalSet lines h _) fun set x _ hs =>
      pure ?_
  rw [List.append_nil]
  refine .node rfl ⟨first, _, rfl, ⟨rfl, rfl, rfl⟩, ?_⟩
    (.token named rfl (hu.append (hv.append (hd.2.append hs.2)))) ?_
  · cases found <;> exact named
  · have laid := (hd.1.append hs.1).skips (first :: u ++ v)
    have free : ∀ m ∈ (found.map fun _ => (⟨text, none⟩ : Name)).toList.map Node.name ++
        .name ⟨found.getD text, none⟩ :: (argumentsOf as).map .argument, m.Bare := by
      simp only [List.forall_mem_append, List.forall_mem_cons, List.forall_mem_map]
      refine ⟨?_, .name _, Node.Bare.arguments as⟩
      cases found <;> simp [Node.Bare.name]
    simpa [Node.parts] using laid.bares free

theorem inlineFragment (budget : Nat) {p : Position} (condition : Option String)
    {front lexemes : List Lexeme} (balanced : Balanced front)
    (dots : ∀ used, used ≠ [] → used <+: lexemes →
      ∃ dots next rest, front ++ used = dots :: next :: rest ∧ next.position = p) :
    Takes lexemes (inlineFragment (some lines) sets budget p (condition.map (⟨⟨·, none⟩, none⟩)))
      fun f used => Laid lines (.selection (.inlineFragment f)) (front ++ used) := by
  have taken : Takes lexemes (Parser.inlineFragment (some lines) sets budget p
      (condition.map (⟨⟨·, none⟩, none⟩))) fun f used => used ≠ [] ∧ Balanced used ∧
        AllLaid lines (Node.selection (.inlineFragment f)).parts.flatten used ∧
        f.loc = span (some lines) (lines.spreadStart p) [f.selectionSet.loc] := by
    refine bind (directives lines budget _) fun ds u _ hd => map (h _) fun set v hs => ?_
    refine ⟨?_, hd.2.append hs.balanced, ?_, rfl⟩
    · simp [hs.ne_nil]
    · have free : ∀ m ∈ (condition.map (⟨⟨·, none⟩, none⟩ : String → NamedType)).toList.map
          (Node.type ∘ .named), m.Bare := by
        cases condition <;> simp [Node.Bare.namedType]
      simpa [Node.parts] using (hd.1.append hs.one).bares free
  -- The token after the dots may be the first that is taken here, so something must be.
  refine mono taken.front ?_
  rintro f used ⟨⟨some, hu, parts, loc⟩, within⟩
  obtain ⟨first, next, rest, split, rfl⟩ := dots used some within
  obtain ⟨_, hl, starts⟩ := startsAt_span lines (lines.spreadStart next.position)
    [f.selectionSet.loc]
  exact .node (loc.trans hl) ⟨first, next, rest, split, starts⟩ (balanced.append hu)
    (parts.skips front)

theorem selection (budget : Nat) (lexemes : List Lexeme) :
    Takes lexemes (selection (some lines) sets budget) fun s => Laid lines (.selection s) := by
  refine ifNext ?_ (position ?_)
  · rintro dots later rfl spread
    have mark : Balanced [dots] := .token spread rfl .nil
    refine advance (position ?_)
    rintro next rest rfl
    -- Without a name after the dots the rest of the fragment starts where the dots end.
    have bare : Takes (next :: rest) (Parser.inlineFragment (some lines) sets budget next.position
        none >>= fun f => Pure.pure (.inlineFragment f)) fun s used =>
          Laid lines (.selection s) (dots :: used) := by
      refine map (inlineFragment lines h budget none mark ?_) fun f used laid => laid
      intro used some within
      cases used with
      | nil => exact absurd rfl some
      | cons first used =>
        obtain rfl := (List.cons_prefix_cons.mp within).1
        exact ⟨dots, first, used, rfl, rfl⟩
    refine peek ?_ bare
    rintro t _ _ ⟨⟩ token
    cases t with
    | name text =>
      refine advance ?_
      split_ifs
      · refine name fun type named rest _ ht => ?_
        have opening : Balanced [dots, next, named] :=
          .token spread rfl (.token token rfl (.token ht rfl .nil))
        exact map (inlineFragment lines h budget (some type) opening
          fun used _ _ => ⟨dots, next, named :: used, rfl, rfl⟩) fun f used laid => laid
      · refine map (directives lines budget _) fun ds used hd => ?_
        refine .node rfl ⟨dots, next, used, rfl, rfl, rfl, rfl⟩
          (.token spread rfl (.token token rfl hd.2)) ?_
        simpa [Node.parts] using AllLaid.bare (.name text) (hd.1.skips [dots, next])
    | _ => exact bare
  · rintro first later -
    refine name ?_
    rintro text _ _ ⟨⟩ named
    exact map (field lines h budget named _) fun f used laid => laid

end Selections

theorem selectionSet (budget : Nat) (lexemes : List Lexeme) :
    Takes lexemes (selectionSet (some lines) budget) fun s => Laid lines (.selectionSet s) := by
  induction budget generalizing lexemes with
  | zero => exact fail
  | succ budget ih =>
    refine position ?_
    rintro first later -
    refine map (enclosed (selection lines ih budget)) ?_
    rintro r _ ⟨opening, inner, closing, head, rfl, items, stop⟩
    cases head
    have balanced := items.items.balanced_of_laid
    refine .node rfl ⟨first, inner, closing, rfl, balanced, ⟨rfl, rfl, rfl⟩, items.opens,
      items.closes, by rw [stop]⟩ (items.balanced rfl fun _ _ laid => laid.balanced) ?_
    simpa [Node.parts] using items.items.laid.widen [first] [closing]

omit lines in
theorem operationName (lexemes : List Lexeme) : Takes lexemes (do
      match ← Parser.peek with
      | some (.name text) => do Parser.advance; return some ⟨text, none⟩
      | _ => return none)
    fun (found : Option Name) used =>
      Balanced used ∧ ∀ n ∈ found.toList.map Node.name, n.Bare := by
  refine peek ?_ (pure ⟨.nil, by simp⟩)
  rintro t first later rfl token
  cases t with
  | name text => exact advance (pure ⟨.token token rfl .nil, by simp [Node.Bare.name]⟩)
  | _ => exact pure ⟨.nil, by simp⟩

theorem operation (budget : Nat) {first : Lexeme} {type : OperationType}
    (keyword : first.token = .name type.text) (lexemes : List Lexeme) :
    Takes lexemes (operation (some lines) budget first.position type) fun d used =>
      Laid lines (.definition (.operation d)) (first :: used) := by
  refine bind (operationName _) fun name u _ hn =>
    bind (optionalEnclosed (variableDefinition lines budget)) fun vars v _ hv =>
    bind (directives lines budget _) fun ds w _ hd => map (selectionSet lines budget _)
      fun set x hs => ?_
  have laid : AllLaid lines (vars.map .variableDefinition) v ∧ Balanced v := by
    rcases hv with ⟨rfl, rfl⟩ | ⟨opening, inner, closing, rfl, items⟩
    · exact ⟨.nil, .nil⟩
    · refine ⟨?_, items.balanced rfl fun _ _ laid => laid.balanced⟩
      simpa using items.items.laid.widen [opening] [closing]
  refine .node rfl ⟨first, _, rfl, ⟨rfl, rfl, rfl⟩, .inl keyword⟩
    (.token keyword rfl (hn.1.append (laid.2.append (hd.2.append hs.balanced)))) ?_
  have parts := (laid.1.append (hd.1.append hs.one)).skips (first :: u)
  simpa [Node.parts] using parts.bares hn.2

theorem fragment (budget : Nat) {first : Lexeme} (keyword : first.token = .name "fragment")
    (lexemes : List Lexeme) :
    Takes lexemes (fragment (some lines) budget first.position) fun d used =>
      Laid lines (.definition (.fragment d)) (first :: used) := by
  refine name fun text named _ _ hn => Takes.keyword fun on _ _ ho => name fun type typed _ _ ht =>
    bind (directives lines budget _) fun ds u _ hd => map (selectionSet lines budget _)
      fun set v hs => ?_
  refine .node rfl ⟨first, _, rfl, ⟨rfl, rfl, rfl⟩, keyword⟩
    (.token keyword rfl (.token hn rfl (.token ho rfl (.token ht rfl
      (hd.2.append hs.balanced))))) ?_
  simpa [Node.parts] using AllLaid.bare (.name text) (.bare (.namedType type)
    ((hd.1.append hs.one).skips [first, named, on, typed]))

theorem executableDefinition (budget : Nat) (lexemes : List Lexeme) :
    Takes lexemes (executableDefinition (some lines) budget)
      fun d => Laid lines (.definition d) := by
  refine ifNext (fun _ _ _ _ => map (selectionSet lines budget _)
    fun set used hs => hs.shorthand) ?_
  refine position ?_
  rintro first later -
  refine ifNextName ?_ (peek ?_ fail)
  · rintro _ _ ⟨⟩ token
    exact advance (map (fragment lines budget token _) fun d used laid => laid)
  · rintro t _ _ ⟨⟩ token
    cases t with
    | name text =>
      dsimp only
      split
      · rename_i type found
        obtain rfl := OperationType.text_of_ofText? found
        exact advance (map (operation lines budget token _) fun d used laid => laid)
      · exact fail
    | _ => exact fail

end Takes

end Parser

/-- A position that is counted is in the line after as many newlines, behind the characters after
the last of them. -/
theorem Position.start_after (before : List Char) :
    Position.start.after before =
      ⟨before.count '\n' + 1, (before.rtakeWhile (· ≠ '\n')).length + 1⟩ := by
  induction before using List.reverseRecOn with
  | nil => rfl
  | append_singleton before c ih =>
    rw [Position.after_append, ih, List.count_append]
    by_cases newline : c = '\n'
    · subst newline
      simp [Position.after, Position.nextLine]
    · simp [Position.after, Position.right, newline]

theorem Lines.spreadStart_eq_after {source before after : List Char}
    (h : source = before ++ after) :
    ∃ dotsBefore rest, source = dotsBefore ++ rest ∧
      (ofText source).spreadStart (Position.start.after before) =
        Position.start.after dotsBefore := by
  have taken :
      source.take ((ofText source).charsBefore (Position.start.after before)) = before := by
    rw [charsBefore_after h, h, List.take_left]
  unfold spreadStart
  dsimp only
  split
  · exact ⟨before, after, h, rfl⟩
  · rw [show (ofText source).source = source from rfl, taken]
    cases found : lastSpread Position.start before with
    | none => exact ⟨before, after, h, rfl⟩
    | some q =>
      obtain ⟨dotsBefore, rest, rfl, rfl⟩ := lastSpread_eq_after found
      exact ⟨dotsBefore, rest ++ after, by rw [h, List.append_assoc], rfl⟩

/-- The span starts after this part of the text, in the line and at the column where it ends. -/
structure StartsAfter (loc : Location) (before : List Char) : Prop where
  start : loc.start = bytes before
  line : loc.line = before.count '\n' + 1
  column : loc.column = (before.rtakeWhile (· ≠ '\n')).length + 1

theorem StartsAt.after {source before rest : List Char} {p : Position} {loc : Location}
    (h : StartsAt (Lines.ofText source) p loc) (hp : p = Position.start.after before)
    (split : source = before ++ rest) : StartsAfter loc before := by
  obtain ⟨start, line, column⟩ := h
  rw [hp] at start line column
  rw [Position.start_after] at line column
  exact ⟨start.trans (Lines.offset_after split), line, column⟩

/-- After a part of the text stands the brace that opens a selection set, and the span ends with the
brace that matches it: the brackets of the tokens between them match. -/
def Braced (source : List Char) (loc : Location) (before : List Char) : Prop :=
  ∃ opening inner closing mid rest,
    opening :: inner ++ [closing] <:+: (lex source).lexemes ∧ Balanced inner ∧
    opening = ⟨Position.start.after before, .punctuator .braceLeft⟩ ∧
    closing = ⟨Position.start.after (before ++ '\x7b' :: mid), .punctuator .braceRight⟩ ∧
    source = before ++ '\x7b' :: mid ++ '\x7d' :: rest ∧
    loc.stop = bytes (before ++ '\x7b' :: mid ++ ['\x7d'])

def Ast.Kind.startsWithToken : Kind → Bool
  | .operationDefinition | .fragmentDefinition | .field | .variableDefinition | .directive
  | .selectionSet => true
  | _ => false

/-- The span starts after a part of the text, with the first token of the node if it is of a kind
that does, and a selection set stands between its braces. -/
def Ast.Node.StandsIn (source : List Char) (n : Node) (loc : Location) : Prop :=
  ∃ before after, source = before ++ after ∧ StartsAfter loc before ∧
    (n.kind.startsWithToken = true → ∃ token, n.BeginsWith token ∧ token.text <+: after ∧
      scanToken? after = some (token, token.text.length)) ∧
    ∀ set, n = .selectionSet set → Braced source loc before

theorem StartsAt.standsIn {source : List Char} {n : Node} {loc : Location} {first : Lexeme}
    (starts : StartsAt (Lines.ofText source) first.position loc)
    (standing : Standing source [] (lex source).lexemes) (mem : first ∈ (lex source).lexemes)
    (begins : n.kind.startsWithToken = true → n.BeginsWith first.token)
    (other : ∀ set, n ≠ .selectionSet set) : n.StandsIn source loc := by
  obtain ⟨before, after, split, position, text, scanned⟩ := standing.mem mem
  exact ⟨before, after, split, starts.after position split,
    fun yes => ⟨_, begins yes, text, scanned⟩, fun set hn => absurd hn (other set)⟩

theorem standsIn_selectionSet {source : List Char} {set : SelectionSet} {loc : Location}
    {used : List Lexeme} (standing : Standing source [] (lex source).lexemes)
    (part : used <:+: (lex source).lexemes)
    (opens : SpanFits (Lines.ofText source) loc used (.selectionSet set)) :
    (Node.selectionSet set).StandsIn source loc := by
  obtain ⟨⟨p, _⟩, inner, ⟨q, _⟩, rfl, balanced, starts, rfl, rfl, stop⟩ := opens
  obtain ⟨before, mid, rest, split, rfl, rfl⟩ := standing.between part
  have whole : source = before ++ '\x7b' :: mid ++ ['\x7d'] ++ rest := by
    simpa [Token.text, Punctuator.text] using split
  have last : source = before ++ '\x7b' :: mid ++ '\x7d' :: rest := by
    rw [whole, List.append_assoc _ ['\x7d']]
    rfl
  have first : source = before ++ '\x7b' :: (mid ++ '\x7d' :: rest) := by
    rw [last, List.append_assoc]
    rfl
  refine ⟨before, _, first, starts.after rfl first, fun _ => ⟨_, rfl, ⟨_, rfl⟩, rfl⟩,
    fun _ _ => ⟨_, inner, _, mid, rest, part, balanced, rfl, rfl, last, ?_⟩⟩
  have size : bytes (before ++ '\x7b' :: mid ++ ['\x7d']) ≤ (Lines.ofText source).size := by
    rw [Lines.size, show (Lines.ofText source).source = source from rfl, whole, bytes_append _ rest]
    exact Nat.le_add_right _ _
  have closing : (Lines.ofText source).offset (Position.start.after
      (before ++ (Token.text (.punctuator .braceLeft) ++ mid))) + 1 =
        bytes (before ++ '\x7b' :: mid ++ ['\x7d']) := by
    rw [bytes_append _ ['\x7d'], ← Lines.offset_after last]
    rfl
  rw [stop, closing, Nat.min_eq_left size]

theorem Laid.standsIn {source : List Char} {n : Node} {used : List Lexeme} {loc : Location}
    (standing : Standing source [] (lex source).lexemes) (part : used <:+: (lex source).lexemes)
    (hl : n.loc = some loc) (h : Laid (Lines.ofText source) n used) : n.StandsIn source loc := by
  obtain ⟨hn, opens, -, -⟩ := h
  obtain rfl := Option.some.inj (hl.symm.trans hn)
  have first (opens : ∃ first rest, used = first :: rest ∧
      StartsAt (Lines.ofText source) first.position loc ∧ n.BeginsWith first.token)
      (other : ∀ set, n ≠ .selectionSet set) : n.StandsIn source loc := by
    obtain ⟨first, rest, rfl, starts, begins⟩ := opens
    exact starts.standsIn standing (part.subset List.mem_cons_self) (fun _ => begins) other
  cases n with
  | selectionSet set => exact standsIn_selectionSet standing part opens
  | selection s =>
    cases s with
    | field f => exact first opens nofun
    | spread s =>
      obtain ⟨dots, first, rest, rfl, starts⟩ := opens
      exact starts.standsIn standing
        (part.subset (List.mem_cons_of_mem _ List.mem_cons_self)) nofun nofun
    | inlineFragment f =>
      obtain ⟨dots, next, rest, rfl, starts⟩ := opens
      obtain ⟨before, after, split, position, -⟩ :=
        standing.mem (part.subset (List.mem_cons_of_mem dots List.mem_cons_self))
      obtain ⟨dotsBefore, rest, split, position'⟩ := Lines.spreadStart_eq_after split
      exact ⟨dotsBefore, rest, split, starts.after (position ▸ position') split, nofun, nofun⟩
  | _ => exact first opens nofun

/-- In a text without tabs, carriage returns and byte order marks all spans of a parsed document
start after the text that their offsets, lines and columns count. The nodes with spans stand one
after another, and inside each other, on the tokens of the text: an operation starts at its keyword,
or at its brace if it is a selection set alone, a fragment at its keyword, a field at its alias or
else its name, a variable definition at its dollar sign, and a directive at its mark; and a
selection set starts at its own brace and ends with the brace that matches it. -/
theorem parseQuery_firstTokens {source : String} {document : Document}
    (h : parseQuery source = .ok document) (tab : '\t' ∉ source.toList)
    (mark : '\ufeff' ∉ source.toList) (return_ : '\r' ∉ source.toList) :
    AllLaid (Lines.ofText source.toList) (document.definitions.map .definition)
        (lex source.toList).lexemes ∧
      ∀ n ∈ (Node.document document).tree.nodes, ∀ loc, n.loc = some loc →
        n.StandsIn source.toList loc := by
  have standing := standing_lex (plainText_of_not_mem tab mark return_)
  obtain ⟨lines, budget, located, laidOut, parsed⟩ := parseQuery_ok h
  obtain rfl := laidOut rfl
  obtain ⟨used, all, series⟩ := Parser.Takes.definitions
    (Parser.Takes.executableDefinition (Lines.ofText source.toList) budget) _ _ parsed
  obtain rfl : (lex source.toList).lexemes = used := all.trans (List.append_nil used)
  refine ⟨series.laid, fun n hn loc hl => ?_⟩
  rcases Node.mem_nodes_iff.mp hn with rfl | ⟨child, hc, hn⟩
  · obtain rfl := Option.some.inj (located.symm.trans hl)
    exact ⟨[], _, rfl, ⟨rfl, rfl, rfl⟩, nofun, nofun⟩
  · rw [Node.parts, List.flatten_singleton] at hc
    obtain ⟨part, within, laid⟩ := series.laid.mem_nodes child hc n hn loc hl
    exact laid.standsIn standing within hl

/-- A comment, a comma and a block string over two lines, with characters of two bytes. -/
def blockQuery : String :=
  "# é,\n\x7b a(s: \"\"\"é\n\"\"\"), b: c @d \x7b ... on T \x7be\x7d \x7d \x7d\n" ++
    "query Q($v: Int) \x7b f \x7d"

theorem parseQuery_firstTokens_blockQuery :
    ∃ document, parseQuery blockQuery = .ok document ∧ '\t' ∉ blockQuery.toList ∧
      '\ufeff' ∉ blockQuery.toList ∧ '\r' ∉ blockQuery.toList ∧
      (∃ n ∈ (Node.document document).tree.nodes, n.kind = .field ∧
        n.loc = some ⟨25, 49, 3, 7⟩) ∧
      AllLaid (Lines.ofText blockQuery.toList) (document.definitions.map .definition)
        (lex blockQuery.toList).lexemes ∧
      ∀ n ∈ (Node.document document).tree.nodes, ∀ loc, n.loc = some loc →
        n.StandsIn blockQuery.toList loc := by
  obtain ⟨document, parsed, found⟩ := exists_of_any blockQuery
    (fun d => ∃ n ∈ (Node.document d).tree.nodes, n.kind = .field ∧
      n.loc = some ⟨25, 49, 3, 7⟩) (by decide +kernel)
  have tab : '\t' ∉ blockQuery.toList := by decide +kernel
  have mark : '\ufeff' ∉ blockQuery.toList := by decide +kernel
  have return_ : '\r' ∉ blockQuery.toList := by decide +kernel
  exact ⟨document, parsed, tab, mark, return_, of_decide_eq_true found,
    parseQuery_firstTokens parsed tab mark return_⟩

end GraphQL
