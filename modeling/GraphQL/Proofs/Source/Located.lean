import GraphQL.Proofs.Source.Moves
import GraphQL.Proofs.Source.Spans
import GraphQL.Proofs.Source.Yields

/-!
The spans of parsed documents. Main statement: spans start where a character of the text does, or at
its end, and do not pass its end; and in a text whose blanks are counted as characters of lines no
span ends before it starts, and the spans inside a node lie within its own.
-/
namespace GraphQL.Parser

open Ast

variable {lines : Lines} {exact : Prop} {i : Nat}

theorem covered_widens {α : Type} (node : α → Node) :
    Widens exact fun i j x => Covered lines exact i j (node x) :=
  fun _ _ _ _ _ h wider => h.mono wider

namespace Moves

theorem directive (budget : Nat) : Moves lines exact i (directive budget) fun d j =>
    Covered lines exact i j (.directive (Directive.located (some lines) d)) := by
  refine position fun p hp => next (.punctuator _) fun _ _ le => next .name fun text _ le₁ =>
    map (Passes.arguments false budget _) fun as j le₂ _ => ?_
  refine .span rfl (by grind) (by simp) ?_
  simpa [Node.parts, Directive.located, or_imp, forall_and] using
    ⟨.of_bare (.name text), fun a ha => .of_bare (.arguments as a ha)⟩

theorem directives (budget : Nat) : Moves lines exact i (directives budget) fun ds j =>
    ∀ d ∈ ds.map (Directive.located (some lines)), Covered lines exact i j (.directive d) :=
  mono (itemsWhile (covered_widens fun d => .directive (Directive.located (some lines) d))
    fun _ => directive budget) fun _ _ _ h => List.forall_mem_map.mpr h

theorem variableDefinition (budget : Nat) :
    Moves lines exact i (variableDefinition (some lines) budget) fun d j =>
      Covered lines exact i j (.variableDefinition d) := by
  refine position fun p hp => next (.punctuator _) fun _ _ le => next .name fun text _ le₁ =>
    next (.punctuator _) fun _ _ le₂ => next (.typeRef budget) fun type _ le₃ =>
      map (Passes.default budget _) fun found j le₄ _ => ?_
  refine .span rfl (by grind) (by simp) ?_
  cases found with
  | none => simpa [Node.parts] using ⟨.of_bare (.variable_ text), .of_bare (.type type)⟩
  | some literal =>
    simpa [Node.parts] using ⟨.of_bare (.variable_ text), .of_bare (.type type),
      .of_bare (.literal literal)⟩

theorem spread (budget : Nat) {p : Position} (text : String) (hp : exact → lines.offset p ≤ i) :
    Moves lines exact i (do
        let directives := (← Parser.directives budget).map (Directive.located (some lines))
        return .spread ⟨⟨text, none⟩, directives, span (some lines) p (directives.map (·.loc))⟩)
      fun s j => Covered lines exact (lines.offset p) j (.selection s) := by
  refine map (directives budget) fun ds j le hd => .span rfl (by grind) (fun loc hl => ?_) ?_
  · obtain ⟨d, hmem, own⟩ := List.mem_map.mp hl
    exact (hd d hmem).end_of loc own.symm
  · simp only [Node.parts, List.flatten_cons, List.flatten_nil, List.append_nil, List.mem_append,
      List.mem_singleton, or_imp, forall_and, forall_eq]
    exact ⟨.of_bare (.name text), List.forall_mem_map.mpr fun d hmem =>
      (hd d hmem).before_end (List.mem_map_of_mem hmem) hp⟩

/-- What ends with a selection set, and has other parts before it. -/
theorem covered_body {n : Node} {p : Position} {set : SelectionSet} {k l : Nat}
    (hn : n.loc = span (some lines) p [set.loc]) (hp : exact → lines.offset p ≤ i)
    (hi : exact → i ≤ k) (hs : Covered lines exact k l (.selectionSet set)) (hl : exact → k ≤ l)
    (children : ∀ m ∈ n.parts.flatten, m.Bare ∨ Covered lines exact i k m ∨
      m = .selectionSet set) :
    Covered lines exact (lines.offset p) l n := by
  refine .span hn (by grind) (fun loc hl => ?_) fun m hm => ?_
  · exact hs.end_of loc (List.mem_singleton.mp hl)
  · rcases children m hm with bare | before | rfl
    · exact .of_bare bare
    · exact before.spanned.mono fun e => ⟨hp e, hs.le_end List.mem_cons_self e⟩
    · exact hs.before_end List.mem_cons_self (by grind)

section Selections

variable {sets : Parser SelectionSet}
  (h : ∀ i, Moves lines exact i sets fun s j => Covered lines exact i j (.selectionSet s))

include h

theorem optionalSet : Moves lines exact i
    (do if ← nextIs .braceLeft then return some (← sets) else return none)
    fun found j => ∀ s, found = some s → Covered lines exact i j (.selectionSet s) := by
  refine ifNext (here (map (h i) ?_)) (pure (by simp))
  rintro s j _ hs _ ⟨⟩
  exact hs

theorem field (budget : Nat) {p : Position} (first : String) (hp : exact → lines.offset p ≤ i) :
    Moves lines exact i (field (some lines) sets budget p first) fun f j =>
      Covered lines exact (lines.offset p) j (.selection (.field f)) := by
  have second : Passes lines exact (do
      if ← nextIs .colon then
        advance
        return some (← Parser.name)
      else return none) :=
    fun i => ifNext (.advance fun j _ => map (Passes.name j) fun _ _ _ _ => trivial) (pure trivial)
  refine next second fun name j le => next (.arguments false budget) fun as k le₁ =>
    bind (directives budget) fun ds l le₂ hd => bind (optionalSet h) fun found m le₃ hs => pure ?_
  refine .span rfl (by grind) (fun loc hl => ?_) fun m hm => ?_
  · rcases List.mem_cons.mp hl with hl | hl
    · obtain ⟨s, rfl, own⟩ := Option.bind_eq_some_iff.mp hl.symm
      exact (hs s rfl).end_of loc own.symm
    · obtain ⟨d, hmem, own⟩ := List.mem_map.mp hl
      obtain ⟨stop, le⟩ := (hd d hmem).end_of loc own.symm
      exact ⟨stop, fun e => Nat.le_trans (le e) (le₃ e)⟩
  · simp only [Node.parts, List.flatten_cons, List.flatten_nil, List.append_nil, List.mem_append,
      List.mem_map, List.mem_singleton, Option.mem_toList] at hm
    rcases hm with ⟨n, hn, rfl⟩ | rfl | ⟨a, ha, rfl⟩ | ⟨d, hmem, rfl⟩ | ⟨s, rfl, rfl⟩
    · obtain ⟨_, _, rfl⟩ := Option.map_eq_some_iff.mp hn
      exact .of_bare (.name first)
    · exact .of_bare (.name _)
    · exact .of_bare (.arguments as a ha)
    · have hmem := List.mem_map.mpr hmem
      exact (hd d hmem).before_end (List.mem_cons_of_mem _ (List.mem_map_of_mem hmem)) (by grind)
    · exact (hs s rfl).before_end List.mem_cons_self (by grind)

theorem inlineFragment (budget : Nat) {p : Position} (condition : Option String)
    (hp : exact → lines.offset (lines.spreadStart p) ≤ i) :
    Moves lines exact i (inlineFragment (some lines) sets budget p
        (condition.map (⟨⟨·, none⟩, none⟩)))
      fun f j => Covered lines exact (lines.offset (lines.spreadStart p)) j
        (.selection (.inlineFragment f)) := by
  refine bind (directives budget) fun ds k le hd => map (h k) fun set l le₁ hs =>
    covered_body rfl hp le hs le₁ fun m hm => ?_
  simp only [Node.parts, List.flatten_cons, List.flatten_nil, List.append_nil, List.mem_append,
    List.mem_map, List.mem_singleton, Option.mem_toList] at hm
  rcases hm with ⟨t, ht, rfl⟩ | ⟨d, hmem, rfl⟩ | rfl
  · obtain ⟨text, -, rfl⟩ := Option.map_eq_some_iff.mp ht
    exact .inl (.namedType text)
  · exact .inr (.inl (hd d (List.mem_map.mpr hmem)))
  · exact .inr (.inr rfl)

theorem selection (budget : Nat) : Moves lines exact i (selection (some lines) sets budget)
    fun s j => Covered lines exact i j (.selection s) := by
  refine ifNext (.spread fun p j hp dots => ?_) ?_
  · have bare : Moves lines exact j (Parser.inlineFragment (some lines) sets budget p none >>=
        fun f => Pure.pure (.inlineFragment f)) fun s j => Covered lines exact i j (.selection s) :=
      map (inlineFragment h budget none (by grind)) fun f k le hf => hf.mono (by grind)
    refine peek (fun t => ?_) bare
    cases t with
    | name text =>
      refine .advance fun k less => ?_
      split_ifs
      · refine next .name fun type l le => ?_
        exact map (inlineFragment h budget (some type) (by grind)) fun f m le' hf =>
          hf.mono (by grind)
      · exact mono (spread budget text (by grind)) fun s l le hs => hs.mono (by grind)
    | _ => exact bare.here
  · exact position fun p hp => next .name fun first j le =>
      map (field h budget first (by grind)) fun f k le' hf => hf.mono (by grind)

end Selections

theorem selectionSet (budget : Nat) : Moves lines exact i (selectionSet (some lines) budget)
    fun s j => Covered lines exact i j (.selectionSet s) := by
  induction budget generalizing i with
  | zero => exact fail
  | succ budget ih =>
    refine position fun p hp => map (enclosed (covered_widens Node.selection)
      fun i => selection (fun _ => ih) budget) fun r j le hr => ?_
    obtain ⟨items, order⟩ := hr
    refine ⟨⟨_, rfl⟩, .some rfl ⟨⟨p, rfl⟩, ⟨r.2, .inr rfl⟩, fun other => absurd rfl other,
      fun e => ?_⟩ ?_⟩
    · have := order e
      dsimp only
      omega
    · rw [Node.parts, List.flatten_singleton]
      refine List.forall_mem_map.mpr fun s hs => (items s hs).spanned.mono fun e => ?_
      have := order e
      dsimp only
      omega

theorem operation (budget : Nat) {p : Position} (type : OperationType)
    (hp : exact → lines.offset p ≤ i) :
    Moves lines exact i (operation (some lines) budget p type) fun d j =>
      Covered lines exact (lines.offset p) j (.definition (.operation d)) := by
  refine bind (?named : Moves lines exact i _ fun (found : Option Name) _ =>
    ∀ n, found = some n → Node.Bare (.name n)) ?_
  case named =>
    refine peek (fun t => ?_) (pure (by simp))
    cases t with
    | name text =>
      refine .advance fun j _ => pure ?_
      rintro _ ⟨⟩
      exact .name text
    | _ => exact here (pure (by simp))
  intro name j le hn
  refine bind (optionalEnclosed (covered_widens Node.variableDefinition)
      fun i => variableDefinition budget) fun vars k le₁ hv =>
    bind (directives budget) fun ds l le₂ hd => map (selectionSet budget) fun set m le₃ hs => ?_
  refine (covered_body (i := j) rfl (by grind) (by grind) hs le₃ fun n hm => ?_)
  simp only [Node.parts, List.flatten_cons, List.flatten_nil, List.append_nil, List.mem_append,
    List.mem_map, List.mem_singleton, Option.mem_toList] at hm
  rcases hm with ⟨n, found, rfl⟩ | ⟨v, hmem, rfl⟩ | ⟨d, hmem, rfl⟩ | rfl
  · exact .inl (hn n found)
  · exact .inr (.inl ((hv v hmem).mono (by grind)))
  · exact .inr (.inl ((hd d (List.mem_map.mpr hmem)).mono (by grind)))
  · exact .inr (.inr rfl)

theorem fragment (budget : Nat) {p : Position} (hp : exact → lines.offset p ≤ i) :
    Moves lines exact i (fragment (some lines) budget p) fun d j =>
      Covered lines exact (lines.offset p) j (.definition (.fragment d)) := by
  refine next .name fun name j le => next (.keyword "on") fun _ k le₁ =>
    next .name fun text l le₂ => bind (directives budget) fun ds m le₃ hd =>
      map (selectionSet budget) fun set o le₄ hs => ?_
  refine covered_body (i := l) rfl (by grind) le₃ hs le₄ fun n hm => ?_
  simp only [Node.parts, List.flatten_cons, List.flatten_nil, List.append_nil, List.mem_append,
    List.mem_map, List.mem_singleton] at hm
  rcases hm with rfl | rfl | ⟨d, hmem, rfl⟩ | rfl
  · exact .inl (.name name)
  · exact .inl (.namedType text)
  · exact .inr (.inl (hd d (List.mem_map.mpr hmem)))
  · exact .inr (.inr rfl)

theorem covered_shorthand {j : Nat} {set : SelectionSet}
    (h : Covered lines exact i j (.selectionSet set)) :
    Covered lines exact i j (.definition (.operation ⟨.query, none, [], [], set, set.loc⟩)) := by
  obtain ⟨loc, hl⟩ := h.located
  have lies := h.lies loc hl
  refine ⟨⟨loc, hl⟩,
    .some hl ⟨lies.start, lies.stop, fun _ other => absurd rfl other, lies.within⟩ ?_⟩
  simpa [Node.parts] using h.spanned.own hl

theorem executableDefinition (budget : Nat) :
    Moves lines exact i (executableDefinition (some lines) budget) fun d j =>
      Covered lines exact i j (.definition d) := by
  refine ifNext (here (map (selectionSet budget) fun set j le hs => covered_shorthand hs)) ?_
  refine position fun p hp => ifNextName (.advance fun j less => ?_) (peek (fun t => ?_) fail)
  · exact map (fragment budget (by grind)) fun d k le hd => hd.mono (by grind)
  · cases t with
    | name text =>
      dsimp only
      split
      · exact .advance fun j less => map (operation budget _ (by grind)) fun d k le hd =>
          hd.mono (by grind)
      · exact fail.here
    | _ => exact fail.here

end Moves

end GraphQL.Parser

namespace GraphQL

open Ast

theorem IsEnd.le_size {source : List Char} {n : Nat} (h : IsEnd (Lines.ofText source) n) :
    n ≤ bytes source := by
  obtain ⟨p, rfl | rfl⟩ := h
  · exact Lines.offset_le_size source p
  · exact Nat.min_le_right _ _

theorem covered_document {source : List Char} {exact : Prop} {definitions : List Definition}
    {i : Nat} (h : ∀ d ∈ definitions,
      Covered (Lines.ofText source) exact i (Lines.ofText source).size (.definition d)) :
    Spanned (Lines.ofText source) exact 0 (Lines.ofText source).size
      (.document ⟨definitions, documentSpan (some (Lines.ofText source))⟩) := by
  have first : (Lines.ofText source).offset Position.start = 0 := rfl
  have last : (Lines.ofText source).offset ⟨(Lines.ofText source).starts.length + 1, 1⟩ =
      (Lines.ofText source).size := by
    simp [Lines.offset]
  refine .some rfl ⟨⟨_, first.symm⟩, ⟨_, .inl last.symm⟩, fun _ _ => Nat.zero_le _,
    fun _ => ⟨Nat.le_refl _, Nat.zero_le _, Nat.le_refl _⟩⟩ ?_
  rw [Node.parts, List.flatten_singleton]
  exact List.forall_mem_map.mpr fun d hd => (h d hd).spanned.mono fun _ =>
    ⟨Nat.zero_le _, Nat.le_refl _⟩

theorem spanned_of_parseQuery {source : String} {document : Document}
    (h : parseQuery source = .ok document) :
    Spanned (Lines.ofText source.toList) (PlainText source.toList) 0 (bytes source.toList)
      (.document document) := by
  obtain ⟨lines, budget, loc, located, parsed⟩ := parseQuery_ok h
  obtain rfl := located rfl
  have ordered : PlainText source.toList →
      Ordered (Lines.ofText source.toList) (lex source.toList).lexemes :=
    fun plain => (standing_lex plain).ordered
  obtain ⟨-, covered⟩ := Parser.Moves.definitions (Parser.covered_widens Node.definition)
    (fun i => Parser.Moves.executableDefinition budget) _ _ _ ordered rfl parsed
  obtain ⟨definitions, _⟩ := document
  cases loc
  exact covered_document covered

/-- Whatever the positions are, their offsets are where characters of the text start, or its end, so
that the text can be taken apart there. The spans of a parsed document start at such places, end
within the text, and do not end before they start, unless they end with the bracket of a selection
set. In a text whose blanks are counted as characters of lines no span ends before it starts, and
the spans inside a node lie within its own. -/
theorem parseQuery_spans {source : String} {document : Document}
    (h : parseQuery source = .ok document) :
    (∀ p, IsBoundary source.toList ((Lines.ofText source.toList).offset p)) ∧
      (∀ n ∈ (Node.document document).tree.nodes, ∀ loc, n.loc = some loc →
        IsBoundary source.toList loc.start ∧ loc.stop ≤ bytes source.toList ∧
          (n.kind ≠ .selectionSet → n.kind ≠ .operationDefinition → loc.start ≤ loc.stop)) ∧
      (PlainText source.toList →
        ∀ n ∈ (Node.document document).tree.nodes, ∀ loc, n.loc = some loc →
          loc.start ≤ loc.stop ∧ ∀ m ∈ n.tree.nodes, ∀ inner, m.loc = some inner →
            loc.start ≤ inner.start ∧ inner.stop ≤ loc.stop) := by
  obtain ⟨all, nested⟩ := spanned_of_parseQuery h
  refine ⟨Lines.isBoundary_offset _, fun n hn loc hl => ?_, fun plain n hn loc hl => ?_⟩
  · have lies := all n hn loc hl
    obtain ⟨p, start⟩ := lies.start
    exact ⟨start ▸ Lines.isBoundary_offset _ p, lies.stop.le_size, lies.forward⟩
  · refine ⟨((all n hn loc hl).within plain).2.1, fun m hm inner hi => ?_⟩
    obtain ⟨start, -, stop⟩ := (nested n hn loc hl m hm inner hi).within plain
    exact ⟨start, stop⟩

theorem plainText_of_not_mem {source : List Char} (tab : '\t' ∉ source) (mark : '\ufeff' ∉ source)
    (return_ : '\r' ∉ source) : PlainText source :=
  ⟨tab, mark, fun before after split => absurd (split ▸ by simp) return_⟩

theorem exists_of_any (source : String) (p : Document → Bool)
    (h : (parseQuery source).toOption.any p = true) :
    ∃ document, parseQuery source = .ok document ∧ p document = true := by
  obtain ⟨document, parsed, found⟩ := (Option.any_eq_true _ _).mp h
  refine ⟨document, ?_, found⟩
  revert parsed
  cases parseQuery source <;> simp [Except.toOption]

/-- A query with a comment, an inline fragment over two lines and a character of two bytes. -/
def wideQuery : String :=
  "query ($v: Int) \x7b # ... é
  a: b(s: \"é\") @d \x7b ...
    on T @e \x7b c \x7d ...F \x7d
\x7d"

theorem parseQuery_spans_wideQuery :
    ∃ document, parseQuery wideQuery = .ok document ∧ PlainText wideQuery.toList ∧
      ((Node.document document).tree.nodes.filter (·.loc.isSome)).length = 12 ∧
      ∀ n ∈ (Node.document document).tree.nodes, ∀ loc, n.loc = some loc →
        loc.start ≤ loc.stop ∧ ∀ m ∈ n.tree.nodes, ∀ inner, m.loc = some inner →
          loc.start ≤ inner.start ∧ inner.stop ≤ loc.stop := by
  obtain ⟨document, parsed, count⟩ := exists_of_any wideQuery
    (fun d => ((Node.document d).tree.nodes.filter (·.loc.isSome)).length = 12) (by decide +kernel)
  have plain : PlainText wideQuery.toList :=
    plainText_of_not_mem (by decide +kernel) (by decide +kernel) (by decide +kernel)
  exact ⟨document, parsed, plain, of_decide_eq_true count, (parseQuery_spans parsed).2.2 plain⟩

/-- Tabs are counted as eight columns, but a column is one character where offsets are looked up: a
selection set after a tab ends before it starts, and in a document that is indented by tabs fields
lie behind their selection sets. -/
theorem spans_with_tabs :
    (∃ document, parseQuery "\t\x7ba\n\x7d\n#######" = .ok document ∧
      ∃ n ∈ (Node.document document).tree.nodes, n.kind = .selectionSet ∧
        n.loc = some ⟨8, 5, 1, 9⟩) ∧
      ∃ document, parseQuery "query A \x7b\n\ta\n\x7d\nquery B \x7b\n\tb\n\x7d\n" = .ok document ∧
        ∃ n ∈ (Node.document document).tree.nodes, n.kind = .selectionSet ∧
          n.loc = some ⟨8, 14, 1, 9⟩ ∧ ∃ m ∈ n.tree.nodes, m.loc = some ⟨18, 18, 2, 9⟩ := by
  constructor
  · obtain ⟨document, parsed, found⟩ := exists_of_any "\t\x7ba\n\x7d\n#######"
      (fun d => ∃ n ∈ (Node.document d).tree.nodes, n.kind = .selectionSet ∧
        n.loc = some ⟨8, 5, 1, 9⟩) (by decide +kernel)
    exact ⟨document, parsed, of_decide_eq_true found⟩
  · obtain ⟨document, parsed, found⟩ :=
      exists_of_any "query A \x7b\n\ta\n\x7d\nquery B \x7b\n\tb\n\x7d\n"
        (fun d => ∃ n ∈ (Node.document d).tree.nodes, n.kind = .selectionSet ∧
          n.loc = some ⟨8, 14, 1, 9⟩ ∧ ∃ m ∈ n.tree.nodes, m.loc = some ⟨18, 18, 2, 9⟩)
        (by decide +kernel)
    exact ⟨document, parsed, of_decide_eq_true found⟩

end GraphQL
