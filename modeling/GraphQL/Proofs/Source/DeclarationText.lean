import GraphQL.Proofs.Source.DirectiveText
import GraphQL.Source.TypeSystem

/-!
The texts of what type definitions are made of read back: descriptions, input values, fields, enum
values, and names with punctuators between them.
-/
namespace GraphQL

open Ast
open GraphQL.Parser

variable {α β : Type} {k : Nat}

def descriptionTokens (description : Option String) : List Token :=
  (description.map fun text => .string (text.toList.flatMap escapeChar)).toList

/-- What starts with a name, or with a description. -/
def NotPunctuator (t : Token) : Prop := ∀ p, t ≠ .punctuator p

theorem notPunctuator_apart (ps : List Punctuator) : Apart NotPunctuator ps :=
  fun _ h p _ => h p

theorem notPunctuator_string (raw : List Char) : NotPunctuator (.string raw) := by
  intro p same
  cases same

theorem notPunctuator_name (word : String) : NotPunctuator (.name word) := by
  intro p same
  cases same

theorem startsWith_described {heads : Token → Prop} {description : Option String} {t : Token}
    (quoted : ∀ raw, description.isSome → heads (.string raw)) (h : description = none → heads t)
    (ts : List Token) : StartsWith heads (descriptionTokens description ++ t :: ts) := by
  cases description with
  | none => exact ⟨t, rfl, h rfl⟩
  | some text => exact ⟨_, rfl, quoted _ rfl⟩

theorem Prints.described {text : String} {ts : List Token} (h : Prints k text ts)
    (description : Option String) :
    Prints k (describe (descriptionOf description) text)
      (descriptionTokens description ++ ts) := by
  cases description with
  | none => exact h
  | some value =>
    have newline : ∀ b ∈ "\n".toList, IsBlank b := by simp [IsBlank]
    have all := (Prints.token (k := k) (.quoted value) rfl).append (.text rfl rfl _)
      (h.blanks newline)
    rwa [← String.append_assoc] at all

/-- The description of a node whose literals read back. -/
theorem plain_of_printable {n : Node} (printable : n.Printable) {description : Option String}
    (slot : n.parts[0]? = some ((descriptionOf description).toList.map (Node.value ∘ .string))) :
    ∀ text ∈ description, '\x08' ∉ text.toList := by
  rintro text ⟨⟩
  exact printable.part 0 slot (List.mem_singleton_self _) _ (Node.mem_nodes _)

namespace Parser.ReadsBefore

variable {final : α → Prop} {follow : List Token → Prop} {word : String} {ts : List Token}

theorem description {description : Option String}
    (plain : ∀ text ∈ description, '\x08' ∉ text.toList) {f : Option String → Parser α}
    (next : ReadsBefore (f description) (.name word :: ts) final follow) :
    ReadsBefore (Parser.description >>= f) (descriptionTokens description ++ .name word :: ts) final
      follow := by
  cases description with
  | none => exact .peek_bind next
  | some text =>
    refine .peek_bind ?_
    dsimp only
    rw [bind_assoc]
    exact .string (plain text rfl) next

theorem described {description : Option String} {f : Position → Parser α}
    (next : ∀ p, ReadsBefore (f p) (descriptionTokens description ++ .name word :: ts) final
      follow) :
    ReadsBefore (Parser.position >>= f) (descriptionTokens description ++ .name word :: ts) final
      follow := by
  cases description <;> exact .position next

/-- What starts with a description or a word starts with no other word. -/
theorem otherWord {description : Option String} {other : String} (different : word ≠ other)
    {yes no : Parser α}
    (next : ReadsBefore no (descriptionTokens description ++ .name word :: ts) final follow) :
    ReadsBefore (nextIsName other >>= fun b => if b = true then yes else no)
      (descriptionTokens description ++ .name word :: ts) final follow := by
  cases description with
  | none => exact .ifNotNextName (by simpa using different) next
  | some text => exact .ifNotNextName (by simp) next

end Parser.ReadsBefore

/-- The tokens of names with a punctuator between them. -/
def separatedTokens (p : Punctuator) : List String → List Token
  | [] => []
  | name :: names => .name name :: (names.map fun other => [.punctuator p, .name other]).flatten

theorem Prints.separated {p : Punctuator} {mark separator : String} (hm : mark.toList = p.text)
    (hs : separator = " " ++ (mark ++ " ")) (flat : (p.isOpening || p.isClosing) = false)
    {names : List String} (h : ∀ name ∈ names, isName name = true) :
    Prints k (Ast.joinParts separator names) (separatedTokens p names) := by
  have nonempty : names.filter (· ≠ "") = names :=
    List.filter_eq_self.mpr fun name hn => decide_eq_true (ne_empty_of_isName (h name hn))
  rw [Ast.joinParts, nonempty]
  subst hs
  cases names with
  | nil => exact .empty
  | cons name names =>
    clear nonempty
    induction names generalizing name with
    | nil =>
      rw [String.intercalate_singleton]
      exact .token (.name (h name List.mem_cons_self)) rfl
    | cons second names ih =>
      obtain ⟨here, below⟩ := List.forall_mem_cons.mp h
      have blank : ∀ b ∈ " ".toList, IsBlank b := by simp [IsBlank]
      have rest := (((ih second below).blanks blank).punctuator p _ hm flat).blanks blank
      rw [String.intercalate_cons_of_ne_nil (List.cons_ne_nil _ _), String.append_assoc,
        String.append_assoc, String.append_assoc]
      exact (Prints.token (.name here) rfl).append (.text rfl rfl _) rest

theorem Parser.Reads.separated {p : Punctuator} {item : Parser String} {names : List String}
    (h : ∀ name ∈ names, Reads item [.name name] (name = ·) []) (some : names ≠ []) {budget : Nat}
    (budgeted : names.length ≤ budget) :
    Reads (Parser.separated p item budget) (separatedTokens p names) (names = ·) [p] := by
  cases names with
  | nil => exact absurd rfl some
  | cons name names =>
    obtain ⟨here, below⟩ := List.forall_mem_cons.mp h
    have skip : Reads (Parser.optional p) [] (fun _ => True) [p] :=
      .ifNotNext (fun _ notNext => notNext) (.pure trivial)
    have each : Each (do punctuator p; item) (· = ·) (· = .punctuator p) [] names
        (names.map fun other => [.punctuator p, .name other]) := by
      refine List.forall₂_map_right_iff.mpr (List.forall₂_same.mpr fun other ho => ?_)
      exact ⟨⟨_, rfl, rfl⟩, .punctuator (below other ho)⟩
    have rest := Reads.itemsWhile each List.not_mem_nil (Nat.le_of_succ_le budgeted)
    refine .bind skip (fun _ _ => ?_) fun us _ => .cons (by simp) _
    refine .bind here (fun x hx => .map rest fun xs hxs => ?_) fun us _ => by simp [NotNext]
    rw [List.forall₂_eq_eq_eq] at hxs
    rw [hx, hxs]

theorem length_separatedTokens (p : Punctuator) (names : List String) :
    names.length ≤ (separatedTokens p names).length := by
  cases names with
  | nil => exact Nat.le_refl _
  | cons name names =>
    rw [separatedTokens, List.length_cons, List.length_cons, List.length_flatten, List.map_map]
    induction names with
    | nil => exact Nat.le_refl _
    | cons other names ih =>
      simp only [List.length_cons, List.map_cons, List.sum_cons, Function.comp_apply] at ih ⊢
      omega

theorem name_reads (text : String) (stops : List Punctuator) :
    Reads Parser.name [.name text] (text = ·) stops := by
  rw [← bind_pure Parser.name]
  exact .name (.pure rfl)

/-- What follows is no list of interfaces, and does not go on with one. -/
def NoInterfaces (us : List Token) : Prop :=
  us.head? ≠ some (.name "implements") ∧ NotNext [.ampersand] us

theorem Parser.Opens.noInterfaces {q : Punctuator} {ts us : List Token} (h : Opens q ts)
    (hq : q ∉ [.ampersand]) (hu : NoInterfaces us) : NoInterfaces (ts ++ us) := by
  refine ⟨fun next => ?_, h.notNext hq hu.2⟩
  cases ts with
  | nil => exact hu.1 next
  | cons t ts =>
    obtain rfl := h t rfl
    cases next

namespace Ast

theorem print_namedTypes (names : List String) :
    (namedTypes names).map NamedType.print = names := by
  rw [namedTypes, List.map_map]
  exact List.map_id' names

theorem members_readBack {names : List String} (h : ∀ name ∈ names, isName name = true) :
    PartReadsBack k (wrap "= " (joinParts " | " ((namedTypes names).map NamedType.print)) "")
      unionMembers (names = ·) .equals [.equals, .pipe] := by
  rw [print_namedTypes]
  cases names with
  | nil =>
    exact ⟨[], .empty, .nil _, fun budget _ =>
      .ifNotNext (fun _ notNext => notNext.mono (by simp)) (.pure rfl)⟩
  | cons name names =>
    have blank : ∀ b ∈ " ".toList, IsBlank b := by simp [IsBlank]
    have between : " | " = " " ++ ("|" ++ " ") := rfl
    have inner : Prints k _ (separatedTokens .pipe (name :: names)) :=
      .separated rfl between rfl h
    have text := (inner.blanks blank).punctuator .equals "=" rfl rfl
    have split : wrap "= " (joinParts " | " (name :: names)) "" =
        "=" ++ (" " ++ joinParts " | " (name :: names)) := by
      have mark : "= " = "=" ++ " " := rfl
      rw [wrap, if_neg (inner.ne_empty (List.cons_ne_nil _ _)), mark, String.append_empty,
        String.append_assoc]
    rw [split]
    refine ⟨_, text, .cons _ _, fun budget budgeted => .ifNext (.advance ?_)⟩
    refine (Reads.separated (fun other _ => name_reads other _) (List.cons_ne_nil _ _)
      ?_).stops_mono (by simp)
    have := length_separatedTokens .pipe (name :: names)
    rw [List.length_cons] at budgeted
    omega

/-- The text of the interfaces of a type reads back, unless more of them follow. -/
theorem interfaces_readBack {names : List String} (h : ∀ name ∈ names, isName name = true) :
    ∃ ts, Prints k (printInterfaces (namedTypes names)) ts ∧ ∀ budget, ts.length ≤ budget →
      ReadsBefore (interfaces budget) ts (names = ·) NoInterfaces := by
  rw [printInterfaces, print_namedTypes]
  cases names with
  | nil =>
    refine ⟨[], .empty, fun budget _ => ?_⟩
    exact .ifNotHead (tests_nextIsName _) (fun us follows => follows.1) (.pure rfl)
  | cons name names =>
    have between : " & " = " " ++ ("&" ++ " ") := rfl
    have inner : Prints k _ (separatedTokens .ampersand (name :: names)) :=
      .separated rfl between rfl h
    have text := @Prints.word k "implements" _ _ (by decide) inner
    have split : wrap "implements " (joinParts " & " (name :: names)) "" =
        "implements" ++ (" " ++ joinParts " & " (name :: names)) := by
      have mark : "implements " = "implements" ++ " " := rfl
      rw [wrap, if_neg (inner.ne_empty (List.cons_ne_nil _ _)), mark, String.append_empty,
        String.append_assoc]
    rw [split]
    refine ⟨_, text, fun budget budgeted => .ifNextName (.advance ?_)⟩
    refine (Reads.separated (fun other _ => name_reads other _) (List.cons_ne_nil _ _)
      ?_).before_mono fun us follows => follows.2
    have := length_separatedTokens .ampersand (name :: names)
    rw [List.length_cons] at budgeted
    omega

def inputValueStops : List Punctuator := [.bang, .equals, .at, .parenLeft]

theorem InputValueDefinition.Fits.readsBack {d : InputValueDefinition} (fits : d.Fits k)
    (printable : (Node.inputValueDefinition d).Printable) :
    ReadsBack k d.print inputValue (d = .located none ·) NotPunctuator inputValueStops := by
  cases fits with
  | @intro description name type default directives hn ht hd hds =>
    obtain ⟨tts, typePrints, -, typeReads⟩ := TypeRef.readsBack type ht
    have mark : "= " = "" ++ "= " := rfl
    obtain ⟨dts, defaultPrints, defaultOpens, defaultReads⟩ := default_readsBack (by simp) mark hd
      fun literal hl => printable.part 3 rfl (by simpa using ⟨literal, hl, rfl⟩)
    obtain ⟨rts, dirsPrints, dirsOpens, dirsReads⟩ := directives_readBack hds
      fun d hd => printable.part 4 rfl (List.mem_map_of_mem hd)
    have text := (Prints.joinParts " " (by simp [IsBlank]) (by decide)
      (.cons (typePrints.labelled hn) (.cons defaultPrints (.cons dirsPrints .nil)))).described
        description
    simp only [List.flatten_cons, List.flatten_nil, List.append_nil, List.cons_append] at text
    refine ⟨_, text, startsWith_described (fun raw _ => notPunctuator_string raw)
      (fun _ => notPunctuator_name name) _,
      fun budget budgeted => .described fun p => .description (plain_of_printable printable rfl) ?_⟩
    simp only [List.length_append, List.length_cons] at budgeted
    refine .name (.punctuator (.bind (typeReads budget (by omega)) (fun t ht => ?_)
      fun us notNext => ?_))
    · refine .bind (defaultReads budget (by omega)) (fun x hx => ?_) fun us notNext => ?_
      · refine .map ((dirsReads budget (by omega)).stops_mono (by simp [inputValueStops]))
          fun ds hds => ?_
        rw [← ht, ← hx, hds]
        rfl
      · exact dirsOpens.notNext (by simp) (notNext.mono (by simp [inputValueStops]))
    · rw [List.append_assoc]
      exact defaultOpens.notNext (by simp)
        (dirsOpens.notNext (by simp) (notNext.mono (by simp [inputValueStops])))

theorem argumentDefinitions_readBack {as : List InputValueDefinition}
    (fits : Bracketed InputValueDefinition.Fits k as)
    (printable : ∀ a ∈ as, (Node.inputValueDefinition a).Printable) :
    PartReadsBack k (printArgumentDefinitions as) argumentDefinitions
      (as = List.map (.located none) ·) .parenLeft [.parenLeft] := by
  have each := fun j a ha (fits : InputValueDefinition.Fits j a) => fits.readsBack (printable a ha)
  unfold printArgumentDefinitions
  split_ifs
  · exact (PartReadsBack.items (fun items => wrap "(\n" (indent (joinParts "\n" items)) "\n)") fits
      each (notPunctuator_apart _) (by simp [inputValueStops]) rfl
      fun some prints => .lines .parenLeft .parenRight rfl rfl rfl rfl (.cons rfl _) some prints).mapped
  · exact (PartReadsBack.bracketed fits each (notPunctuator_apart _)
      (by simp [inputValueStops])).mapped

theorem stops_arguments (arguments : List InputValueDefinition) :
    Stops (printArgumentDefinitions arguments).toList := by
  unfold printArgumentDefinitions
  split_ifs <;> exact stops_wrap rfl rfl _ _

theorem FieldDefinition.Fits.readsBack {d : FieldDefinition} (fits : d.Fits k)
    (printable : (Node.fieldDefinition d).Printable) :
    ReadsBack k d.print fieldDefinition (d = .located none ·) NotPunctuator
      [.bang, .at, .parenLeft] := by
  cases fits with
  | @intro description name arguments type directives hn ha ht hds =>
    obtain ⟨ats, argumentPrints, argumentOpens, argumentReads⟩ := argumentDefinitions_readBack ha
      fun a ha => printable.part 2 rfl (List.mem_map_of_mem ha)
    obtain ⟨tts, typePrints, -, typeReads⟩ := TypeRef.readsBack type ht
    obtain ⟨rts, dirsPrints, dirsOpens, dirsReads⟩ := directives_readBack hds
      fun d hd => printable.part 4 rfl (List.mem_map_of_mem hd)
    have blank : ∀ b ∈ " ".toList, IsBlank b := by simp [IsBlank]
    have typed := ((typePrints.append (stops_wrap rfl rfl _ _)
      (dirsPrints.wrap_blank " " blank)).blanks blank).punctuator .colon ":" rfl rfl
    have named := (Prints.token (k := k) (.name hn) rfl).append (by
      rw [String.toList_append]
      exact (stops_arguments arguments).append (.text rfl rfl _))
      (argumentPrints.append (.text rfl rfl _) typed)
    have regroup : name ++ printArgumentDefinitions arguments ++ ": " ++
        (TypeNode.ofTypeRef type).print ++ wrap " " (printDirectives directives) "" =
        name ++ (printArgumentDefinitions arguments ++ (":" ++ (" " ++
          ((TypeNode.ofTypeRef type).print ++ wrap " " (printDirectives directives) "")))) := by
      have colon : ": " = ":" ++ " " := rfl
      rw [colon]
      simp only [String.append_assoc]
    rw [← regroup, List.singleton_append] at named
    refine ⟨_, named.described description,
      startsWith_described (fun raw _ => notPunctuator_string raw)
      (fun _ => notPunctuator_name name) _,
      fun budget budgeted => .described fun p => .description (plain_of_printable printable rfl) ?_⟩
    simp only [List.length_append, List.length_cons] at budgeted
    refine .name (.bind (argumentReads budget (by omega)) (fun xs hxs => ?_)
      fun us _ => .cons (by simp) _)
    refine .punctuator (.bind (typeReads budget (by omega)) (fun t ht => ?_) fun us notNext => ?_)
    · refine .map ((dirsReads budget (by omega)).stops_mono (by simp)) fun ds hds => ?_
      rw [hxs, ← ht, hds]
      rfl
    · exact dirsOpens.notNext (by simp) (notNext.mono (by simp))

theorem EnumValueDefinition.Fits.readsBack {d : EnumValueDefinition} (fits : d.Fits k)
    (printable : (Node.enumValueDefinition d).Printable) :
    ReadsBack k d.print enumValueDefinition (d = .located none ·) NotPunctuator
      [.at, .parenLeft] := by
  cases fits with
  | @intro description name directives hn hds =>
    obtain ⟨rts, dirsPrints, -, dirsReads⟩ := directives_readBack hds
      fun d hd => printable.part 2 rfl (List.mem_map_of_mem hd)
    have text := (Prints.joinParts (k := k) " " (by simp [IsBlank]) (by decide)
      (.cons (.token (.name hn) rfl) (.cons dirsPrints .nil))).described description
    simp only [List.flatten_cons, List.flatten_nil, List.append_nil, List.cons_append,
      List.nil_append] at text
    refine ⟨_, text, startsWith_described (fun raw _ => notPunctuator_string raw)
      (fun _ => notPunctuator_name name) _,
      fun budget budgeted => .described fun p => .description (plain_of_printable printable rfl) ?_⟩
    simp only [List.length_append, List.length_cons] at budgeted
    refine .name (.map (dirsReads budget (by omega)) fun ds hds => ?_)
    rw [hds]
    rfl

theorem block_readsBack {fits : Nat → β → Prop} {print : β → String} {item : Nat → Parser α}
    {make : α → β} {stops : List Punctuator} {values : List β} (h : Bracketed fits k values)
    (each : ∀ j, ∀ v ∈ values, fits j v → ReadsBack j (print v) item (v = make ·) NotPunctuator stops)
    (last : .braceRight ∉ stops) :
    PartReadsBack k (blockOf (values.map print))
      (fun budget => optionalEnclosed .braceLeft .braceRight (item budget) budget)
      (values = List.map make ·) .braceLeft [.braceLeft] :=
  (PartReadsBack.items blockOf h each (notPunctuator_apart _) last rfl Prints.block).mapped

end Ast

end GraphQL
