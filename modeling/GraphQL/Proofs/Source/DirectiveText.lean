import GraphQL.Proofs.Source.LiteralText
import GraphQL.Source.Executable

/-!
The texts of arguments, directives, types and variable definitions read back.
-/
namespace GraphQL

open Ast
open GraphQL.Parser

variable {k : Nat}

/-- The text of an optional part: that of no tokens, or of tokens that start with a punctuator. -/
def PartReadsBack {α : Type} (k : Nat) (text : String) (parser : Nat → Parser α)
    (result : α → Prop) (opening : Punctuator) (stops : List Punctuator) : Prop :=
  ∃ ts, Prints k text ts ∧ Opens opening ts ∧
    ∀ budget, ts.length ≤ budget → Reads (parser budget) ts result stops

/-- Items between punctuators, or nothing if there are none, however they are laid out. -/
theorem PartReadsBack.items {α β : Type} {fits : Nat → β → Prop} {print : β → String}
    {item : Nat → Parser α} {results : β → α → Prop} {heads : Token → Prop}
    {stops : List Punctuator} {opening closing : Punctuator} {values : List β}
    (layout : List String → String) (h : Bracketed fits k values)
    (each : ∀ j, ∀ v ∈ values, fits j v → ReadsBack j (print v) item (results v) heads stops)
    (apart : Apart heads (closing :: stops)) (last : closing ∉ stops) (empty : layout [] = "")
    (laid : ∀ {j : Nat} {items : List String} {tss : List (List Token)}, tss.flatten ≠ [] →
      List.Forall₂ (Prints j) items tss → Prints (j + 1) (layout items)
        (.punctuator opening :: (tss.flatten ++ [.punctuator closing]))) :
    PartReadsBack k (layout (values.map print))
      (fun budget => optionalEnclosed opening closing (item budget) budget)
      (List.Forall₂ results values) opening [opening] := by
  by_cases none : values = []
  · subst none
    exact ⟨[], empty ▸ .empty, .nil _,
      fun budget _ => .ifNotNext (fun _ notNext => notNext) (.pure .nil)⟩
  cases k with
  | zero => exact absurd h none
  | succ k =>
    obtain ⟨tss, prints, count, reads⟩ := ReadsBack.each fun v hv => each k v hv (h v hv)
    refine ⟨_, laid (flatten_ne_nil count none) prints, .cons _ _, fun budget budgeted => ?_⟩
    simp only [List.length_cons, List.length_append, List.length_nil] at budgeted
    exact .ifNext (.map (.enclosed (reads budget (by omega)) apart last none (by omega))
      fun r hr => hr)

theorem PartReadsBack.mapped {α β : Type} {text : String} {parser : Nat → Parser (List α)}
    {make : α → β} {values : List β} {opening : Punctuator} {stops : List Punctuator}
    (h : PartReadsBack k text parser (List.Forall₂ (fun v x => v = make x) values) opening stops) :
    PartReadsBack k text parser (values = List.map make ·) opening stops := by
  obtain ⟨ts, prints, opens, reads⟩ := h
  refine ⟨ts, prints, opens, fun budget budgeted => (reads budget budgeted).mono fun xs hxs => ?_⟩
  rwa [← List.forall₂_map_right_iff, List.forall₂_eq_eq_eq] at hxs

theorem PartReadsBack.bracketed {α β : Type} {fits : Nat → β → Prop} {print : β → String}
    {item : Nat → Parser α} {results : β → α → Prop} {heads : Token → Prop}
    {stops : List Punctuator} {values : List β} (h : Bracketed fits k values)
    (each : ∀ j, ∀ v ∈ values, fits j v → ReadsBack j (print v) item (results v) heads stops)
    (apart : Apart heads (.parenRight :: stops)) (last : .parenRight ∉ stops) :
    PartReadsBack k (wrap "(" (joinParts ", " (values.map print)) ")")
      (fun budget => optionalEnclosed .parenLeft .parenRight (item budget) budget)
      (List.Forall₂ results values) .parenLeft [.parenLeft] := by
  refine .items (fun items => wrap "(" (joinParts ", " items) ")") h each apart last rfl
    fun some prints => ?_
  exact (Prints.joinParts _ (by simp [IsBlank]) (by decide) prints).wrap .parenLeft .parenRight rfl
    rfl rfl rfl (.cons rfl _) some

namespace Ast

def Argument.ofNamed (a : String × Literal) : Argument := ⟨⟨a.1, none⟩, .ofLiteral a.2, none⟩

theorem Argument.Fits.readsBack {a : Argument} (fits : a.Fits k)
    (printable : (Node.argument a).Printable) :
    ReadsBack k a.print (argument false) (a = .ofNamed ·) IsWord [] := by
  obtain ⟨hn, hl⟩ := fits
  have value := Literal.readsBack hl (printable.part 1 rfl List.mem_cons_self)
  refine (Literal.named_readsBack hn value).mono ?_
  rintro _ rfl
  rfl

def ArgumentsReadBack (k : Nat) (as : List Argument) : Prop :=
  PartReadsBack k (printArguments as) (arguments false) (as = argumentsOf ·) .parenLeft
    [.parenLeft]

def DirectivesReadBack (k : Nat) (ds : List Directive) : Prop :=
  PartReadsBack k (printDirectives ds) directives (ds = List.map (.located none) ·) .at
    [.at, .parenLeft]

theorem arguments_readBack {as : List Argument} (fits : Bracketed Argument.Fits k as)
    (printable : ∀ a ∈ as, (Node.argument a).Printable) : ArgumentsReadBack k as := by
  exact (PartReadsBack.bracketed fits (fun j a ha fits => fits.readsBack (printable a ha))
    (by rintro _ ⟨_, rfl⟩; simp) (by simp)).mapped

theorem Directive.Fits.readsBack {d : Directive} (fits : d.Fits k)
    (printable : (Node.directive d).Printable) :
    ReadsBack k d.print directive (d = .located none ·) (· = .punctuator .at) [.parenLeft] := by
  obtain ⟨hn, ha⟩ := fits
  obtain ⟨ts, prints, -, reads⟩ := arguments_readBack ha fun a ha =>
    printable.part 1 rfl (List.mem_map_of_mem ha)
  have text := ((Prints.token (.name hn) rfl).append (stops_wrap rfl rfl _ _) prints).punctuator
    .at "@" rfl rfl
  rw [← String.append_assoc] at text
  refine ⟨_, text, ⟨_, rfl, rfl⟩, fun budget budgeted => ?_⟩
  simp only [List.singleton_append, List.length_cons] at budgeted
  refine .position fun p => .punctuator (.name (.map (reads budget (by omega)) ?_))
  rintro xs rfl
  rfl

theorem directives_readBack {ds : List Directive} (fits : ∀ d ∈ ds, Directive.Fits k d)
    (printable : ∀ d ∈ ds, (Node.directive d).Printable) : DirectivesReadBack k ds := by
  obtain ⟨tss, prints, count, reads⟩ := ReadsBack.each fun d hd =>
    (fits d hd).readsBack (printable d hd)
  refine ⟨tss.flatten, .joinParts _ (by simp [IsBlank]) (by decide) prints,
    (reads _ (Nat.le_refl _)).opens, fun budget budgeted => ?_⟩
  refine (Reads.itemsWhile (reads budget budgeted) (by simp) (by omega)).mono fun xs hxs => ?_
  rw [← List.forall₂_map_right_iff, List.forall₂_eq_eq_eq] at hxs
  exact hxs

end Ast

namespace TypeRef

/-- The text of a type reads back, but for the mark of non-null types. -/
def CoreReadsBack (k : Nat) (type : TypeRef) : Prop :=
  ∃ ts, Prints k (TypeNode.ofTypeRef type).print ts ∧ ts ≠ [] ∧
    ∀ budget, ts.length ≤ budget + 1 → Reads (typeCore (typeRef budget)) ts (type = ·) []

theorem core_named {name : String} (h : isName name = true) : CoreReadsBack k (.named name) := by
  refine ⟨[.name name], .token (.name h) rfl, by simp, fun budget _ => ?_⟩
  exact .ifNotNext (fun us _ => .cons (by simp) us) (.name (.pure rfl))

theorem core_list {item : TypeRef} {heads : Token → Prop}
    (h : ReadsBack k (TypeNode.ofTypeRef item).print typeRef (item = ·) heads [.bang]) :
    CoreReadsBack (k + 1) (.list item) := by
  obtain ⟨ts, prints, -, reads⟩ := h
  refine ⟨_, prints.enclosed .bracketLeft .bracketRight rfl rfl rfl rfl (.cons rfl _), by simp,
    fun budget budgeted => ?_⟩
  simp only [List.length_cons, List.length_append, List.length_nil] at budgeted
  refine .ifNext (.advance (.bind (reads budget (by omega)) ?_ fun us _ => .cons (by simp) _))
  rintro _ rfl
  exact .punctuator (.pure rfl)

theorem reads_nullable {type : TypeRef} {budget : Nat} {ts : List Token}
    (h : Reads (typeCore (typeRef budget)) ts (type = ·) []) :
    Reads (typeRef (budget + 1)) ts (type = ·) [.bang] := by
  rw [typeRef_succ, ← List.append_nil ts]
  refine .andThen h ?_
  rintro _ rfl
  exact .ifNotNext (fun us notNext => notNext) (.pure rfl)

theorem reads_nonNull {type : TypeRef} {budget : Nat} {ts : List Token}
    (h : Reads (typeCore (typeRef budget)) ts (type = ·) []) :
    Reads (typeRef (budget + 1)) (ts ++ [.punctuator .bang]) (.nonNull type = ·) [.bang] := by
  rw [typeRef_succ]
  refine .andThen h ?_
  rintro _ rfl
  exact .ifNext (.advance (.pure rfl))

theorem CoreReadsBack.nullable {type : TypeRef} (h : CoreReadsBack k type) :
    ReadsBack k (TypeNode.ofTypeRef type).print typeRef (type = ·) (fun _ => True) [.bang] := by
  obtain ⟨ts, prints, some, reads⟩ := h
  obtain ⟨t, ts, rfl⟩ := List.exists_cons_of_ne_nil some
  refine ⟨_, prints, ⟨t, rfl, trivial⟩, fun budget budgeted => ?_⟩
  obtain ⟨budget, rfl⟩ : ∃ b, budget = b + 1 := ⟨budget - 1, by simp at budgeted; omega⟩
  exact reads_nullable (reads budget budgeted)

theorem CoreReadsBack.nonNull {type : TypeRef} (h : CoreReadsBack k type) :
    ReadsBack k (TypeNode.ofTypeRef (.nonNull type)).print typeRef (.nonNull type = ·)
      (fun _ => True) [.bang] := by
  obtain ⟨ts, prints, some, reads⟩ := h
  obtain ⟨t, ts, rfl⟩ := List.exists_cons_of_ne_nil some
  have bang : Prints k "!" [.punctuator .bang] :=
    Prints.empty.punctuator .bang "!" rfl rfl
  refine ⟨_, prints.append (.cons rfl []) bang, ⟨t, rfl, trivial⟩, fun budget budgeted => ?_⟩
  simp only [List.length_append, List.length_cons, List.length_nil] at budgeted
  obtain ⟨budget, rfl⟩ : ∃ b, budget = b + 1 := ⟨budget - 1, by omega⟩
  exact reads_nonNull (reads budget (by simp only [List.length_cons]; omega))

theorem readsBack : ∀ (type : TypeRef) {k : Nat}, type.Fits k →
    ReadsBack k (TypeNode.ofTypeRef type).print typeRef (type = ·) (fun _ => True) [.bang]
  | .named _, 0, fits | .named _, _ + 1, fits => (core_named fits).nullable
  | .list item, _ + 1, fits => (core_list (readsBack item fits)).nullable
  | .nonNull (.named _), 0, fits | .nonNull (.named _), _ + 1, fits => (core_named fits.2).nonNull
  | .nonNull (.list item), _ + 1, fits => (core_list (readsBack item fits.2)).nonNull

end TypeRef

theorem default_readsBack {default : Option Literal} {before mark : String}
    (blank : ∀ b ∈ before.toList, IsBlank b) (hm : mark = before ++ "= ")
    (fits : ∀ literal ∈ default, literal.Fits true k)
    (printable : ∀ literal ∈ default, (Node.value (.ofLiteral literal)).Printable) :
    PartReadsBack k (wrap mark (printDefault (default.map .ofLiteral)) "") Parser.default
      (default = ·) .equals [.equals] := by
  cases default with
  | none =>
    exact ⟨[], .empty, .nil _, fun budget _ => .ifNotNext (fun _ notNext => notNext) (.pure rfl)⟩
  | some literal =>
    obtain ⟨ts, prints, starts, reads⟩ :=
      Literal.readsBack (fits literal rfl) (printable literal rfl)
    have space : ∀ b ∈ " ".toList, IsBlank b := by simp [IsBlank]
    have text := ((prints.blanks space).punctuator .equals "=" rfl rfl).blanks blank
    have split : wrap mark (Value.ofLiteral literal).print "" =
        before ++ ("=" ++ (" " ++ (Value.ofLiteral literal).print)) := by
      have equals : "= " = "=" ++ " " := rfl
      rw [wrap, if_neg (prints.ne_empty starts.ne_nil), hm, equals]
      simp only [String.append_assoc, String.append_empty]
    change PartReadsBack k (wrap mark (Value.ofLiteral literal).print "") _ _ _ _
    rw [split]
    refine ⟨_, text, .cons _ _, fun budget budgeted => .ifNext (.advance ?_)⟩
    refine .map ((reads budget ?_).stops_mono (by simp)) fun x hx => congrArg some hx
    simp only [List.length_cons] at budgeted
    omega

theorem Ast.VariableDefinition.Fits.readsBack {d : VariableDefinition} (fits : d.Fits k)
    (printable : (Node.variableDefinition d).Printable) :
    ReadsBack k d.print (variableDefinition none) (d = ·) (· = .punctuator .dollar)
      [.bang, .equals] := by
  cases fits with
  | @intro name type default hn ht hd =>
    obtain ⟨tts, typePrints, -, typeReads⟩ := TypeRef.readsBack type ht
    have blank : ∀ b ∈ " ".toList, IsBlank b := by simp [IsBlank]
    have mark : " = " = " " ++ "= " := rfl
    obtain ⟨dts, defaultPrints, defaultOpens, defaultReads⟩ := default_readsBack blank mark hd
      fun literal hl => printable.part 2 rfl (by simpa using ⟨literal, hl, rfl⟩)
    have text := ((typePrints.append (stops_wrap rfl rfl _ _) defaultPrints).labelled
      hn).punctuator .dollar "$" rfl rfl
    have regroup : VariableDefinition.print ⟨⟨⟨name, none⟩, none⟩, .ofTypeRef type,
        default.map .ofLiteral, [], none⟩ =
        "$" ++ (name ++ ": " ++ ((TypeNode.ofTypeRef type).print ++
          wrap " = " (printDefault (default.map .ofLiteral)) "")) := by
      have noDirectives : wrap " " (printDirectives []) "" = "" := rfl
      simp only [VariableDefinition.print, Variable.print, noDirectives, String.append_assoc,
        String.append_empty]
    rw [← regroup] at text
    refine ⟨_, text, ⟨_, rfl, rfl⟩, fun budget budgeted => ?_⟩
    simp only [List.length_cons, List.length_append] at budgeted
    refine .position fun p => .punctuator (.name (.punctuator ?_))
    refine .bind (typeReads budget (by omega)) (fun t ht => ?_) fun us notNext => ?_
    · refine .map ((defaultReads budget (by omega)).stops_mono (by simp)) fun x hx => ?_
      rw [← ht, ← hx]
      rfl
    · exact defaultOpens.notNext (by simp) (notNext.mono (by simp))

end GraphQL
