import GraphQL.Proofs.Source.DirectiveText

/-!
The texts of selections and selection sets read back.
-/
namespace GraphQL

open Ast
open GraphQL.Parser

variable {k : Nat}

namespace Ast

def SelectionSet.TextReadsBack (k : Nat) (set : SelectionSet) : Prop :=
  ReadsBack k set.print (selectionSet none) (set = ·) (· = .punctuator .braceLeft) []

/-- What may not follow a selection: it would be read as a part of it. -/
def selectionStops : List Punctuator := [.colon, .parenLeft, .at, .braceLeft]

def Selection.TextReadsBack (k : Nat) (selection : Selection) : Prop :=
  ReadsBack k selection.print
    (fun budget => Parser.selection none (selectionSet none budget) budget) (selection = ·)
    (fun t => IsWord t ∨ t = .punctuator .spread) selectionStops

theorem optionalSet_readsBack {set : Option SelectionSet}
    (h : ∀ s ∈ set, SelectionSet.TextReadsBack k s) :
    PartReadsBack k (printSelectionSet set)
      (fun budget => do
        if ← nextIs .braceLeft then return some (← selectionSet none budget) else return none)
      (set = ·) .braceLeft [.braceLeft] := by
  cases set with
  | none =>
    exact ⟨[], .empty, .nil _, fun budget _ => .ifNotNext (fun _ notNext => notNext) (.pure rfl)⟩
  | some s =>
    obtain ⟨ts, prints, ⟨_, head, rfl⟩, reads⟩ := h s rfl
    obtain ⟨ts, rfl⟩ := List.head?_eq_some_iff.mp head
    exact ⟨_, prints, .cons _ _, fun budget budgeted => .ifNext
      (.map ((reads budget budgeted).stops_mono (by simp)) fun x hx => congrArg some hx)⟩

/-- The name of a field, after its alias if it has one. The parser takes the first of the two for
the name until it sees a second. -/
theorem fieldName_readsBack {aliasName : Option String} {name : String}
    (ha : ∀ text ∈ aliasName, isName text = true) (hn : isName name = true) :
    ∃ first second ts,
      Prints k (wrap "" (((aliasName.map fun text => (⟨text, none⟩ : Name)).map Name.value).getD "")
        ": " ++ name) (.name first :: ts) ∧
      Reads (do if ← nextIs .colon then advance; return some (← Parser.name) else return none) ts
        (second = ·) [.colon] ∧
      (second.map fun _ => (⟨first, none⟩ : Name)) = aliasName.map (⟨·, none⟩) ∧
      second.getD first = name := by
  cases aliasName with
  | none =>
    refine ⟨name, none, [], .token (.name hn) rfl, ?_, rfl, rfl⟩
    exact .ifNotNext (fun _ notNext => notNext) (.pure rfl)
  | some text =>
    have prints := (Prints.token (k := k) (.name hn) rfl).labelled (ha text rfl)
    refine ⟨text, Option.some name, [.punctuator .colon, .name name], ?_, ?_, rfl, rfl⟩
    · change Prints k (wrap "" text ": " ++ name) _
      rwa [wrap, if_neg (ne_empty_of_isName (ha text rfl)), String.empty_append]
    · exact .ifNext (.advance (.name (.pure rfl)))

theorem field_readsBack {aliasName : Option String} {name : String} {arguments : List Argument}
    {directives : List Directive} {set : Option SelectionSet}
    (ha : ∀ text ∈ aliasName, isName text = true) (hn : isName name = true)
    (hargs : ArgumentsReadBack k arguments) (hdirs : DirectivesReadBack k directives)
    (hset : ∀ s ∈ set, SelectionSet.TextReadsBack k s) :
    Selection.TextReadsBack k (.field ⟨aliasName.map (⟨·, none⟩), ⟨name, none⟩, arguments,
      directives, set, none⟩) := by
  obtain ⟨first, second, nts, namePrints, nameReads, nameFound, aliased⟩ :=
    fieldName_readsBack (k := k) ha hn
  obtain ⟨ats, argsPrints, argsOpens, argsReads⟩ := hargs
  obtain ⟨dts, dirsPrints, dirsOpens, dirsReads⟩ := hdirs
  obtain ⟨sts, setPrints, setOpens, setReads⟩ := optionalSet_readsBack hset
  have head := namePrints.append (stops_wrap rfl rfl _ _) argsPrints
  have text := Prints.joinParts " " (by simp [IsBlank]) (by decide)
    (.cons head (.cons dirsPrints (.cons setPrints .nil)))
  rw [List.flatten_cons, List.flatten_cons, List.flatten_cons, List.flatten_nil, List.append_nil,
    List.append_assoc] at text
  refine ⟨_, text, ⟨_, rfl, .inl ⟨first, rfl⟩⟩, fun budget budgeted => ?_⟩
  simp only [List.cons_append, List.length_cons, List.length_append] at budgeted
  refine .ifNotNext (fun us _ => .cons (by simp) _) (.position fun p => .name ?_)
  have field : Reads (Parser.field none (selectionSet none budget) budget p first)
      (nts ++ (ats ++ (dts ++ sts)))
      ((⟨aliasName.map (⟨·, none⟩), ⟨name, none⟩, arguments, directives, set, none⟩ : Field) = ·)
      selectionStops := by
    refine .bind nameReads (fun x hx => ?_) fun us notNext => ?_
    · refine .bind (argsReads budget (by omega)) (fun y hy => ?_) fun us notNext => ?_
      · refine .bind (dirsReads budget (by omega)) (fun z hz => ?_) fun us notNext => ?_
        · refine .map ((setReads budget (by omega)).stops_mono (by simp [selectionStops]))
            fun w hw => ?_
          rw [← hx, ← hw, nameFound, aliased, ← hy, ← hz]
          rfl
        · exact setOpens.notNext (by simp) (notNext.mono (by simp [selectionStops]))
      · rw [List.append_assoc]
        exact dirsOpens.notNext (by simp)
          (setOpens.notNext (by simp) (notNext.mono (by simp [selectionStops])))
    · rw [List.append_assoc, List.append_assoc]
      exact argsOpens.notNext (by simp) (dirsOpens.notNext (by simp)
        (setOpens.notNext (by simp) (notNext.mono (by simp [selectionStops]))))
  refine .map field ?_
  rintro _ rfl
  rfl

theorem spread_readsBack {name : String} {directives : List Directive}
    (hn : isName name = true) (on : name ≠ "on")
    (hdirs : DirectivesReadBack k directives) :
    Selection.TextReadsBack k (.spread ⟨⟨name, none⟩, directives, none⟩) := by
  obtain ⟨dts, dirsPrints, dirsOpens, dirsReads⟩ := hdirs
  have named := (Prints.token (k := k) (.name hn) rfl).append (stops_wrap rfl rfl _ _)
    (dirsPrints.wrap_blank " " (by simp [IsBlank]))
  have text := named.punctuator .spread "..." rfl rfl
  rw [← String.append_assoc] at text
  refine ⟨_, text, ⟨_, rfl, .inr rfl⟩, fun budget budgeted => ?_⟩
  simp only [List.singleton_append, List.length_cons] at budgeted
  refine .ifNext (.advance (.position fun p => .peek (.advance ?_)))
  dsimp only
  rw [if_neg on]
  refine .map ((dirsReads budget (by omega)).stops_mono (by simp [selectionStops])) ?_
  rintro _ rfl
  rfl

theorem inlineFragment_readsBack {condition : Option String} {directives : List Directive}
    {set : SelectionSet} (hc : ∀ text ∈ condition, isName text = true)
    (hdirs : DirectivesReadBack k directives)
    (hset : SelectionSet.TextReadsBack k set) :
    Selection.TextReadsBack k (.inlineFragment ⟨condition.map (⟨⟨·, none⟩, none⟩), directives, set,
      none⟩) := by
  obtain ⟨dts, dirsPrints, dirsOpens, dirsReads⟩ := hdirs
  obtain ⟨sts, setPrints, setStarts, setReads⟩ := hset
  have rest (budget : Nat) (p : Position) (type : Option NamedType) (hd : dts.length ≤ budget)
      (hs : sts.length ≤ budget) :
      Reads (inlineFragment none (selectionSet none budget) budget p type) (dts ++ sts)
        ((⟨type, directives, set, none⟩ : InlineFragment) = ·) selectionStops := by
    refine .bind (dirsReads budget hd) (fun z hz => ?_) fun us _ => ?_
    · refine .map ((setReads budget hs).stops_mono (by simp)) fun w hw => ?_
      rw [← hz, ← hw]
      rfl
    · exact setStarts.notNext (by rintro _ rfl; simp) us
  have spread : Prints k "..." [.punctuator .spread] :=
    Prints.empty.punctuator .spread "..." rfl rfl
  cases condition with
  | none =>
    have text := Prints.joinParts " " (by simp [IsBlank]) (by decide)
      (.cons spread (.cons .empty (.cons dirsPrints (.cons setPrints .nil))))
    simp only [List.flatten_cons, List.flatten_nil, List.append_nil, List.nil_append] at text
    refine ⟨_, text, ⟨_, rfl, .inr rfl⟩, fun budget budgeted => ?_⟩
    simp only [List.length_cons, List.length_append, List.length_nil] at budgeted
    refine .ifNext (.advance ?_)
    obtain ⟨q, ts, next⟩ := dirsOpens.exists_cons setStarts.exists_cons
    have read (p : Position) := rest budget p none (by omega) (by omega)
    change Reads _ (dts ++ sts) _ _
    simp only [next] at read ⊢
    refine .position fun p => .peek (.map (read p) ?_)
    rintro _ rfl
    rfl
  | some type =>
    have on : wrap "on " type "" = "on" ++ (" " ++ type) := by
      have split : "on " = "on" ++ " " := rfl
      rw [wrap, if_neg (ne_empty_of_isName (hc type rfl)), split, String.append_empty,
        String.append_assoc]
    have condition : Prints k (wrap "on " type "") [.name "on", .name type] := by
      rw [on]
      exact .word (by decide) (.token (.name (hc type rfl)) rfl)
    have text := Prints.joinParts " " (by simp [IsBlank]) (by decide)
      (.cons spread (.cons condition (.cons dirsPrints (.cons setPrints .nil))))
    simp only [List.flatten_cons, List.flatten_nil, List.append_nil] at text
    refine ⟨_, text, ⟨_, rfl, .inr rfl⟩, fun budget budgeted => ?_⟩
    simp only [List.length_cons, List.length_append, List.length_nil] at budgeted
    refine .ifNext (.advance (.position fun p => .peek (.advance ?_)))
    dsimp only
    rw [if_pos rfl]
    refine .name (.map (rest budget p (Option.some ⟨⟨type, none⟩, none⟩) (by omega) (by omega)) ?_)
    rintro _ rfl
    rfl

theorem Selection.Fits.readsBack {selection : Selection}
    (fits : Selection.Fits (SelectionSet.Fits k) k selection)
    (printable : (Node.selection selection).Printable)
    (sets : ∀ set : SelectionSet, set.Fits k → (Node.selectionSet set).Printable →
      SelectionSet.TextReadsBack k set) :
    Selection.TextReadsBack k selection := by
  cases fits with
  | field ha hn hargs hdirs hset =>
    refine field_readsBack ha hn (arguments_readBack hargs fun a h => ?_)
      (directives_readBack hdirs fun d h => ?_) fun set h => sets set (hset set h) ?_
    · exact printable.part 2 rfl (List.mem_map_of_mem h)
    · exact printable.part 3 rfl (List.mem_map_of_mem h)
    · exact printable.part 4 rfl (List.mem_map_of_mem (Option.mem_toList.mpr h))
  | spread hn on hdirs =>
    exact spread_readsBack hn on (directives_readBack hdirs fun d h =>
      printable.part 1 rfl (List.mem_map_of_mem h))
  | inlineFragment hc hdirs hset =>
    refine inlineFragment_readsBack hc (directives_readBack hdirs fun d h => ?_) (sets _ hset ?_)
    · exact printable.part 1 rfl (List.mem_map_of_mem h)
    · exact printable.part 2 rfl List.mem_cons_self

theorem printSelections_eq (selections : List Selection) :
    printSelections selections = selections.map Selection.print := by
  induction selections with
  | nil => rfl
  | cons s rest ih => rw [printSelections, ih, List.map_cons]

theorem SelectionSet.readsBack {set : SelectionSet} (fits : set.Fits k)
    (printable : (Node.selectionSet set).Printable) : SelectionSet.TextReadsBack k set := by
  induction k generalizing set with
  | zero => cases fits
  | succ k ih =>
    obtain ⟨selections, loc⟩ := set
    obtain ⟨rfl, some, fits⟩ := fits
    obtain ⟨tss, prints, count, reads⟩ := ReadsBack.each fun s hs =>
      (fits s hs).readsBack (printable.part 0 rfl (List.mem_map_of_mem hs)) fun set fits => ih fits
    have text := Prints.block (flatten_ne_nil count some) prints
    rw [← printSelections_eq] at text
    refine ⟨_, text, ⟨_, rfl, rfl⟩, fun budget budgeted => ?_⟩
    obtain ⟨budget, rfl⟩ : ∃ b, budget = b + 1 := ⟨budget - 1, by simp at budgeted; omega⟩
    simp only [List.length_cons, List.length_append, List.length_nil] at budgeted
    refine .position fun p => .map (.enclosed (reads budget (by omega)) ?_ ?_ some (by omega)) ?_
    · rintro _ (⟨_, rfl⟩ | rfl) p hp
      · simp
      · rintro ⟨⟩
        revert hp
        decide
    · decide
    · intro r hr
      rw [List.forall₂_eq_eq_eq] at hr
      exact congrArg (SelectionSet.mk · none) hr

end Ast

end GraphQL
