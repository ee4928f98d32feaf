import GraphQL.Proofs.Number.IntegerText
import GraphQL.Proofs.Source.Layout
import GraphQL.Proofs.Source.Printable
import GraphQL.Proofs.Source.Reading
import GraphQL.Proofs.Source.TokenText
import GraphQL.Proofs.Source.WellFormed

/-!
The texts of literals read back, where the budget of the parser has one for each token.
-/
namespace GraphQL

open Ast
open GraphQL.Parser

variable {α β : Type}

/-- The text is that of tokens, with such a first one, on which the parser gives such a result if
its budget has one for each of them. -/
def ReadsBack (k : Nat) (text : String) (parser : Nat → Parser α) (result : α → Prop)
    (heads : Token → Prop) (stops : List Punctuator) : Prop :=
  ∃ ts, Prints k text ts ∧ StartsWith heads ts ∧
    ∀ budget, ts.length ≤ budget → Reads (parser budget) ts result stops

def IsWord (t : Token) : Prop := ∃ text, t = .name text

section Combinators

variable {k : Nat} {parser : Nat → Parser α} {heads : Token → Prop} {stops : List Punctuator}

/-- Texts that stand for tokens, in whatever sense, and are read one by one. -/
theorem Each.of_texts {R : String → List Token → Prop} {print : β → String}
    {results : β → α → Prop} {values : List β}
    (h : ∀ v ∈ values, ∃ ts, R (print v) ts ∧ StartsWith heads ts ∧
      ∀ budget, ts.length ≤ budget → Reads (parser budget) ts (results v) stops) :
    ∃ tss, List.Forall₂ R (values.map print) tss ∧ values.length ≤ tss.flatten.length ∧
      ∀ budget, tss.flatten.length ≤ budget →
        Each (parser budget) results heads stops values tss := by
  induction values with
  | nil => exact ⟨[], .nil, Nat.le_refl _, fun _ _ => .nil⟩
  | cons v values ih =>
    obtain ⟨⟨ts, text, starts, reads⟩, h⟩ := List.forall_mem_cons.mp h
    obtain ⟨tss, texts, count, reads'⟩ := ih h
    have length := List.length_pos_iff.mpr starts.ne_nil
    refine ⟨ts :: tss, .cons text texts, ?_, fun budget budgeted => ?_⟩
    · rw [List.length_cons, List.flatten_cons, List.length_append]
      omega
    · rw [List.flatten_cons, List.length_append] at budgeted
      exact .cons ⟨starts, reads budget (by omega)⟩ (reads' budget (by omega))

theorem ReadsBack.each {print : β → String} {results : β → α → Prop} {values : List β}
    (h : ∀ v ∈ values, ReadsBack k (print v) parser (results v) heads stops) :
    ∃ tss, List.Forall₂ (Prints k) (values.map print) tss ∧ values.length ≤ tss.flatten.length ∧
      ∀ budget, tss.flatten.length ≤ budget →
        Each (parser budget) results heads stops values tss :=
  Each.of_texts h

theorem flatten_ne_nil {values : List β} {tss : List (List Token)}
    (count : values.length ≤ tss.flatten.length) (some : values ≠ []) : tss.flatten ≠ [] :=
  List.ne_nil_of_length_pos (Nat.lt_of_lt_of_le (List.length_pos_iff.mpr some) count)

theorem ReadsBack.token {t : Token} {text : String} {result : α → Prop}
    (ht : HasText t text.toList) (level : nestingAfter? k t = some k) (head : heads t)
    (reads : ∀ budget, Reads (parser (budget + 1)) [t] result stops) :
    ReadsBack k text parser result heads stops := by
  refine ⟨[t], .token ht level, ⟨t, rfl, head⟩, fun budget budgeted => ?_⟩
  obtain ⟨budget, rfl⟩ : ∃ b, budget = b + 1 := ⟨budget - 1, by simp at budgeted; omega⟩
  exact reads budget

theorem ReadsBack.mono {text : String} {result weaker : α → Prop}
    (h : ReadsBack k text parser result heads stops) (imp : ∀ x, result x → weaker x) :
    ReadsBack k text parser weaker heads stops := by
  obtain ⟨ts, prints, starts, reads⟩ := h
  exact ⟨ts, prints, starts, fun budget budgeted => (reads budget budgeted).mono imp⟩

end Combinators

theorem Prints.word {k : Nat} {name text : String} {ts : List Token} (hn : isName name = true)
    (h : Prints k text ts) : Prints k (name ++ (" " ++ text)) (.name name :: ts) :=
  (Prints.token (.name hn) rfl).append (.text rfl rfl _) (h.blanks (by simp [IsBlank]))

theorem Prints.labelled {k : Nat} {name text : String} {ts : List Token}
    (hn : isName name = true) (h : Prints k text ts) :
    Prints k (name ++ ": " ++ text) (.name name :: .punctuator .colon :: ts) := by
  have blank : ∀ b ∈ " ".toList, IsBlank b := by simp [IsBlank]
  have colon := (h.blanks blank).punctuator .colon ":" rfl rfl
  have split : ": " = ":" ++ " " := rfl
  have all := (Prints.token (k := k) (.name hn) rfl).append (.text rfl rfl _) colon
  rw [split, String.append_assoc, String.append_assoc]
  exact all

namespace Literal

theorem insertField_last {name : String} {value : Literal} {fields : List (String × Literal)}
    (h : ∀ field ∈ fields, field.1 < name) :
    insertField name value fields = fields ++ [(name, value)] := by
  induction fields with
  | nil => rfl
  | cons field fields ih =>
    obtain ⟨hf, h⟩ := List.forall_mem_cons.mp h
    rw [insertField, if_neg (String.lt_asymm hf), if_neg (String.ne_of_lt hf).symm, ih h,
      List.cons_append]

/-- Fields in name order stay as they are. -/
theorem ofFields_of_sorted {fields : List (String × Literal)} (h : fields.Pairwise (·.1 < ·.1)) :
    ofFields fields = object fields := by
  have built (done : List (String × Literal)) (all : (done ++ fields).Pairwise (·.1 < ·.1)) :
      fields.foldl (fun sorted field => insertField field.1 field.2 sorted) done =
        done ++ fields := by
    clear h
    induction fields generalizing done with
    | nil => simp
    | cons field fields ih =>
      have last : ∀ f ∈ done, f.1 < field.1 :=
        fun f hf => (List.pairwise_append.mp all).2.2 f hf field List.mem_cons_self
      rw [List.append_cons] at all ⊢
      rw [← ih _ all, List.foldl_cons, ← insertField_last last]
  exact congrArg object (built [] h)

end Literal

namespace Parser.ReadsBefore

theorem quoted {ts : List Token} {text : String} {f : String → Parser β} {final : β → Prop}
    {follow : List Token → Prop}
    (next : ReadsBefore (f (String.ofList (text.toList.map readChar))) ts final follow) :
    ReadsBefore (string >>= f) (.string (text.toList.flatMap escapeChar) :: ts) final follow := by
  refine .peek_bind ?_
  dsimp only
  rw [unescape?_flatMap]
  exact .advance_bind next

theorem string {ts : List Token} {text : String} (h : '\x08' ∉ text.toList)
    {f : String → Parser β} {final : β → Prop} {follow : List Token → Prop}
    (next : ReadsBefore (f text) ts final follow) :
    ReadsBefore (string >>= f) (.string (text.toList.flatMap escapeChar) :: ts) final follow := by
  refine quoted ?_
  rw [map_readChar_eq_iff.mpr h, String.ofList_toList]
  exact next

end Parser.ReadsBefore

namespace Ast

theorem printValues_eq (values : List Value) : printValues values = values.map Value.print := by
  induction values with
  | nil => rfl
  | cons v values ih => rw [printValues, ih, List.map_cons]

theorem printObjectFields_eq (fields : List ObjectField) :
    printObjectFields fields = fields.map ObjectField.print := by
  induction fields with
  | nil => rfl
  | cons f fields ih => rw [printObjectFields, ih, List.map_cons]

theorem valuesOfLiterals_eq (items : List Literal) :
    valuesOfLiterals items = items.map .ofLiteral := by
  induction items with
  | nil => rfl
  | cons item items ih => rw [valuesOfLiterals, ih, List.map_cons]

theorem fieldsOfLiterals_eq (fields : List (String × Literal)) :
    fieldsOfLiterals fields =
      fields.map fun field => ⟨⟨field.1, none⟩, .ofLiteral field.2, none⟩ := by
  induction fields with
  | nil => rfl
  | cons field fields ih => rw [fieldsOfLiterals, ih, List.map_cons]

end Ast

namespace Literal

variable {constant : Bool} {k : Nat}

def TextReadsBack (constant : Bool) (k : Nat) (literal : Literal) : Prop :=
  ReadsBack k (Value.ofLiteral literal).print (Parser.value constant) (literal = ·)
    (· ≠ .punctuator .bracketRight) []

theorem variable_readsBack {name : String} (h : isName name = true) :
    TextReadsBack false k (.variable name) := by
  refine ⟨[.punctuator .dollar, .name name], ?_, ⟨_, rfl, by simp⟩, fun budget budgeted => ?_⟩
  · exact (Prints.token (.name h) rfl).punctuator _ _ rfl rfl
  · obtain ⟨budget, rfl⟩ : ∃ b, budget = b + 1 := ⟨budget - 1, by simp at budgeted; omega⟩
    exact .peek (.advance (.name (.pure rfl)))

theorem word_readsBack {literal : Literal} {text : String} (h : isName text = true)
    (print : (Value.ofLiteral literal).print = text)
    (value : literal = if text = "true" then .boolean true
      else if text = "false" then .boolean false
      else if text = "null" then .null
      else .enum text) :
    TextReadsBack constant k literal := by
  unfold TextReadsBack
  rw [print]
  exact .token (.name h) rfl (by simp) fun budget => .peek (.advance (.pure value))

theorem int_readsBack {n : Int} (h : InInt64 n) : TextReadsBack constant k (.int n) := by
  refine .token (.int n) rfl (by simp) fun budget => .peek ?_
  dsimp only
  rw [readInt64_integerText h]
  exact .advance (.pure rfl)

theorem float_readsBack {x : Binary64}
    (finite : (Binary64.ofText? (floatText x)).any Binary64.isFinite = true)
    (nine : ¬ ['e', '9'] <:+: (floatText x).toList) : TextReadsBack constant k (.float x) := by
  cases x with
  | infinite negative => cases negative <;> cases finite
  | nan => cases finite
  | finite x =>
    have text : (Value.ofLiteral (.float (.finite x))).print = floatLayout.text x := rfl
    unfold TextReadsBack
    rw [text]
    refine .token (.float nine) rfl (by simp) fun budget => .peek ?_
    dsimp only
    rw [String.ofList_toList, DecimalLayout.ofText?_text]
    exact .advance (.pure rfl)

theorem string_readsBack {text : String} (h : '\x08' ∉ text.toList) :
    TextReadsBack constant k (.string text) :=
  .token (.quoted text) rfl (by simp) fun budget => .peek (.string h (.pure rfl))

section Readings

variable {results : Literal → Literal → Prop} {budget : Nat}

theorem reads_named {name : String} {ts : List Token} {result : Literal → Prop}
    (h : Reads (value constant budget) ts result []) :
    Reads (argument constant budget) (.name name :: .punctuator .colon :: ts)
      (fun field => field.1 = name ∧ result field.2) [] :=
  .name (.punctuator (.map h fun _ hx => ⟨rfl, hx⟩))

theorem reads_list {items : List Literal} {tss : List (List Token)}
    (h : Each (value constant budget) results (· ≠ .punctuator .bracketRight) [] items tss)
    (budgeted : items.length < budget) :
    Reads (value constant (budget + 1))
      (.punctuator .bracketLeft :: (tss.flatten ++ [.punctuator .bracketRight]))
      (fun literal => ∃ found, literal = .list found ∧ List.Forall₂ results items found) [] := by
  have apart : Apart (· ≠ .punctuator .bracketRight) [.bracketRight] := by
    intro t ht p hp
    rwa [List.mem_singleton.mp hp]
  exact .peek (.advance (.map (.itemsUntil h apart (by simp) budgeted) fun r hr => ⟨r.1, rfl, hr⟩))

theorem reads_object {fields : List (String × Literal)} {tss : List (List Token)}
    (h : Each (argument constant budget)
      (fun field found => found.1 = field.1 ∧ results field.2 found.2) IsWord [] fields tss)
    (sorted : fields.Pairwise (·.1 < ·.1)) (budgeted : fields.length < budget) :
    Reads (value constant (budget + 1))
      (.punctuator .braceLeft :: (tss.flatten ++ [.punctuator .braceRight]))
      (fun literal => ∃ found, literal = .object found ∧ List.Forall₂
        (fun field found => found.1 = field.1 ∧ results field.2 found.2) fields found) [] := by
  have apart : Apart IsWord [.braceRight] := by
    rintro _ ⟨word, rfl⟩ p -
    simp
  refine .peek (.advance (.map (.itemsUntil h apart (by simp) budgeted) fun r hr => ?_))
  refine ⟨r.1, ofFields_of_sorted ?_, hr⟩
  have names : r.1.map Prod.fst = fields.map Prod.fst := by
    rw [← List.forall₂_eq_eq_eq, List.forall₂_map_left_iff, List.forall₂_map_right_iff]
    exact hr.flip.imp fun _ _ both => both.1
  rw [← List.pairwise_map, names, List.pairwise_map]
  exact sorted

end Readings

theorem print_list (items : List Literal) :
    (Value.ofLiteral (.list items)).print =
      "[" ++ joinParts ", " (items.map fun item => (Value.ofLiteral item).print) ++ "]" := by
  rw [Value.ofLiteral, Value.print, printValues_eq, valuesOfLiterals_eq, List.map_map]
  rfl

theorem print_object (fields : List (String × Literal)) :
    (Value.ofLiteral (.object fields)).print = "\x7b" ++ joinParts ", "
      (fields.map fun field => field.1 ++ ": " ++ (Value.ofLiteral field.2).print) ++ "\x7d" := by
  rw [Value.ofLiteral, Value.print, printObjectFields_eq, fieldsOfLiterals_eq, List.map_map]
  rfl

theorem named_readsBack {name : String} {literal : Literal} (hn : isName name = true)
    (h : TextReadsBack constant k literal) :
    ReadsBack k (name ++ ": " ++ (Value.ofLiteral literal).print) (argument constant)
      ((name, literal) = ·) IsWord [] := by
  obtain ⟨ts, prints, -, reads⟩ := h
  refine ⟨_, prints.labelled hn, ⟨_, rfl, name, rfl⟩, fun budget budgeted => ?_⟩
  simp only [List.length_cons] at budgeted
  refine (reads_named (reads budget (by omega))).mono ?_
  rintro ⟨_, _⟩ ⟨rfl, rfl⟩
  rfl

theorem list_readsBack {items : List Literal} (h : ∀ item ∈ items, TextReadsBack constant k item) :
    TextReadsBack constant (k + 1) (.list items) := by
  obtain ⟨tss, prints, count, reads⟩ := ReadsBack.each h
  unfold TextReadsBack
  rw [print_list]
  have inner : Prints k (joinParts ", " (items.map fun item => (Value.ofLiteral item).print))
      tss.flatten := .joinParts _ (by simp [IsBlank]) (by decide) prints
  refine ⟨_, inner.enclosed .bracketLeft .bracketRight rfl rfl rfl rfl (.cons rfl _),
    ⟨_, rfl, by simp⟩, fun budget budgeted => ?_⟩
  obtain ⟨budget, rfl⟩ : ∃ b, budget = b + 1 := ⟨budget - 1, by simp at budgeted; omega⟩
  simp only [List.length_cons, List.length_append, List.length_nil] at budgeted
  refine (reads_list (reads budget (by omega)) (by omega)).mono ?_
  rintro _ ⟨found, rfl, same⟩
  rw [List.forall₂_eq_eq_eq] at same
  rw [same]

theorem object_readsBack {fields : List (String × Literal)} (sorted : fields.Pairwise (·.1 < ·.1))
    (h : ∀ field ∈ fields, isName field.1 = true ∧ TextReadsBack constant k field.2) :
    TextReadsBack constant (k + 1) (.object fields) := by
  have named : ∀ field ∈ fields, ReadsBack k (field.1 ++ ": " ++ (Value.ofLiteral field.2).print)
      (argument constant) (fun found => found.1 = field.1 ∧ field.2 = found.2) IsWord [] := by
    intro field hf
    refine (named_readsBack (h field hf).1 (h field hf).2).mono ?_
    rintro _ rfl
    exact ⟨rfl, rfl⟩
  obtain ⟨tss, prints, count, reads⟩ := ReadsBack.each named
  unfold TextReadsBack
  rw [print_object]
  have inner : Prints k (joinParts ", "
      (fields.map fun field => field.1 ++ ": " ++ (Value.ofLiteral field.2).print)) tss.flatten :=
    .joinParts _ (by simp [IsBlank]) (by decide) prints
  refine ⟨_, inner.enclosed .braceLeft .braceRight rfl rfl rfl rfl (.cons rfl _),
    ⟨_, rfl, by simp⟩, fun budget budgeted => ?_⟩
  obtain ⟨budget, rfl⟩ : ∃ b, budget = b + 1 := ⟨budget - 1, by simp at budgeted; omega⟩
  simp only [List.length_cons, List.length_append, List.length_nil] at budgeted
  refine (reads_object (reads budget (by omega)) sorted (by omega)).mono ?_
  rintro _ ⟨found, rfl, same⟩
  have equal : List.Forall₂ Eq fields found :=
    same.imp fun _ _ both => Prod.ext both.1.symm both.2
  rw [List.forall₂_eq_eq_eq] at equal
  rw [equal]

theorem readsBack {literal : Literal} (fits : literal.Fits constant k)
    (printable : (Node.value (.ofLiteral literal)).Printable) :
    TextReadsBack constant k literal := by
  induction k using Nat.strongRecOn generalizing literal with | _ k ih => ?_
  cases literal with
  | «variable» name =>
    obtain ⟨rfl, hn⟩ : constant = false ∧ isName name = true := by cases k <;> exact fits
    exact variable_readsBack hn
  | int n => exact int_readsBack (by cases k <;> exact fits)
  | float x =>
    have plain := printable _ (Node.mem_nodes _)
    exact float_readsBack plain.1 plain.2
  | string text => exact string_readsBack (printable _ (Node.mem_nodes _))
  | boolean value => cases value <;> exact word_readsBack (by decide) rfl rfl
  | null => exact word_readsBack (by decide) rfl rfl
  | enum name =>
    obtain ⟨hn, «true», «false», null⟩ : isName name = true ∧ name ≠ "true" ∧ name ≠ "false" ∧
        name ≠ "null" := by cases k <;> exact fits
    exact word_readsBack hn rfl (by simp [*])
  | list items =>
    cases k with
    | zero => cases fits
    | succ k =>
      refine list_readsBack fun item hi => ih k (Nat.lt_succ_self k) (fits item hi) ?_
      refine printable.part 0 rfl (List.mem_map_of_mem ?_)
      rw [valuesOfLiterals_eq]
      exact List.mem_map_of_mem hi
  | object fields =>
    cases k with
    | zero => cases fits
    | succ k =>
      refine object_readsBack fits.1 fun field hf => ⟨(fits.2 field hf).1,
        ih k (Nat.lt_succ_self k) (fits.2 field hf).2 ?_⟩
      have member : (⟨⟨field.1, none⟩, .ofLiteral field.2, none⟩ : ObjectField) ∈
          fieldsOfLiterals fields := by
        rw [fieldsOfLiterals_eq]
        exact List.mem_map_of_mem hf
      exact (printable.part 0 rfl (List.mem_map_of_mem member)).part 1 rfl List.mem_cons_self

end Literal

end GraphQL
