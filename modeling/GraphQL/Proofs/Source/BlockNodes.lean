import GraphQL.Proofs.Ast.Nesting
import GraphQL.Proofs.Source.BlockLayout
import GraphQL.Proofs.Source.DeclarationText
import GraphQL.Proofs.Source.SelectionText

/-!
The block strings of printed nodes, kind by kind. Main statement: if its names and numbers are
tokens, a node lays out its block strings within the levels that its brackets take.
-/
namespace GraphQL

open Ast

namespace Ast.Node

/-- The node itself, without those in it, has no name or number that is no token, and no block
string with carriage returns. -/
def IsSpelled : Node → Prop
  | name n => isName n.value = true
  | value (.enum text _) => isName text = true
  | value (.int text _) =>
    scanToken? text.toList = some (.int text.toList, text.toList.length)
  | value (.float text _) =>
    scanToken? text.toList = some (.float text.toList, text.toList.length)
  | value (.string s) => s.block = true → '\r' ∉ s.value.toList
  | _ => True

instance : DecidablePred IsSpelled
  | name n => inferInstanceAs (Decidable (isName n.value = true))
  | value (.enum text _) => inferInstanceAs (Decidable (isName text = true))
  | value (.int text _) => inferInstanceAs
      (Decidable (scanToken? text.toList = some (.int text.toList, text.toList.length)))
  | value (.float text _) => inferInstanceAs
      (Decidable (scanToken? text.toList = some (.float text.toList, text.toList.length)))
  | value (.string s) => inferInstanceAs (Decidable (s.block = true → '\r' ∉ s.value.toList))
  | value (.variable _) | value (.boolean _ _) | value (.null _) | value (.list _ _)
  | value (.object _ _) | document _ | definition _ | variableDefinition _ | selectionSet _
  | selection _ | argument _ | objectField _ | directive _ | type _ | operationTypeDefinition _
  | fieldDefinition _ | inputValueDefinition _ | enumValueDefinition _ =>
    inferInstanceAs (Decidable True)

/-- All names and numbers in the node are tokens, and no block string has carriage returns. -/
def Spelled (n : Node) : Prop := ∀ m ∈ n.tree.nodes, m.IsSpelled

instance (n : Node) : Decidable n.Spelled := List.decidableBAll _ _

theorem Spelled.part {n m : Node} (h : n.Spelled) (hm : m ∈ n.parts.flatten) : m.Spelled :=
  fun k hk => h k (mem_nodes_iff.mpr (.inr ⟨m, hm, hk⟩))

def blockString? : Node → Option String
  | value (.string s) => if s.block then some s.value else none
  | _ => none

def blockStrings (n : Node) : List String := n.tree.nodes.filterMap blockString?

theorem blockStrings_eq (n : Node) : n.blockStrings =
    n.blockString?.toList ++ (n.parts.map (List.flatMap blockStrings)).flatten := by
  have parts : ∀ slots : List (List Node), (slots.flatten.flatMap fun m => m.tree.nodes).filterMap
      blockString? = (slots.map (List.flatMap blockStrings)).flatten := by
    intro slots
    induction slots with
    | nil => rfl
    | cons slot slots ih =>
      rw [List.flatten_cons, List.flatMap_append, List.filterMap_append, ih,
        List.filterMap_flatMap]
      rfl
  rw [blockStrings, nodes_eq, List.filterMap_cons, parts]
  cases n.blockString? <;> rfl

@[simp]
theorem blockStrings_name (n : Name) : (name n).blockStrings = [] := rfl

/-- The parts of the node lay out their block strings, those in brackets one level further in. -/
structure PartsLay (k : Nat) (n : Node) : Prop where
  bare {slot : Slot} {part : List Node} (i : Nat) : n.kind.slots[i]? = some slot →
    n.parts[i]? = some part → n.kind.encloses slot = false →
    ∀ m ∈ part, Lays k m.print m.blockStrings
  enclosed {slot : Slot} {part : List Node} (i : Nat) : n.kind.slots[i]? = some slot →
    n.parts[i]? = some part → n.kind.encloses slot = true →
    Bracketed (fun j (m : Node) => Lays j m.print m.blockStrings) k part

variable {k : Nat}

namespace PartsLay

variable {n m : Node} {slot : Slot} {α : Type} {items : List α} {f : α → Node}

theorem one (h : n.PartsLay k) (i : Nat) (hs : n.kind.slots[i]? = some slot)
    (hp : n.parts[i]? = some [m]) (bare : n.kind.encloses slot = false) :
    Lays k m.print m.blockStrings :=
  h.bare i hs hp bare m (List.mem_singleton_self m)

theorem named {x : Name} (h : n.PartsLay k) (i : Nat) (hs : n.kind.slots[i]? = some slot)
    (hp : n.parts[i]? = some [name x]) (bare : n.kind.encloses slot = false) :
    Lays k x.value [] :=
  h.one (m := name x) i hs hp bare

theorem each (h : n.PartsLay k) (i : Nat) (hs : n.kind.slots[i]? = some slot)
    (hp : n.parts[i]? = some (items.map f)) (bare : n.kind.encloses slot = false) :
    ∀ a ∈ items, Lays k (f a).print (f a).blockStrings :=
  fun _ ha => h.bare i hs hp bare _ (List.mem_map_of_mem ha)

theorem eachEnclosed (h : n.PartsLay k) (i : Nat) (hs : n.kind.slots[i]? = some slot)
    (hp : n.parts[i]? = some (items.map f)) (encloses : n.kind.encloses slot = true) :
    Bracketed (fun j a => Lays j (f a).print (f a).blockStrings) k items := by
  have all := h.enclosed i hs hp encloses
  cases k with
  | zero => exact List.map_eq_nil_iff.mp all
  | succ k => exact fun a ha => all _ (List.mem_map_of_mem ha)

end PartsLay

theorem lays_of_parts {n : Node} {text : String} {values : List String}
    (h : Lays k text values) (printed : n.print = text) (own : n.blockString? = none)
    (same : (n.parts.map (List.flatMap blockStrings)).flatten = values) :
    Lays k n.print n.blockStrings := by
  rwa [printed, blockStrings_eq, own, same]

theorem heads_space : Heads k k " " := .blanks (by simp [IsBlank])

theorem heads_equals : Heads k k "= " := by
  have mark : Heads k k "=" := .mark .equals rfl rfl
  exact mark.append heads_space

theorem separates_space : Separates k " " := .blanks (by simp [IsBlank]) (by decide)

theorem separates_comma : Separates k ", " := .blanks (by simp [IsBlank]) (by decide)

theorem separates_newline : Separates k "\n" := .blanks (by simp [IsBlank]) (by decide)

theorem separates_colon : Separates k ": " where
  heads := by
    have mark : Heads k k ":" := .mark .colon rfl rfl
    exact mark.append heads_space
  stops after := .text rfl rfl after

theorem separates_ampersand : Separates k " & " := @Separates.mark k .ampersand "&" rfl rfl

theorem separates_pipe : Separates k " | " := @Separates.mark k .pipe "|" rfl rfl

theorem separates_on : Separates k " on " where
  heads := heads_space.append (@Heads.word k "on" (by decide))
  stops after := .text rfl rfl after

section Items

variable {α : Type} {items : List α} {print : α → String} {values : α → List String}

theorem lays_parenthesized (h : Bracketed (fun j a => Lays j (print a) (values a)) k items) :
    Lays k (wrap "(" (joinParts ", " (items.map print)) ")") (items.flatMap values) :=
  .bracketed (fun items => joinParts ", " items)
    (encloses .parenLeft .parenRight [] rfl rfl nofun rfl rfl (.cons rfl _)) rfl
    (.joinParts separates_comma) h

theorem newline_blank : ∀ b ∈ ['\n'], IsBlank b := by simp [IsBlank]

theorem lays_lines (h : ∀ a ∈ items, Lays k (print a) (values a)) :
    Lays k (indent (joinParts "\n" (items.map print))) (items.flatMap values) :=
  (Lays.joinParts separates_newline h).indent

theorem lays_block (h : Bracketed (fun j a => Lays j (print a) (values a)) k items) :
    Lays k (blockOf (items.map print)) (items.flatMap values) :=
  .bracketed (fun items => indent (joinParts "\n" items))
    (encloses .braceLeft .braceRight ['\n'] rfl rfl newline_blank rfl rfl (.cons rfl _)) rfl
    lays_lines h

end Items

theorem stops_append {text other : String} (h : Stops text.toList) (h' : Stops other.toList) :
    Stops (text ++ other).toList := by
  rw [String.toList_append]
  exact h.append h'

theorem lays_variable {v : Variable} (h : (value (.variable v)).PartsLay k) :
    Lays k (value (.variable v)).print (value (.variable v)).blockStrings := by
  have named : Lays k v.name.value [] := h.named 0 rfl rfl rfl
  have mark : Heads k k "$" := .mark .dollar rfl rfl
  exact lays_of_parts (named.after mark) rfl rfl (by simp [parts])

theorem lays_list {values : List Value} {loc : Option Location}
    (h : (value (.list values loc)).PartsLay (k + 1)) :
    Lays (k + 1) (value (.list values loc)).print (value (.list values loc)).blockStrings := by
  have items : ∀ v ∈ values, Lays k v.print (value v).blockStrings :=
    h.eachEnclosed (f := value) 0 rfl rfl rfl
  have brackets : Encloses "[" "]" :=
    encloses .bracketLeft .bracketRight [] rfl rfl nofun rfl rfl (.cons rfl _)
  have all := (Lays.joinParts separates_comma items).enclosed brackets
  rw [← printValues_eq] at all
  exact lays_of_parts all rfl rfl (by simp [parts, List.flatMap_map])

theorem lays_objectValue {fields : List ObjectField} {loc : Option Location}
    (h : (value (.object fields loc)).PartsLay (k + 1)) :
    Lays (k + 1) (value (.object fields loc)).print (value (.object fields loc)).blockStrings := by
  have items : ∀ f ∈ fields, Lays k f.print (objectField f).blockStrings :=
    h.eachEnclosed (f := objectField) 0 rfl rfl rfl
  have braces : Encloses "\x7b" "\x7d" :=
    encloses .braceLeft .braceRight [] rfl rfl nofun rfl rfl (.cons rfl _)
  have all := (Lays.joinParts separates_comma items).enclosed braces
  rw [← printObjectFields_eq] at all
  exact lays_of_parts all rfl rfl (by simp [parts, List.flatMap_map])

theorem lays_objectField {f : ObjectField} (h : (objectField f).PartsLay k) :
    Lays k (objectField f).print (objectField f).blockStrings := by
  obtain ⟨name, value, loc⟩ := f
  have all := (h.one 0 rfl rfl rfl).separated separates_colon (h.one 1 rfl rfl rfl)
  exact lays_of_parts all rfl rfl (by simp [parts])

theorem lays_argument {a : Argument} (h : (argument a).PartsLay k) :
    Lays k (argument a).print (argument a).blockStrings := by
  have all := (h.one 0 rfl rfl rfl).separated separates_colon (h.one 1 rfl rfl rfl)
  exact lays_of_parts all rfl rfl (by simp [parts])

theorem lays_directive {d : Directive} (h : (directive d).PartsLay k) :
    Lays k (directive d).print (directive d).blockStrings := by
  have named : Lays k d.name.value [] := h.named 0 rfl rfl rfl
  have arguments := lays_parenthesized (h.eachEnclosed 1 rfl rfl rfl)
  have mark : Heads k k "@" := .mark .at rfl rfl
  have all := (named.append (stops_wrap rfl rfl _ _) arguments).after mark
  rw [← String.append_assoc] at all
  exact lays_of_parts all rfl rfl (by simp [parts, List.flatMap_map])

theorem lays_directives {ds : List Directive}
    (h : ∀ d ∈ ds, Lays k (directive d).print (directive d).blockStrings) :
    Lays k (printDirectives ds) (ds.flatMap fun d => (directive d).blockStrings) :=
  .joinParts separates_space h

theorem lays_namedType {t : NamedType} (h : (type (.named t)).PartsLay k) :
    Lays k (type (.named t)).print (type (.named t)).blockStrings := by
  have named : Lays k t.name.value [] := h.named 0 rfl rfl rfl
  exact lays_of_parts named rfl rfl (by simp [parts])

theorem lays_listType {item : TypeNode} {loc : Option Location}
    (h : (type (.list item loc)).PartsLay (k + 1)) :
    Lays (k + 1) (type (.list item loc)).print (type (.list item loc)).blockStrings := by
  have brackets : Encloses "[" "]" :=
    encloses .bracketLeft .bracketRight [] rfl rfl nofun rfl rfl (.cons rfl _)
  have inner := h.enclosed 0 rfl rfl rfl (type item) (List.mem_singleton_self _)
  exact lays_of_parts (inner.enclosed brackets) rfl rfl (by simp [parts])

theorem lays_nonNull {inner : TypeNode} {loc : Option Location}
    (h : (type (.nonNull inner loc)).PartsLay k) :
    Lays k (type (.nonNull inner loc)).print (type (.nonNull inner loc)).blockStrings := by
  have bang : Heads k k "!" := .mark .bang rfl rfl
  have stops : Stops "!".toList := .cons rfl []
  have all := (h.one 0 rfl rfl rfl).append stops (.of_heads bang)
  exact lays_of_parts all rfl rfl (by simp [parts])

theorem lays_variableDefinition {d : VariableDefinition} (h : (variableDefinition d).PartsLay k) :
    Lays k (variableDefinition d).print (variableDefinition d).blockStrings := by
  have named : Lays k d.var.print (value (.variable d.var)).blockStrings :=
    h.one (m := value (.variable d.var)) 0 rfl rfl rfl
  have typed : Lays k d.type.print (type d.type).blockStrings :=
    h.one (m := type d.type) 1 rfl rfl rfl
  have defaults : ∀ v ∈ d.defaultValue.toList, Lays k v.print (value v).blockStrings :=
    h.each (f := value) 2 rfl rfl rfl
  have mark : Heads k k " = " := heads_space.append heads_equals
  have rest := ((Lays.optional defaults).preceded mark).append (stops_wrap rfl rfl _ _)
    ((lays_directives (h.each 3 rfl rfl rfl)).preceded heads_space)
  have stops : Stops (wrap " = " (printDefault d.defaultValue) "" ++
      wrap " " (printDirectives d.directives) "").toList :=
    stops_append (stops_wrap rfl rfl _ _) (stops_wrap rfl rfl _ _)
  have all := named.separated separates_colon (typed.append stops rest)
  simp only [← String.append_assoc] at all
  exact lays_of_parts all rfl rfl (by simp [parts, List.flatMap_map])

theorem lays_selectionSet {s : SelectionSet} (h : (selectionSet s).PartsLay k) :
    Lays k (selectionSet s).print (selectionSet s).blockStrings := by
  obtain ⟨selections, loc⟩ := s
  have items : Bracketed (fun j s => Lays j (Selection.print s) (selection s).blockStrings) k
      selections := h.eachEnclosed (f := selection) 0 rfl rfl rfl
  have all := lays_block items
  rw [← printSelections_eq] at all
  exact lays_of_parts all rfl rfl (by simp [parts, List.flatMap_map])

theorem lays_field {f : Field} (h : (selection (.field f)).PartsLay k) :
    Lays k (selection (.field f)).print (selection (.field f)).blockStrings := by
  obtain ⟨aliasName, fieldName, arguments, directives, set, loc⟩ := f
  have aliased := Lays.optional (h.each 0 rfl rfl rfl)
  have named : Lays k fieldName.value [] := h.named 1 rfl rfl rfl
  have first := (aliased.before separates_colon named).append (stops_wrap rfl rfl _ _)
    (lays_parenthesized (h.eachEnclosed 2 rfl rfl rfl))
  have sets : Lays k (printSelectionSet set)
      (set.toList.flatMap fun s => (selectionSet s).blockStrings) := by
    have optional := Lays.optional (h.each 4 rfl rfl rfl)
    cases set <;> exact optional
  have all := first.part separates_space ((lays_directives (h.each 3 rfl rfl rfl)).part
    separates_space (sets.lastPart separates_space))
  exact lays_of_parts all rfl rfl (by simp [parts, List.flatMap_map])

theorem lays_spread {s : FragmentSpread} (h : (selection (.spread s)).PartsLay k) :
    Lays k (selection (.spread s)).print (selection (.spread s)).blockStrings := by
  have named : Lays k s.name.value [] := h.named 0 rfl rfl rfl
  have mark : Heads k k "..." := .mark .spread rfl rfl
  have directives := (lays_directives (h.each 1 rfl rfl rfl)).preceded heads_space
  have all := (named.append (stops_wrap rfl rfl _ _) directives).after mark
  rw [← String.append_assoc] at all
  exact lays_of_parts all rfl rfl (by simp [parts, List.flatMap_map])

theorem lays_inlineFragment {f : InlineFragment}
    (h : (selection (.inlineFragment f)).PartsLay k) :
    Lays k (selection (.inlineFragment f)).print (selection (.inlineFragment f)).blockStrings := by
  obtain ⟨condition, directives, set, loc⟩ := f
  have mark : Heads k k "..." := .mark .spread rfl rfl
  have on : Heads k k "on " := @Heads.word k "on" (by decide)
  have conditions := (Lays.optional (h.each 0 rfl rfl rfl)).preceded on
  have sets : Lays k set.print (selectionSet set).blockStrings :=
    h.one (m := selectionSet set) 2 rfl rfl rfl
  have all := (Lays.of_heads mark).part separates_space (conditions.part separates_space
    ((lays_directives (h.each 1 rfl rfl rfl)).part separates_space (sets.lastPart separates_space)))
  exact lays_of_parts all rfl rfl (by simp [parts, List.flatMap_map])

theorem lays_operation {d : OperationDefinition} (h : (definition (.operation d)).PartsLay k) :
    Lays k (definition (.operation d)).print (definition (.operation d)).blockStrings := by
  obtain ⟨type, name, vars, directives, set, loc⟩ := d
  have sets : Lays k set.print (selectionSet set).blockStrings :=
    h.one (m := selectionSet set) 3 rfl rfl rfl
  by_cases short : type = .query ∧ name = none ∧ vars.isEmpty ∧ directives.isEmpty
  · obtain ⟨rfl, rfl, noVars, noDirectives⟩ := short
    obtain rfl := List.isEmpty_iff.mp noVars
    obtain rfl := List.isEmpty_iff.mp noDirectives
    exact lays_of_parts sets rfl rfl (by simp [parts])
  · have keyword : Lays k type.text [] := .name (by cases type <;> decide)
    have named := (Lays.optional (h.each 0 rfl rfl rfl)).append (stops_wrap rfl rfl _ _)
      (lays_parenthesized (h.eachEnclosed 1 rfl rfl rfl))
    have all := keyword.part separates_space (named.part separates_space
      ((lays_directives (h.each 2 rfl rfl rfl)).part separates_space
        (sets.lastPart separates_space)))
    exact lays_of_parts all (if_neg short) rfl (by simp [parts, List.flatMap_map])

theorem lays_fragment {d : FragmentDefinition} (h : (definition (.fragment d)).PartsLay k) :
    Lays k (definition (.fragment d)).print (definition (.fragment d)).blockStrings := by
  have keyword : Heads k k "fragment " := @Heads.word k "fragment" (by decide)
  have named : Lays k d.name.value [] := h.named 0 rfl rfl rfl
  have typed : Lays k d.typeCondition.print (type (.named d.typeCondition)).blockStrings :=
    h.one (m := type (.named d.typeCondition)) 1 rfl rfl rfl
  have sets : Lays k d.selectionSet.print (selectionSet d.selectionSet).blockStrings :=
    h.one (m := selectionSet d.selectionSet) 3 rfl rfl rfl
  have all := (((named.separated separates_on typed).separated separates_space
    ((lays_directives (h.each 2 rfl rfl rfl)).before separates_space sets))).after keyword
  simp only [← String.append_assoc] at all
  exact lays_of_parts all rfl rfl (by simp [parts, List.flatMap_map])

theorem lays_described {description : Option StringValue} {text : String} {values : List String}
    (hd : ∀ s ∈ description.toList,
      Lays k (value (.string s)).print (value (.string s)).blockStrings)
    (h : Lays k text values) : Lays k (describe description text)
      ((description.toList.flatMap fun s => (value (.string s)).blockStrings) ++ values) := by
  cases description with
  | none => exact h
  | some s =>
    have described : Lays k s.print (value (.string s)).blockStrings :=
      hd s (List.mem_singleton_self s)
    have all := described.separated separates_newline h
    rwa [← List.flatMap_singleton (fun s => (value (.string s)).blockStrings) s] at all

theorem lays_declared {word name : String} {description : Option StringValue}
    {parts : List String} {values : List String} (hw : isName word = true)
    (hd : ∀ s ∈ description.toList,
      Lays k (value (.string s)).print (value (.string s)).blockStrings)
    (hn : Lays k name []) (h : Lays k (joinParts " " parts) values) :
    Lays k (describe description (joinParts " " (word :: name :: parts)))
      ((description.toList.flatMap fun s => (value (.string s)).blockStrings) ++ values) :=
  lays_described hd ((Lays.name hw).part separates_space (hn.part separates_space h))

theorem lays_inputValueDefinition {d : InputValueDefinition}
    (h : (inputValueDefinition d).PartsLay k) :
    Lays k (inputValueDefinition d).print (inputValueDefinition d).blockStrings := by
  have named : Lays k d.name.value [] := h.named 1 rfl rfl rfl
  have typed : Lays k d.type.print (type d.type).blockStrings :=
    h.one (m := type d.type) 2 rfl rfl rfl
  have defaults := (Lays.optional (h.each 3 rfl rfl rfl)).preceded heads_equals
  have all := lays_described (h.each 0 rfl rfl rfl)
    ((named.separated separates_colon typed).part separates_space
      (defaults.part separates_space
        ((lays_directives (h.each 4 rfl rfl rfl)).lastPart separates_space)))
  exact lays_of_parts all rfl rfl (by simp [parts, List.flatMap_map])

theorem lays_argumentDefinitions {arguments : List InputValueDefinition}
    (h : Bracketed (fun j a => Lays j (inputValueDefinition a).print
      (inputValueDefinition a).blockStrings) k arguments) :
    Lays k (printArgumentDefinitions arguments)
      (arguments.flatMap fun a => (inputValueDefinition a).blockStrings) := by
  rw [printArgumentDefinitions]
  split_ifs
  · exact .bracketed (fun items => indent (joinParts "\n" items))
      (encloses .parenLeft .parenRight ['\n'] rfl rfl newline_blank rfl rfl (.cons rfl _)) rfl
      lays_lines h
  · exact lays_parenthesized h

theorem lays_fieldDefinition {d : FieldDefinition} (h : (fieldDefinition d).PartsLay k) :
    Lays k (fieldDefinition d).print (fieldDefinition d).blockStrings := by
  have named : Lays k d.name.value [] := h.named 1 rfl rfl rfl
  have arguments := lays_argumentDefinitions (h.eachEnclosed 2 rfl rfl rfl)
  have typed : Lays k d.type.print (type d.type).blockStrings :=
    h.one (m := type d.type) 3 rfl rfl rfl
  have directives := (lays_directives (h.each 4 rfl rfl rfl)).preceded heads_space
  have all := lays_described (h.each 0 rfl rfl rfl)
    (((named.append (stops_arguments _) arguments).separated separates_colon typed).append
      (stops_wrap rfl rfl _ _) directives)
  exact lays_of_parts all rfl rfl (by simp [parts, List.flatMap_map])

theorem lays_enumValueDefinition {d : EnumValueDefinition}
    (h : (enumValueDefinition d).PartsLay k) :
    Lays k (enumValueDefinition d).print (enumValueDefinition d).blockStrings := by
  have named : Lays k d.name.value [] := h.named 1 rfl rfl rfl
  have all := lays_described (h.each 0 rfl rfl rfl) (named.part separates_space
    ((lays_directives (h.each 2 rfl rfl rfl)).lastPart separates_space))
  exact lays_of_parts all rfl rfl (by simp [parts, List.flatMap_map])

theorem lays_operationTypeDefinition {d : OperationTypeDefinition}
    (h : (operationTypeDefinition d).PartsLay k) :
    Lays k (operationTypeDefinition d).print (operationTypeDefinition d).blockStrings := by
  have keyword : Lays k d.operation.text [] := .name (by cases d.operation <;> decide)
  have typed : Lays k d.type.print (type (.named d.type)).blockStrings :=
    h.one (m := type (.named d.type)) 0 rfl rfl rfl
  exact lays_of_parts (keyword.separated separates_colon typed) rfl rfl (by simp [parts])

theorem lays_schema {d : SchemaDefinition} (h : (definition (.schema d)).PartsLay k) :
    Lays k (definition (.schema d)).print (definition (.schema d)).blockStrings := by
  have keyword : Lays k "schema" [] := .name (by decide)
  have roots := lays_block (h.eachEnclosed 1 rfl rfl rfl)
  have all := keyword.part separates_space ((lays_directives (h.each 0 rfl rfl rfl)).part
    separates_space (roots.lastPart separates_space))
  exact lays_of_parts all rfl rfl (by simp [parts, List.flatMap_map])

theorem lays_scalar {d : ScalarTypeDefinition} (h : (definition (.scalar d)).PartsLay k) :
    Lays k (definition (.scalar d)).print (definition (.scalar d)).blockStrings := by
  have named : Lays k d.name.value [] := h.named 1 rfl rfl rfl
  have all := @lays_declared k "scalar" _ _ _ _ (by decide) (h.each 0 rfl rfl rfl) named
    ((lays_directives (h.each 2 rfl rfl rfl)).lastPart separates_space)
  exact lays_of_parts all rfl rfl (by simp [parts, List.flatMap_map])

theorem lays_interfaces {names : List NamedType}
    (h : ∀ t ∈ names, Lays k (type (.named t)).print (type (.named t)).blockStrings) :
    Lays k (printInterfaces names) (names.flatMap fun t => (type (.named t)).blockStrings) :=
  (Lays.joinParts separates_ampersand h).preceded (@Heads.word k "implements" (by decide))

theorem lays_object {d : ObjectTypeDefinition} (h : (definition (.object d)).PartsLay k) :
    Lays k (definition (.object d)).print (definition (.object d)).blockStrings := by
  have named : Lays k d.name.value [] := h.named 1 rfl rfl rfl
  have fields := lays_block (h.eachEnclosed 4 rfl rfl rfl)
  have all := @lays_declared k "type" _ _ _ _ (by decide) (h.each 0 rfl rfl rfl) named
    ((lays_interfaces (h.each 2 rfl rfl rfl)).part separates_space
      ((lays_directives (h.each 3 rfl rfl rfl)).part separates_space
        (fields.lastPart separates_space)))
  exact lays_of_parts all rfl rfl (by simp [parts, List.flatMap_map])

theorem lays_interface {d : InterfaceTypeDefinition} (h : (definition (.interface d)).PartsLay k) :
    Lays k (definition (.interface d)).print (definition (.interface d)).blockStrings := by
  have named : Lays k d.name.value [] := h.named 1 rfl rfl rfl
  have fields := lays_block (h.eachEnclosed 4 rfl rfl rfl)
  have all := @lays_declared k "interface" _ _ _ _ (by decide) (h.each 0 rfl rfl rfl) named
    ((lays_interfaces (h.each 2 rfl rfl rfl)).part separates_space
      ((lays_directives (h.each 3 rfl rfl rfl)).part separates_space
        (fields.lastPart separates_space)))
  exact lays_of_parts all rfl rfl (by simp [parts, List.flatMap_map])

theorem lays_union {d : UnionTypeDefinition} (h : (definition (.union d)).PartsLay k) :
    Lays k (definition (.union d)).print (definition (.union d)).blockStrings := by
  have named : Lays k d.name.value [] := h.named 1 rfl rfl rfl
  have members := (Lays.joinParts separates_pipe (h.each 3 rfl rfl rfl)).preceded heads_equals
  have all := @lays_declared k "union" _ _ _ _ (by decide) (h.each 0 rfl rfl rfl) named
    ((lays_directives (h.each 2 rfl rfl rfl)).part separates_space
      (members.lastPart separates_space))
  exact lays_of_parts all rfl rfl (by simp [parts, List.flatMap_map])

theorem lays_enum {d : EnumTypeDefinition} (h : (definition (.enum d)).PartsLay k) :
    Lays k (definition (.enum d)).print (definition (.enum d)).blockStrings := by
  have named : Lays k d.name.value [] := h.named 1 rfl rfl rfl
  have values := lays_block (h.eachEnclosed 3 rfl rfl rfl)
  have all := @lays_declared k "enum" _ _ _ _ (by decide) (h.each 0 rfl rfl rfl) named
    ((lays_directives (h.each 2 rfl rfl rfl)).part separates_space
      (values.lastPart separates_space))
  exact lays_of_parts all rfl rfl (by simp [parts, List.flatMap_map])

theorem lays_inputObject {d : InputObjectTypeDefinition}
    (h : (definition (.inputObject d)).PartsLay k) :
    Lays k (definition (.inputObject d)).print (definition (.inputObject d)).blockStrings := by
  have named : Lays k d.name.value [] := h.named 1 rfl rfl rfl
  have fields := lays_block (h.eachEnclosed 3 rfl rfl rfl)
  have all := @lays_declared k "input" _ _ _ _ (by decide) (h.each 0 rfl rfl rfl) named
    ((lays_directives (h.each 2 rfl rfl rfl)).part separates_space
      (fields.lastPart separates_space))
  exact lays_of_parts all rfl rfl (by simp [parts, List.flatMap_map])

theorem lays_directiveDefinition {d : DirectiveDefinition}
    (h : (definition (.directive d)).PartsLay k) :
    Lays k (definition (.directive d)).print (definition (.directive d)).blockStrings := by
  have mark : Heads k k "@" := .mark .at rfl rfl
  have keyword : Heads k k "directive @" := (@Heads.word k "directive" (by decide)).append mark
  have named : Lays k d.name.value [] := h.named 1 rfl rfl rfl
  have arguments := lays_argumentDefinitions (h.eachEnclosed 2 rfl rfl rfl)
  have locations := Lays.joinParts separates_pipe (h.each 3 rfl rfl rfl)
  have repeatable : Lays k (if d.repeatable then " repeatable" else "") [] := by
    split_ifs
    · exact (@Lays.name k "repeatable" (by decide)).after heads_space
    · exact .empty
  have stops : Stops (if d.repeatable then " repeatable" else "").toList := by
    split_ifs
    · exact .cons rfl _
    · exact .nil
  have all := lays_described (h.each 0 rfl rfl rfl)
    ((((named.append (stops_arguments _) arguments).append stops repeatable).separated
      separates_on locations).after keyword)
  simp only [← String.append_assoc] at all
  exact lays_of_parts all rfl rfl (by simp [parts, List.flatMap_map])

theorem lays_document {d : Document} (h : (document d).PartsLay k) :
    Lays k (document d).print (document d).blockStrings := by
  have blank : Separates k "\n\n" := .blanks (by simp [IsBlank]) (by decide)
  have all := Lays.intercalate blank (h.each 0 rfl rfl rfl)
  exact lays_of_parts all rfl rfl (by simp [parts, List.flatMap_map])

/-- Names, words, numbers and strings lay out themselves. -/
theorem lays_leaf {n : Node} (h : n.IsSpelled) (leaf : n.parts = []) :
    Lays k n.print n.blockStrings := by
  cases n with
  | name n => exact .name h
  | value v =>
    cases v with
    | int text loc => exact .token rfl (.number_of_scan (.inl rfl) h)
    | float text loc => exact .token rfl (.number_of_scan (.inr rfl) h)
    | enum text loc => exact .name h
    | boolean b loc =>
      cases b
      · exact @Lays.name k "false" (by decide)
      · exact @Lays.name k "true" (by decide)
    | null loc => exact @Lays.name k "null" (by decide)
    | string s =>
      have own : (value (.string s)).blockStrings = if s.block then [s.value] else [] := by
        rw [blockStrings_eq, blockString?]
        cases s.block <;> rfl
      rw [own]
      exact .string h
    | _ => cases leaf
  | definition d => cases d <;> cases leaf
  | selection s => cases s <;> cases leaf
  | type t => cases t <;> cases leaf
  | _ => cases leaf

/-- The parts of a node are one level further in if they stand in brackets. -/
theorem PartsLay.of_parts {n : Node}
    (h : ∀ m ∈ n.parts.flatten, ∀ k, m.nesting ≤ k → Lays k m.print m.blockStrings)
    (fits : n.nesting ≤ k) : n.PartsLay k where
  bare i hs hp bare m hm := by
    have nested := nesting_part hs hp hm
    rw [bare, Bool.toNat_false] at nested
    exact h m (List.mem_flatten.mpr ⟨_, List.mem_of_getElem? hp, hm⟩) k (by omega)
  enclosed {slot part} i hs hp encloses := by
    have inner (m : Node) (hm : m ∈ part) : m.nesting + 1 ≤ k := by
      have nested := nesting_part hs hp hm
      rw [encloses, Bool.toNat_true] at nested
      omega
    cases k with
    | zero => exact List.eq_nil_iff_forall_not_mem.mpr fun m hm => by simpa using inner m hm
    | succ k =>
      exact fun m hm => h m (List.mem_flatten.mpr ⟨part, List.mem_of_getElem? hp, hm⟩) k
        (Nat.le_of_succ_le_succ (inner m hm))

/-- A node lays out its block strings within the levels that its brackets take. -/
theorem lays (n : Node) (spelled : n.Spelled) (fits : n.nesting ≤ k) :
    Lays k n.print n.blockStrings := by
  induction n using Node.induction generalizing k with | step n ih => ?_
  have h : n.PartsLay k := .of_parts (fun m hm k => ih m hm (spelled.part hm)) fits
  have leaf := @lays_leaf k n (spelled n n.mem_nodes)
  have brackets (has : n.kind.hasBrackets = true) : ∃ j, k = j + 1 := by
    have nested := n.hasBrackets_le_nesting
    rw [has, Bool.toNat_true] at nested
    exact ⟨k - 1, by omega⟩
  cases n with
  | name n => exact leaf rfl
  | document d => exact lays_document h
  | definition d =>
    cases d with
    | operation d => exact lays_operation h
    | fragment d => exact lays_fragment h
    | schema d => exact lays_schema h
    | scalar d => exact lays_scalar h
    | object d => exact lays_object h
    | interface d => exact lays_interface h
    | union d => exact lays_union h
    | enum d => exact lays_enum h
    | inputObject d => exact lays_inputObject h
    | directive d => exact lays_directiveDefinition h
  | variableDefinition d => exact lays_variableDefinition h
  | selectionSet s => exact lays_selectionSet h
  | selection s =>
    cases s with
    | field f => exact lays_field h
    | spread s => exact lays_spread h
    | inlineFragment f => exact lays_inlineFragment h
  | argument a => exact lays_argument h
  | value v =>
    cases v with
    | «variable» v => exact lays_variable h
    | list values loc =>
      obtain ⟨k, rfl⟩ := brackets rfl
      exact lays_list h
    | object fields loc =>
      obtain ⟨k, rfl⟩ := brackets rfl
      exact lays_objectValue h
    | _ => exact leaf rfl
  | objectField f => exact lays_objectField h
  | directive d => exact lays_directive h
  | type t =>
    cases t with
    | named t => exact lays_namedType h
    | list item loc =>
      obtain ⟨k, rfl⟩ := brackets rfl
      exact lays_listType h
    | nonNull inner loc => exact lays_nonNull h
  | operationTypeDefinition d => exact lays_operationTypeDefinition h
  | fieldDefinition d => exact lays_fieldDefinition h
  | inputValueDefinition d => exact lays_inputValueDefinition h
  | enumValueDefinition d => exact lays_enumValueDefinition h

end Ast.Node

end GraphQL
