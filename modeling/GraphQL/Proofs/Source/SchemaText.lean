import GraphQL.Proofs.Source.DeclarationText
import GraphQL.Proofs.Source.DocumentText

/-!
The texts of the definitions of a type system and of whole documents of them read back. What follows
a definition is the word or the description of the next one, which is no part of the first; only
after a directive without locations it has to be a description. Main statement: a document that
fits into source text is what its printed text is parsed to, unless a schema block is empty or there
are literals whose text does not read back.
-/
namespace GraphQL

open Ast
open GraphQL.Parser

variable {α β γ : Type} {k : Nat}

def definitionWords : List String :=
  ["schema", "scalar", "type", "interface", "union", "enum", "input", "directive"]

def StartsDefinition (t : Token) : Prop :=
  (∃ raw, t = .string raw) ∨ ∃ word ∈ definitionWords, t = .name word

/-- Nothing follows, or the start of a definition. -/
def BetweenDefinitions (us : List Token) : Prop := ∀ t ∈ us.head?, StartsDefinition t

theorem BetweenDefinitions.notNext {us : List Token} (h : BetweenDefinitions us)
    (ps : List Punctuator) : NotNext ps us := by
  intro p _ next
  rcases h _ next with ⟨raw, ⟨⟩⟩ | ⟨word, _, ⟨⟩⟩

theorem BetweenDefinitions.noInterfaces {us : List Token} (h : BetweenDefinitions us) :
    NoInterfaces us := by
  refine ⟨fun next => ?_, h.notNext _⟩
  rcases h _ next with ⟨raw, ⟨⟩⟩ | ⟨word, member, same⟩
  cases same
  revert member
  decide

theorem Parser.Reads.between {parser : Parser α} {ts : List Token} {result : α → Prop}
    {stops : List Punctuator} (h : Reads parser ts result stops) :
    ReadsBefore parser ts result BetweenDefinitions :=
  h.before_mono fun _ between => between.notNext stops

namespace Ast

/-- What may follow the definition. -/
def Definition.MayPrecede (d : Definition) (us : List Token) : Prop :=
  BetweenDefinitions us ∧ (d.IsPlaceless → ∀ word, us.head? ≠ some (.name word))

def Definition.Head (d : Definition) (t : Token) : Prop :=
  StartsDefinition t ∧ (d.description?.isSome = true → ∀ word, t ≠ .name word)

def Definition.DeclarationReadsBack (k : Nat) (d : Definition) : Prop :=
  ∃ ts, Prints k d.print ts ∧ StartsWith d.Head ts ∧ ∀ budget, ts.length ≤ budget →
    ReadsBefore (typeSystemDefinition budget) ts
      (fun x => Definition.ofTypeSystem none x = .ok d) d.MayPrecede

theorem head_of_described {d : Definition} {description : Option String} {word : String}
    (described : d.description? = descriptionOf description) (hw : word ∈ definitionWords)
    (ts : List Token) : StartsWith d.Head (descriptionTokens description ++ .name word :: ts) := by
  refine startsWith_described (fun raw _ => ⟨.inl ⟨raw, rfl⟩, fun _ _ => nofun⟩) ?_ ts
  rintro rfl
  refine ⟨.inr ⟨word, hw, rfl⟩, fun some => ?_⟩
  rw [described] at some
  cases some

theorem typeDefinition_readsBack {d : Definition} {description : Option String}
    {word name : String} {parts : List String} {tss : List (List Token)}
    (hw : word ∈ ["scalar", "type", "interface", "union", "enum", "input"])
    (hn : isName name = true)
    (slot : (Node.definition d).parts[0]? =
      some ((descriptionOf description).toList.map (Node.value ∘ .string)))
    (printable : (Node.definition d).Printable)
    (described : d.description? = descriptionOf description)
    (print : d.print = describe (descriptionOf description) (joinParts " " (word :: name :: parts)))
    (prints : List.Forall₂ (Prints k) parts tss)
    (reads : ∀ budget, tss.flatten.length ≤ budget →
      ReadsBefore (typeDefinition budget description) (.name word :: .name name :: tss.flatten)
        (fun t => Definition.ofType none t = d) BetweenDefinitions) :
    d.DeclarationReadsBack k := by
  have words : ∀ w ∈ ["scalar", "type", "interface", "union", "enum", "input"], isName w = true ∧
      w ∈ definitionWords ∧ w ≠ "schema" ∧ w ≠ "extend" ∧ w ≠ "directive" := by decide
  obtain ⟨wordName, defines, schema, extend, directive⟩ := words word hw
  have text := (Prints.joinParts (k := k) " " (by simp [IsBlank]) (by decide)
    (.cons (.token (.name wordName) rfl) (.cons (.token (.name hn) rfl) prints))).described
      description
  rw [← print] at text
  simp only [List.flatten_cons, List.cons_append, List.nil_append] at text
  refine ⟨_, text, head_of_described described defines _, fun budget budgeted => ?_⟩
  simp only [List.length_append, List.length_cons] at budgeted
  refine .otherWord schema (.otherWord extend (.description (plain_of_printable printable slot) ?_))
  refine .ifNotNextName (by simpa using directive) ?_
  refine .map ((reads budget (by omega)).before_mono fun us follows => follows.1) ?_
  rintro x rfl
  rfl

theorem sections_read {ds : List Directive} {text : String} {part : Nat → Parser γ}
    {result : γ → Prop} {opening : Punctuator} {stops : List Punctuator}
    (dirs : DirectivesReadBack k ds) (h : PartReadsBack k text part result opening stops)
    (apart : opening ∉ [.at, .parenLeft]) :
    ∃ ts us, Prints k (printDirectives ds) ts ∧ Prints k text us ∧ Opens .at ts ∧
      Opens opening us ∧ ∀ budget, (ts ++ us).length ≤ budget →
        ∀ {β : Type} {f : List TypeSystem.Directive → γ → β} {final : β → Prop},
          (∀ xs y, ds = xs.map (.located none) → result y → final (f xs y)) →
          ReadsBefore
            (Parser.directives budget >>= fun xs => part budget >>= fun y => pure (f xs y))
            (ts ++ us) final BetweenDefinitions := by
  obtain ⟨ts, dirsPrints, dirsOpens, dirsReads⟩ := dirs
  obtain ⟨us, partPrints, partOpens, partReads⟩ := h
  refine ⟨ts, us, dirsPrints, partPrints, dirsOpens, partOpens,
    fun budget budgeted β f final imp => ?_⟩
  rw [List.length_append] at budgeted
  refine .bind (dirsReads budget (by omega)) (fun xs hxs => ?_) fun vs between => ?_
  · exact .map (partReads budget (by omega)).between fun y hy => imp xs y hxs hy
  · exact partOpens.notNext apart (between.notNext _)

/-- Interfaces, then directives and a block of fields. -/
theorem fieldedSections_read {interfaces : List String} {ds : List Directive}
    {fields : List FieldDefinition} (hi : ∀ text ∈ interfaces, isName text = true)
    (dirs : DirectivesReadBack k ds)
    (hf : PartReadsBack k (blockOf (fields.map FieldDefinition.print)) fieldsBlock
      (fields = List.map (.located none) ·) .braceLeft [.braceLeft]) :
    ∃ its ts us, Prints k (printInterfaces (namedTypes interfaces)) its ∧
      Prints k (printDirectives ds) ts ∧
      Prints k (blockOf (fields.map FieldDefinition.print)) us ∧
      ∀ budget, (its ++ (ts ++ us)).length ≤ budget →
        ∀ {β : Type} {f : List String → List TypeSystem.Directive → List TypeSystem.Field → β}
          {final : β → Prop},
          (∀ xs ys, ds = xs.map (.located none) → fields = ys.map (.located none) →
            final (f interfaces xs ys)) →
          ReadsBefore
            (Parser.interfaces budget >>= fun is => Parser.directives budget >>= fun xs =>
              fieldsBlock budget >>= fun ys => pure (f is xs ys))
            (its ++ (ts ++ us)) final BetweenDefinitions := by
  obtain ⟨its, prints, reads⟩ := interfaces_readBack (k := k) hi
  obtain ⟨ts, us, dirsPrints, partPrints, dirsOpens, partOpens, sections⟩ :=
    sections_read dirs hf (by simp)
  refine ⟨its, ts, us, prints, dirsPrints, partPrints, fun budget budgeted β f final imp => ?_⟩
  rw [List.length_append] at budgeted
  refine .bind (reads budget (by omega)) (fun is his => ?_) fun vs between => ?_
  · subst his
    exact sections budget (by omega) imp
  · rw [List.append_assoc]
    exact dirsOpens.noInterfaces (by simp) (partOpens.noInterfaces (by simp) between.noInterfaces)

theorem scalar_readsBack {description : Option String} {name : String}
    {directives : List Directive} (hn : isName name = true)
    (hds : DirectivesReadBack k directives)
    (printable : (Node.definition (.scalar ⟨descriptionOf description, ⟨name, none⟩, directives,
      none⟩)).Printable) :
    Definition.DeclarationReadsBack k (.scalar ⟨descriptionOf description, ⟨name, none⟩, directives,
      none⟩) := by
  obtain ⟨ts, prints, -, reads⟩ := hds
  refine typeDefinition_readsBack (by simp) hn rfl printable rfl rfl (.cons prints .nil)
    fun budget budgeted => ?_
  rw [List.flatten_cons, List.flatten_nil, List.append_nil] at budgeted ⊢
  refine .position fun p => .peek (.advance (.name (.map (reads budget budgeted).between ?_)))
  rintro xs rfl
  rfl

theorem object_readsBack {description : Option String} {name : String} {interfaces : List String}
    {directives : List Directive} {fields : List FieldDefinition} (hn : isName name = true)
    (hi : ∀ text ∈ interfaces, isName text = true) (hds : DirectivesReadBack k directives)
    (hf : PartReadsBack k (blockOf (fields.map FieldDefinition.print)) fieldsBlock
      (fields = List.map (.located none) ·) .braceLeft [.braceLeft])
    (printable : (Node.definition (.object ⟨descriptionOf description, ⟨name, none⟩,
      namedTypes interfaces, directives, fields, none⟩)).Printable) :
    Definition.DeclarationReadsBack k (.object ⟨descriptionOf description, ⟨name, none⟩,
      namedTypes interfaces, directives, fields, none⟩) := by
  obtain ⟨its, ts, us, interfacesPrint, dirsPrints, fieldsPrint, reads⟩ :=
    fieldedSections_read hi hds hf
  refine typeDefinition_readsBack (by simp) hn rfl printable rfl rfl
    (.cons interfacesPrint (.cons dirsPrints (.cons fieldsPrint .nil))) fun budget budgeted => ?_
  simp only [List.flatten_cons, List.flatten_nil, List.append_nil] at budgeted ⊢
  refine .position fun p => .peek (.advance (.name (reads budget budgeted ?_)))
  rintro xs ys rfl rfl
  rfl

theorem interface_readsBack {description : Option String} {name : String}
    {interfaces : List String} {directives : List Directive} {fields : List FieldDefinition}
    (hn : isName name = true) (hi : ∀ text ∈ interfaces, isName text = true)
    (hds : DirectivesReadBack k directives)
    (hf : PartReadsBack k (blockOf (fields.map FieldDefinition.print)) fieldsBlock
      (fields = List.map (.located none) ·) .braceLeft [.braceLeft])
    (printable : (Node.definition (.interface ⟨descriptionOf description, ⟨name, none⟩,
      namedTypes interfaces, directives, fields, none⟩)).Printable) :
    Definition.DeclarationReadsBack k (.interface ⟨descriptionOf description, ⟨name, none⟩,
      namedTypes interfaces, directives, fields, none⟩) := by
  obtain ⟨its, ts, us, interfacesPrint, dirsPrints, fieldsPrint, reads⟩ :=
    fieldedSections_read hi hds hf
  refine typeDefinition_readsBack (by simp) hn rfl printable rfl rfl
    (.cons interfacesPrint (.cons dirsPrints (.cons fieldsPrint .nil))) fun budget budgeted => ?_
  simp only [List.flatten_cons, List.flatten_nil, List.append_nil] at budgeted ⊢
  refine .position fun p => .peek (.advance (.name (reads budget budgeted ?_)))
  rintro xs ys rfl rfl
  rfl

theorem union_readsBack {description : Option String} {name : String}
    {directives : List Directive} {types : List String} (hn : isName name = true)
    (hds : DirectivesReadBack k directives) (ht : ∀ text ∈ types, isName text = true)
    (printable : (Node.definition (.union ⟨descriptionOf description, ⟨name, none⟩, directives,
      namedTypes types, none⟩)).Printable) :
    Definition.DeclarationReadsBack k (.union ⟨descriptionOf description, ⟨name, none⟩, directives,
      namedTypes types, none⟩) := by
  obtain ⟨ts, us, dirsPrints, partPrints, -, -, reads⟩ :=
    sections_read hds (members_readBack ht) (by simp)
  refine typeDefinition_readsBack (by simp) hn rfl printable rfl rfl
    (.cons dirsPrints (.cons partPrints .nil)) fun budget budgeted => ?_
  rw [List.flatten_cons, List.flatten_cons, List.flatten_nil, List.append_nil] at budgeted ⊢
  refine .position fun p => .peek (.advance (.name (reads budget budgeted ?_)))
  rintro xs y rfl rfl
  rfl

theorem enum_readsBack {description : Option String} {name : String}
    {directives : List Directive} {values : List EnumValueDefinition} (hn : isName name = true)
    (hds : DirectivesReadBack k directives)
    (hv : PartReadsBack k (blockOf (values.map EnumValueDefinition.print))
      (fun budget => optionalEnclosed .braceLeft .braceRight (enumValueDefinition budget) budget)
      (values = List.map (.located none) ·) .braceLeft [.braceLeft])
    (printable : (Node.definition (.enum ⟨descriptionOf description, ⟨name, none⟩, directives,
      values, none⟩)).Printable) :
    Definition.DeclarationReadsBack k (.enum ⟨descriptionOf description, ⟨name, none⟩, directives,
      values, none⟩) := by
  obtain ⟨ts, us, dirsPrints, partPrints, -, -, reads⟩ := sections_read hds hv (by simp)
  refine typeDefinition_readsBack (by simp) hn rfl printable rfl rfl
    (.cons dirsPrints (.cons partPrints .nil)) fun budget budgeted => ?_
  rw [List.flatten_cons, List.flatten_cons, List.flatten_nil, List.append_nil] at budgeted ⊢
  refine .position fun p => .peek (.advance (.name (reads budget budgeted ?_)))
  rintro xs y rfl rfl
  rfl

theorem inputObject_readsBack {description : Option String} {name : String}
    {directives : List Directive} {fields : List InputValueDefinition} (hn : isName name = true)
    (hds : DirectivesReadBack k directives)
    (hf : PartReadsBack k (blockOf (fields.map InputValueDefinition.print))
      (fun budget => optionalEnclosed .braceLeft .braceRight (inputValue budget) budget)
      (fields = List.map (.located none) ·) .braceLeft [.braceLeft])
    (printable : (Node.definition (.inputObject ⟨descriptionOf description, ⟨name, none⟩,
      directives, fields, none⟩)).Printable) :
    Definition.DeclarationReadsBack k (.inputObject ⟨descriptionOf description, ⟨name, none⟩,
      directives, fields, none⟩) := by
  obtain ⟨ts, us, dirsPrints, partPrints, -, -, reads⟩ := sections_read hds hf (by simp)
  refine typeDefinition_readsBack (by simp) hn rfl printable rfl rfl
    (.cons dirsPrints (.cons partPrints .nil)) fun budget budgeted => ?_
  rw [List.flatten_cons, List.flatten_cons, List.flatten_nil, List.append_nil] at budgeted ⊢
  refine .position fun p => .peek (.advance (.name (reads budget budgeted ?_)))
  rintro xs y rfl rfl
  rfl

def OperationTypeDefinition.entry (root : OperationTypeDefinition) : String × String :=
  (root.operation.text, root.type.name.value)

theorem rootEntry_readsBack {root : OperationTypeDefinition}
    (h : isName root.type.name.value = true) :
    ReadsBack k root.print (fun _ => rootEntry) (root.entry = ·) IsWord [] := by
  have text := (Prints.token (k := k) (.name h) rfl).labelled root.operation.isName_text
  refine ⟨_, text, ⟨_, rfl, _, rfl⟩, fun budget _ => ?_⟩
  exact .name (.punctuator (.name (.pure rfl)))

/-- The parser finds the root types again among the entries. -/
theorem rootTypes_entries (query mutation subscription : Option String)
    {entries : List (String × String)}
    (h : entries = (rootTypes query mutation subscription).map OperationTypeDefinition.entry) :
    rootNamesValid entries = true ∧ entries.lookup "query" = query ∧
      entries.lookup "mutation" = mutation ∧ entries.lookup "subscription" = subscription := by
  subst h
  cases query <;> cases mutation <;> cases subscription <;> exact ⟨rfl, rfl, rfl, rfl⟩

theorem schema_readsBack {directives : List Directive}
    {query mutation subscription : Option String} (hds : DirectivesReadBack k directives)
    (hr : Bracketed (fun _ root => isName root.type.name.value = true) k
      (rootTypes query mutation subscription))
    (some : rootTypes query mutation subscription ≠ []) :
    Definition.DeclarationReadsBack k
      (.schema ⟨directives, rootTypes query mutation subscription, none⟩) := by
  cases k with
  | zero => exact absurd hr some
  | succ k =>
  obtain ⟨ts, dirsPrints, dirsOpens, dirsReads⟩ := hds
  obtain ⟨tss, prints, count, reads⟩ := ReadsBack.each (k := k) fun root hroot =>
    rootEntry_readsBack (hr root hroot)
  have text := Prints.joinParts " " (by simp [IsBlank]) (by decide)
    (.cons (Prints.token (t := .name "schema") (.name (by decide)) rfl) (.cons dirsPrints
      (.cons (Prints.block (flatten_ne_nil count some) prints) .nil)))
  simp only [List.flatten_cons, List.flatten_nil, List.append_nil, List.singleton_append] at text
  refine ⟨_, text, ⟨_, rfl, .inr ⟨_, by decide, rfl⟩, fun some => ?_⟩, fun budget budgeted => ?_⟩
  · cases some
  simp only [List.length_cons, List.length_append, List.length_nil] at budgeted
  have block : ReadsBefore (schemaDefinition budget)
      (.name "schema" :: (ts ++ .punctuator .braceLeft :: (tss.flatten ++
        [.punctuator .braceRight])))
      (fun d => SchemaDefinition.located none d =
        ⟨directives, rootTypes query mutation subscription, none⟩)
      (Definition.schema ⟨directives, rootTypes query mutation subscription, none⟩).MayPrecede := by
    refine .position fun p => .keyword (.bind (dirsReads budget (by omega)) (fun xs hxs => ?_)
      fun us _ => ?_)
    · have items : Reads (Parser.itemsUntil .braceRight rootEntry budget)
          (tss.flatten ++ [.punctuator .braceRight]) _ [] :=
        .itemsUntil (reads budget (by omega)) (by rintro _ ⟨_, rfl⟩; simp) (by simp) (by omega)
      rw [← List.append_nil (tss.flatten ++ _)]
      refine .punctuator (.andThen items fun r hr => ?_)
      rw [← List.forall₂_map_left_iff, List.forall₂_eq_eq_eq] at hr
      obtain ⟨valid, queries, mutations, subscriptions⟩ := rootTypes_entries _ _ _ hr.symm
      dsimp only
      rw [if_pos valid, queries, mutations, subscriptions]
      refine .pure ?_
      rw [hxs]
      rfl
    · exact .cons (by simp) _
  refine .ifNextName (.map block fun d hd => ?_)
  rw [Definition.ofTypeSystem, hd]

theorem location_reads {text : String} (h : text ∈ directiveLocations) (stops : List Punctuator) :
    Reads directiveLocation [.name text] (text = ·) stops := by
  refine .peek ?_
  dsimp only
  rw [if_pos h]
  exact .advance (.pure rfl)

theorem places_readBack {locations : List String}
    (h : ∀ text ∈ locations, text ∈ directiveLocations) :
    ∃ ts, Prints k (joinParts " | " locations) ts ∧ ∀ budget, ts.length ≤ budget →
      ReadsBefore (directivePlaces budget) ts (locations = ·) fun us => BetweenDefinitions us ∧
        (locations = [] → ∀ word, us.head? ≠ some (.name word)) := by
  have names : ∀ text ∈ directiveLocations, isName text = true := by decide
  have between : " | " = " " ++ ("|" ++ " ") := rfl
  have prints := Prints.separated (k := k) (p := .pipe) rfl between rfl
    fun text ht => names text (h text ht)
  refine ⟨_, prints, fun budget budgeted => ?_⟩
  cases locations with
  | nil =>
    rintro lexemes us tokens ⟨starts, unnamed⟩
    have next : lexemes.head?.map (·.token) = us.head? := by
      rw [← List.head?_map, tokens]
      rfl
    have stays : directivePlaces budget lexemes = .ok ([], lexemes) := by
      rw [directivePlaces, peek_run, next]
      cases first : us.head? with
      | none => rfl
      | some t =>
        rcases starts t first with ⟨raw, rfl⟩ | ⟨word, -, rfl⟩
        · rfl
        · exact absurd first (unnamed rfl word)
    exact ⟨[], lexemes, stays, rfl, tokens⟩
  | cons location locations =>
    refine .peek ((Reads.separated (fun text ht => location_reads (h text ht) _)
      (List.cons_ne_nil _ _) ?_).before_mono fun us follows => follows.1.notNext _)
    exact Nat.le_trans (length_separatedTokens _ _) budgeted

theorem repeatable_prints (repeatable : Bool) {text : String} {ts : List Token}
    (h : Prints k text ts) :
    Prints k ((if repeatable then " repeatable" else "") ++ (" " ++ text))
        ((if repeatable then [.name "repeatable"] else []) ++ ts) ∧
      Stops ((if repeatable then " repeatable" else "") ++ (" " ++ text)).toList := by
  have blank : ∀ b ∈ " ".toList, IsBlank b := by simp [IsBlank]
  cases repeatable with
  | false =>
    rw [if_neg Bool.false_ne_true, if_neg Bool.false_ne_true, String.empty_append]
    exact ⟨h.blanks blank, .text rfl rfl _⟩
  | true =>
    have word : " repeatable" = " " ++ "repeatable" := rfl
    rw [if_pos rfl, if_pos rfl, word, String.append_assoc]
    exact ⟨(@Prints.word k "repeatable" _ _ (by decide) h).blanks blank, .text rfl rfl _⟩

theorem directive_prints {name : String} {arguments : List InputValueDefinition}
    (repeatable : Bool) {locations : List String} {ats lts : List Token} (hn : isName name = true)
    (argumentsPrint : Prints k (printArgumentDefinitions arguments) ats)
    (placesPrint : Prints k (joinParts " | " locations) lts) :
    Prints k ("directive @" ++ name ++ printArgumentDefinitions arguments ++
        (if repeatable then " repeatable" else "") ++ " on " ++
          joinParts " | " ((locations.map fun text => (⟨text, none⟩ : Name)).map Name.value))
      (.name "directive" :: .punctuator .at :: .name name :: (ats ++
        ((if repeatable then [.name "repeatable"] else []) ++ .name "on" :: lts))) := by
  have on := @Prints.word k "on" _ _ (by decide) placesPrint
  obtain ⟨tail, tailStops⟩ := repeatable_prints repeatable on
  have argumentStops : Stops (printArgumentDefinitions arguments ++
      ((if repeatable then " repeatable" else "") ++ (" " ++ ("on" ++ (" " ++
        joinParts " | " locations))))).toList := by
    rw [String.toList_append]
    exact (stops_arguments arguments).append tailStops
  have named := ((Prints.token (k := k) (.name hn) rfl).append argumentStops
    (argumentsPrint.append tailStops tail)).punctuator .at "@" rfl rfl
  have text := @Prints.word k "directive" _ _ (by decide) named
  have first : "directive @" = "directive" ++ (" " ++ "@") := rfl
  have last : " on " = " " ++ ("on" ++ " ") := rfl
  have values : (locations.map fun text => (⟨text, none⟩ : Name)).map Name.value = locations := by
    rw [List.map_map]
    exact List.map_id' locations
  rw [first, last, values]
  simpa only [String.append_assoc, List.singleton_append] using text

theorem directive_readsBack {description : Option String} {name : String}
    {arguments : List InputValueDefinition} {repeatable : Bool} {locations : List String}
    (hn : isName name = true)
    (ha : PartReadsBack k (printArgumentDefinitions arguments) argumentDefinitions
      (arguments = List.map (.located none) ·) .parenLeft [.parenLeft])
    (hl : ∀ text ∈ locations, text ∈ directiveLocations)
    (printable : (Node.definition (.directive ⟨descriptionOf description, ⟨name, none⟩, arguments,
      repeatable, locations.map (⟨·, none⟩), none⟩)).Printable) :
    Definition.DeclarationReadsBack k (.directive ⟨descriptionOf description, ⟨name, none⟩,
      arguments, repeatable, locations.map (⟨·, none⟩), none⟩) := by
  obtain ⟨ats, argumentsPrint, argumentOpens, argumentReads⟩ := ha
  obtain ⟨lts, placesPrint, placesRead⟩ := places_readBack (k := k) hl
  have text := directive_prints repeatable hn argumentsPrint placesPrint
  refine ⟨_, text.described description, head_of_described rfl (by decide) _,
    fun budget budgeted => ?_⟩
  simp only [List.length_append, List.length_cons] at budgeted
  refine .otherWord (by decide) (.otherWord (by decide)
    (.description (plain_of_printable printable rfl) (.ifNextName ?_)))
  have definition : ReadsBefore (directiveDefinition budget description) (.name "directive" ::
      .punctuator .at :: .name name :: (ats ++ ((if repeatable then [.name "repeatable"] else []) ++
        .name "on" :: lts)))
      (fun d => DirectiveDefinition.located none d = ⟨descriptionOf description, ⟨name, none⟩,
        arguments, repeatable, locations.map (⟨·, none⟩), none⟩)
      (Definition.directive ⟨descriptionOf description, ⟨name, none⟩, arguments, repeatable,
        locations.map (⟨·, none⟩), none⟩).MayPrecede := by
    refine .position fun p => .keyword (.punctuator (.name ?_))
    refine .bind (argumentReads budget (by omega)) (fun xs hxs => ?_) fun us _ => ?_
    · have places : ReadsBefore (Parser.keyword "on" >>= fun _ => directivePlaces budget >>= fun ls =>
          pure (⟨p, description, name, xs, repeatable, ls⟩ : TypeSystem.DirectiveDefinition))
          (.name "on" :: lts) (fun d => DirectiveDefinition.located none d =
            ⟨descriptionOf description, ⟨name, none⟩, arguments, repeatable,
              locations.map (⟨·, none⟩), none⟩)
          (Definition.directive ⟨descriptionOf description, ⟨name, none⟩, arguments, repeatable,
            locations.map (⟨·, none⟩), none⟩).MayPrecede := by
        refine .keyword (.map ((placesRead budget (by omega)).before_mono ?_) ?_)
        · rintro us ⟨between, placed⟩
          exact ⟨between, fun none => placed (by rw [none]; rfl)⟩
        · rintro ls rfl
          rw [hxs]
          rfl
      cases repeatable with
      | true => exact .head (tests_nextIsName _) (.advance places)
      | false => exact .notHead (tests_nextIsName _) (by simp) places
    · cases repeatable <;> exact .cons (by simp) _
  refine .map definition fun d hd => ?_
  rw [Definition.ofTypeSystem, hd]

theorem Definition.Declares.readsBack {d : Definition} (declares : d.Declares k)
    (rooted : ∀ s, d = .schema s → s.operationTypes ≠ [])
    (printable : (Node.definition d).Printable) : d.DeclarationReadsBack k := by
  cases declares with
  | schema hds hr =>
    refine schema_readsBack (directives_readBack hds fun d hd => ?_) hr (rooted _ rfl)
    exact printable.part 0 rfl (List.mem_map_of_mem hd)
  | scalar hn hds =>
    refine scalar_readsBack hn (directives_readBack hds fun d hd => ?_) printable
    exact printable.part 2 rfl (List.mem_map_of_mem hd)
  | object hn hi hds hf =>
    refine object_readsBack hn hi (directives_readBack hds fun d hd => ?_)
      (block_readsBack hf (fun j f hf fits => fits.readsBack ?_) (by simp)) printable
    · exact printable.part 3 rfl (List.mem_map_of_mem hd)
    · exact printable.part 4 rfl (List.mem_map_of_mem hf)
  | interface hn hi hds hf =>
    refine interface_readsBack hn hi (directives_readBack hds fun d hd => ?_)
      (block_readsBack hf (fun j f hf fits => fits.readsBack ?_) (by simp)) printable
    · exact printable.part 3 rfl (List.mem_map_of_mem hd)
    · exact printable.part 4 rfl (List.mem_map_of_mem hf)
  | union hn hds ht =>
    refine union_readsBack hn (directives_readBack hds fun d hd => ?_) ht printable
    exact printable.part 2 rfl (List.mem_map_of_mem hd)
  | enum hn hds hv =>
    refine enum_readsBack hn (directives_readBack hds fun d hd => ?_)
      (block_readsBack hv (fun j v hv fits => fits.readsBack ?_) (by simp)) printable
    · exact printable.part 2 rfl (List.mem_map_of_mem hd)
    · exact printable.part 3 rfl (List.mem_map_of_mem hv)
  | inputObject hn hds hf =>
    refine inputObject_readsBack hn (directives_readBack hds fun d hd => ?_)
      (block_readsBack hf (fun j f hf fits => fits.readsBack ?_) (by simp [inputValueStops]))
      printable
    · exact printable.part 2 rfl (List.mem_map_of_mem hd)
    · exact printable.part 3 rfl (List.mem_map_of_mem hf)
  | directive hn ha hl =>
    refine directive_readsBack hn (argumentDefinitions_readBack ha fun a ha => ?_) hl printable
    exact printable.part 2 rfl (List.mem_map_of_mem ha)

/-- A definition may precede another one that shows where it starts. -/
theorem Definition.mayPrecede {d e : Definition} {us : List Token} (h : StartsWith e.Head us)
    (apart : d.IsPlaceless → e.description?.isSome = true) : d.MayPrecede us := by
  obtain ⟨t, first, starts, unnamed⟩ := h
  rw [Option.mem_def] at first
  refine ⟨fun u hu => ?_, fun placeless word next => ?_⟩
  · rw [Option.mem_def, first] at hu
    cases hu
    exact starts
  · rw [first] at next
    cases next
    exact unnamed (apart placeless) word rfl

theorem Definition.mayPrecede_nil (d : Definition) : d.MayPrecede [] :=
  ⟨nofun, fun _ _ => nofun⟩

/-- Definitions whose texts read back are read in turn. -/
theorem inTurn_of_declarations {ds : List Definition}
    (apart : ds.IsChain fun d e => d.IsPlaceless → e.description?.isSome = true)
    (h : ∀ d ∈ ds, d.DeclarationReadsBack k) :
    ∃ tss, List.Forall₂ (Prints k) (ds.map Definition.print) tss ∧
      (∀ d ∈ ds.head?, StartsWith d.Head tss.flatten) ∧ ∀ budget, tss.flatten.length ≤ budget →
        InTurn (typeSystemDefinition budget) (fun d x => Definition.ofTypeSystem none x = .ok d) ds
          tss := by
  induction ds with
  | nil => exact ⟨[], .nil, nofun, fun _ _ => .nil⟩
  | cons d ds ih =>
    obtain ⟨⟨ts, prints, starts, reads⟩, h⟩ := List.forall_mem_cons.mp h
    obtain ⟨tss, prints', starts', reads'⟩ := ih apart.tail h
    have follows : d.MayPrecede tss.flatten := by
      cases ds with
      | nil =>
        cases prints'
        exact d.mayPrecede_nil
      | cons e ds => exact Definition.mayPrecede (starts' e rfl) apart.rel
    refine ⟨ts :: tss, .cons prints prints', ?_, fun budget budgeted => ?_⟩
    · rintro _ ⟨⟩
      obtain ⟨t, first, head⟩ := starts
      obtain ⟨rest, rfl⟩ := List.head?_eq_some_iff.mp first
      exact ⟨t, rfl, head⟩
    · rw [List.flatten_cons, List.length_append] at budgeted
      refine .cons starts.ne_nil ((reads budget (by omega)).before_mono ?_)
        (reads' budget (by omega))
      rintro _ rfl
      exact follows

/-- A document that fits into source text is what its printed text is parsed to. -/
theorem Document.Declares.parse_print {d : Document} (declares : d.Declares)
    (rooted : ∀ s, .schema s ∈ d.definitions → s.operationTypes ≠ [])
    (printable : (Node.document d).Printable) : parseSchema d.print false = .ok d := by
  obtain ⟨definitions, loc⟩ := d
  obtain ⟨some, declares, apart, rfl⟩ := declares
  dsimp only at some declares apart rooted
  obtain ⟨tss, prints, -, reads⟩ := inTurn_of_declarations apart fun d hd =>
    (declares d hd).readsBack (fun s same => rooted s (same ▸ hd))
      (printable.part 0 rfl (List.mem_map_of_mem hd))
  obtain ⟨xs, run, found⟩ := Prints.run prints some reads
  exact parseSchema_eq_ok.mpr ⟨xs, run, Document.ofTypeSystem_eq_ok.mpr ⟨rfl, found⟩⟩

end Ast

end GraphQL
