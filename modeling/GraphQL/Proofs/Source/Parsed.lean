import GraphQL.Proofs.Number.Digits
import GraphQL.Proofs.Source.Sound

/-!
What source text is parsed to. Main statement: a document that is parsed without spans is one that
source text can stand for.
-/
namespace GraphQL

open Ast

namespace Literal

theorem mem_insertField {name : String} {value : Literal} {fields : List (String × Literal)}
    {field : String × Literal} (h : field ∈ insertField name value fields) :
    field = (name, value) ∨ field ∈ fields := by
  induction fields with
  | nil => exact .inl (List.mem_singleton.mp h)
  | cons first fields ih =>
    rw [insertField] at h
    split_ifs at h
    · exact List.mem_cons.mp h
    · exact (List.mem_cons.mp h).imp_right (List.mem_cons_of_mem _)
    · rcases List.mem_cons.mp h with rfl | h
      · exact .inr List.mem_cons_self
      · exact (ih h).imp_right (List.mem_cons_of_mem _)

theorem insertField_sorted {name : String} {value : Literal} {fields : List (String × Literal)}
    (h : fields.Pairwise (·.1 < ·.1)) : (insertField name value fields).Pairwise (·.1 < ·.1) := by
  induction fields with
  | nil => exact List.pairwise_singleton _ _
  | cons first fields ih =>
    obtain ⟨before, later⟩ := List.pairwise_cons.mp h
    rw [insertField]
    split_ifs with less same
    · refine List.pairwise_cons.mpr ⟨fun f hf => ?_, h⟩
      rcases List.mem_cons.mp hf with rfl | hf
      · exact less
      · exact String.lt_trans less (before f hf)
    · exact List.pairwise_cons.mpr ⟨same ▸ before, later⟩
    · refine List.pairwise_cons.mpr ⟨fun f hf => ?_, ih later⟩
      rcases mem_insertField hf with rfl | hf
      · exact String.not_le.mp fun le => same (String.le_antisymm le (String.not_lt.mp less))
      · exact before f hf

/-- An object has the fields of its source, in name order and once each. -/
theorem ofFields_spec (fields : List (String × Literal)) :
    ∃ sorted, ofFields fields = .object sorted ∧ sorted.Pairwise (·.1 < ·.1) ∧
      ∀ field ∈ sorted, field ∈ fields := by
  refine ⟨_, rfl, ?_⟩
  have built (done : List (String × Literal)) (hd : done.Pairwise (·.1 < ·.1)) :
      (fields.foldl (fun sorted field => insertField field.1 field.2 sorted) done).Pairwise
          (·.1 < ·.1) ∧
        ∀ field ∈ fields.foldl (fun sorted field => insertField field.1 field.2 sorted) done,
          field ∈ done ∨ field ∈ fields := by
    induction fields generalizing done with
    | nil => exact ⟨hd, fun field h => .inl h⟩
    | cons first fields ih =>
      obtain ⟨sorted, members⟩ := ih (insertField first.1 first.2 done) (insertField_sorted hd)
      refine ⟨sorted, fun field h => ?_⟩
      rcases members field h with h | h
      · rcases mem_insertField h with rfl | h
        · exact .inr List.mem_cons_self
        · exact .inl h
      · exact .inr (List.mem_cons_of_mem _ h)
  obtain ⟨sorted, members⟩ := built [] .nil
  exact ⟨sorted, fun field h => (members field h).resolve_left List.not_mem_nil⟩

end Literal

namespace Parser.Ensures

variable {k : Nat}

theorem string : Ensures k Parser.string (fun _ => True) k := by
  refine peek (fun t => ?_) fail
  cases t with
  | string raw =>
    dsimp only
    split
    · exact .advance_flat rfl fun _ => pure trivial
    · exact fail.here
  | blockString raw => exact .advance_flat rfl fun _ => pure trivial
  | _ => exact fail.here

theorem word {text : String} (h : isName text = true) (constant : Bool) :
    Literal.Fits constant k (if text = "true" then .boolean true
      else if text = "false" then .boolean false
      else if text = "null" then .null
      else .enum text) := by
  split_ifs with «true» «false» null
  · cases k <;> trivial
  · cases k <;> trivial
  · cases k <;> trivial
  · cases k <;> exact ⟨h, «true», «false», null⟩

theorem named {constant : Bool} {value : Parser Literal}
    (h : Ensures k value (Literal.Fits constant k) k) :
    Ensures k (do
        let key ← Parser.name
        Parser.punctuator .colon
        return (key, ← value))
      (fun field => isName field.1 = true ∧ field.2.Fits constant k) k := by
  refine bind name fun text hn => bind (flat rfl) fun _ _ => ?_
  exact map h fun literal fits => ⟨hn, fits⟩

theorem value (constant : Bool) (budget : Nat) :
    Ensures k (value constant budget) (Literal.Fits constant k) k := by
  induction budget generalizing k with
  | zero => exact fail
  | succ budget ih =>
    refine peek (fun t => ?_) fail
    cases t with
    | name text => exact .advance_flat rfl fun valid => pure (word (valid text rfl) constant)
    | int text =>
      dsimp only
      split
      · rename_i n read
        have range := inInt64_of_readInt64 read
        exact .advance_flat rfl fun _ => pure (by cases k <;> exact range)
      · exact fail.here
    | float text =>
      dsimp only
      split
      · exact .advance_flat rfl fun _ => pure (by cases k <;> trivial)
      · exact fail.here
    | string raw => exact here (map string fun text _ => by cases k <;> trivial)
    | blockString raw => exact here (map string fun text _ => by cases k <;> trivial)
    | punctuator p =>
      cases p with
      | dollar =>
        dsimp only
        split_ifs with const
        · exact fail.here
        · refine .advance_flat rfl fun _ => map name fun text hn => ?_
          cases k <;> exact ⟨Bool.not_eq_true _ ▸ const, hn⟩
      | bracketLeft =>
        refine .advance fun i level _ => ?_
        obtain rfl := nestingAfter?_opening rfl level
        exact map (itemsUntil ih rfl rfl) fun r hr => hr
      | braceLeft =>
        refine .advance fun i level _ => ?_
        obtain rfl := nestingAfter?_opening rfl level
        refine map (itemsUntil (named ih) rfl rfl) fun r hr => ?_
        obtain ⟨sorted, object, order, members⟩ := Literal.ofFields_spec r.1
        rw [object]
        exact ⟨order, fun field hf => hr field (members field hf)⟩
      | _ => exact fail.here

theorem arguments (constant : Bool) (budget : Nat) :
    Ensures k (arguments constant budget)
      (Bracketed (fun i a => isName a.1 = true ∧ Literal.Fits constant i a.2) k) k :=
  optionalEnclosed (fun _ => named (value constant budget)) rfl rfl rfl

theorem argumentsOf_fit {as : List (String × Literal)}
    (h : Bracketed (fun i a => isName a.1 = true ∧ Literal.Fits false i a.2) k as) :
    Bracketed Argument.Fits k (argumentsOf as) := by
  cases k with
  | zero =>
    obtain rfl : as = [] := h
    rfl
  | succ k =>
    intro a ha
    obtain ⟨field, hf, rfl⟩ := List.mem_map.mp ha
    exact ⟨(h field hf).1, (h field hf).2⟩

theorem directive (budget : Nat) :
    Ensures k (directive budget) (fun d => (Directive.located none d).Fits k) k := by
  refine bind position fun p _ => bind (flat rfl) fun _ _ => bind name fun text hn => ?_
  exact map (arguments false budget) fun as fits => ⟨hn, argumentsOf_fit fits⟩

theorem directives (budget : Nat) :
    Ensures k (directives budget)
      (fun ds => ∀ d ∈ ds.map (Directive.located none), d.Fits k) k := by
  refine (itemsWhile (directive budget)).mono fun ds fits => ?_
  exact List.forall_mem_map.mpr fits

theorem typeRef (budget : Nat) : Ensures k (typeRef budget) (TypeRef.Fits k) k := by
  induction budget generalizing k with
  | zero => exact fail
  | succ budget ih =>
    have core : Ensures k (typeCore (Parser.typeRef budget))
        (fun type => type.isNonNull = false ∧ type.Fits k) k := by
      refine ifNext (.advance fun i level _ => ?_) (map name fun text hn => ?_)
      · obtain rfl := nestingAfter?_opening rfl level
        exact bind ih fun item fits => bind (closing rfl rfl) fun _ _ => pure ⟨rfl, fits⟩
      · exact ⟨rfl, by cases k <;> exact hn⟩
    refine bind core fun type fits => ifNext (.advance_flat rfl fun _ => pure ?_) (pure fits.2)
    cases k <;> exact fits

theorem default (budget : Nat) :
    Ensures k (default budget) (fun value => ∀ literal ∈ value, Literal.Fits true k literal) k := by
  refine ifNext (.advance_flat rfl fun _ => map (value true budget) ?_) (pure (by simp))
  rintro literal fits _ ⟨⟩
  exact fits

theorem variableDefinition (budget : Nat) :
    Ensures k (variableDefinition none budget) (VariableDefinition.Fits k) k := by
  refine bind position fun p _ => bind (flat rfl) fun _ _ => bind name fun text hn =>
    bind (flat rfl) fun _ _ => bind (typeRef budget) fun type ht => ?_
  exact map (default budget) fun value hv => ⟨hn, ht, hv⟩

theorem secondName : Ensures k (do
        if ← nextIs .colon then
          advance
          return some (← Parser.name)
        else return none)
      (fun found => ∀ text ∈ found, isName text = true) k := by
  refine ifNext (.advance_flat rfl fun _ => map name ?_) (pure (by simp))
  rintro text hn _ ⟨⟩
  exact hn

section Selections

variable {sets : Parser SelectionSet} {inner : SelectionSet → Prop}
  (h : Ensures k sets inner k)

include h

theorem field (budget : Nat) (p : Position) {first : String} (hn : isName first = true) :
    Ensures k (field none sets budget p first) (fun f => Selection.Fits inner k (.field f)) k := by
  refine bind secondName fun second hs => bind (arguments false budget) fun as ha =>
    bind (directives budget) fun ds hd => ?_
  have braces : Ensures k (do if ← nextIs .braceLeft then return some (← sets) else return none)
      (fun set => ∀ s ∈ set, inner s) k := by
    refine ifNext (here (map h ?_)) (pure (by simp))
    rintro s hs _ ⟨⟩
    exact hs
  refine bind braces fun set hset => pure ?_
  have args := argumentsOf_fit ha
  cases second with
  | none => exact @Selection.Fits.field _ _ none _ _ _ _ (by simp) hn args hd hset
  | some name =>
    exact @Selection.Fits.field _ _ (some first) _ _ _ _ (by simpa using hn) (hs name rfl) args hd
      hset

theorem inlineFragment (budget : Nat) (p : Position) (condition : Option String)
    (hc : ∀ text ∈ condition, isName text = true) :
    Ensures k (inlineFragment none sets budget p (condition.map (⟨⟨·, none⟩, none⟩)))
      (fun f => Selection.Fits inner k (.inlineFragment f)) k :=
  bind (directives budget) fun _ hd => map h fun _ hs => .inlineFragment hc hd hs

theorem selection (budget : Nat) :
    Ensures k (selection none sets budget) (Selection.Fits inner k) k := by
  refine ifNext (.advance_flat rfl fun _ => ?_) ?_
  · refine bind position fun p _ => ?_
    have bare : Ensures k
        (Parser.inlineFragment none sets budget p none >>= fun f => Pure.pure (.inlineFragment f))
        (Selection.Fits inner k) k :=
      map (inlineFragment h budget p none (by simp)) fun f hf => hf
    refine peek (fun t => ?_) bare
    cases t with
    | name text =>
      refine .advance_flat rfl fun valid => ?_
      split_ifs with on
      · refine bind name fun type ht => ?_
        exact map (inlineFragment h budget p (some type) (by simpa using ht))
          fun f hf => hf
      · exact map (directives budget) fun ds hd => .spread (valid text rfl) on hd
    | _ => exact bare.here
  · exact bind position fun p _ => bind name fun first hn =>
      map (field h budget p hn) fun f hf => hf

end Selections

theorem selectionSet (budget : Nat) :
    Ensures k (selectionSet none budget) (SelectionSet.Fits k) k := by
  induction budget generalizing k with
  | zero => exact fail
  | succ budget ih =>
    have braces : Ensures k (Parser.enclosed .braceLeft .braceRight
        (Parser.selection none (Parser.selectionSet none budget) budget) budget)
        (fun r => ∃ i, k = i + 1 ∧ r.1 ≠ [] ∧
          ∀ s ∈ r.1, Selection.Fits (SelectionSet.Fits i) i s) k :=
      enclosed (fun i => selection ih budget) rfl rfl rfl
    refine bind position fun p _ => map braces ?_
    rintro r ⟨i, rfl, some, fits⟩
    exact ⟨rfl, some, fits⟩

theorem operation (budget : Nat) (p : Position) (type : OperationType) :
    Ensures k (operation none budget p type) (fun d => Definition.Fits k (.operation d)) k := by
  refine bind (?named : Ensures k _ (fun found : Option Name => ∃ name : Option String,
    found = name.map (⟨·, none⟩) ∧ ∀ text ∈ name, isName text = true) k) ?_
  case named =>
    refine peek (fun t => ?_) (pure ⟨none, rfl, by simp⟩)
    cases t with
    | name text =>
      refine .advance_flat rfl fun valid => pure ⟨some text, rfl, ?_⟩
      rintro _ ⟨⟩
      exact valid text rfl
    | _ => exact here (pure ⟨none, rfl, by simp⟩)
  rintro _ ⟨name, rfl, hn⟩
  have vars : Ensures k (Parser.optionalEnclosed .parenLeft .parenRight
      (Parser.variableDefinition none budget) budget) (Bracketed VariableDefinition.Fits k) k :=
    optionalEnclosed (fun i => variableDefinition budget) rfl rfl rfl
  exact bind vars fun _ hv => bind (directives budget) fun _ hd =>
    map (selectionSet budget) fun _ hs => .operation hn hv hd hs

theorem fragment (budget : Nat) (p : Position) :
    Ensures k (fragment none budget p) (fun d => Definition.Fits k (.fragment d)) k :=
  bind name fun _ hn => bind (keyword "on") fun _ _ => bind name fun _ hc =>
    bind (directives budget) fun _ hd => map (selectionSet budget) fun _ hs =>
      .fragment hn hc hd hs

theorem executableDefinition (budget : Nat) :
    Ensures k (executableDefinition none budget) (Definition.Fits k) k := by
  refine ifNext (here (map (selectionSet budget) fun set hs => ?_)) ?_
  · have bare : Bracketed VariableDefinition.Fits k [] := by cases k <;> simp [Bracketed]
    rw [hs.loc]
    exact @Definition.Fits.operation k .query none [] [] set (by simp) bare (by simp) hs
  · refine bind position fun p _ =>
      ifNextName (.advance_flat rfl fun _ => ?_) (peek (fun t => ?_) fail)
    · exact map (fragment budget p) fun d hd => hd
    · cases t with
      | name text =>
        dsimp only
        split
        · exact .advance_flat rfl fun _ => map (operation budget p _) fun d hd => hd
        · exact fail.here
      | _ => exact fail.here

end Parser.Ensures

theorem numberToken?_ne_name {first : Char} {rest : List Char} {text : String} :
    numberToken? first rest ≠ some (.name text) := by
  unfold numberToken?
  split <;> split_ifs <;> simp

theorem valid_scanToken? {cs : List Char} {token : Token} {length : Nat}
    (h : scanToken? cs = some (token, length)) : Parser.ValidToken token := by
  rintro text rfl
  unfold scanToken? at h
  split at h
  · cases h
  · split_ifs at h
    cases h
  · obtain ⟨raw, -, h⟩ := Option.map_eq_some_iff.mp h
    cases h
  · obtain ⟨raw, -, h⟩ := Option.map_eq_some_iff.mp h
    cases h
  · split at h
    · cases h
    · split_ifs at h with start number
      · cases h
        rw [isName, String.toList_ofList, Bool.and_eq_true]
        exact ⟨start, List.all_takeWhile⟩
      · obtain ⟨token, number, h⟩ := Option.map_eq_some_iff.mp h
        cases h
        exact absurd number numberToken?_ne_name

theorem good_lexFrom (left : Nat) (p : Position) (cs : List Char) (budget : Nat) :
    Parser.Good left (lexFrom left p cs budget).lexemes := by
  have none (left : Nat) : Parser.Good left [] := ⟨by simp, by simp [levelsAfter?]⟩
  induction budget generalizing left p cs with
  | zero => exact none left
  | succ budget ih =>
    rw [lexFrom]
    split
    · exact none left
    · split
      · exact none left
      · split
        · exact none left
        · exact .cons (valid_scanToken? ‹_›) ‹_› (ih _ _ _)

/-- A parsed document fits into source text. -/
theorem fits_of_parseQuery {source : String} {d : Document} (h : parseQuery source false = .ok d) :
    d.Fits := by
  rw [parseQuery_unlocated] at h
  cases hr : Parser.run source fun budget =>
      Parser.definitions (Parser.executableDefinition none budget) budget with
  | error p =>
    rw [hr] at h
    cases h
  | ok definitions =>
    rw [hr] at h
    cases h
    unfold Parser.run at hr
    dsimp only at hr
    split at hr
    · cases hr
    · rename_i parsed
      obtain ⟨⟨some, fits⟩, -⟩ := Parser.Ensures.definitions
        (Parser.Ensures.executableDefinition _) _ _ _ (good_lexFrom nestingLimit _ _ _) parsed
      split at hr
      · cases hr
      · split_ifs at hr
        cases hr
        exact ⟨some, fits, rfl⟩

end GraphQL
