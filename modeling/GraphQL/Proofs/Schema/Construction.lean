import GraphQL.Proofs.Input.Filling
import GraphQL.Schema.Basic

/-!
Which type-system documents make a schema, and what is found in it. Main statement: a document makes
a schema if it extends no type, defines no name twice and its root types are object types that it
defines; then its own definitions are found under their names, the built-in ones under the names
that it leaves free, and every root type that is named is found.
-/
namespace GraphQL

open TypeSystem

namespace TypeSystem.Definition

def type? : Definition → Option TypeDefinition
  | type t => some t
  | _ => none

def directive? : Definition → Option DirectiveDefinition
  | directive d => some d
  | _ => none

def block? : Definition → Option SchemaDefinition
  | schema d => some d
  | _ => none

theorem type?_eq_some {d : Definition} {t : TypeDefinition} : d.type? = some t ↔ d = .type t := by
  cases d <;> simp [type?]

theorem directive?_eq_some {d : Definition} {directive : DirectiveDefinition} :
    d.directive? = some directive ↔ d = .directive directive := by
  cases d <;> simp [directive?]

/-- Defines an object type of this name. -/
def isObject (name : String) : Definition → Bool
  | type (.object t) => t.name = name
  | _ => false

end TypeSystem.Definition

variable {definitions : List Definition}

def definedTypes (definitions : List Definition) : List TypeDefinition :=
  definitions.filterMap Definition.type?

def definedDirectives (definitions : List Definition) : List DirectiveDefinition :=
  definitions.filterMap Definition.directive?

def lastBlock (definitions : List Definition) : Option SchemaDefinition :=
  (definitions.filterMap Definition.block?).getLast?

/-- The name, if it is that of an object type. -/
def usualRoot (definitions : List Definition) (name : String) : Option String :=
  if definitions.any (Definition.isObject name) then some name else none

/-- The name of the root type of an operation. The last schema block names it, and leaves out
only that of queries to mean `Query`; without a block it is the object type of the usual name. -/
def rootNameOf (definitions : List Definition) (operation : Ast.OperationType) : Option String :=
  match lastBlock definitions, operation with
  | some block, .query => some (block.query.getD "Query")
  | some block, .mutation => block.mutation
  | some block, .subscription => block.subscription
  | none, .query => some "Query"
  | none, .mutation => usualRoot definitions "Mutation"
  | none, .subscription => usualRoot definitions "Subscription"

/-- No name is defined twice, nothing is extended, and the root types are object types. -/
structure MakesSchema (definitions : List Definition) : Prop where
  unextended : ∀ name, .extension name ∉ definitions
  types : ((definedTypes definitions).map TypeDefinition.name).Nodup
  directives : ((definedDirectives definitions).map DirectiveDefinition.name).Nodup
  roots : ∀ operation name, rootNameOf definitions operation = some name →
    ∃ t : ObjectType, .type (.object t) ∈ definitions ∧ t.name = name

namespace Entries

variable {α β : Type}

theorem contains_iff {entries : Entries α} {key : String} :
    entries.contains key = true ↔ key ∈ entries.keys := by
  rw [contains, Option.isSome_iff_exists]
  exact ⟨fun ⟨_, found⟩ => mem_keys_of_get? found, exists_get?_of_mem⟩

theorem get?_append (entries others : Entries α) (key : String) :
    get? (entries ++ others) key = (entries.get? key).or (others.get? key) := by
  induction entries with
  | nil => simp [get?]
  | cons e entries ih =>
    rw [List.cons_append, get?, get?, ih]
    split <;> simp

theorem get?_named (name : α → String) (values : List α) (key : String) :
    get? (values.map fun v => (name v, v)) key = values.find? (name · = key) := by
  induction values with
  | nil => rfl
  | cons v values ih =>
    rw [List.map_cons, get?, List.find?_cons, ih]
    by_cases h : name v = key <;> simp [h]

theorem get?_insertNew (entries : Entries α) (key other : String) (value : α) :
    (entries.insertNew key value).get? other =
      (entries.get? other).or (if key = other then some value else none) := by
  unfold insertNew
  split
  · rename_i present
    by_cases same : key = other
    · subst same
      obtain ⟨v, found⟩ := Option.isSome_iff_exists.mp present
      simp [found]
    · simp [same]
  · rw [get?_append]
    rfl

theorem get?_foldl_insertNew (name : β → String) (value : β → α) (values : List β)
    (entries : Entries α) (key : String) :
    (values.foldl (fun built v => built.insertNew (name v) (value v)) entries).get? key =
      (entries.get? key).or ((values.find? (name · = key)).map value) := by
  induction values generalizing entries with
  | nil => simp
  | cons v values ih =>
    rw [List.foldl_cons, ih, get?_insertNew, Option.or_assoc, List.find?_cons]
    by_cases h : name v = key <;> simp [h]

end Entries

theorem find?_name_eq_some {α : Type} {name : α → String} {values : List α}
    (h : (values.map name).Nodup) {v : α} {key : String} :
    values.find? (name · = key) = some v ↔ v ∈ values ∧ name v = key := by
  induction values with
  | nil => simp
  | cons first values ih =>
    obtain ⟨fresh, rest⟩ := List.nodup_cons.mp h
    rw [List.find?_cons]
    by_cases same : name first = key
    · simp only [same, decide_true, Option.some.injEq, List.mem_cons]
      constructor
      · rintro rfl
        exact ⟨.inl rfl, same⟩
      · rintro ⟨rfl | later, hv⟩
        · rfl
        · have member := List.mem_map_of_mem (f := name) later
          rw [hv, ← same] at member
          exact absurd member fresh
    · simp only [same, decide_false, ih rest, List.mem_cons]
      constructor
      · rintro ⟨later, hv⟩
        exact ⟨.inr later, hv⟩
      · rintro ⟨rfl | later, hv⟩
        · exact absurd hv same
        · exact ⟨later, hv⟩

@[simp]
theorem definedTypes_cons (d : Definition) (rest : List Definition) :
    definedTypes (d :: rest) = d.type?.toList ++ definedTypes rest := by
  cases d <;> rfl

@[simp]
theorem definedDirectives_cons (d : Definition) (rest : List Definition) :
    definedDirectives (d :: rest) = d.directive?.toList ++ definedDirectives rest := by
  cases d <;> rfl

@[simp]
theorem lastBlock_cons (d : Definition) (rest : List Definition) :
    lastBlock (d :: rest) = (lastBlock rest).or d.block? := by
  cases d with
  | schema d => simp [lastBlock, Definition.block?, List.getLast?_cons]
  | _ => simp [lastBlock, Definition.block?]

namespace DefinitionIndex

/-- The definitions can be added one after another. -/
@[mk_iff]
structure Admits (index : DefinitionIndex) (definitions : List Definition) : Prop where
  unextended : ∀ name, .extension name ∉ definitions
  types : (index.types.keys ++ (definedTypes definitions).map TypeDefinition.name).Nodup
  directives : (index.directives.keys ++
    (definedDirectives definitions).map DirectiveDefinition.name).Nodup

def extended (index : DefinitionIndex) (definitions : List Definition) : DefinitionIndex where
  types := index.types ++ (definedTypes definitions).map fun t => (t.name, t)
  directives := index.directives ++ (definedDirectives definitions).map fun d => (d.name, d)
  block := (lastBlock definitions).or index.block

theorem add_eq_ok {index built : DefinitionIndex} (types : index.types.keys.Nodup)
    (directives : index.directives.keys.Nodup) :
    index.add definitions = .ok built ↔
      index.Admits definitions ∧ built = index.extended definitions := by
  induction definitions generalizing index with
  | nil =>
    have admits : index.Admits [] :=
      ⟨by simp, by simpa [definedTypes], by simpa [definedDirectives]⟩
    have same : index.extended [] = index := by
      simp [extended, definedTypes, definedDirectives, lastBlock]
    simp [add, admits, same, eq_comm]
  | cons d rest ih =>
    cases d with
    | schema d =>
      refine (@ih { index with block := some d } types directives).trans ?_
      simp [admits_iff, extended, Definition.type?, Definition.directive?, Definition.block?]
    | type t =>
      have names : definedTypes (.type t :: rest) = t :: definedTypes rest := rfl
      rw [add]
      by_cases taken : t.name ∈ index.types.keys
      · rw [if_pos (Entries.contains_iff.mpr taken)]
        refine iff_of_false (by simp) fun both => ?_
        have apart := (List.nodup_append.mp both.1.types).2.2 _ taken
        exact apart t.name (by simp [names]) rfl
      · rw [if_neg (mt Entries.contains_iff.mp taken)]
        have nodup : (index.types ++ [(t.name, t)]).keys.Nodup := by
          rw [← Entries.insert_of_not_mem taken]
          exact Entries.nodup_insert types t.name t
        refine (@ih { index with types := index.types ++ [(t.name, t)] } nodup directives).trans ?_
        simp [admits_iff, extended, Definition.directive?, Definition.block?, Definition.type?,
          Entries.keys]
    | directive d =>
      have names : definedDirectives (.directive d :: rest) = d :: definedDirectives rest := rfl
      rw [add]
      by_cases taken : d.name ∈ index.directives.keys
      · rw [if_pos (Entries.contains_iff.mpr taken)]
        refine iff_of_false (by simp) fun both => ?_
        have apart := (List.nodup_append.mp both.1.directives).2.2 _ taken
        exact apart d.name (by simp [names]) rfl
      · rw [if_neg (mt Entries.contains_iff.mp taken)]
        have nodup : (index.directives ++ [(d.name, d)]).keys.Nodup := by
          rw [← Entries.insert_of_not_mem taken]
          exact Entries.nodup_insert directives d.name d
        refine (@ih { index with directives := index.directives ++ [(d.name, d)] }
          types nodup).trans ?_
        simp [admits_iff, extended, Definition.directive?, Definition.block?, Definition.type?,
          Entries.keys]
    | extension name =>
      refine iff_of_false (by simp [add]) fun both => ?_
      exact both.1.unextended name List.mem_cons_self

def ofDocument (definitions : List Definition) : DefinitionIndex :=
  (extended {} definitions).addBuiltins

theorem types_ofDocument (definitions : List Definition) (name : String) :
    (ofDocument definitions).types.get? name =
      ((definedTypes definitions).find? (·.name = name)).or
        ((builtinScalars.find? (·.name = name)).map .scalar) := by
  refine (Entries.get?_foldl_insertNew _ _ _ _ _).trans ?_
  rw [extended, List.nil_append, Entries.get?_named]

theorem directives_ofDocument (definitions : List Definition) (name : String) :
    (ofDocument definitions).directives.get? name =
      ((definedDirectives definitions).find? (·.name = name)).or
        (builtinDirectives.find? (·.name = name)) := by
  refine (Entries.get?_foldl_insertNew _ _ _ _ _).trans ?_
  rw [Option.map_id']
  exact congrArg (Option.or · _) (Entries.get?_named _ _ _)

theorem object?_eq_some {index : DefinitionIndex} {name : String} {t : ObjectType} :
    index.object? name = some t ↔ index.types.get? name = some (.object t) := by
  unfold object?
  split <;> simp_all

theorem mem_definedTypes {t : TypeDefinition} :
    t ∈ definedTypes definitions ↔ .type t ∈ definitions := by
  simp [definedTypes, Definition.type?_eq_some]

theorem mem_definedDirectives {d : DirectiveDefinition} :
    d ∈ definedDirectives definitions ↔ .directive d ∈ definitions := by
  simp [definedDirectives, Definition.directive?_eq_some]

section Distinct

variable (distinct : ((definedTypes definitions).map TypeDefinition.name).Nodup)

include distinct

theorem object?_ofDocument {name : String} {t : ObjectType} :
    (ofDocument definitions).object? name = some t ↔
      .type (.object t) ∈ definitions ∧ t.name = name := by
  rw [object?_eq_some, types_ofDocument, Option.or_eq_some_iff, find?_name_eq_some distinct,
    mem_definedTypes]
  simp [TypeDefinition.name]

theorem defaultRoot_ofDocument (name : String) :
    (ofDocument definitions).defaultRoot name = usualRoot definitions name := by
  have found : definitions.any (Definition.isObject name) = true ↔
      ∃ t, (ofDocument definitions).object? name = some t := by
    simp only [object?_ofDocument distinct, List.any_eq_true]
    constructor
    · rintro ⟨d, hd, own⟩
      cases d with
      | type t =>
        cases t with
        | object t => exact ⟨t, hd, of_decide_eq_true own⟩
        | _ => cases own
      | _ => cases own
    · rintro ⟨t, ht, rfl⟩
      exact ⟨_, ht, decide_eq_true rfl⟩
  unfold defaultRoot usualRoot
  cases ho : (ofDocument definitions).object? name with
  | none =>
    rw [if_neg fun any => by simpa [ho] using found.mp any]
    rfl
  | some t =>
    rw [if_pos (found.mpr ⟨t, ho⟩)]
    rfl

end Distinct

end DefinitionIndex

namespace Schema

def ofDocument (definitions : List Definition) : Schema where
  types := (DefinitionIndex.ofDocument definitions).types
  directives := (DefinitionIndex.ofDocument definitions).directives
  query := ((lastBlock definitions).bind (·.query)).getD "Query"
  mutation := rootNameOf definitions .mutation
  subscription := rootNameOf definitions .subscription

theorem rootName?_ofDocument (definitions : List Definition) (operation : Ast.OperationType) :
    (ofDocument definitions).rootName? operation = rootNameOf definitions operation := by
  cases operation with
  | query =>
    show some (((lastBlock definitions).bind (·.query)).getD "Query") = _
    unfold rootNameOf
    cases lastBlock definitions <;> rfl
  | mutation => rfl
  | subscription => rfl

theorem checkRoot_eq_ok {index : DefinitionIndex} {operation : String} {root : Option String} :
    checkRoot index operation root = .ok () ↔
      ∀ name, root = some name → ∃ t, index.object? name = some t := by
  cases root with
  | none => simp [checkRoot]
  | some name => cases h : index.object? name <;> simp [checkRoot, h]

end Schema

namespace DefinitionIndex

/-- The names of the root types of queries, mutations and subscriptions. -/
def roots (index : DefinitionIndex) : String × Option String × Option String :=
  match index.block with
  | some d => (d.query.getD "Query", d.mutation, d.subscription)
  | none => ("Query", index.defaultRoot "Mutation", index.defaultRoot "Subscription")

def withRoots (index : DefinitionIndex) (roots : String × Option String × Option String) :
    Except SchemaError Schema :=
  match index.types.get? roots.1 with
  | none => throw (.missingQueryType roots.1)
  | some (.object _) => do
    Schema.checkRoot index "Mutation" roots.2.1
    Schema.checkRoot index "Subscription" roots.2.2
    return ⟨index.types, index.directives, roots.1, roots.2.1, roots.2.2⟩
  | some _ => throw (.invalidRootType "Query" roots.1)

theorem roots_ofDocument
    (distinct : ((definedTypes definitions).map TypeDefinition.name).Nodup) :
    (ofDocument definitions).roots = ((Schema.ofDocument definitions).query,
      (Schema.ofDocument definitions).mutation, (Schema.ofDocument definitions).subscription) := by
  have block : (ofDocument definitions).block = lastBlock definitions := Option.or_none
  unfold roots
  rw [block, defaultRoot_ofDocument distinct, defaultRoot_ofDocument distinct, Schema.ofDocument]
  unfold rootNameOf
  cases lastBlock definitions <;> rfl

theorem withRoots_eq_ok {index : DefinitionIndex} {query : String}
    {mutation subscription : Option String} {schema : Schema} :
    index.withRoots (query, mutation, subscription) = .ok schema ↔
      ((∃ t, index.object? query = some t) ∧
        (∀ name, mutation = some name → ∃ t, index.object? name = some t) ∧
        ∀ name, subscription = some name → ∃ t, index.object? name = some t) ∧
      schema = ⟨index.types, index.directives, query, mutation, subscription⟩ := by
  rw [← @Schema.checkRoot_eq_ok index "Mutation", ← @Schema.checkRoot_eq_ok index "Subscription"]
  simp only [object?_eq_some]
  unfold withRoots
  cases hq : index.types.get? query with
  | none => exact iff_of_false nofun nofun
  | some t =>
    cases t with
    | object t =>
      dsimp only
      cases Schema.checkRoot index "Mutation" mutation with
      | error e => exact iff_of_false nofun nofun
      | ok =>
        cases Schema.checkRoot index "Subscription" subscription with
        | error e => exact iff_of_false nofun nofun
        | ok => simp [bind, Except.bind, pure, Except.pure, eq_comm]
    | _ => exact iff_of_false nofun nofun

end DefinitionIndex

namespace Schema

theorem ofDefinitions_eq (definitions : List Definition) :
    ofDefinitions definitions = (DefinitionIndex.add {} definitions >>= fun index =>
      index.addBuiltins.withRoots index.addBuiltins.roots) := rfl

/-- A schema is made of a document if all its root types are object types. -/
theorem ofDefinitions_eq_ok {schema : Schema} :
    ofDefinitions definitions = .ok schema ↔
      MakesSchema definitions ∧ schema = ofDocument definitions := by
  have admits : MakesSchema definitions → DefinitionIndex.Admits {} definitions :=
    fun h => ⟨h.unextended, h.types, h.directives⟩
  have added {index : DefinitionIndex} := @DefinitionIndex.add_eq_ok definitions {} index
    List.nodup_nil List.nodup_nil
  rw [ofDefinitions_eq]
  cases hadd : DefinitionIndex.add {} definitions with
  | error e =>
    refine iff_of_false nofun fun ⟨makes, _⟩ => ?_
    have ok := added.mpr ⟨admits makes, rfl⟩
    rw [hadd] at ok
    cases ok
  | ok index =>
    obtain ⟨can, rfl⟩ := added.mp hadd
    have distinct : ((definedTypes definitions).map TypeDefinition.name).Nodup := can.types
    have makes : MakesSchema definitions ↔ ∀ operation name,
        (ofDocument definitions).rootName? operation = some name →
          ∃ t, (DefinitionIndex.ofDocument definitions).object? name = some t := by
      simp only [DefinitionIndex.object?_ofDocument distinct, rootName?_ofDocument]
      exact ⟨fun h => h.roots, fun h => ⟨can.unextended, can.types, can.directives, h⟩⟩
    show (DefinitionIndex.ofDocument definitions).withRoots
      (DefinitionIndex.ofDocument definitions).roots = _ ↔ _
    rw [DefinitionIndex.roots_ofDocument distinct, DefinitionIndex.withRoots_eq_ok, makes]
    refine and_congr ?_ Iff.rfl
    constructor
    · rintro ⟨query, mutation, subscription⟩ (_ | _ | _) name named
      · cases named
        exact query
      · exact mutation name named
      · exact subscription name named
    · intro h
      exact ⟨h .query _ rfl, h .mutation, h .subscription⟩

end Schema

/-- Of a type or directive that the document does not define there is the built-in one. -/
structure Schema.Indexes (schema : Schema) (definitions : List Definition) : Prop where
  types : ∀ name t, schema.type? name = some t ↔ t.name = name ∧
    (.type t ∈ definitions ∨
      (∃ s ∈ builtinScalars, .scalar s = t) ∧ ∀ u, .type u ∈ definitions → u.name ≠ name)
  directives : ∀ name d, schema.directive? name = some d ↔ d.name = name ∧
    (.directive d ∈ definitions ∨
      d ∈ builtinDirectives ∧ ∀ u, .directive u ∈ definitions → u.name ≠ name)
  rootNames : ∀ operation, schema.rootName? operation = rootNameOf definitions operation
  rootTypes : ∀ operation,
    (schema.rootName? operation).bind schema.type? = (schema.root? operation).map .object
  rootFound : ∀ operation, (schema.root? operation).isSome = (schema.rootName? operation).isSome
  rootDefined : ∀ operation t, schema.root? operation = some t →
    .type (.object t) ∈ definitions ∧ schema.rootName? operation = some t.name

/-- Of two lists of values with names of their own the second is read where the first has
nothing. -/
theorem or_find?_name_eq_some {α : Type} {name : α → String} {values others : List α}
    (hv : (values.map name).Nodup) (ho : (others.map name).Nodup) {v : α} {key : String} :
    (values.find? (name · = key)).or (others.find? (name · = key)) = some v ↔
      name v = key ∧ (v ∈ values ∨ v ∈ others ∧ ∀ u ∈ values, name u ≠ key) := by
  rw [Option.or_eq_some_iff, find?_name_eq_some hv, find?_name_eq_some ho, List.find?_eq_none]
  simp only [decide_eq_true_eq]
  constructor
  · rintro (⟨own, named⟩ | ⟨free, other, named⟩)
    · exact ⟨named, .inl own⟩
    · exact ⟨named, .inr ⟨other, free⟩⟩
  · rintro ⟨named, own | ⟨other, free⟩⟩
    · exact .inl ⟨own, named⟩
    · exact .inr ⟨free, other, named⟩

namespace Schema

theorem object?_eq_some {schema : Schema} {name : String} {t : ObjectType} :
    schema.object? name = some t ↔ schema.type? name = some (.object t) := by
  unfold object?
  split <;> simp_all

theorem type?_ofDocument (distinct : ((definedTypes definitions).map TypeDefinition.name).Nodup)
    {name : String} {t : TypeDefinition} :
    (ofDocument definitions).type? name = some t ↔ t.name = name ∧
      (.type t ∈ definitions ∨
        (∃ s ∈ builtinScalars, .scalar s = t) ∧ ∀ u, .type u ∈ definitions → u.name ≠ name) := by
  have scalars : (builtinScalars.find? (·.name = name)).map TypeDefinition.scalar =
      (builtinScalars.map TypeDefinition.scalar).find? (TypeDefinition.name · = name) := by
    rw [List.find?_map]
    rfl
  have builtin : ((builtinScalars.map TypeDefinition.scalar).map TypeDefinition.name).Nodup := by
    decide
  refine (Eq.congr_left (DefinitionIndex.types_ofDocument definitions name)).trans ?_
  rw [scalars, or_find?_name_eq_some distinct builtin]
  simp only [DefinitionIndex.mem_definedTypes, List.mem_map]

theorem directive?_ofDocument
    (distinct : ((definedDirectives definitions).map DirectiveDefinition.name).Nodup)
    {name : String} {d : DirectiveDefinition} :
    (ofDocument definitions).directive? name = some d ↔ d.name = name ∧
      (.directive d ∈ definitions ∨
        d ∈ builtinDirectives ∧ ∀ u, .directive u ∈ definitions → u.name ≠ name) := by
  have builtin : (builtinDirectives.map DirectiveDefinition.name).Nodup := by decide
  refine (Eq.congr_left (DefinitionIndex.directives_ofDocument definitions name)).trans ?_
  rw [or_find?_name_eq_some distinct builtin]
  simp only [DefinitionIndex.mem_definedDirectives]

/-- The type that is named for an operation is an object type of the document. -/
theorem type?_of_rootName? (makes : MakesSchema definitions) {operation : Ast.OperationType}
    {name : String} (h : (ofDocument definitions).rootName? operation = some name) :
    ∃ t : ObjectType, .type (.object t) ∈ definitions ∧ t.name = name ∧
      (ofDocument definitions).type? name = some (.object t) := by
  rw [rootName?_ofDocument] at h
  obtain ⟨t, ht, named⟩ := makes.roots operation name h
  exact ⟨t, ht, named, (type?_ofDocument makes.types).mpr ⟨named, .inl ht⟩⟩

theorem indexes_ofDocument (makes : MakesSchema definitions) :
    (ofDocument definitions).Indexes definitions where
  types _ _ := type?_ofDocument makes.types
  directives _ _ := directive?_ofDocument makes.directives
  rootNames := rootName?_ofDocument definitions
  rootTypes operation := by
    unfold root?
    cases hn : (ofDocument definitions).rootName? operation with
    | none => rfl
    | some name =>
      obtain ⟨t, -, -, found⟩ := type?_of_rootName? makes hn
      show (ofDocument definitions).type? name = ((ofDocument definitions).object? name).map .object
      rw [object?_eq_some.mpr found, found]
      rfl
  rootFound operation := by
    unfold root?
    cases hn : (ofDocument definitions).rootName? operation with
    | none => rfl
    | some name =>
      obtain ⟨t, -, -, found⟩ := type?_of_rootName? makes hn
      show ((ofDocument definitions).object? name).isSome = true
      rw [object?_eq_some.mpr found]
      rfl
  rootDefined operation t h := by
    obtain ⟨name, hn, ho⟩ := Option.bind_eq_some_iff.mp h
    obtain ⟨u, hu, named, found⟩ := type?_of_rootName? makes hn
    have same := found.symm.trans (object?_eq_some.mp ho)
    cases same
    exact ⟨hu, by rw [hn, named]⟩

/-- A document makes a schema unless it extends a type, defines a name twice or names a root type
that is no object type of its own. In the schema its definitions are found, with the built-in ones
of the names that are left, and the root types of the operations. -/
theorem ofDefinitions_indexes (definitions : List Definition) :
    ((∃ schema, ofDefinitions definitions = .ok schema) ↔ MakesSchema definitions) ∧
      ∀ schema, ofDefinitions definitions = .ok schema → schema.Indexes definitions := by
  simp only [ofDefinitions_eq_ok]
  refine ⟨⟨fun ⟨_, makes, _⟩ => makes, fun makes => ⟨_, makes, rfl⟩⟩, ?_⟩
  rintro _ ⟨makes, rfl⟩
  exact indexes_ofDocument makes

namespace Renamed

def position : Position := ⟨1, 1⟩

def id : ScalarType := ⟨position, none, "ID", []⟩

def skip : DirectiveDefinition := ⟨position, none, "skip", [], false, ["FIELD"]⟩

def object (name : String) : ObjectType :=
  ⟨position, none, name, [], [], [⟨position, none, "id", [], .named "ID", []⟩]⟩

def block (query : String) : SchemaDefinition := ⟨position, [], some query, none, none⟩

/-- The first block names a type that does not exist. -/
def document : List Definition :=
  [.schema (block "Missing"), .type (.scalar id), .type (.object (object "Mutation")),
    .directive skip, .schema (block "Root"), .type (.object (object "Root"))]

end Renamed

theorem ofDefinitions_indexes_renamed :
    ∃ schema, ofDefinitions Renamed.document = .ok schema ∧
      schema.type? "ID" = some (.scalar Renamed.id) ∧
      schema.directive? "skip" = some Renamed.skip ∧
      schema.rootName? .query = some "Root" ∧ schema.rootName? .mutation = none ∧
      schema.Indexes Renamed.document := by
  have built : ofDefinitions Renamed.document = .ok (ofDocument Renamed.document) := rfl
  exact ⟨_, built, rfl, rfl, rfl, rfl, (ofDefinitions_indexes Renamed.document).2 _ built⟩

end Schema

end GraphQL
