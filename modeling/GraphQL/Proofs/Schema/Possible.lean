import GraphQL.Schema.Basic

/-!
The object types that values of a type can have, and what it means for them that object types
implement the interfaces they list.
-/
namespace GraphQL

open TypeSystem

/-- Every type stands under its own name. -/
def NamesOwn (types : Entries TypeDefinition) : Prop := ∀ e ∈ types, e.2.name = e.1

theorem NamesOwn.insertNew {types : Entries TypeDefinition} (h : NamesOwn types)
    (t : TypeDefinition) : NamesOwn (types.insertNew t.name t) := by
  unfold Entries.insertNew
  split
  · exact h
  · intro e he
    rcases List.mem_append.mp he with he | he
    · exact h e he
    · rw [List.mem_singleton.mp he]

theorem DefinitionIndex.add_namesOwn {definitions : List Definition} {index built : DefinitionIndex}
    (h : NamesOwn index.types) (added : index.add definitions = .ok built) :
    NamesOwn built.types := by
  induction definitions generalizing index with
  | nil =>
    cases added
    exact h
  | cons d rest ih =>
    cases d with
    | schema d => exact @ih { index with block := some d } h added
    | type t =>
      rw [add] at added
      split at added
      · cases added
      · refine ih (fun e he => ?_) added
        rcases List.mem_append.mp he with he | he
        · exact h e he
        · rw [List.mem_singleton.mp he]
    | directive d =>
      rw [add] at added
      split at added
      · cases added
      · exact @ih { index with directives := index.directives ++ [(d.name, d)] } h added
    | extension name => cases added

theorem DefinitionIndex.addBuiltins_namesOwn {index : DefinitionIndex} (h : NamesOwn index.types) :
    NamesOwn index.addBuiltins.types := by
  unfold addBuiltins
  dsimp only
  generalize builtinScalars = scalars
  generalize index.types = types at h
  induction scalars generalizing types with
  | nil => exact h
  | cons t rest ih => exact ih _ (h.insertNew (.scalar t))

namespace Schema

theorem ofDefinitions_namesOwn {definitions : List Definition} {schema : Schema}
    (built : ofDefinitions definitions = .ok schema) : NamesOwn schema.types := by
  unfold ofDefinitions at built
  rcases ha : DefinitionIndex.add {} definitions with e | index
  · rw [ha] at built
    cases built
  have named := DefinitionIndex.addBuiltins_namesOwn
    (DefinitionIndex.add_namesOwn (fun _ he => by cases he) ha)
  simp only [ha, bind, Except.bind, throw, throwThe, MonadExceptOf.throw] at built
  repeat' split at built
  all_goals cases built
  all_goals exact named

theorem name_of_type? {schema : Schema} (named : NamesOwn schema.types) {name : String}
    {t : TypeDefinition} (h : schema.type? name = some t) : t.name = name :=
  named _ (Entries.mem_of_get? h)

theorem type?_of_root? {schema : Schema} (named : NamesOwn schema.types)
    {operation : Ast.OperationType} {t : ObjectType} (h : schema.root? operation = some t) :
    schema.type? t.name = some (.object t) := by
  obtain ⟨name, -, ho⟩ := Option.bind_eq_some_iff.mp h
  unfold object? at ho
  split at ho
  · rename_i u hu
    cases ho
    have : t.name = name := name_of_type? named hu
    rwa [this]
  · cases ho

def CanBe (schema : Schema) (type : TypeRef) (t : ObjectType) : Prop :=
  ∃ d, schema.core? type = some d ∧ schema.isPossible d t = true

/-- The type is an object type of the schema. -/
def Has (schema : Schema) (t : ObjectType) : Prop := ∃ name, schema.type? name = some (.object t)

theorem Has.type? {schema : Schema} {object : ObjectType} (has : schema.Has object)
    (named : NamesOwn schema.types) : schema.type? object.name = some (.object object) := by
  obtain ⟨name, found⟩ := has
  have same : object.name = name := name_of_type? named found
  rwa [same]

/-- Whatever values of the first type can be, values of the second can be. -/
def Covariant (schema : Schema) (type other : TypeRef) : Prop :=
  ∀ t, schema.Has t → schema.CanBe type t → schema.CanBe other t

/-- Object types have all fields of the interfaces they list, with covariant types. -/
def InterfacesImplemented (schema : Schema) : Prop :=
  ∀ t, schema.Has t → ∀ name ∈ t.interfaces, ∀ i, schema.type? name = some (.interface i) →
    ∀ field f, (TypeDefinition.interface i).field? field = some f →
      ∃ g, (TypeDefinition.object t).field? field = some g ∧ schema.Covariant g.type f.type

variable {schema : Schema}

theorem isComposite_of_isPossible {d : TypeDefinition} {t : ObjectType}
    (h : schema.isPossible d t = true) : d.isComposite = true := by
  cases d <;> first | rfl | cases h

theorem mem_possibleTypes {object : ObjectType} (has : schema.Has object) (type : TypeDefinition) :
    object ∈ schema.possibleTypes type ↔ schema.isPossible type object = true := by
  unfold possibleTypes
  rw [List.mem_filterMap]
  constructor
  · rintro ⟨⟨name, t⟩, -, listed⟩
    cases t with
    | object t =>
      obtain ⟨possible, same⟩ := Option.ite_none_right_eq_some.mp listed
      cases same
      exact possible
    | _ => cases listed
  · intro possible
    obtain ⟨name, found⟩ := has
    exact ⟨(name, .object object), Entries.mem_of_get? found, if_pos possible⟩

theorem field?_object_typename (t : ObjectType) :
    schema.field? (.object t) "__typename" = some typenameField := by
  simp [field?, TypeDefinition.isComposite]

/-- An object type has the fields of the types that it is possible for. -/
theorem field?_of_isPossible (named : NamesOwn schema.types)
    (implemented : schema.InterfacesImplemented) {t : ObjectType} (ht : schema.Has t)
    {name : String} {d : TypeDefinition} (hd : schema.type? name = some d)
    (possible : schema.isPossible d t = true) {field : String} {f : TypeSystem.Field}
    (hf : schema.field? d field = some f) :
    ∃ g, schema.field? (.object t) field = some g ∧ schema.Covariant g.type f.type := by
  have composite := isComposite_of_isPossible possible
  by_cases hn : field = "__typename"
  · subst hn
    refine ⟨typenameField, field?_object_typename t, ?_⟩
    simp only [field?, composite, and_self, if_true, Option.some.injEq] at hf
    rw [← hf]
    exact fun _ _ h => h
  · have own {e : TypeDefinition} : schema.field? e field = e.field? field := by
      simp [field?, hn]
    rw [own] at hf ⊢
    cases d with
    | object u =>
      -- only one object type has the name
      have hu : u.name = t.name := by simpa [isPossible] using possible
      have hname : name = t.name := (name_of_type? named hd).symm.trans hu
      rw [hname, ht.type? named] at hd
      cases hd
      exact ⟨f, hf, fun _ _ h => h⟩
    | interface i =>
      have listed : i.name ∈ t.interfaces := by simpa [isPossible] using possible
      have hi : name = i.name := (name_of_type? named hd).symm
      exact implemented t ht i.name listed i (hi ▸ hd) field f hf
    | union u => cases hf
    | scalar => cases composite
    | enum => cases composite
    | inputObject => cases composite

end Schema

end GraphQL
