import GraphQL.Ast.Checked
import GraphQL.Ast.Tree

/-!
Nodes as JSON objects: the kind, the payload, the children under the keys of their slots, and
the span. Reading checks what the constructors of nodes check.
-/
namespace GraphQL.Ast

def Location.toJson (loc : Location) : Json :=
  .object [("start", Json.ofInt loc.start), ("end", Json.ofInt loc.stop),
    ("line", Json.ofInt loc.line), ("column", Json.ofInt loc.column)]

def Payload.entries (payload : Payload) : List (String × Json) :=
  match payload with
  | none => []
  | text s => [("value", .string s)]
  | string s block => [("value", .string s), ("block", .bool block)]
  | flag b => [("value", .bool b)]
  | operation o => [("operation", .string o.text)]

def Node.ownEntries (n : Node) : List (String × Json) :=
  match n.kind, n.payload with
  | .directiveDefinition, .flag b => [("repeatable", .bool b)]
  | _, payload => payload.entries

mutual

def Tree.toJson : Tree → Json
  | ⟨n, branches⟩ =>
    .object <| [("kind", .string n.kind.text)] ++ n.ownEntries ++ branchEntries branches ++
      (n.loc.map fun loc => ("loc", loc.toJson)).toList

/-- A list for a slot of many, the child for one of one, nothing for an empty optional slot. -/
def Branch.entry : Branch → List (String × Json)
  | ⟨slot, items⟩ =>
    match slot.arity, treesToJson items with
    | .many, values => [(slot.key, .array values)]
    | _, value :: _ => [(slot.key, value)]
    | _, [] => []

def branchEntries : List Branch → List (String × Json)
  | [] => []
  | b :: rest => b.entry ++ branchEntries rest

def treesToJson : List Tree → List Json
  | [] => []
  | t :: rest => t.toJson :: treesToJson rest

end

def Node.toJson (n : Node) : Json := n.tree.toJson

inductive NodeError where
  | ast (e : AstError)
  | text (e : SyntaxError)
  /-- A node of this kind stands in a slot that does not take it. -/
  | kindMismatch (kind : Kind)
  | malformed

/-- The span that an object gives; a part that it leaves out is zero. -/
def Location.ofJson? : Json → Option Location
  | .object entries =>
    let part (key : String) : Nat := ((Entries.get? entries key).bind Json.nat?).getD 0
    some ⟨part "start", part "end", part "line", part "column"⟩
  | _ => none

/-- The payload of a node of this kind; flags default to false. -/
def payloadOfJson? (kind : Kind) (value : Json) : Option Payload :=
  let field := value.property? "value"
  let flag (key : String) := ((value.property? key).bind Json.bool?).getD false
  match kind with
  | .name | .floatValue | .enumValue => (field.bind Json.string?).map .text
  | .intValue =>
    match field with
    | some (.string s) => some (.text s)
    | some (.integer n) => some (.text (integerText n.val))
    | _ => none
  | .stringValue => (field.bind Json.string?).map fun s => .string s (flag "block")
  | .booleanValue => some (.flag (flag "value"))
  | .directiveDefinition => some (.flag (flag "repeatable"))
  | .operationDefinition | .operationTypeDefinition =>
    (((value.property? "operation").bind Json.string?).bind OperationType.ofText?).map .operation
  | _ => some .none

/-- What the constructor of a node checks. -/
def Node.check : Node → Except AstError Unit
  | name n => do discard <| Name.ofText? n.value
  | value (.int text _) => do discard <| Value.ofIntText? text
  | value (.float text _) => do discard <| Value.ofFloatText? text
  | value (.enum text _) => do discard <| Value.ofEnumName? text
  | type (.nonNull inner _) => do discard <| TypeNode.nonNull? inner
  | _ => .ok ()

/-- Slots in the order of reading: what a node cannot be without, its options, its lists. -/
def readingRank (slot : Slot) : Nat :=
  if slot.arity = .one ∨ slot.key = "operation_types" ∨ slot.key = "locations" then 0
  else if slot.arity = .optional then 1 else 2

def readingOrder (slots : List Slot) : List Slot :=
  slots.filter (readingRank · = 0) ++ slots.filter (readingRank · = 1) ++
    slots.filter (readingRank · = 2)

def Slot.accept (slot : Slot) (n : Node) : Except NodeError Node :=
  if slot.takes.has n.kind then .ok n else .error (.kindMismatch n.kind)

/-- A plain string in a slot is a name, or the named type of that name. -/
def Slot.ofText (slot : Slot) (text : String) : Except NodeError Node := do
  let n ← (Name.ofText? text).mapError .ast
  if slot.takes.has .name then .ok (.name n) else slot.accept (.type (.named ⟨n, none⟩))

/-- Reads a node. Each level takes one from the budget; `embedded` reads kinds that are none of a
node's, from the whole object. -/
def readNode (embedded : String → Json → Except NodeError Node) :
    Nat → Json → Except NodeError Node
  | 0, _ => .error .malformed
  | budget + 1, value => do
    let some (.string text) := value.property? "kind" | .error .malformed
    let some kind := Kind.ofText? text | embedded text value
    let child (slot : Slot) (value : Json) : Except NodeError Node :=
      match value with
      | .string text => slot.ofText text
      | value => do slot.accept (← readNode embedded budget value)
    let some payload := payloadOfJson? kind value | .error .malformed
    let readSlot (slot : Slot) : Except NodeError (Slot × List Node) := do
      match slot.arity, value.property? slot.key with
      | .one, some v => return (slot, [← child slot v])
      | .one, none => .error .malformed
      | _, none | _, some .null => return (slot, [])
      | .optional, some v => return (slot, [← child slot v])
      | .many, some (.array items) => return (slot, ← items.mapM (child slot))
      | .many, some _ => .error .malformed
    let read ← (readingOrder kind.slots).mapM readSlot
    let children := kind.slots.map fun slot => ((read.find? (·.1 = slot)).map Prod.snd).getD []
    let loc := (value.property? "loc").bind Location.ofJson?
    let some n := Node.assemble kind payload children loc | .error .malformed
    (n.check).mapError .ast
    return n

def Node.ofJson (embedded : String → Json → Except NodeError Node) (value : Json) :
    Except NodeError Node :=
  readNode embedded (value.depth + 1) value

end GraphQL.Ast
