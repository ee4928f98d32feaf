import GraphQL.Ast.Tree

/-!
Walking a node depth first with hooks that may skip, stop and edit. Children are visited in
grammar order. Edits are copied on write: a node is rebuilt only if a child changed. A walk that
is aborted abandons every node it has entered and not left, innermost first.
-/
namespace GraphQL.Visit

open Ast

/-- An ancestor on the way to a node: it holds the next node of the way under a key. -/
structure PathSegment where
  parent : Node
  key : String
  index : Option Nat

inductive Action where
  | proceed
  /-- Do not visit the children; the node is not left. -/
  | skip
  /-- Abort; the root as it was is the result. -/
  | stop
  /-- Put another node in the place of this one; it is not visited. -/
  | replace (n : Node)
  | delete

/-- A visitor with state `σ` and errors `ε`. Hooks see a node and its ancestors, outermost first. -/
structure Visitor (σ ε : Type) where
  enter : Node → List PathSegment → σ → Except ε Action × σ := fun _ _ s => (.ok .proceed, s)
  /-- Sees the node with its children already edited. -/
  leave : Node → List PathSegment → σ → Except ε Action × σ := fun _ _ s => (.ok .proceed, s)
  /-- Sees an entered node that will not be left, because the walk is aborted below it. -/
  abandon : Node → List PathSegment → σ → σ := fun _ _ s => s

inductive VisitError (ε : Type) where
  | callback (e : ε)
  /-- A slot of the parent was to be emptied, or to hold a node of a kind it does not take. -/
  | invalidEdit (parent : Kind) (key : String) (found : Option Kind)

inductive Abort (ε : Type) where
  | stop
  | failed (e : VisitError ε)

inductive Edit where
  | keep
  | replace (n : Node)
  | delete

/-- Why an item of a slot cannot be edited so: the slot must take a replacement, and a slot of
one cannot be emptied. -/
def Edit.problem? {ε : Type} (parent : Node) (slot : Slot) : Edit → Option (VisitError ε)
  | .keep => none
  | .delete => if slot.arity = .one then some (.invalidEdit parent.kind slot.key none) else none
  | .replace n =>
    if slot.takes.has n.kind then none
    else some (.invalidEdit parent.kind slot.key (some n.kind))

/-- The items of a slot after an edit of the first, `edited` being the others after theirs; `none`
means unchanged. -/
def Edit.apply (first : Node) (rest : List Node) (edited : Option (List Node)) :
    Edit → Option (List Node)
  | .keep => edited.map (first :: ·)
  | .replace n => some (n :: edited.getD rest)
  | .delete => some (edited.getD rest)

/-- The node with edited slots; `none` when no slot changed. -/
def rebuild (n : Node) (branches : List Branch) (edits : List (Option (List Node))) :
    Option Node :=
  if edits.all Option.isNone then none
  else
    Node.assemble n.kind n.payload
      (List.zipWith (fun b e => e.getD (b.items.map Ast.Tree.node)) branches edits) n.loc

def itemIndex (slot : Slot) (i : Nat) : Option Nat :=
  if slot.arity = .many then some i else none

variable {σ ε : Type}

mutual

def walkTree (v : Visitor σ ε) (path : List PathSegment) : Tree → σ → Except (Abort ε) Edit × σ
  | ⟨n, branches⟩, s =>
    match v.enter n path s with
    | (.error e, s) => (.error (.failed (.callback e)), s)
    | (.ok .skip, s) => (.ok .keep, s)
    | (.ok .stop, s) => (.error .stop, s)
    | (.ok (.replace m), s) => (.ok (.replace m), s)
    | (.ok .delete, s) => (.ok .delete, s)
    | (.ok .proceed, s) =>
      match walkBranches v path n branches s with
      | (.error a, s) => (.error a, v.abandon n path s)
      | (.ok edits, s) =>
        let rebuilt := rebuild n branches edits
        match v.leave (rebuilt.getD n) path s with
        | (.error e, s) => (.error (.failed (.callback e)), s)
        | (.ok .stop, s) => (.error .stop, s)
        | (.ok (.replace m), s) => (.ok (.replace m), s)
        | (.ok .delete, s) => (.ok .delete, s)
        | (.ok .proceed, s) | (.ok .skip, s) =>
          (.ok (match rebuilt with
            | some m => .replace m
            | none => .keep), s)

/-- Walks the slots of a node; for each the new items, or `none` when nothing changed. -/
def walkBranches (v : Visitor σ ε) (path : List PathSegment) (parent : Node) :
    List Branch → σ → Except (Abort ε) (List (Option (List Node))) × σ
  | [], s => (.ok [], s)
  | b :: rest, s =>
    match walkBranch v path parent b s with
    | (.error a, s) => (.error a, s)
    | (.ok edited, s) =>
      match walkBranches v path parent rest s with
      | (.error a, s) => (.error a, s)
      | (.ok edits, s) => (.ok (edited :: edits), s)

def walkBranch (v : Visitor σ ε) (path : List PathSegment) (parent : Node) :
    Branch → σ → Except (Abort ε) (Option (List Node)) × σ
  | ⟨slot, items⟩, s => walkItems v path parent slot 0 items s

def walkItems (v : Visitor σ ε) (path : List PathSegment) (parent : Node) (slot : Slot)
    (i : Nat) : List Tree → σ → Except (Abort ε) (Option (List Node)) × σ
  | [], s => (.ok none, s)
  | t :: rest, s =>
    match walkTree v (path ++ [⟨parent, slot.key, itemIndex slot i⟩]) t s with
    | (.error a, s) => (.error a, s)
    | (.ok edit, s) =>
      match edit.problem? parent slot with
      | some e => (.error (.failed e), s)
      | none =>
        match walkItems v path parent slot (i + 1) rest s with
        | (.error a, s) => (.error a, s)
        | (.ok edited, s) => (.ok (edit.apply t.node (rest.map Ast.Tree.node) edited), s)

end

/-- What the end of a walk means for its caller; a stopped walk yields the root as it was. -/
def Abort.result {α : Type} (root : α) : Abort ε → Except (VisitError ε) α
  | .stop => .ok root
  | .failed e => .error e

def visit (v : Visitor σ ε) (root : Node) (s : σ) : Except (VisitError ε) (Option Node) × σ :=
  match walkTree v [] root.tree s with
  | (.ok .keep, s) => (.ok (some root), s)
  | (.ok (.replace n), s) => (.ok (some n), s)
  | (.ok .delete, s) => (.ok none, s)
  | (.error a, s) => (a.result (some root), s)

/-- Visits a document, which can be neither deleted nor replaced by another kind of node. -/
def visitDocument (v : Visitor σ ε) (root : Document) (s : σ) :
    Except (VisitError ε) Document × σ :=
  match walkTree v [] root.tree s with
  | (.ok .keep, s) => (.ok root, s)
  | (.ok (.replace (.document d)), s) => (.ok d, s)
  | (.ok (.replace n), s) => (.error (.invalidEdit .document "document" (some n.kind)), s)
  | (.ok .delete, s) => (.error (.invalidEdit .document "document" none), s)
  | (.error a, s) => (a.result root, s)

/-- Visits a node for the effects of the hooks only; their edits are still checked. -/
def walk (v : Visitor σ ε) (root : Node) (s : σ) : Except (VisitError ε) Unit × σ :=
  match walkTree v [] root.tree s with
  | (.ok _, s) => (.ok (), s)
  | (.error a, s) => (a.result (), s)

namespace VisitError

def message : VisitError String → String
  | callback e => e
  | invalidEdit parent key _ => "invalid edit of \"" ++ key ++ "\" in a " ++ parent.text

end VisitError

end GraphQL.Visit
