import SchemaGuard.Document.Failure
import SchemaGuard.Json.Node

/-!
Reading the tree of a text. `Node.toJson` takes a value into memory, members as they come;
`Node.passOver` checks one that is not wanted. Arrays and objects may stand `depthLimit` deep in
each other. `Json.ofText` reads a text that holds one value and nothing else.
-/

set_option autoImplicit false
set_option relaxedAutoImplicit false

namespace SchemaGuard

def Scalar.found : Scalar → Found
  | .null => .null
  | .bool b => .bool b
  | .number n => .number n
  | .string s => .string s

def Scalar.toJson : Scalar → Json
  | .null => .null
  | .bool b => .bool b
  | .number n => .number n
  | .string s => .string s

/-- How deep arrays and objects may stand in each other where values are read. -/
def depthLimit : Nat := 127

namespace Node

def start : Node → Nat
  | .scalar start .. => start
  | .unreadable start .. => start
  | .broken start .. => start
  | .list start _ => start
  | .object start _ => start

def mismatch (node : Node) (expected : String) : Failure :=
  match node with
  | .scalar _ stop x => ⟨[], .invalidType x.found expected, some stop⟩
  | .unreadable _ _ fault => .ofFault fault
  | .broken _ _ read _ => .ofFault read
  | .list start _ => ⟨[], .invalidType .sequence expected, some start⟩
  | .object start _ => ⟨[], .invalidType .map expected, some start⟩

def tooDeep (start : Nat) : Failure := .ofFault ⟨.nestingTooDeep, start + 1⟩

end Node

mutual
def Node.passOver : Node → Option Fault
  | .scalar .. | .unreadable .. => none
  | .broken _ _ _ skip => some skip
  | .list _ items => items.passOver
  | .object _ members => members.passOver

def Items.passOver : Items → Option Fault
  | .done (.closed _) => none
  | .done (.broken _ skip) => some skip
  | .item node _ rest =>
    match node.passOver with
    | some fault => some fault
    | none => rest.passOver

def Members.passOver : Members → Option Fault
  | .done (.closed _) => none
  | .done (.broken _ skip) => some skip
  | .bare _ fault => some fault
  | .member _ node _ _ rest =>
    match node.passOver with
    | some fault => some fault
    | none => rest.passOver
end

mutual
def Node.toJson (room : Nat) : Node → Except Failure Json
  | .scalar _ _ x => return x.toJson
  | .unreadable _ _ fault => .error (.ofFault fault)
  | .broken _ _ read _ => .error (.ofFault read)
  | .list start items =>
    match room with
    | 0 => .error (Node.tooDeep start)
    | room + 1 => return .array (← items.toJson room 0)
  | .object start members =>
    match room with
    | 0 => .error (Node.tooDeep start)
    | room + 1 => return .object (← members.toJson room)

def Items.toJson (room i : Nat) : Items → Except Failure (List Json)
  | .done (.closed _) => return []
  | .done (.broken read _) => .error (.ofFault read)
  | .item node _ rest => do
    let x ← (node.toJson room).mapError (Failure.under (.index i))
    return x :: (← rest.toJson room (i + 1))

def Members.toJson (room : Nat) : Members → Except Failure (List (String × Json))
  | .done (.closed _) => return []
  | .done (.broken read _) => .error (.under .unread (.ofFault read))
  | .bare key fault =>
    match key.name with
    | .ok _ => .error (.ofFault fault)
    | .error fault => .error (.under .unread (.ofFault fault))
  | .member key node _ _ rest =>
    match key.name with
    | .error fault => .error (.under .unread (.ofFault fault))
    | .ok name => do
      let x ← (node.toJson room).mapError (Failure.under (.key name))
      return (name, x) :: (← rest.toJson room)
end

/-- Reads a text that holds one value and nothing else; of equal keys the last one counts. -/
def Json.ofText (text : String) : Except Failure Json := do
  let (node, rest) := Node.ofText text
  let x ← node.toJson depthLimit
  let next := Node.head rest
  match next.lexeme with
  | .finish => return x.settled
  | _ => .error (.ofFault ⟨.trailingCharacters, next.seen⟩)

end SchemaGuard
