import SchemaGuard.Json.Token

/-!
The tree of a JSON text with byte offsets. Building it never fails: where the text is ill-formed the
tree ends in the faults found there, one for a reader and one for a reader that only passes over the
value. So a reader of the tree meets type errors and faults in the order of the text.
-/

set_option autoImplicit false
set_option relaxedAutoImplicit false

namespace SchemaGuard

/-- How a list or an object ends: with its closing mark, or in a fault. -/
inductive Ending where
  | closed (stop : Nat)
  | broken (read skip : Fault)

inductive Scalar where
  | null
  | bool (b : Bool)
  | number (n : Number)
  | string (s : String)

/-- A key. `next` is how far its object is read once the token behind the key is looked at. -/
structure Key where
  name : Except Fault String
  stop : Nat
  next : Nat

mutual
inductive Node where
  | scalar (start stop : Nat) (value : Scalar)
  /-- A string or number that can be passed over but not read. -/
  | unreadable (start : Nat) (quoted : Bool) (fault : Fault)
  | broken (start : Nat) (quoted : Bool) (read skip : Fault)
  | list (start : Nat) (items : Items)
  | object (start : Nat) (members : Members)

/-- The items of a list. An item's `resume` is how far the text is read once the item and the mark
behind it are: a comma is taken with the blanks behind it, a closing bracket without. -/
inductive Items where
  | done (ending : Ending)
  | item (node : Node) (resume : Nat) (rest : Items)

/-- The members of an object. `next` is where the token behind a member's value starts; `resume` is
how far the text is read when the object is given up there and the list around it looks for the mark
behind its item. -/
inductive Members where
  | done (ending : Ending)
  /-- A key without its colon. -/
  | bare (key : Key) (fault : Fault)
  | member (key : Key) (node : Node) (next resume : Nat) (rest : Members)
end

namespace Node

/-- The first token, if the list of tokens has run out the end of the text. -/
def head : List Token → Token
  | [] => ⟨0, 0, .finish⟩
  | t :: _ => t

/-- How far a list is read once the tokens' first one is taken as the mark behind an item. -/
def resumeInList (tokens : List Token) : Nat :=
  let t := head tokens
  match t.lexeme with
  | .mark ']' => t.stop
  | .mark ',' =>
    let u := head tokens.tail
    u.start
  | _ => t.start

/-- How far an object is read once the tokens' first one is looked at: a closing brace is taken. -/
def resumeInObject (tokens : List Token) : Nat :=
  let t := head tokens
  match t.lexeme with
  | .mark '\x7d' => t.stop
  | _ => t.start

private def both (kind : FaultKind) (offset : Nat) : Ending :=
  .broken ⟨kind, offset⟩ ⟨kind, offset⟩

mutual
def value : Nat → List Token → Node × List Token
  | 0, _ => (.broken 0 false ⟨.endInValue, 0⟩ ⟨.endInValue, 0⟩, [])
  | fuel + 1, tokens =>
    let t := head tokens
    let rest := tokens.tail
    match t.lexeme with
    | .null => (.scalar t.start t.stop .null, rest)
    | .bool b => (.scalar t.start t.stop (.bool b), rest)
    | .number (.ok n) => (.scalar t.start t.stop (.number n), rest)
    | .number (.error fault) => (.unreadable t.start false fault, rest)
    | .string (.ok s) => (.scalar t.start t.stop (.string s), rest)
    | .string (.error fault) => (.unreadable t.start true fault, rest)
    | .broken quoted read skip => (.broken t.start quoted read skip, [])
    | .mark '[' =>
      let (items, rest) := firstItem fuel rest
      (.list t.start items, rest)
    | .mark '\x7b' =>
      let (members, rest) := firstMember fuel rest
      (.object t.start members, rest)
    | .finish => (.broken t.start false ⟨.endInValue, t.start⟩ ⟨.endInValue, t.start⟩, [])
    | _ => (.broken t.start false ⟨.valueExpected, t.seen⟩ ⟨.valueExpected, t.seen⟩, [])

def firstItem : Nat → List Token → Items × List Token
  | 0, _ => (.done (both .endInList 0), [])
  | fuel + 1, tokens =>
    let t := head tokens
    match t.lexeme with
    | .mark ']' => (.done (.closed t.stop), tokens.tail)
    | .finish => (.done (both .endInList t.start), [])
    | _ =>
      let (node, rest) := value fuel tokens
      let (items, last) := moreItems fuel rest
      (.item node (resumeInList rest) items, last)

def moreItems : Nat → List Token → Items × List Token
  | 0, _ => (.done (both .endInList 0), [])
  | fuel + 1, tokens =>
    let t := head tokens
    match t.lexeme with
    | .mark ']' => (.done (.closed t.stop), tokens.tail)
    | .mark ',' =>
      let u := head tokens.tail
      match u.lexeme with
      | .mark ']' =>
        (.done (.broken ⟨.trailingComma, u.seen⟩ ⟨.valueExpected, u.seen⟩), [])
      | .finish => (.done (both .endInValue u.start), [])
      | _ =>
        let (node, rest) := value fuel tokens.tail
        let (items, last) := moreItems fuel rest
        (.item node (resumeInList rest) items, last)
    | .finish => (.done (both .endInList t.start), [])
    | _ => (.done (both .listSeparatorExpected t.seen), [])

def member (name : Except Fault String) (stop : Nat) : Nat → List Token → Members × List Token
  | 0, _ => (.done (both .endInObject 0), [])
  | fuel + 1, tokens =>
    let t := head tokens
    let key : Key := ⟨name, stop, resumeInObject tokens⟩
    match t.lexeme with
    | .mark ':' =>
      let (node, rest) := value fuel tokens.tail
      let (members, last) := moreMembers fuel rest
      (.member key node (head rest).start (resumeInList rest) members, last)
    | .finish => (.bare key ⟨.endInObject, t.start⟩, [])
    | _ => (.bare key ⟨.colonExpected, t.seen⟩, [])

def firstMember : Nat → List Token → Members × List Token
  | 0, _ => (.done (both .endInObject 0), [])
  | fuel + 1, tokens =>
    let t := head tokens
    match t.lexeme with
    | .mark '\x7d' => (.done (.closed t.stop), tokens.tail)
    | .string name => member name t.stop fuel tokens.tail
    | .broken true read skip => (.done (.broken read skip), [])
    | .finish => (.done (both .endInObject t.start), [])
    | _ => (.done (both .keyNotString t.seen), [])

def moreMembers : Nat → List Token → Members × List Token
  | 0, _ => (.done (both .endInObject 0), [])
  | fuel + 1, tokens =>
    let t := head tokens
    match t.lexeme with
    | .mark '\x7d' => (.done (.closed t.stop), tokens.tail)
    | .mark ',' =>
      let u := head tokens.tail
      match u.lexeme with
      | .string name => member name u.stop fuel tokens.tail.tail
      | .broken true read skip => (.done (.broken read skip), [])
      | .mark '\x7d' =>
        (.done (.broken ⟨.trailingComma, u.seen⟩ ⟨.keyNotString, u.seen⟩), [])
      | .finish =>
        (.done (.broken ⟨.endInValue, u.start⟩ ⟨.endInObject, u.start⟩), [])
      | _ => (.done (both .keyNotString u.seen), [])
    | .finish => (.done (both .endInObject t.start), [])
    | _ => (.done (both .objectSeparatorExpected t.seen), [])
end

def ofText (text : String) : Node × List Token :=
  let tokens := Token.ofText text
  value (2 * tokens.length + 1) tokens

end Node

end SchemaGuard
