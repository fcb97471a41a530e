import SchemaGuard.Document.Reading
import SchemaGuard.Options
import SchemaGuard.Schema.JsonForm.Decode

/-!
Reading schemas, definitions, references and options straight from text. A definition is taken into
memory whole before its kind's record is read, so faults of the text and of the kind are reported at
their own place and every other failure of it at the definition. What follows the first value of a
text is not looked at.
-/

set_option autoImplicit false
set_option relaxedAutoImplicit false

namespace SchemaGuard

/-- What stands where the name of a variant is expected, alone or as the only key of an object. -/
inductive Choice where
  | bare (name : String) (stop : Nat)
  | keyed (key : Key) (name : String) (members : Members)
  | failed (failure : Failure)

namespace Node

/-- A variant's name stands alone or opens an object; the object is one more level. -/
def choice (room : Nat) : Node → Choice
  | .scalar _ stop (.string s) => .bare s stop
  | .scalar start .. | .unreadable start false _ | .list start _ =>
    .failed (.ofFault ⟨.valueExpected, start + 1⟩)
  | .unreadable _ true fault => .failed (.ofFault fault)
  | .broken start quoted read _ =>
    if quoted || read.offset = start then .failed (.ofFault read)
    else .failed (.ofFault ⟨.valueExpected, start + 1⟩)
  | .object start members =>
    if room = 0 then .failed (tooDeep start)
    else
      match members with
      | .done (.closed stop) => .failed (.ofFault ⟨.valueExpected, stop⟩)
      | .done (.broken read _) => .failed (.ofFault read)
      | .bare key _ | .member key .. =>
        match key.name with
        | .ok name => .keyed key name members
        | .error fault => .failed (.ofFault fault)

end Node

namespace Members

/-- An object that names a variant holds nothing behind its first member; the token behind it starts
at `next`. -/
def closes (next : Nat) : Members → Except Failure Unit
  | .done (.closed _) => .ok ()
  | .done (.broken read _) =>
    match read.kind with
    | .endInObject => .error (.ofFault read)
    | _ => .error (.ofFault ⟨.valueExpected, next⟩)
  | .bare .. | .member .. => .error (.ofFault ⟨.valueExpected, next⟩)

end Members

namespace Items

def closes : Items → Except Failure Unit
  | .done (.closed _) => .ok ()
  | .done (.broken read _) =>
    match read.kind with
    | .endInValue | .listSeparatorExpected =>
      .error (.ofFault ⟨.trailingCharacters, read.offset⟩)
    | _ => .error (.ofFault read)
  | .item node .. => .error (.ofFault ⟨.trailingCharacters, node.start + 1⟩)

end Items

def Failure.ofCause (cause : Cause) : Failure := ⟨[], cause, none⟩

namespace Node

/-- Reads a choice among names that carry nothing; `null` may stand for the nothing. -/
def unitVariant {α : Type} (ofName : String → Except Cause α) (room : Nat) (node : Node) :
    Except Failure α :=
  match node.choice room with
  | .failed failure => .error failure
  | .bare name stop => (ofName name).mapError fun cause => ⟨[], cause, some stop⟩
  | .keyed key name members => do
    let a ← (ofName name).mapError fun cause => ⟨[], cause, some key.stop⟩
    match members with
    | .member _ node next _ rest =>
      match node with
      | .scalar _ _ .null => pure ()
      | node => .error (.under (.key name) (node.mismatch "unit"))
      rest.closes next
      return a
    | .bare _ fault => .error (.ofFault fault)
    | .done _ => return a

def string? (node : Node) : Except Failure String :=
  match node with
  | .scalar _ _ (.string s) => .ok s
  | node => .error (node.mismatch "a string")

def bool? (node : Node) : Except Failure Bool :=
  match node with
  | .scalar _ _ (.bool b) => .ok b
  | node => .error (node.mismatch "a boolean")

end Node

mutual
/-- Reads a reference, with `room` more levels of arrays and objects allowed. A shape without its
content is reported where the list around it, if there is one, looks for its next mark; `giveUp` is
how far the text is then read. -/
def TypeRef.ofNode (room : Nat) (giveUp : Option Nat) : Node → Except Failure TypeRef
  | .object start members =>
    match Node.choice room (.object start members) with
    | .failed failure => .error failure
    | .bare .. => .error (Node.tooDeep start)
    | .keyed key name _ => do
      let shape ← (Shape.ofName name).mapError fun cause => ⟨[], cause, some key.stop⟩
      TypeRef.ofMembers (room - 1) giveUp.isSome shape members
  | node =>
    match node.choice room with
    | .failed failure => .error failure
    | .keyed key .. => .error (.ofFault ⟨.valueExpected, key.stop⟩)
    | .bare name stop => do
      let shape ← (Shape.ofName name).mapError fun cause => ⟨[], cause, some stop⟩
      .error ⟨[.key name], shape.bare, giveUp⟩

/-- Reads the content of a shape from the only member of an object; `listed` tells that the object
stands in a list. -/
def TypeRef.ofMembers (room : Nat) (listed : Bool) (shape : Shape) :
    Members → Except Failure TypeRef
  | .member _ node next resume rest => do
    let giveUp := if listed then some resume else none
    let content : Except Failure TypeRef :=
      match shape with
      | .primitive => return .primitive (← node.unitVariant Primitive.ofName room)
      | .named => return .named (← node.string?)
      | .parameter => return .parameter (← node.string?)
      | .sequence => return .sequence (← TypeRef.ofNode room giveUp node)
      | .map => return .map (← TypeRef.ofNode room giveUp node)
      | .nullable => return .nullable (← TypeRef.ofNode room giveUp node)
      | .tuple =>
        match node with
        | .list start items =>
          if room = 0 then .error (Node.tooDeep start)
          else return .tuple (← TypeRef.ofItems (room - 1) 0 items)
        | node => .error (node.mismatch "a sequence")
      | .generic =>
        match node with
        | .object start members =>
          if room = 0 then .error (Node.tooDeep start)
          else TypeRef.genericOfNode (room - 1) members none none
        | .list start items =>
          if room = 0 then .error (Node.tooDeep start)
          else TypeRef.genericOfList (room - 1) items
        | node => .error (node.mismatch genericTitle)
    let t ← content.mapError (Failure.under (.key shape.name))
    rest.closes next
    return t
  | .bare _ fault => .error (.ofFault fault)
  | .done (.broken read _) => .error (.ofFault read)
  | .done (.closed stop) => .error (.ofFault ⟨.valueExpected, stop⟩)

def TypeRef.ofItems (room i : Nat) : Items → Except Failure (List TypeRef)
  | .done (.closed _) => return []
  | .done (.broken read _) => .error (.ofFault read)
  | .item node resume rest => do
    let t ← (TypeRef.ofNode room (some resume) node).mapError (Failure.under (.index i))
    return t :: (← TypeRef.ofItems room (i + 1) rest)

def TypeRef.genericOfNode (room : Nat) :
    Members → Option String → Option (List TypeRef) → Except Failure TypeRef
  | .done (.closed stop), name, args =>
    (genericOf .missingField name args).mapError fun cause => ⟨[], cause, some stop⟩
  | .done (.broken read _), _, _ => .error (.under .unread (.ofFault read))
  | .bare key fault, name, args =>
    match key.name with
    | .error fault => .error (.under .unread (.ofFault fault))
    | .ok k =>
      if k = "name" ∧ name.isSome ∨ k = "args" ∧ args.isSome then
        .error ⟨[], .duplicateField k, some key.next⟩
      else .error (.ofFault fault)
  | .member key node _ _ rest, name, args =>
    match key.name with
    | .error fault => .error (.under .unread (.ofFault fault))
    | .ok k =>
      if k = "name" then
        if name.isSome then .error ⟨[], .duplicateField k, some key.next⟩
        else do
          let s ← node.string?.mapError (Failure.under (.key k))
          TypeRef.genericOfNode room rest (some s) args
      else if k = "args" then
        if args.isSome then .error ⟨[], .duplicateField k, some key.next⟩
        else do
          let ts ←
            match node with
            | .list start items =>
              if room = 0 then .error (.under (.key k) (Node.tooDeep start))
              else (TypeRef.ofItems (room - 1) 0 items).mapError (Failure.under (.key k))
            | node => .error (.under (.key k) (node.mismatch "a sequence"))
          TypeRef.genericOfNode room rest name (some ts)
      else
        match node.passOver with
        | some fault => .error (.under (.key k) (.ofFault fault))
        | none => TypeRef.genericOfNode room rest name args

def TypeRef.genericOfList (room : Nat) : Items → Except Failure TypeRef
  | .done (.closed stop) =>
    .error ⟨[], .invalidLength 0 (genericTitle ++ " with 2 elements"), some stop⟩
  | .done (.broken read _) => .error (.ofFault read)
  | .item node _ rest => do
    let name ← node.string?.mapError (Failure.under (.index 0))
    match rest with
    | .done (.closed stop) =>
      .error ⟨[], .invalidLength 1 (genericTitle ++ " with 2 elements"), some stop⟩
    | .done (.broken read _) => .error (.ofFault read)
    | .item node _ rest =>
      let args ←
        match node with
        | .list start items =>
          if room = 0 then .error (.under (.index 1) (Node.tooDeep start))
          else (TypeRef.ofItems (room - 1) 0 items).mapError (Failure.under (.index 1))
        | node => .error (.under (.index 1) (node.mismatch "a sequence"))
      rest.closes
      return .generic name args
end

def Kind.ofNode (node : Node) : Except Failure Kind :=
  match node with
  | .scalar _ stop (.string s) => (Kind.ofName s).mapError fun cause => ⟨[], cause, some stop⟩
  | node => .error (node.mismatch "variant identifier")

def kindKey : String := "kind"

/-- Takes the members of a definition into memory, and its kind out of them. -/
def Members.definition (room : Nat) :
    Members → Option Kind → Except Failure (Kind × List (String × Json))
  | .done (.closed stop), kind =>
    match kind with
    | some kind => .ok (kind, [])
    | none => .error ⟨[], .missingField kindKey, some stop⟩
  | .done (.broken read _), _ => .error (.under .unread (.ofFault read))
  | .bare key fault, kind =>
    match key.name with
    | .error fault => .error (.under .unread (.ofFault fault))
    | .ok k =>
      if k = kindKey ∧ kind.isSome then .error ⟨[], .duplicateField k, some key.next⟩
      else .error (.ofFault fault)
  | .member key node _ _ rest, kind =>
    match key.name with
    | .error fault => .error (.under .unread (.ofFault fault))
    | .ok k =>
      if k = kindKey then
        if kind.isSome then .error ⟨[], .duplicateField k, some key.next⟩
        else do
          let kind ← (Kind.ofNode node).mapError (Failure.under (.key k))
          rest.definition room (some kind)
      else do
        let x ← (node.toJson room).mapError (Failure.under (.key k))
        let (kind, members) ← rest.definition room kind
        return (kind, (k, x) :: members)

def Node.definition (room : Nat) (node : Node) : Except Failure (Kind × Json) :=
  match node with
  | .object start members =>
    if room = 0 then .error (tooDeep start)
    else do
      let (kind, members) ← members.definition (room - 1) none
      return (kind, .object members)
  | .list start items =>
    if room = 0 then .error (tooDeep start)
    else
      match items with
      | .done (.closed stop) => .error ⟨[], .missingField kindKey, some stop⟩
      | .done (.broken read _) => .error (.ofFault read)
      | .item node _ rest => do
        let kind ← (Kind.ofNode node).mapError (Failure.under (.index 0))
        return (kind, .array (← rest.toJson (room - 1) 1))
  | node => .error (node.mismatch "internally tagged enum TypeDef")

def Definition.ofNode (room : Nat) (node : Node) : Except Failure Definition := do
  let (kind, content) ← node.definition room
  (Definition.ofContent kind content).mapError Failure.ofCause

def Items.definitions (room i : Nat) : Items → Except Failure (List Definition)
  | .done (.closed _) => return []
  | .done (.broken read _) => .error (.ofFault read)
  | .item node resume rest => do
    let d ← (Definition.ofNode room node).mapError fun f => (f.under (.index i)).locate resume
    return d :: (← rest.definitions room (i + 1))

def Node.definitions (room : Nat) (node : Node) : Except Failure (List Definition) :=
  match node with
  | .list start items => if room = 0 then .error (tooDeep start) else items.definitions (room - 1) 0
  | node => .error (node.mismatch "a sequence")

/-- What a member of a known key contributes to a record read straight from text; `none` for a key
that is not known. -/
abbrev MemberReader (σ : Type) := String → Option (σ → Node → Except Failure σ)

def Members.record {σ : Type} (reader : MemberReader σ) :
    Members → List String → σ → Except Failure σ
  | .done (.closed _), _, s => .ok s
  | .done (.broken read _), _, _ => .error (.under .unread (.ofFault read))
  | .bare key fault, seen, _ =>
    match key.name with
    | .error fault => .error (.under .unread (.ofFault fault))
    | .ok k =>
      if k ∈ seen then .error ⟨[], .duplicateField k, some key.next⟩
      else .error (.ofFault fault)
  | .member key node _ _ rest, seen, s =>
    match key.name with
    | .error fault => .error (.under .unread (.ofFault fault))
    | .ok k =>
      match reader k with
      | none =>
        match node.passOver with
        | some fault => .error (.under (.key k) (.ofFault fault))
        | none => rest.record reader seen s
      | some read =>
        if k ∈ seen then .error ⟨[], .duplicateField k, some key.next⟩
        else do
          let s ← (read s node).mapError (Failure.under (.key k))
          rest.record reader (k :: seen) s

/-- Reads the items of a list into a record with the keys given, all of which have defaults. -/
def Items.record {σ : Type} (reader : MemberReader σ) (i : Nat) :
    List String → Items → σ → Except Failure σ
  | [], items, s => do
    items.closes
    return s
  | k :: keys, items, s =>
    match items with
    | .done (.closed _) => .ok s
    | .done (.broken read _) => .error (.ofFault read)
    | .item node _ rest =>
      match reader k with
      | none => rest.record reader (i + 1) keys s
      | some read => do
        let s ← (read s node).mapError (Failure.under (.index i))
        rest.record reader (i + 1) keys s

def Node.record {σ : Type} (title : String) (keys : List String) (reader : MemberReader σ)
    (blank : σ) (node : Node) : Except Failure σ :=
  match node with
  | .object _ members => members.record reader [] blank
  | .list _ items => items.record reader 0 keys blank
  | node => .error (node.mismatch title)

def Schema.reader : MemberReader Schema
  | "types" => some fun _ node => return ⟨← node.definitions (depthLimit - 1)⟩
  | _ => none

def Schema.ofNode (node : Node) : Except Failure Schema :=
  node.record "struct Schema" ["types"] Schema.reader Schema.empty

def ShapePolicy.ofName (name : String) : Except Cause ShapePolicy :=
  match all.find? fun p => p.name == name with
  | some p => .ok p
  | none => .error (.unknownVariant name (all.map ShapePolicy.name))

def Options.reader : MemberReader Options
  | "shape" =>
    some fun o node =>
      return { o with shape := ← node.unitVariant ShapePolicy.ofName (depthLimit - 1) }
  | "guard_prefix" => some fun o node => return { o with guardPrefix := ← node.string? }
  | "export" => some fun o node => return { o with exported := ← node.bool? }
  | "types_module" =>
    some fun o node =>
      match node with
      | .scalar _ _ .null => return { o with typesModule := none }
      | node => return { o with typesModule := some (← node.string?) }
  | _ => none

def Options.ofNode (node : Node) : Except Failure Options :=
  node.record "struct EmitOptions" ["shape", "guard_prefix", "export", "types_module"]
    Options.reader {}

def Document.read {α : Type} (reader : Node → Except Failure α) (origin text : String) :
    Except ParseError α :=
  (reader (Node.ofText text).1).mapError fun f => ⟨origin, f.path, f.causeText text⟩

def Schema.ofText (origin text : String) : Except ParseError Schema :=
  Document.read Schema.ofNode origin text

def Definition.ofText (origin text : String) : Except ParseError Definition :=
  Document.read (Definition.ofNode depthLimit) origin text

def TypeRef.ofText (origin text : String) : Except ParseError TypeRef :=
  Document.read (TypeRef.ofNode depthLimit none) origin text

def Options.ofText (origin text : String) : Except ParseError Options :=
  Document.read Options.ofNode origin text

end SchemaGuard
