/-!
Where and how a text fails to be JSON: the kinds of fault, the byte offset a fault is reported at,
and the line and column of an offset.
-/

set_option autoImplicit false
set_option relaxedAutoImplicit false

namespace SchemaGuard

inductive FaultKind where
  | endInValue
  | endInString
  | endInList
  | endInObject
  | colonExpected
  | listSeparatorExpected
  | objectSeparatorExpected
  | wordExpected
  | valueExpected
  | invalidEscape
  | invalidNumber
  | numberOutOfRange
  | controlCharacter
  | keyNotString
  | loneSurrogate
  | trailingComma
  | trailingCharacters
  | unfinishedSurrogate
  | nestingTooDeep
  deriving DecidableEq, Repr

namespace FaultKind

def text : FaultKind → String
  | .endInValue => "EOF while parsing a value"
  | .endInString => "EOF while parsing a string"
  | .endInList => "EOF while parsing a list"
  | .endInObject => "EOF while parsing an object"
  | .colonExpected => "expected `:`"
  | .listSeparatorExpected => "expected `,` or `]`"
  | .objectSeparatorExpected => "expected `,` or `\x7d`"
  | .wordExpected => "expected ident"
  | .valueExpected => "expected value"
  | .invalidEscape => "invalid escape"
  | .invalidNumber => "invalid number"
  | .numberOutOfRange => "number out of range"
  | .controlCharacter => "control character (\\u0000-\\u001F) found while parsing a string"
  | .keyNotString => "key must be a string"
  | .loneSurrogate => "lone leading surrogate in hex escape"
  | .trailingComma => "trailing comma"
  | .trailingCharacters => "trailing characters"
  | .unfinishedSurrogate => "unexpected end of hex escape"
  | .nestingTooDeep => "recursion limit exceeded"

end FaultKind

/-- A fault and the number of bytes of the text up to where it is reported. -/
structure Fault where
  kind : FaultKind
  offset : Nat
  deriving DecidableEq, Repr

/-- A line, counted from one, and the number of bytes read on it. -/
structure Position where
  line : Nat
  column : Nat
  deriving DecidableEq, Repr

namespace Position

private def advance (offset : Nat) : List Char → Nat → Nat → Nat → Position
  | [], _, line, lineStart => ⟨line, offset - lineStart⟩
  | c :: rest, done, line, lineStart =>
    let done := done + c.utf8Size
    if offset < done then ⟨line, offset - lineStart⟩
    else if c = '\n' then advance offset rest done (line + 1) done
    else advance offset rest done line lineStart

def ofOffset (text : String) (offset : Nat) : Position :=
  advance offset text.toList 0 1 0

end Position

end SchemaGuard
