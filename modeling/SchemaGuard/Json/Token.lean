import SchemaGuard.Json.Fault
import SchemaGuard.Json.Value

/-!
The tokens of a JSON text with the bytes they take up. A token that cannot be read may still be one
that can be passed over: a string with an unpaired surrogate or a number beyond the finite range
carries its fault instead of a value, and an ill-formed token carries one fault for a reader that
wants its value and one for a reader that passes over it. Nothing follows an ill-formed token.
-/

set_option autoImplicit false
set_option relaxedAutoImplicit false

namespace SchemaGuard

inductive Lexeme where
  | mark (c : Char)
  | null
  | bool (b : Bool)
  | number (value : Except Fault Number)
  | string (value : Except Fault String)
  /-- An ill-formed token; `quoted` tells that it opens with a quotation mark. -/
  | broken (quoted : Bool) (read skip : Fault)
  | stray
  | finish

structure Token where
  start : Nat
  stop : Nat
  lexeme : Lexeme

namespace Token

/-- The offset at which a fault found by looking at this token is reported. -/
def seen (t : Token) : Nat :=
  match t.lexeme with
  | .finish => t.start
  | _ => t.start + 1

end Token

namespace Token.Scan

def word (offset : Nat) : List Char → List Char → Except Fault (List Char)
  | [], rest => .ok rest
  | _ :: _, [] => .error ⟨.endInValue, offset⟩
  | c :: word', d :: rest =>
    if c = d then word (offset + 1) word' rest else .error ⟨.wordExpected, offset + 1⟩

def hexValue? (c : Char) : Option Nat :=
  if '0' ≤ c ∧ c ≤ '9' then some (c.toNat - '0'.toNat)
  else if 'a' ≤ c ∧ c ≤ 'f' then some (c.toNat - 'a'.toNat + 10)
  else if 'A' ≤ c ∧ c ≤ 'F' then some (c.toNat - 'A'.toNat + 10)
  else none

def hexValues? (a b c d : Char) : Option Nat := do
  let a ← hexValue? a
  let b ← hexValue? b
  let c ← hexValue? c
  let d ← hexValue? d
  return ((a * 16 + b) * 16 + c) * 16 + d

def unescape? (c : Char) : Option Char :=
  match c with
  | '"' => some '"'
  | '\\' => some '\\'
  | '/' => some '/'
  | 'b' => some '\x08'
  | 'f' => some '\x0c'
  | 'n' => some '\n'
  | 'r' => some '\r'
  | 't' => some '\t'
  | _ => none

def isLeading (n : Nat) : Bool := 0xD800 ≤ n && n ≤ 0xDBFF

def isTrailing (n : Nat) : Bool := 0xDC00 ≤ n && n ≤ 0xDFFF

def paired (leading trailing : Nat) : Char :=
  Char.ofNat ((leading - 0xD800) * 0x400 + (trailing - 0xDC00) + 0x10000)

/-- What the rest of a string literal holds: its characters in reverse, or the first fault of a
string that can be passed over but not read. -/
inductive Literal where
  | ended (value : Except Fault (List Char)) (stop : Nat) (rest : List Char)
  | broken (read skip : Fault)

def spoil (value : Except Fault (List Char)) (fault : Fault) : Except Fault (List Char) :=
  match value with
  | .ok _ => .error fault
  | .error first => .error first

def push (value : Except Fault (List Char)) (c : Char) : Except Fault (List Char) :=
  value.map (c :: ·)

def unpaired (pending : Option Nat) (value : Except Fault (List Char)) (offset : Nat) :
    Except Fault (List Char) :=
  match pending with
  | none => value
  | some _ => spoil value ⟨.unfinishedSurrogate, offset⟩

/-- The literal ends in a fault, told as `read` to its reader, who may have met an earlier one, and
as `skip` to one that passes over it. -/
def breakOff (value : Except Fault (List Char)) (read skip : Fault) : Literal :=
  match value with
  | .ok _ => .broken read skip
  | .error first => .broken first skip

def fail (value : Except Fault (List Char)) (fault : Fault) : Literal := breakOff value fault fault

/-- Reads a string literal behind its opening quotation mark. `pending` is a leading surrogate that
awaits its other half; `total` is the size of the whole text in bytes. A control character is taken
before it is refused, except by a reader that passes over the literal. -/
def literal (total : Nat) (offset : Nat) (pending : Option Nat)
    (value : Except Fault (List Char)) : List Char → Literal
  | [] => fail value ⟨.endInString, total⟩
  | '"' :: rest => .ended (unpaired pending value (offset + 1)) (offset + 1) rest
  | ['\\'] => fail value ⟨.endInString, total⟩
  | '\\' :: 'u' :: a :: b :: c :: d :: rest =>
    match hexValues? a b c d with
    | none => fail value ⟨.invalidEscape, offset + 6⟩
    | some n =>
      match pending with
      | some leading =>
        if isTrailing n then literal total (offset + 6) none (push value (paired leading n)) rest
        else literal total (offset + 6) none (spoil value ⟨.loneSurrogate, offset + 6⟩) rest
      | none =>
        if isLeading n then literal total (offset + 6) (some n) value rest
        else if isTrailing n then
          literal total (offset + 6) none (spoil value ⟨.loneSurrogate, offset + 6⟩) rest
        else literal total (offset + 6) none (push value (Char.ofNat n)) rest
  | '\\' :: 'u' :: _ =>
    if offset + 6 ≤ total then fail value ⟨.invalidEscape, offset + 6⟩
    else fail value ⟨.endInString, total⟩
  | '\\' :: e :: rest =>
    let value := unpaired pending value (offset + 2)
    match unescape? e with
    | some c => literal total (offset + 2) none (push value c) rest
    | none => fail value ⟨.invalidEscape, offset + 2⟩
  | c :: rest =>
    let value := unpaired pending value (offset + 1)
    if c.toNat < 0x20 then
      breakOff value ⟨.controlCharacter, offset + 1⟩ ⟨.controlCharacter, offset⟩
    else literal total (offset + c.utf8Size) none (push value c) rest

def isDigit (c : Char) : Bool := '0' ≤ c && c ≤ '9'

def digitValue (c : Char) : Nat := c.toNat - '0'.toNat

/-- A numeral: the digits before the point, those behind it, and the sign and digits of the power of
ten with the offset at which these digits begin. -/
structure Numeral where
  negative : Bool
  whole : List Char
  fraction : List Char
  exponent : Option (Bool × Nat × List Char)

/-- Significands, and so natural numbers kept exactly, stay below this bound. -/
def significandLimit : Nat := Nat.pow 2 64

/-- The least negative integer kept exactly is the negation of this. -/
def negativeLimit : Nat := Nat.pow 2 63

/-- The digits of a power are read while it stays below this bound. -/
def powerLimit : Nat := Nat.pow 2 31

/-- Takes digits into a significand while it fits 64 bits; gives it and the digits left over. -/
def significand : Nat → List Char → Nat × List Char
  | s, [] => (s, [])
  | s, d :: rest =>
    if s * 10 + digitValue d < significandLimit then significand (s * 10 + digitValue d) rest
    else (s, d :: rest)

/-- The value of a power's digits, or the offset behind the digit with which it leaves 31 bits. -/
def powerValue : Nat → Nat → List Char → Except Nat Nat
  | _, s, [] => .ok s
  | offset, s, d :: rest =>
    if s * 10 + digitValue d < powerLimit then powerValue (offset + 1) (s * 10 + digitValue d) rest
    else .error (offset + 1)

def binary (negative : Bool) (s : Nat) (power : Int) (stop : Nat) : Except Fault Number :=
  match Binary64.ofDecimal? s power with
  | some x => .ok (.binary (x.withSign negative))
  | none => .error ⟨.numberOutOfRange, stop⟩

namespace Numeral

/-- The value of a numeral that ends at `stop`. Digits beyond a 64-bit significand are dropped. -/
def value (n : Numeral) (stop : Nat) : Except Fault Number :=
  let (s, dropped) := significand 0 n.whole
  match n.fraction, n.exponent, dropped with
  | [], none, [] =>
    if !n.negative then .ok (.integer s)
    else if 0 < s ∧ s ≤ negativeLimit then .ok (.integer (-(s : Int)))
    else binary true s 0 stop
  | fraction, exponent, dropped =>
    let (s, unread) := significand s fraction
    let power : Int := dropped.length - (fraction.length - unread.length : Nat)
    match exponent with
    | none => binary n.negative s power stop
    | some (below, start, digits) =>
      match powerValue start 0 digits with
      | .ok k => binary n.negative s (if below then power - k else power + k) stop
      | .error offset =>
        if s = 0 ∨ below then .ok (.binary (Binary64.zero n.negative))
        else .error ⟨.numberOutOfRange, offset⟩

end Numeral

/-- What a number token comes to. -/
inductive Figure where
  | ended (value : Except Fault Number) (stop : Nat) (rest : List Char)
  | broken (read skip : Fault)

/-- Reads the power of ten of a numeral, if there is one. -/
def exponentOf (total offset : Nat) (negative : Bool) (whole fraction : List Char)
    (cs : List Char) : Figure :=
  match cs with
  | [] => .ended (Numeral.value ⟨negative, whole, fraction, none⟩ offset) offset []
  | e :: rest =>
    if e = 'e' ∨ e = 'E' then
      let (below, offset, rest) :=
        match rest with
        | '+' :: rest => (false, offset + 2, rest)
        | '-' :: rest => (true, offset + 2, rest)
        | rest => (false, offset + 1, rest)
      match rest with
      | [] => .broken ⟨.endInValue, total⟩ ⟨.invalidNumber, total⟩
      | d :: _ =>
        if isDigit d then
          let digits := rest.takeWhile isDigit
          let stop := offset + digits.length
          .ended (Numeral.value ⟨negative, whole, fraction, some (below, offset, digits)⟩ stop) stop
            (rest.dropWhile isDigit)
        else .broken ⟨.invalidNumber, offset + 1⟩ ⟨.invalidNumber, offset + 1⟩
    else .ended (Numeral.value ⟨negative, whole, fraction, none⟩ offset) offset (e :: rest)

/-- Reads the digits behind the point of a numeral, if there is one. -/
def fractionOf (total offset : Nat) (negative : Bool) (whole : List Char) (cs : List Char) :
    Figure :=
  match cs with
  | '.' :: rest =>
    let digits := rest.takeWhile isDigit
    match digits, rest with
    | [], [] => .broken ⟨.endInValue, total⟩ ⟨.invalidNumber, total⟩
    | [], _ => .broken ⟨.invalidNumber, offset + 2⟩ ⟨.invalidNumber, offset + 2⟩
    | _, _ =>
      exponentOf total (offset + 1 + digits.length) negative whole digits (rest.dropWhile isDigit)
  | cs => exponentOf total offset negative whole [] cs

def unsigned (total offset : Nat) (negative : Bool) (cs : List Char) : Figure :=
  match cs with
  | [] => .broken ⟨.endInValue, offset⟩ ⟨.invalidNumber, offset⟩
  | '0' :: rest =>
    match rest with
    | d :: _ =>
      if isDigit d then .broken ⟨.invalidNumber, offset + 2⟩ ⟨.invalidNumber, offset + 2⟩
      else fractionOf total (offset + 1) negative ['0'] rest
    | [] => fractionOf total (offset + 1) negative ['0'] rest
  | d :: rest =>
    if isDigit d then
      let digits := d :: rest.takeWhile isDigit
      fractionOf total (offset + digits.length) negative digits (rest.dropWhile isDigit)
    else .broken ⟨.invalidNumber, offset + 1⟩ ⟨.invalidNumber, offset + 1⟩

theorem word_length {offset : Nat} {w cs rest : List Char} (h : word offset w cs = .ok rest) :
    rest.length ≤ cs.length := by
  induction w generalizing offset cs with
  | nil => simp_all [word]
  | cons c w ih =>
    cases cs with
    | nil => simp [word] at h
    | cons d cs =>
      simp only [word] at h
      split at h
      · exact Nat.le_succ_of_le (ih h)
      · simp at h

theorem breakOff_ne_ended {value v : Except Fault (List Char)} {read skip : Fault} {stop : Nat}
    {rest : List Char} : breakOff value read skip ≠ .ended v stop rest := by
  cases value <;> simp [breakOff]

theorem fail_ne_ended {value v : Except Fault (List Char)} {fault : Fault} {stop : Nat}
    {rest : List Char} : fail value fault ≠ .ended v stop rest :=
  breakOff_ne_ended

theorem literal_length {total offset : Nat} {pending : Option Nat}
    {value v : Except Fault (List Char)} {cs rest : List Char} {stop : Nat}
    (h : literal total offset pending value cs = .ended v stop rest) : rest.length ≤ cs.length := by
  fun_induction literal total offset pending value cs <;>
    simp_all [fail_ne_ended, breakOff_ne_ended] <;> omega

theorem length_dropWhile_le (p : Char → Bool) (cs : List Char) :
    (cs.dropWhile p).length ≤ cs.length :=
  (List.dropWhile_sublist p).length_le

theorem exponentOf_length {total offset : Nat} {negative : Bool} {whole fraction cs : List Char}
    {v : Except Fault Number} {stop : Nat} {rest : List Char}
    (h : exponentOf total offset negative whole fraction cs = .ended v stop rest) :
    rest.length ≤ cs.length := by
  unfold exponentOf at h
  split at h
  · simp_all
  · rename_i e tail
    split at h
    · have signed : (match tail with
          | '+' :: rest => (false, offset + 2, rest)
          | '-' :: rest => (true, offset + 2, rest)
          | rest => (false, offset + 1, rest)).2.2.length ≤ tail.length := by
        split <;> simp
      revert h signed
      generalize (match tail with
          | '+' :: rest => (false, offset + 2, rest)
          | '-' :: rest => (true, offset + 2, rest)
          | rest => (false, offset + 1, rest)) = split
      obtain ⟨below, start, digits⟩ := split
      intro h signed
      simp only at h signed
      split at h
      · simp at h
      · split at h
        · simp only [Figure.ended.injEq] at h
          obtain ⟨-, -, rfl⟩ := h
          exact Nat.le_succ_of_le (Nat.le_trans (length_dropWhile_le isDigit _) signed)
        · simp at h
    · simp_all

theorem fractionOf_length {total offset : Nat} {negative : Bool} {whole cs : List Char}
    {v : Except Fault Number} {stop : Nat} {rest : List Char}
    (h : fractionOf total offset negative whole cs = .ended v stop rest) :
    rest.length ≤ cs.length := by
  unfold fractionOf at h
  split at h
  · simp only at h
    split at h
    · simp at h
    · simp at h
    · rename_i tail _ _ _ _
      have := exponentOf_length h
      have := length_dropWhile_le isDigit tail
      simp
      omega
  · exact exponentOf_length h

theorem unsigned_length {total offset : Nat} {negative : Bool} {cs : List Char}
    {v : Except Fault Number} {stop : Nat} {rest : List Char}
    (h : unsigned total offset negative cs = .ended v stop rest) : rest.length < cs.length := by
  unfold unsigned at h
  split at h
  · simp at h
  · split at h
    · split at h
      · simp at h
      · have := fractionOf_length h
        simp only [List.length_cons] at this ⊢
        omega
    · have := fractionOf_length h
      simp only [List.length_cons] at this ⊢
      omega
  · rename_i d tail _
    split at h
    · have := fractionOf_length h
      have := length_dropWhile_le isDigit tail
      simp only [List.length_cons] at this ⊢
      omega
    · simp at h

end Token.Scan

namespace Token

def isBlank (c : Char) : Bool := c = ' ' || c = '\n' || c = '\t' || c = '\r'

def isMark (c : Char) : Bool :=
  c = '[' || c = ']' || c = '\x7b' || c = '\x7d' || c = ':' || c = ','

/-- The words of JSON: the characters behind the first one, and what the word stands for. -/
def word? (c : Char) : Option (List Char × Lexeme) :=
  match c with
  | 'n' => some (['u', 'l', 'l'], .null)
  | 't' => some (['r', 'u', 'e'], .bool true)
  | 'f' => some (['a', 'l', 's', 'e'], .bool false)
  | _ => none

/-- The token that begins with `c`, and where and with what characters the text goes on behind it;
no continuation means that nothing can follow. -/
def next (total offset : Nat) (c : Char) (cs : List Char) :
    Token × Option (Nat × { rest : List Char // rest.length ≤ cs.length }) :=
  if isMark c then
    (⟨offset, offset + 1, .mark c⟩, some (offset + 1, ⟨cs, Nat.le_refl _⟩))
  else if c = '"' then
    match h : Scan.literal total (offset + 1) none (.ok []) cs with
    | .ended value stop rest =>
      (⟨offset, stop, .string (value.map fun cs => String.ofList cs.reverse)⟩,
        some (stop, ⟨rest, Scan.literal_length h⟩))
    | .broken read skip => (⟨offset, total, .broken true read skip⟩, none)
  else if c = '-' then
    match h : Scan.unsigned total (offset + 1) true cs with
    | .ended value stop rest =>
      (⟨offset, stop, .number value⟩, some (stop, ⟨rest, Nat.le_of_lt (Scan.unsigned_length h)⟩))
    | .broken read skip => (⟨offset, total, .broken false read skip⟩, none)
  else if Scan.isDigit c then
    match h : Scan.unsigned total offset false (c :: cs) with
    | .ended value stop rest =>
      (⟨offset, stop, .number value⟩,
        some (stop, ⟨rest, Nat.le_of_lt_succ (Scan.unsigned_length h)⟩))
    | .broken read skip => (⟨offset, total, .broken false read skip⟩, none)
  else
    match word? c with
    | some (tail, lexeme) =>
      match h : Scan.word (offset + 1) tail cs with
      | .ok rest =>
        let stop := offset + 1 + tail.length
        (⟨offset, stop, lexeme⟩, some (stop, ⟨rest, Scan.word_length h⟩))
      | .error fault => (⟨offset, total, .broken false fault fault⟩, none)
    | none => (⟨offset, total, .stray⟩, none)

def scan (total offset : Nat) : List Char → List Token
  | [] => [⟨offset, offset, .finish⟩]
  | c :: cs =>
    if isBlank c then scan total (offset + 1) cs
    else
      match next total offset c cs with
      | (t, some (stop, ⟨rest, _⟩)) => t :: scan total stop rest
      | (t, none) => [t]
termination_by cs => cs.length

def ofText (text : String) : List Token := scan text.utf8ByteSize 0 text.toList

end Token

end SchemaGuard
