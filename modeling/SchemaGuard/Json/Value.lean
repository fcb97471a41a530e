import SchemaGuard.Number.Binary64

/-!
JSON values. An object is the list of its members in the order written; `settled` makes its keys
distinct, the last of equal keys giving the value and the first giving the place.
-/

set_option autoImplicit false
set_option relaxedAutoImplicit false

namespace SchemaGuard

/-- A number is kept as an integer where it was written as one that fits 64 bits, and as the nearest
binary64 number otherwise. -/
inductive Number where
  | integer (value : Int)
  | binary (value : Binary64)
  deriving DecidableEq, Repr

def Number.isByte : Number → Bool
  | .integer i => 0 ≤ i && i ≤ 255
  | .binary x => x.isByte

inductive Json where
  | null
  | bool (b : Bool)
  | number (n : Number)
  | string (s : String)
  | array (items : List Json)
  | object (members : List (String × Json))
  deriving Repr, Inhabited

namespace Json

mutual
/-- How many arrays and objects stand inside each other at most. -/
def depth : Json → Nat
  | .array items => depthOfItems items + 1
  | .object members => depthOfMembers members + 1
  | _ => 0

def depthOfItems : List Json → Nat
  | [] => 0
  | x :: xs => max (depth x) (depthOfItems xs)

def depthOfMembers : List (String × Json) → Nat
  | [] => 0
  | (_, x) :: xs => max (depth x) (depthOfMembers xs)
end

/-- Gives `key` the value `x`: in place if the key is there already, else at the end. -/
def insertMember (key : String) (x : Json) : List (String × Json) → List (String × Json)
  | [] => [(key, x)]
  | (k, y) :: rest => if k = key then (k, x) :: rest else (k, y) :: insertMember key x rest

mutual
def settled : Json → Json
  | .array items => .array (settledItems items)
  | .object members => .object (settledMembers members [])
  | x => x

def settledItems : List Json → List Json
  | [] => []
  | x :: xs => settled x :: settledItems xs

def settledMembers : List (String × Json) → List (String × Json) → List (String × Json)
  | [], done => done
  | (k, x) :: rest, done => settledMembers rest (insertMember k (settled x) done)
end

end Json

end SchemaGuard
