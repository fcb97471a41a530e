/-!
Finite binary64 numbers, held exactly as a sign, a significand and a power of two. Every operation
computes the exact rational result in natural-number arithmetic and rounds it once, to the nearest
number with ties to an even significand; a result beyond the largest finite number is `none`.
-/

set_option autoImplicit false
set_option relaxedAutoImplicit false

namespace SchemaGuard

/-- The number `± significand · 2 ^ exponent`; zero keeps its sign. -/
structure Binary64 where
  negative : Bool
  significand : Nat
  exponent : Int
  deriving DecidableEq, Repr

namespace Binary64

def leastExponent : Int := -1074

def greatestExponent : Int := 971

def significandBound : Nat := Nat.pow 2 53

/-- The quotient of `n` by `d`, to the nearest integer, a half going to the even one. -/
def roundHalfEven (n d : Nat) : Nat :=
  let q := n / d
  let r := n % d
  if 2 * r < d then q
  else if d < 2 * r then q + 1
  else if q % 2 = 0 then q else q + 1

def scale (n d : Nat) (e : Int) : Nat × Nat :=
  if 0 ≤ e then (n * Nat.pow 2 e.toNat, d) else (n, d * Nat.pow 2 (-e).toNat)

/-- The exponent of the last place of the number nearest to `n / d`. -/
def lastPlace (n d : Nat) : Int :=
  let guess : Int := (Nat.log2 n : Int) - (Nat.log2 d : Int)
  let (a, b) := scale n d (-guess)
  let magnitude := if a < b then guess - 1 else guess
  max (magnitude - 52) leastExponent

/-- The number nearest to `± n / d`, unless it is beyond the finite range. -/
def ofQuotient? (negative : Bool) (n d : Nat) : Option Binary64 :=
  if n = 0 then some ⟨negative, 0, leastExponent⟩
  else
    let e := lastPlace n d
    let (a, b) := scale n d (-e)
    let m := roundHalfEven a b
    let (m, e) := if m = significandBound then (significandBound / 2, e + 1) else (m, e)
    if e ≤ greatestExponent then some ⟨negative, m, e⟩ else none

def zero (negative : Bool) : Binary64 := ⟨negative, 0, leastExponent⟩

def isZero (x : Binary64) : Bool := x.significand == 0

def withSign (negative : Bool) (x : Binary64) : Binary64 := { x with negative }

def ofNat? (n : Nat) : Option Binary64 := ofQuotient? false n 1

def mul? (x y : Binary64) : Option Binary64 :=
  let (n, d) := scale (x.significand * y.significand) 1 (x.exponent + y.exponent)
  ofQuotient? (x.negative != y.negative) n d

def div? (x y : Binary64) : Option Binary64 :=
  let (n, d) := scale x.significand y.significand (x.exponent - y.exponent)
  ofQuotient? (x.negative != y.negative) n d

def isByte (x : Binary64) : Bool :=
  let (n, d) := scale x.significand 1 x.exponent
  n == 0 || (!x.negative && n % d == 0 && n / d ≤ 255)

def greatestPower : Nat := 308

def powerOfTen (k : Nat) : Binary64 := (ofNat? (Nat.pow 10 k)).getD (zero false)

/-- Division by `10 ^ k`, in steps of at most `greatestPower`, each of them rounded. -/
def lower (x : Binary64) (k : Nat) : Binary64 :=
  if k ≤ greatestPower then (x.div? (powerOfTen k)).getD x
  else if x.isZero then x
  else lower ((x.div? (powerOfTen greatestPower)).getD x) (k - greatestPower)
termination_by k
decreasing_by
  have : greatestPower = 308 := rfl
  omega

/-- The number read for `significand · 10 ^ exponent`: the significand is rounded first and then
multiplied or divided by a rounded power of ten; `none` when that leaves the finite range. -/
def ofDecimal? (significand : Nat) (exponent : Int) : Option Binary64 :=
  match ofNat? significand with
  | none => none
  | some x =>
    if exponent < 0 then some (x.lower (-exponent).toNat)
    else if exponent.toNat ≤ greatestPower then x.mul? (powerOfTen exponent.toNat)
    else if x.isZero then some x
    else none

end Binary64

end SchemaGuard
