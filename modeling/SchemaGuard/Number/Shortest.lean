import SchemaGuard.Number.Binary64

/-!
The shortest decimal text of a binary64 number: the coarsest power of ten that has a multiple among
the reals which round to the number, and of two such multiples the nearer one.
-/

set_option autoImplicit false
set_option relaxedAutoImplicit false

namespace SchemaGuard

namespace Binary64

/-- A multiple of `10 ^ k` that rounds to `x`, the nearer one if both neighbours of `x` do. -/
def multipleOf? (x : Binary64) (k : Int) : Option Nat :=
  let m := x.significand
  let isPowerOfTwo := m = significandBound / 2 ∧ leastExponent < x.exponent
  let below := if isPowerOfTwo then 4 * m - 1 else 4 * m - 2
  let (n, d) := scale 1 1 (x.exponent - 2)
  let (n, d) :=
    if 0 ≤ k then (n, d * Nat.pow 10 k.toNat) else (n * Nat.pow 10 (-k).toNat, d)
  let value := 4 * m * n
  let floor := value / d
  let rounds (c : Nat) : Bool :=
    if m % 2 = 0 then below * n ≤ c * d && c * d ≤ (4 * m + 2) * n
    else below * n < c * d && c * d < (4 * m + 2) * n
  match rounds floor, rounds (floor + 1) with
  | false, false => none
  | true, false => some floor
  | false, true => some (floor + 1)
  | true, true => some (roundHalfEven value d)

/-- The first of the powers `k`, `k - 1`, … with a multiple that rounds to `x`, and the multiple. -/
def coarsest (x : Binary64) : Nat → Int → Nat × Int
  | 0, k => (0, k)
  | steps + 1, k =>
    match x.multipleOf? k with
    | some c => (c, k)
    | none => coarsest x steps (k - 1)

/-- A coefficient and a power of ten whose product is the shortest decimal that rounds to `x`. -/
def shortest (x : Binary64) : Nat × Int :=
  if x.isZero then (0, 0)
  else
    let bits : Int := (Nat.log2 x.significand : Int) + 1 + x.exponent
    coarsest x 24 (bits * 30103 / 100000 + 1)

/-- Digits with a point, and at least one digit on either side of it, while the leading digit counts
between 10⁻⁵ and 10¹⁵; else one digit before the point and a signed power of ten. -/
def text (x : Binary64) : String :=
  let (coefficient, power) := x.shortest
  let digits := (toString coefficient).toList
  let lead : Int := power + digits.length - 1
  let body :=
    if coefficient = 0 then "0.0"
    else if -5 ≤ lead ∧ lead ≤ 15 then
      if 0 ≤ power then String.ofList (digits ++ List.replicate power.toNat '0') ++ ".0"
      else if 0 ≤ lead then
        String.ofList (digits.take (lead.toNat + 1)) ++ "."
          ++ String.ofList (digits.drop (lead.toNat + 1))
      else "0." ++ String.ofList (List.replicate (-lead - 1).toNat '0' ++ digits)
    else
      let head := String.ofList (digits.take 1)
      let rest := digits.drop 1
      head ++ (if rest.isEmpty then "" else "." ++ String.ofList rest) ++ "e"
        ++ (if lead < 0 then "-" else "+") ++ toString lead.natAbs
  if x.negative then "-" ++ body else body

end Binary64

end SchemaGuard
