import Mathlib.Algebra.Order.Field.Rat
import Mathlib.Data.Nat.Cast.Field
import Mathlib.Tactic.Linarith
import Mathlib.Tactic.Positivity
import SchemaGuard.Json.Value

/-!
The exact values of numbers, and the test for bytes against them.
-/

set_option autoImplicit false
set_option relaxedAutoImplicit false

namespace SchemaGuard

namespace Binary64

def value (x : Binary64) : ℚ :=
  (if x.negative then -1 else 1) * (x.significand * 2 ^ x.exponent)

private theorem scale_spec (m : Nat) (e : Int) :
    0 < (scale m 1 e).2 ∧ (m : ℚ) * 2 ^ e = (scale m 1 e).1 / (scale m 1 e).2 := by
  unfold scale
  split
  · next h =>
    refine ⟨Nat.one_pos, ?_⟩
    obtain ⟨k, rfl⟩ := Int.eq_ofNat_of_zero_le h
    simp
  · next h =>
    obtain ⟨k, rfl⟩ : ∃ k : Nat, e = -k := ⟨(-e).toNat, by omega⟩
    refine ⟨by simp, ?_⟩
    simp [zpow_neg, div_eq_mul_inv]

private theorem isByte_iff (x : Binary64) : x.isByte = true ↔ ∃ k : Nat, x.value = k ∧ k ≤ 255 := by
  obtain ⟨hpos, hvalue⟩ := scale_spec x.significand x.exponent
  unfold isByte value
  rw [hvalue]
  generalize (scale x.significand 1 x.exponent) = q at hpos ⊢
  obtain ⟨n, d⟩ := q
  have hd : (d : ℚ) ≠ 0 := by
    have : d ≠ 0 := Nat.ne_of_gt hpos
    exact_mod_cast this
  simp only [Bool.or_eq_true, beq_iff_eq, Bool.and_eq_true, Bool.not_eq_true', decide_eq_true_eq]
  constructor
  · rintro (rfl | ⟨⟨hsign, hdvd⟩, hle⟩)
    · exact ⟨0, by simp, by omega⟩
    · refine ⟨n / d, ?_, hle⟩
      rw [hsign, Nat.cast_div (Nat.dvd_of_mod_eq_zero hdvd) hd]
      simp
  · rintro ⟨k, heq, hle⟩
    cases hsign : x.negative with
    | true =>
      -- A negative number is a byte only if it is a zero.
      left
      rw [hsign] at heq
      have hquot : (0 : ℚ) ≤ n / d := by positivity
      have hk : (0 : ℚ) ≤ k := Nat.cast_nonneg k
      have hzero : (n : ℚ) / d = 0 := by
        simp only [if_true] at heq
        linarith
      rw [div_eq_zero_iff] at hzero
      exact_mod_cast hzero.resolve_right hd
    | false =>
      right
      rw [hsign] at heq
      have hmul : n = k * d := by
        simp only [Bool.false_eq_true, if_false, one_mul] at heq
        rw [div_eq_iff hd] at heq
        exact_mod_cast heq
      subst hmul
      simp [Nat.mul_div_cancel k hpos, hle]

end Binary64

namespace Number

def value : Number → ℚ
  | .integer i => i
  | .binary x => x.value

theorem isByte_iff (n : Number) : n.isByte = true ↔ ∃ k : Nat, n.value = k ∧ k ≤ 255 := by
  cases n with
  | binary x => exact x.isByte_iff
  | integer i =>
    simp only [isByte, value, Bool.and_eq_true, decide_eq_true_eq]
    constructor
    · rintro ⟨hnonneg, hle⟩
      obtain ⟨k, rfl⟩ := Int.eq_ofNat_of_zero_le hnonneg
      exact ⟨k, by simp, by omega⟩
    · rintro ⟨k, heq, hle⟩
      have hik : i = k := by exact_mod_cast heq
      omega

end Number

end SchemaGuard
