import Mathlib.Data.Int.Log
import Mathlib.Data.Rat.Floor
import Mathlib.Tactic

namespace Significand

def roundEven (q : ℚ) : ℤ :=
  if 2 * (q - ⌊q⌋) < 1 then ⌊q⌋
  else if 1 < 2 * (q - ⌊q⌋) then ⌊q⌋ + 1
  else if Even ⌊q⌋ then ⌊q⌋ else ⌊q⌋ + 1

-- A positive rational to the nearest one with a significand of `p` bits, ties to even; the exponent is unbounded.
def toNearest (p : Nat) (q : ℚ) : ℚ :=
  let ulp : ℚ := 2 ^ (Int.log 2 q + 1 - p)
  roundEven (q / ulp) * ulp

theorem roundEven_intCast (n : ℤ) : roundEven n = n := by
  simp [roundEven]

theorem roundEven_half (n : ℤ) : roundEven (n + 1 / 2) = if Even n then n else n + 1 := by
  have hf : ⌊(n : ℚ) + 1 / 2⌋ = n := by
    rw [Int.floor_eq_iff]
    constructor <;> linarith
  have h : (n : ℚ) + 1 / 2 - n = 1 / 2 := by ring
  rw [roundEven, hf, h]
  norm_num

theorem toNearest_exact {p : Nat} {q : ℚ} (n : ℤ) (h : q = n * 2 ^ (Int.log 2 q + 1 - p)) : toNearest p q = q := by
  have hpos : (2 : ℚ) ^ (Int.log 2 q + 1 - p) ≠ 0 := zpow_ne_zero _ two_ne_zero
  have hdiv : q / 2 ^ (Int.log 2 q + 1 - p) = n := by
    rw [div_eq_iff hpos]
    exact h
  rw [toNearest, hdiv, roundEven_intCast]
  exact h.symm

theorem toNearest_half_of_lt {p x : Nat} (hp : 1 ≤ p) (h : x < 2 ^ (p - 1)) : toNearest p (x + 1 / 2) = x + 1 / 2 := by
  have hpos : (0 : ℚ) < x + 1 / 2 := by positivity
  have hlog : Int.log 2 ((x : ℚ) + 1 / 2) < (p - 1 : Nat) := by
    refine (Int.lt_zpow_iff_log_lt one_lt_two hpos).mp ?_
    rw [zpow_natCast]
    have : (x : ℚ) + 1 ≤ 2 ^ (p - 1) := by exact_mod_cast h
    push_cast
    linarith
  obtain ⟨k, hk⟩ : ∃ k : Nat, Int.log 2 ((x : ℚ) + 1 / 2) + 1 - p = -(k + 1 : ℤ) :=
    ⟨(-(Int.log 2 ((x : ℚ) + 1 / 2) + 1 - p) - 1).toNat, by omega⟩
  refine toNearest_exact ((2 * x + 1) * 2 ^ k) ?_
  rw [hk, zpow_neg, zpow_add₀ two_ne_zero, zpow_natCast]
  push_cast
  field_simp

theorem toNearest_half_of_le {p x : Nat} (hp : 1 ≤ p) (h : 2 ^ (p - 1) ≤ x) (hlt : x < 2 ^ p) :
    toNearest p (x + 1 / 2) = if Even x then (x : ℚ) else x + 1 := by
  have hpos : (0 : ℚ) < x + 1 / 2 := by positivity
  have hlo : (p - 1 : Nat) ≤ Int.log 2 ((x : ℚ) + 1 / 2) := by
    refine (Int.zpow_le_iff_le_log one_lt_two hpos).mp ?_
    rw [zpow_natCast]
    have : (2 : ℚ) ^ (p - 1) ≤ x := by exact_mod_cast h
    push_cast
    linarith
  have hhi : Int.log 2 ((x : ℚ) + 1 / 2) < p := by
    refine (Int.lt_zpow_iff_log_lt one_lt_two hpos).mp ?_
    rw [zpow_natCast]
    have : (x : ℚ) + 1 ≤ 2 ^ p := by exact_mod_cast hlt
    push_cast
    linarith
  have hulp : Int.log 2 ((x : ℚ) + 1 / 2) + 1 - p = 0 := by omega
  have hr := roundEven_half x
  rw [Int.cast_natCast] at hr
  rw [toNearest, hulp, zpow_zero, div_one, mul_one, hr]
  by_cases he : Even x <;> simp [he]

end Significand
