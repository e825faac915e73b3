import Mathlib.Tactic

namespace SignedWord

variable {w : Nat}

-- Two's complement arithmetic with one sign bit over `w` bits of value; `none` where the exact result does not fit.
def mul (x y : BitVec (w + 1)) : Option (BitVec (w + 1)) := if x.smulOverflow y then none else some (x * y)

def add (x y : BitVec (w + 1)) : Option (BitVec (w + 1)) := if x.saddOverflow y then none else some (x + y)

variable {a b n : Nat}

theorem toNat_ofNat (h : a < 2 ^ w) : (BitVec.ofNat (w + 1) a).toNat = a := by
  apply Nat.mod_eq_of_lt
  rw [pow_succ]
  omega

theorem toInt_ofNat (h : a < 2 ^ w) : (BitVec.ofNat (w + 1) a).toInt = a := by
  rw [BitVec.toInt_eq_toNat_of_lt, toNat_ofNat h]
  rw [toNat_ofNat h, pow_succ]
  omega

theorem mul_ofNat (ha : a < 2 ^ w) (hb : b < 2 ^ w) (h : a * b < 2 ^ w) :
    mul (BitVec.ofNat (w + 1) a) (BitVec.ofNat (w + 1) b) = some (BitVec.ofNat (w + 1) (a * b)) := by
  have hlt : ((a : Int) * b) < 2 ^ w := by exact_mod_cast h
  have hnonneg : (0 : Int) ≤ (a : Int) * b := by positivity
  have hneg : -(2 : Int) ^ w ≤ 0 := by simp
  have hfits : (BitVec.ofNat (w + 1) a).smulOverflow (BitVec.ofNat (w + 1) b) = false := by
    simp only [BitVec.smulOverflow, toInt_ofNat ha, toInt_ofNat hb, Nat.add_sub_cancel, Bool.or_eq_false_iff,
      decide_eq_false_iff_not, not_le, not_lt]
    exact ⟨hlt, hneg.trans hnonneg⟩
  simp [mul, hfits, BitVec.ofNat_mul]

theorem add_ofNat (ha : a < 2 ^ w) (hb : b < 2 ^ w) (h : a + b < 2 ^ w) :
    add (BitVec.ofNat (w + 1) a) (BitVec.ofNat (w + 1) b) = some (BitVec.ofNat (w + 1) (a + b)) := by
  have hlt : ((a : Int) + b) < 2 ^ w := by exact_mod_cast h
  have hnonneg : (0 : Int) ≤ (a : Int) + b := by positivity
  have hneg : -(2 : Int) ^ w ≤ 0 := by simp
  have hfits : (BitVec.ofNat (w + 1) a).saddOverflow (BitVec.ofNat (w + 1) b) = false := by
    simp only [BitVec.saddOverflow, toInt_ofNat ha, toInt_ofNat hb, Nat.add_sub_cancel, Bool.or_eq_false_iff,
      decide_eq_false_iff_not, not_le, not_lt]
    exact ⟨hlt, hneg.trans hnonneg⟩
  simp [add, hfits, BitVec.ofNat_add]

theorem sshiftRight_ofNat (h : a < 2 ^ w) :
    (BitVec.ofNat (w + 1) a).sshiftRight n = BitVec.ofNat (w + 1) (a >>> n) := by
  have hmsb : (BitVec.ofNat (w + 1) a).msb = false := by
    rw [BitVec.msb_eq_false_iff_two_mul_lt, toNat_ofNat h, pow_succ]
    omega
  have hle : a >>> n < 2 ^ w := by
    rw [Nat.shiftRight_eq_div_pow]
    exact (Nat.div_le_self _ _).trans_lt h
  apply BitVec.eq_of_toNat_eq
  rw [BitVec.toNat_sshiftRight_of_msb_false hmsb, toNat_ofNat h, toNat_ofNat hle]

end SignedWord
