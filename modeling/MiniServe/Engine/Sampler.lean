import MiniServe.Lib.Significand

namespace MiniServe

namespace Sampler

def m32 : Nat := 0xFFFFFFFF

def mixer : Nat := 0x45D9F3B

def golden : Nat := 0x9E3779B9

def fold16 (x : Nat) : Nat := (x >>> 16) ^^^ x

def mix32 (x : Nat) : Nat := fold16 (fold16 (fold16 x * mixer &&& m32) * mixer &&& m32)

def rowKey (seed counter : Nat) : Nat := mix32 (seed ^^^ mix32 counter)

-- The number in (0, 1) the hash of one vocabulary index becomes, with the sum in single precision.
def noiseOf (h : Nat) : ℚ := Significand.toNearest 24 ((h >>> 8 : Nat) + 1 / 2) * (1 / 2 ^ 24)

def noiseAt (seed counter v : Nat) : ℚ := noiseOf (mix32 (rowKey seed counter + v * golden &&& m32))

def uniformNoise (seeds counters : List Nat) (vocabSize : Nat) : List (List ℚ) :=
  (seeds.zip counters).map fun x => (List.range vocabSize).map (noiseAt x.1 x.2)

section Hash

variable {x y c v k : Nat}

theorem and_m32 (x : Nat) : x &&& m32 = x % 2 ^ 32 := Nat.and_two_pow_sub_one_eq_mod x 32

theorem fold16_lt (h : x < 2 ^ 32) : fold16 x < 2 ^ 32 := by
  refine Nat.xor_lt_two_pow ?_ h
  rw [Nat.shiftRight_eq_div_pow]
  exact (Nat.div_le_self _ _).trans_lt h

theorem fold16_fold16 (h : x < 2 ^ 32) : fold16 (fold16 x) = x := by
  have hz : x >>> 32 = 0 := by
    rw [Nat.shiftRight_eq_div_pow]
    exact Nat.div_eq_of_lt h
  rw [fold16, fold16, Nat.shiftRight_xor_distrib, ← Nat.shiftRight_add, hz, Nat.zero_xor, ← Nat.xor_assoc,
    Nat.xor_self, Nat.zero_xor]

def unmixer : Nat := 0x119DE1F3

theorem mul_unmixer (h : x < 2 ^ 32) : (x * mixer &&& m32) * unmixer &&& m32 = x := by
  rw [and_m32, and_m32, Nat.mod_mul_mod, Nat.mul_assoc, Nat.mul_mod, show mixer * unmixer % 2 ^ 32 = 1 from by decide,
    Nat.mul_one, Nat.mod_mod, Nat.mod_eq_of_lt h]

theorem mul_mixer (h : x < 2 ^ 32) : (x * unmixer &&& m32) * mixer &&& m32 = x := by
  rw [and_m32, and_m32, Nat.mod_mul_mod, Nat.mul_assoc, Nat.mul_mod, show unmixer * mixer % 2 ^ 32 = 1 from by decide,
    Nat.mul_one, Nat.mod_mod, Nat.mod_eq_of_lt h]

def unmix32 (x : Nat) : Nat := fold16 (fold16 (fold16 x * unmixer &&& m32) * unmixer &&& m32)

theorem and_m32_lt (x : Nat) : x &&& m32 < 2 ^ 32 := by
  rw [and_m32]
  exact Nat.mod_lt _ (Nat.two_pow_pos 32)

theorem mix32_lt (x : Nat) : mix32 x < 2 ^ 32 := fold16_lt (and_m32_lt _)

theorem unmix32_lt (x : Nat) : unmix32 x < 2 ^ 32 := fold16_lt (and_m32_lt _)

theorem unmix32_mix32 (h : x < 2 ^ 32) : unmix32 (mix32 x) = x := by
  rw [unmix32, mix32, fold16_fold16 (and_m32_lt _), mul_unmixer (fold16_lt (and_m32_lt _)), fold16_fold16 (and_m32_lt _),
    mul_unmixer (fold16_lt h), fold16_fold16 h]

theorem mix32_unmix32 (h : x < 2 ^ 32) : mix32 (unmix32 x) = x := by
  rw [unmix32, mix32, fold16_fold16 (and_m32_lt _), mul_mixer (fold16_lt (and_m32_lt _)), fold16_fold16 (and_m32_lt _),
    mul_mixer (fold16_lt h), fold16_fold16 h]

theorem mix32_eq_iff (hx : x < 2 ^ 32) (hy : y < 2 ^ 32) : mix32 x = y ↔ x = unmix32 y := by
  constructor
  · rintro rfl
    exact (unmix32_mix32 hx).symm
  · rintro rfl
    exact mix32_unmix32 hy

theorem xor_eq_iff : x ^^^ y = c ↔ x = c ^^^ y := by
  constructor
  · rintro rfl
    rw [Nat.xor_assoc, Nat.xor_self, Nat.xor_zero]
  · rintro rfl
    rw [Nat.xor_assoc, Nat.xor_self, Nat.xor_zero]

theorem add_golden_eq_iff (hx : x < 2 ^ 32) (hy : y < 2 ^ 32) :
    x + v * golden &&& m32 = y ↔ x = (y + v * (2 ^ 32 - golden)) % 2 ^ 32 := by
  rw [and_m32, show golden = 2654435769 from rfl]
  omega

-- The seed whose noise at position `c` for vocabulary index `v` has the hash `0xFFFFFF00 + k`.
def topSeed (c v k : Nat) : Nat :=
  unmix32 ((unmix32 (0xFFFFFF00 + k) + v * (2 ^ 32 - golden)) % 2 ^ 32) ^^^ mix32 c

end Hash

section Range

variable {h seed c v k : Nat}

theorem noiseOf_pos (hh : h < 2 ^ 32) : 0 < noiseOf h := by
  have hx : h >>> 8 < 2 ^ 24 := by
    rw [Nat.shiftRight_eq_div_pow]
    omega
  refine mul_pos ?_ (by norm_num)
  rcases Nat.lt_or_ge (h >>> 8) (2 ^ 23) with hlt | hge
  · rw [Significand.toNearest_half_of_lt (by decide) hlt]
    positivity
  · rw [Significand.toNearest_half_of_le (by decide) hge hx]
    have : (0 : ℚ) < (h >>> 8 : Nat) := by
      have : 0 < h >>> 8 := lt_of_lt_of_le (by decide) hge
      exact_mod_cast this
    split <;> linarith

theorem noiseOf_lt_one_iff (hh : h < 2 ^ 32) : noiseOf h < 1 ↔ h < 0xFFFFFF00 := by
  have hx : h >>> 8 < 2 ^ 24 := by
    rw [Nat.shiftRight_eq_div_pow]
    omega
  have htop : h < 0xFFFFFF00 ↔ h >>> 8 < 2 ^ 24 - 1 := by
    rw [Nat.shiftRight_eq_div_pow]
    omega
  rw [htop, noiseOf, mul_one_div, div_lt_one (by norm_num)]
  rcases Nat.lt_or_ge (h >>> 8) (2 ^ 23) with hlt | hge
  · rw [Significand.toNearest_half_of_lt (by decide) hlt]
    refine iff_of_true ?_ (by omega)
    have : ((h >>> 8 : Nat) : ℚ) < 2 ^ 23 := by exact_mod_cast hlt
    linarith
  · rw [Significand.toNearest_half_of_le (by decide) hge hx]
    split
    · next he =>
      -- The largest value of the range is odd, and it alone is rounded up to `2 ^ 24`.
      refine iff_of_true (by exact_mod_cast hx) ?_
      obtain ⟨j, hj⟩ := he
      omega
    · norm_cast
      omega

theorem hash_ge_iff (hs : seed < 2 ^ 32) : 0xFFFFFF00 ≤ mix32 (rowKey seed c + v * golden &&& m32) ↔
    ∃ k < 256, seed = topSeed c v k := by
  have hkey : ∀ k < 256, mix32 (rowKey seed c + v * golden &&& m32) = 0xFFFFFF00 + k ↔ seed = topSeed c v k := by
    intro k hk
    rw [mix32_eq_iff (and_m32_lt _) (by omega), rowKey, add_golden_eq_iff (mix32_lt _) (unmix32_lt _),
      mix32_eq_iff (Nat.xor_lt_two_pow hs (mix32_lt _)) (Nat.mod_lt _ (Nat.two_pow_pos 32)), xor_eq_iff, topSeed]
  have hlt := mix32_lt (rowKey seed c + v * golden &&& m32)
  constructor
  · intro hge
    have hk : mix32 (rowKey seed c + v * golden &&& m32) - 0xFFFFFF00 < 256 := by omega
    exact ⟨_, hk, (hkey _ hk).mp (by omega)⟩
  · rintro ⟨k, hk, hseed⟩
    rw [(hkey k hk).mpr hseed]
    exact Nat.le_add_right _ _

theorem noiseAt_inside_iff (hs : seed < 2 ^ 32) :
    (0 < noiseAt seed c v ∧ noiseAt seed c v < 1) ↔ ∀ k < 256, seed ≠ topSeed c v k := by
  have hh := mix32_lt (rowKey seed c + v * golden &&& m32)
  rw [noiseAt, and_iff_right (noiseOf_pos hh), noiseOf_lt_one_iff hh, ← Nat.not_le, hash_ge_iff hs]
  simp

theorem uniformNoise_inside_iff {seeds counters : List Nat} (hs : ∀ s ∈ seeds, s < 2 ^ 32) (vocabSize : Nat) :
    (∀ row ∈ uniformNoise seeds counters vocabSize, ∀ u ∈ row, 0 < u ∧ u < 1) ↔
      ∀ x ∈ seeds.zip counters, ∀ v < vocabSize, ∀ k < 256, x.1 ≠ topSeed x.2 v k := by
  simp only [uniformNoise, List.forall_mem_map, List.mem_range]
  refine forall₂_congr fun x hx => forall₂_congr fun v _ => ?_
  exact noiseAt_inside_iff (hs _ (List.of_mem_zip hx).1)

theorem uniformNoise_inside_iff_zero :
    (uniformNoise [0, 1] [4, 9] 3).length = 2 ∧ ∀ row ∈ uniformNoise [0, 1] [4, 9] 3, ∀ u ∈ row, 0 < u ∧ u < 1 :=
  ⟨rfl, (uniformNoise_inside_iff (by decide : ∀ s ∈ [0, 1], s < 2 ^ 32) 3).mpr (by decide +kernel)⟩

theorem noise_reaches_one : ¬ ∀ row ∈ uniformNoise [1199877922] [1] 1, ∀ u ∈ row, 0 < u ∧ u < 1 := by
  intro h
  have hnoise := h _ List.mem_cons_self (noiseAt 1199877922 1 0) List.mem_cons_self
  exact (noiseAt_inside_iff (by decide)).mp hnoise 0 (by decide) (by decide +kernel)

end Range

end Sampler

end MiniServe
