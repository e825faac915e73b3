import MiniServe.Engine.Sampler
import MiniServe.Lib.Loop
import MiniServe.Lib.SignedWord

namespace MiniServe

namespace Sampler

def hash (seed counter v : Nat) : Nat := mix32 (rowKey seed counter + v * golden &&& m32)

section Int64

def mixStep64 (x : BitVec 64) : Option (BitVec 64) :=
  (SignedWord.mul (x.sshiftRight 16 ^^^ x) (BitVec.ofNat 64 mixer)).map (· &&& BitVec.ofNat 64 m32)

def mix64 (x : BitVec 64) : Option (BitVec 64) :=
  (mixStep64 x).bind fun y => (mixStep64 y).map fun z => z.sshiftRight 16 ^^^ z

def rowKey64 (seed counter : BitVec 64) : Option (BitVec 64) := (mix64 counter).bind fun c => mix64 (seed ^^^ c)

def offset64 (v : Nat) : Option (BitVec 64) := SignedWord.mul (BitVec.ofNat 64 v) (BitVec.ofNat 64 golden)

def hash64 (key offset : BitVec 64) : Option (BitVec 64) :=
  (SignedWord.add key offset).bind fun x => mix64 (x &&& BitVec.ofNat 64 m32)

-- The integer part of `uniform_noise`; `none` where an operation leaves the range of an int64.
def noiseHashes64 (seeds counters : List (BitVec 64)) (vocabSize : Nat) : Option (List (List (BitVec 64))) :=
  ((seeds.zip counters).mapM fun x => rowKey64 x.1 x.2).bind fun keys =>
    ((List.range vocabSize).mapM offset64).bind fun offsets =>
      keys.mapM fun key => offsets.mapM (hash64 key)

variable {x y s c v n : Nat}

theorem mixStep64_ofNat (h : x < 2 ^ 32) :
    mixStep64 (BitVec.ofNat 64 x) = some (BitVec.ofNat 64 (fold16 x * mixer &&& m32)) := by
  have hf := fold16_lt h
  have hprod : fold16 x * mixer < 2 ^ 63 := by
    have := Nat.mul_lt_mul_of_lt_of_le hf (le_refl mixer) (by decide)
    exact this.trans_le (by decide)
  rw [mixStep64, SignedWord.sshiftRight_ofNat (h.trans (by decide)), ← BitVec.ofNat_xor]
  change (SignedWord.mul (BitVec.ofNat 64 (fold16 x)) _).map _ = _
  rw [SignedWord.mul_ofNat (hf.trans (by decide)) (by decide) hprod, Option.map_some, ← BitVec.ofNat_and]

theorem mix64_ofNat (h : x < 2 ^ 32) : mix64 (BitVec.ofNat 64 x) = some (BitVec.ofNat 64 (mix32 x)) := by
  rw [mix64, mixStep64_ofNat h, Option.bind_some, mixStep64_ofNat (and_m32_lt _), Option.map_some,
    SignedWord.sshiftRight_ofNat ((and_m32_lt _).trans (by decide)), ← BitVec.ofNat_xor]
  rfl

theorem rowKey64_ofNat (hs : s < 2 ^ 32) (hc : c < 2 ^ 32) :
    rowKey64 (BitVec.ofNat 64 s) (BitVec.ofNat 64 c) = some (BitVec.ofNat 64 (rowKey s c)) := by
  rw [rowKey64, mix64_ofNat hc, Option.bind_some, ← BitVec.ofNat_xor, mix64_ofNat (Nat.xor_lt_two_pow hs (mix32_lt c))]
  rfl

theorem offset_lt (h : v < 2 ^ 31) : v * golden + 2 ^ 32 < 2 ^ 63 := by
  have hle : v * golden ≤ (2 ^ 31 - 1) * golden := Nat.mul_le_mul_right golden (by omega)
  have hmax : (2 ^ 31 - 1) * golden + 2 ^ 32 < 2 ^ 63 := by decide
  exact (Nat.add_le_add_right hle _).trans_lt hmax

theorem offset64_ofNat (h : v < 2 ^ 31) : offset64 v = some (BitVec.ofNat 64 (v * golden)) := by
  have hlt := offset_lt h
  exact SignedWord.mul_ofNat (h.trans (by decide)) (by decide) (by omega)

theorem hash64_ofNat (h : v < 2 ^ 31) :
    hash64 (BitVec.ofNat 64 (rowKey s c)) (BitVec.ofNat 64 (v * golden)) = some (BitVec.ofNat 64 (hash s c v)) := by
  have hlt := offset_lt h
  have hkey : rowKey s c < 2 ^ 32 := mix32_lt _
  rw [hash64, SignedWord.add_ofNat (hkey.trans (by decide)) (by omega) (by omega), Option.bind_some, ← BitVec.ofNat_and,
    mix64_ofNat (and_m32_lt _)]
  rfl

theorem rowKeys64_ofNat {seeds counters : List Nat} (hs : ∀ s ∈ seeds, s < 2 ^ 32) (hc : ∀ c ∈ counters, c < 2 ^ 32) :
    ((seeds.map (BitVec.ofNat 64)).zip (counters.map (BitVec.ofNat 64))).mapM (fun x => rowKey64 x.1 x.2) =
      some ((seeds.zip counters).map fun x => BitVec.ofNat 64 (rowKey x.1 x.2)) := by
  rw [List.zip_map, List.mapM_map]
  apply Loop.mapM_some
  intro x hx
  obtain ⟨h1, h2⟩ := List.of_mem_zip hx
  exact rowKey64_ofNat (hs _ h1) (hc _ h2)

theorem offsets64_ofNat (hn : n ≤ 2 ^ 31) :
    (List.range n).mapM offset64 = some ((List.range n).map fun v => BitVec.ofNat 64 (v * golden)) := by
  apply Loop.mapM_some
  intro v hv
  exact offset64_ofNat ((List.mem_range.mp hv).trans_le hn)

theorem rowHashes64_ofNat (hn : n ≤ 2 ^ 31) :
    ((List.range n).map fun v => BitVec.ofNat 64 (v * golden)).mapM (hash64 (BitVec.ofNat 64 (rowKey s c))) =
      some ((List.range n).map fun v => BitVec.ofNat 64 (hash s c v)) := by
  rw [List.mapM_map]
  apply Loop.mapM_some
  intro v hv
  rw [Function.comp_apply, hash64_ofNat ((List.mem_range.mp hv).trans_le hn)]

theorem noiseHashes64_ofNat {seeds counters : List Nat} (hs : ∀ s ∈ seeds, s < 2 ^ 32) (hc : ∀ c ∈ counters, c < 2 ^ 32)
    (hn : n ≤ 2 ^ 31) :
    noiseHashes64 (seeds.map (BitVec.ofNat 64)) (counters.map (BitVec.ofNat 64)) n =
      some ((seeds.zip counters).map fun x => (List.range n).map fun v => BitVec.ofNat 64 (hash x.1 x.2 v)) := by
  rw [noiseHashes64, rowKeys64_ofNat hs hc, Option.bind_some, offsets64_ofNat hn, Option.bind_some, List.mapM_map]
  apply Loop.mapM_some
  intro x _
  rw [Function.comp_apply, rowHashes64_ofNat hn]

end Int64

section Distinct

variable {s c v w n : Nat}

theorem mix32_injOn : Set.InjOn mix32 (Set.Iio (2 ^ 32)) := by
  intro x hx y hy h
  rw [← unmix32_mix32 hx, h, unmix32_mix32 hy]

theorem mix32_bijOn : Set.BijOn mix32 (Set.Iio (2 ^ 32)) (Set.Iio (2 ^ 32)) := by
  refine ⟨fun x _ => mix32_lt x, mix32_injOn, ?_⟩
  intro y hy
  exact ⟨unmix32 y, unmix32_lt y, mix32_unmix32 hy⟩

theorem rowKey_injOn_seed : Set.InjOn (rowKey · c) (Set.Iio (2 ^ 32)) := by
  intro s hs t ht h
  have hxor : s ^^^ mix32 c = t ^^^ mix32 c :=
    mix32_injOn (Nat.xor_lt_two_pow hs (mix32_lt c)) (Nat.xor_lt_two_pow ht (mix32_lt c)) h
  rw [xor_eq_iff, Nat.xor_assoc, Nat.xor_self, Nat.xor_zero] at hxor
  exact hxor

theorem rowKey_injOn_counter (hs : s < 2 ^ 32) : Set.InjOn (rowKey s) (Set.Iio (2 ^ 32)) := by
  intro c hc d hd h
  have hxor : s ^^^ mix32 c = s ^^^ mix32 d :=
    mix32_injOn (Nat.xor_lt_two_pow hs (mix32_lt c)) (Nat.xor_lt_two_pow hs (mix32_lt d)) h
  rw [Nat.xor_comm s, Nat.xor_comm s, xor_eq_iff, Nat.xor_assoc, Nat.xor_self, Nat.xor_zero] at hxor
  exact mix32_injOn hc hd hxor

theorem hash_injOn (hn : n ≤ 2 ^ 31) : Set.InjOn (hash s c) (Set.Iio n) := by
  intro v hv w hw h
  have hv' : v < 2 ^ 32 := (lt_of_lt_of_le hv hn).trans (by decide)
  have hw' : w < 2 ^ 32 := (lt_of_lt_of_le hw hn).trans (by decide)
  have hsum : rowKey s c + v * golden &&& m32 = rowKey s c + w * golden &&& m32 :=
    mix32_injOn (and_m32_lt _) (and_m32_lt _) h
  rw [and_m32, and_m32] at hsum
  have hprod : v * golden ≡ w * golden [MOD 2 ^ 32] := Nat.ModEq.add_left_cancel' _ hsum
  -- `golden` is odd.
  have hmod : v ≡ w [MOD 2 ^ 32] := Nat.ModEq.cancel_right_of_coprime (by decide) hprod
  exact hmod.eq_of_lt_of_lt hv' hw'

theorem noise_keys_exact_and_distinct :
    (∀ x < 2 ^ 32, mix64 (BitVec.ofNat 64 x) = some (BitVec.ofNat 64 (mix32 x))) ∧
    Set.BijOn mix32 (Set.Iio (2 ^ 32)) (Set.Iio (2 ^ 32)) ∧
    (∀ c < 2 ^ 32, Set.InjOn (rowKey · c) (Set.Iio (2 ^ 32))) ∧
    (∀ s < 2 ^ 32, Set.InjOn (rowKey s) (Set.Iio (2 ^ 32))) ∧
    (∀ s < 2 ^ 32, ∀ c < 2 ^ 32, ∀ n ≤ 2 ^ 31, Set.InjOn (hash s c) (Set.Iio n)) ∧
    (∀ s c v, hash s c v < 2 ^ 32 ∧ noiseAt s c v = noiseOf (hash s c v)) ∧
    ∀ seeds counters : List Nat, (∀ s ∈ seeds, s < 2 ^ 32) → (∀ c ∈ counters, c < 2 ^ 32) → ∀ n ≤ 2 ^ 31,
      noiseHashes64 (seeds.map (BitVec.ofNat 64)) (counters.map (BitVec.ofNat 64)) n =
        some ((seeds.zip counters).map fun x => (List.range n).map fun v => BitVec.ofNat 64 (hash x.1 x.2 v)) := by
  refine ⟨fun x hx => mix64_ofNat hx, mix32_bijOn, ?_, ?_, ?_, ?_, ?_⟩
  · intro c _
    exact rowKey_injOn_seed
  · intro s hs
    exact rowKey_injOn_counter hs
  · intro s _ c _ n hn
    exact hash_injOn hn
  · intro s c v
    exact ⟨mix32_lt _, rfl⟩
  · intro seeds counters hs hc n hn
    exact noiseHashes64_ofNat hs hc hn

end Distinct

end Sampler

end MiniServe
