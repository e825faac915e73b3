import MiniServe.Cache.BlockAllocator

namespace MiniServe

def ceilDiv (n d : Int) : Int := -(-n / d)

theorem ceilDiv_le {n d k : Int} (hd : 0 < d) : ceilDiv n d ≤ k ↔ n ≤ k * d := by
  have h : -k ≤ -n / d ↔ -k * d ≤ -n := Int.le_ediv_iff_mul_le hd
  unfold ceilDiv
  rw [neg_mul] at h
  constructor
  · intro hk; have := h.mp (by omega); omega
  · intro hk; have := h.mpr (by omega); omega

theorem lt_ceilDiv {n d k : Int} (hd : 0 < d) : k < ceilDiv n d ↔ k * d < n := by
  rw [← not_le, ceilDiv_le hd, not_le]

theorem ceilDiv_mono {n m d : Int} (hd : 0 < d) (h : n ≤ m) : ceilDiv n d ≤ ceilDiv m d := by
  rw [ceilDiv_le hd]
  exact h.trans ((ceilDiv_le hd).mp le_rfl)

structure BlockTable where
  blocks : List Int
  numTokens : Nat
  deriving DecidableEq, Repr

namespace BlockTable

variable (t : BlockTable) (a : BlockAllocator)

def empty : BlockTable := ⟨[], 0⟩

def new (a : BlockAllocator) (prefixBlocks : List Int) : Except Error BlockTable × BlockAllocator :=
  if prefixBlocks.Nodup then
    match a.incref prefixBlocks with
    | (.error e, a') => (.error e, a')
    | (.ok (), a') => (.ok ⟨prefixBlocks, prefixBlocks.length * a.blockSize⟩, a')
  else (.error (.duplicateInPrefix prefixBlocks), a)

def numBlocks : Nat := t.blocks.length

def lastBlockLen (bs : Nat) : Int :=
  if t.numTokens = 0 then 0 else t.numTokens - ((t.blocks.length : Int) - 1) * bs

def need (bs : Nat) (n : Int) : Int := max 0 (ceilDiv (t.numTokens + n) bs - t.blocks.length)

def blocksNeeded (bs : Nat) (n : Int) : Except Error Int :=
  if n < 0 then .error (.cannotAppend n) else .ok (t.need bs n)

def appendTokens (n : Int) : Except Error (List Int) × BlockTable × BlockAllocator :=
  match t.blocksNeeded a.blockSize n with
  | .error e => (.error e, t, a)
  | .ok k =>
    match a.allocate k with
    | (.error e, a') => (.error e, t, a')
    | (.ok new, a') => (.ok new, ⟨t.blocks ++ new, t.numTokens + n.toNat⟩, a')

def slotAt (bs pos : Nat) : Int := t.blocks.getD (pos / bs) 0 * bs + (pos % bs : Nat)

def slot (bs : Nat) (pos : Int) : Except Error Int :=
  if 0 ≤ pos ∧ pos < t.numTokens then .ok (t.slotAt bs pos.toNat)
  else .error (.positionOutOfRange pos t.numTokens)

def rewind (n : Int) : Except Error Unit × BlockTable :=
  if 0 ≤ n ∧ n ≤ t.numTokens then (.ok (), { t with numTokens := t.numTokens - n.toNat })
  else (.error (.cannotRewind n t.numTokens), t)

def lastSlots (bs n : Nat) : List Int :=
  (List.range' (t.numTokens - n) n).map (t.slotAt bs)

def tailSlots (bs : Nat) (n : Int) : Except Error (List Int) :=
  if 0 ≤ n ∧ n ≤ t.numTokens then .ok (t.lastSlots bs n.toNat)
  else .error (.tailOutOfRange n t.numTokens)

def release : Except Error Unit × BlockTable × BlockAllocator :=
  match a.freeBlocks t.blocks with
  | (.error e, a') => (.error e, t, a')
  | (.ok (), a') => (.ok (), empty, a')

variable {t a}

theorem need_nonneg (bs : Nat) (n : Int) : 0 ≤ t.need bs n := le_max_left _ _

theorem need_le {bs : Nat} {n k : Int} (hbs : 0 < bs) (hk : 0 ≤ k) :
    t.need bs n ≤ k ↔ t.numTokens + n ≤ (k + t.blocks.length) * bs := by
  rw [need, max_le_iff, and_iff_right hk, sub_le_iff_le_add, ceilDiv_le (by omega)]

theorem need_mono {bs : Nat} {n m : Int} (hbs : 0 < bs) (h : n ≤ m) : t.need bs n ≤ t.need bs m := by
  unfold need
  have := ceilDiv_mono (d := bs) (by omega) (show (t.numTokens : Int) + n ≤ t.numTokens + m by omega)
  omega

theorem appendTokens_ok {n : Nat} (h : t.need a.blockSize n ≤ a.numFree) :
    let k := (t.need a.blockSize n).toNat
    t.appendTokens a n = (.ok (a.free.take k), ⟨t.blocks ++ a.free.take k, t.numTokens + n⟩,
      { a with
        free := a.free.drop k
        ref := fun b => if b ∈ a.free.take k then 1 else a.ref b }) := by
  have hn := need_nonneg (t := t) a.blockSize n
  have hcast : ((t.need a.blockSize n).toNat : Int) = t.need a.blockSize n := Int.toNat_of_nonneg hn
  have hal := BlockAllocator.allocate_ok (a := a) (n := (t.need a.blockSize n).toNat) (by omega)
  rw [hcast] at hal
  have hneg : ¬ (n : Int) < 0 := by omega
  simp [appendTokens, blocksNeeded, hneg, hal]

theorem new_ok {blocks : List Int} (hn : blocks.Nodup) (h : ∀ b ∈ blocks, a.InRange b ∧ 0 < a.ref b) :
    new a blocks = (.ok ⟨blocks, blocks.length * a.blockSize⟩,
      { a with ref := fun b => a.ref b + blocks.count b }) := by
  simp [new, hn, BlockAllocator.incref_ok h]

theorem release_ok (h : ∀ b ∈ t.blocks, a.InRange b ∧ t.blocks.count b ≤ a.ref b) :
    t.release a = (.ok (), empty, t.blocks.foldl BlockAllocator.dropRef a) := by
  simp [release, BlockAllocator.freeBlocks_ok h]

end BlockTable

end MiniServe
