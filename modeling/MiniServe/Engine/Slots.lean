import MiniServe.Engine.Reserve

namespace MiniServe

open KVCacheManager Holders

namespace Pool

variable {p : Pool} {row row' : Row} {pos pos' : Nat}

def rowSlot (p : Pool) (r : Rid) (pos : Nat) : Int :=
  ((p.reqs r).cache.getD .empty).slotAt p.kv.blockSize pos

def blockAt (p : Pool) (r : Rid) (pos : Nat) : Int := (p.reqs r).tableBlocks.getD (pos / p.kv.blockSize) 0

def rowSlots (p : Pool) (row : Row) : List Int := (List.range' row.start row.len).map (p.rowSlot row.rid)

theorem rowSlot_eq (r : Rid) (pos : Nat) :
    p.rowSlot r pos = p.blockAt r pos * p.kv.blockSize + (pos % p.kv.blockSize : Nat) := by
  unfold rowSlot blockAt BlockTable.slotAt Request.tableBlocks
  cases (p.reqs r).cache <;> rfl

theorem rowSlot_block (r : Rid) (pos : Nat) : p.rowSlot r pos / p.kv.blockSize = p.blockAt r pos := by
  have hbs := @blockSize_pos p.kv
  have hlt := Nat.mod_lt pos hbs
  rw [rowSlot_eq, Int.add_comm, Int.add_mul_ediv_right _ _ (by omega),
    Int.ediv_eq_zero_of_lt (by omega) (by omega), zero_add]

theorem rowSlot_offset (r : Rid) (pos : Nat) : p.rowSlot r pos % p.kv.blockSize = (pos % p.kv.blockSize : Nat) := by
  have hbs := @blockSize_pos p.kv
  have hlt := Nat.mod_lt pos hbs
  rw [rowSlot_eq, Int.add_comm, Int.add_mul_emod_self_right, Int.emod_eq_of_lt (by omega) (by omega)]

structure Writable (p : Pool) : Prop where
  kv : p.kv.Sound p.reqs p.live
  nodup : (p.opened.map Row.rid).Nodup
  rows : ∀ row ∈ p.opened, row.rid ∈ p.live ∧ (p.reqs row.rid).covered = row.start + row.len ∧
    (p.kv.nodeTokens (p.reqs row.rid).cacheNode).length ≤ row.start

theorem Sound.writable (hs : p.Sound) : p.Writable :=
  ⟨hs.kv, hs.opened_nodup, fun row hrow => ⟨(hs.opened row hrow).1, (hs.opened row hrow).2.covered, hs.fresh row hrow⟩⟩

theorem Writable.block_lt (hs : p.Writable) {r : Rid} (hr : r ∈ p.live) (hpos : pos < (p.reqs r).covered) :
    (p.reqs r).tableBlocks[pos / p.kv.blockSize]? = some (p.blockAt r pos) := by
  have hcap := (hs.kv.held r hr).capacity
  have hlt : pos / p.kv.blockSize < (p.reqs r).tableBlocks.length :=
    Nat.div_lt_of_lt_mul (by rw [Nat.mul_comm]; omega)
  rw [blockAt, List.getD_eq_getElem?_getD, List.getElem?_eq_getElem hlt, Option.getD_some]

-- A position past the locked path lies in a block that no other table and no tree node holds.
theorem Writable.block_private (hs : p.Writable) {r : Rid} (hr : r ∈ p.live) (hpos : pos < (p.reqs r).covered)
    (hpath : (p.kv.nodeTokens (p.reqs r).cacheNode).length ≤ pos) :
    p.blockAt r pos ∈ (p.reqs r).tableBlocks ∧ p.blockAt r pos ∉ p.kv.cachedBlocks ∧
      (∀ q ∈ p.live, q ≠ r → p.blockAt r pos ∉ (p.reqs q).tableBlocks) ∧
      p.kv.allocator.ref (p.blockAt r pos) = 1 := by
  have hbs := @blockSize_pos p.kv
  have hb := hs.block_lt hr hpos
  have hidx : (p.kv.nodeBlocks (p.reqs r).cacheNode).length ≤ pos / p.kv.blockSize := by
    rw [Nat.le_div_iff_mul_le hbs, ← hs.kv.nodeTokens_length]
    exact hpath
  have hmem : p.blockAt r pos ∈ (p.reqs r).tableBlocks := List.mem_of_getElem? hb
  have hcached : p.blockAt r pos ∉ p.kv.cachedBlocks := by
    intro hc
    have := (hs.kv.held r hr).own _ _ hb hc
    rw [List.getElem?_eq_none hidx] at this
    simp at this
  have hother : ∀ q ∈ p.live, q ≠ r → p.blockAt r pos ∉ (p.reqs q).tableBlocks :=
    hs.kv.apart r hr _ _ hb hidx
  refine ⟨hmem, hcached, hother, ?_⟩
  have hone : tableHolders p.reqs p.live (p.blockAt r pos) = 1 := by
    rw [tableHolders, holders_erase hr]
    have hz : holders (p.live.erase r) p.reqs (fun q => p.blockAt r pos ∈ q.tableBlocks) = 0 := by
      rw [holders_eq_zero]
      intro q hq
      have hne : q ≠ r := by rintro rfl; exact hs.kv.nodup.not_mem_erase hq
      simpa using hother q (List.mem_of_mem_erase hq) hne
    rw [hz]
    simp [hmem]
  rw [hs.kv.ref, hone, List.count_eq_zero_of_not_mem hcached]

theorem Writable.opened_pos (hs : p.Writable) (hrow : row ∈ p.opened) (hpos : pos ∈ List.range' row.start row.len) :
    row.rid ∈ p.live ∧ pos < (p.reqs row.rid).covered ∧
      (p.kv.nodeTokens (p.reqs row.rid).cacheNode).length ≤ pos := by
  obtain ⟨h1, h2, h3⟩ := hs.rows row hrow
  rw [List.mem_range'_1] at hpos
  exact ⟨h1, by omega, by omega⟩

theorem Writable.rowSlot_inj (hs : p.Writable) {r r' : Rid} (hr : r ∈ p.live) (hr' : r' ∈ p.live)
    (hpos : pos < (p.reqs r).covered) (hpos' : pos' < (p.reqs r').covered)
    (hpath : (p.kv.nodeTokens (p.reqs r).cacheNode).length ≤ pos) (h : p.rowSlot r pos = p.rowSlot r' pos') :
    r' = r ∧ pos' = pos := by
  have hblock : p.blockAt r pos = p.blockAt r' pos' := by rw [← rowSlot_block, h, rowSlot_block]
  have hoff : pos % p.kv.blockSize = pos' % p.kv.blockSize := by
    have := rowSlot_offset (p := p) r pos
    rw [h, rowSlot_offset] at this
    omega
  have hb' := hs.block_lt hr' hpos'
  have heq : r' = r := by
    by_contra hne
    exact (hs.block_private hr hpos hpath).2.2.1 r' hr' hne (hblock ▸ List.mem_of_getElem? hb')
  subst heq
  have hb := hs.block_lt hr hpos
  rw [hblock] at hb
  have hidx := (List.getElem?_inj ((List.getElem?_eq_some_iff.mp hb).1) (hs.kv.held r' hr).nodup).mp (hb.trans hb'.symm)
  refine ⟨rfl, ?_⟩
  rw [← Nat.div_add_mod pos p.kv.blockSize, ← Nat.div_add_mod pos' p.kv.blockSize, hidx, hoff]

theorem Writable.rowSlots_nodup (hs : p.Writable) : (p.opened.flatMap p.rowSlots).Nodup := by
  rw [List.nodup_flatMap]
  refine ⟨fun row hrow => ?_, ?_⟩
  · refine List.Nodup.map_on (fun x hx y hy h => ?_) (List.nodup_range')
    obtain ⟨h1, h2, h3⟩ := hs.opened_pos hrow hx
    obtain ⟨-, h5, -⟩ := hs.opened_pos hrow hy
    exact ((hs.rowSlot_inj h1 h1 h2 h5 h3 h).2).symm
  · have hnd := List.pairwise_map.mp hs.nodup
    refine hnd.imp_of_mem fun {a b} ha hb hne => ?_
    intro slot h1 h2
    obtain ⟨x, hx, rfl⟩ := List.mem_map.mp h1
    obtain ⟨y, hy, he⟩ := List.mem_map.mp h2
    obtain ⟨h3, h4, h5⟩ := hs.opened_pos ha hx
    obtain ⟨h6, h7, -⟩ := hs.opened_pos hb hy
    exact hne (hs.rowSlot_inj h3 h6 h4 h7 h5 he.symm).1.symm

end Pool

namespace Scheduler

variable {s : Scheduler} {older newer : List Entry} {opened rows : List Row}

theorem rowSlots_ok (hs : (s.openPool opened older newer).Sound) (hsub : rows ⊆ opened) :
    ModelRunner.rowSlots s rows = .ok (rows.flatMap (s.openPool opened older newer).rowSlots) := by
  induction rows with
  | nil => rfl
  | cons row rows ih =>
    have hrow : row ∈ (s.openPool opened older newer).opened := hsub List.mem_cons_self
    obtain ⟨h1, h2⟩ := hs.opened row hrow
    obtain ⟨tb, htb⟩ := Option.ne_none_iff_exists'.mp (hs.kv.held row.rid h1).cache
    simp only [openPool, pool] at htb
    have hcov : tb.numTokens = row.start + row.len := by
      have := h2.covered
      simpa [openPool, pool, Request.covered, htb] using this
    have htail : tb.tailSlots s.kv.blockSize row.len = .ok ((s.openPool opened older newer).rowSlots row) := by
      have hle : (0 : Int) ≤ row.len ∧ (row.len : Int) ≤ tb.numTokens := by omega
      have hst : tb.numTokens - row.len = row.start := by omega
      simp only [BlockTable.tailSlots, hle, and_self, if_true, Int.toNat_natCast, BlockTable.lastSlots, hst]
      simp [Pool.rowSlots, Pool.rowSlot, openPool, pool, htb]
    have := ih fun x hx => hsub (List.mem_cons_of_mem _ hx)
    simp [ModelRunner.rowSlots, htb, htail, this]

end Scheduler

end MiniServe
