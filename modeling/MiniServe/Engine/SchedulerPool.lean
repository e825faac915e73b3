import MiniServe.Engine.PoolRun

namespace MiniServe

open KVCacheManager

namespace Scheduler

section Charge

variable (s : Scheduler)

def table (r : Rid) : BlockTable := (s.reqs r).cache.getD .empty

def stepNeed (r : Rid) : Int := (s.table r).need s.kv.blockSize s.tokensPerStep

def prefillRest (r : Rid) : Int := s.blocksFor ((s.reqs r).seqLen + 1) - (s.reqs r).tableBlocks.length

def decodeCost (r : Rid) : Int := if (s.reqs r).decodes then s.stepNeed r else 0

def cost (r : Rid) : Int :=
  if (s.reqs r).decodes then s.stepNeed r else if (s.reqs r).state = .prefill then s.prefillRest r else 0

def costs (reqs : List Rid) : Int := (reqs.map s.cost).sum

-- The blocks `r` keeps from everyone else: those of its table, and those of its locked tree path that
-- are not in its table (duplicates of blocks another request had cached first).
def ownBlocks (r : Rid) : List Int :=
  (s.reqs r).tableBlocks ++
    (s.kv.nodeBlocks (s.reqs r).cacheNode).filter (fun b => b ∉ (s.reqs r).tableBlocks)

variable {s} {r : Rid}

theorem table_eq {tb : BlockTable} (h : (s.reqs r).cache = some tb) : s.table r = tb := by simp [table, h]

theorem table_blocks : (s.table r).blocks = (s.reqs r).tableBlocks := by
  unfold table Request.tableBlocks
  cases (s.reqs r).cache <;> rfl

theorem table_numTokens : (s.table r).numTokens = (s.reqs r).covered := by
  unfold table Request.covered
  cases (s.reqs r).cache <;> rfl

theorem blocksNeeded_ok (h : (s.reqs r).cache ≠ none) : s.blocksNeeded r = .ok (s.stepNeed r) := by
  obtain ⟨tb, htb⟩ := Option.ne_none_iff_exists'.mp h
  have : ¬ (s.tokensPerStep : Int) < 0 := by omega
  simp [blocksNeeded, htb, BlockTable.blocksNeeded, stepNeed, table, this]

theorem prefillNeed_ok (h : (s.reqs r).cache ≠ none) : s.prefillNeed r = .ok (s.prefillRest r) := by
  obtain ⟨tb, htb⟩ := Option.ne_none_iff_exists'.mp h
  simp [prefillNeed, htb, prefillRest, Request.tableBlocks, BlockTable.numBlocks]

theorem decodeCharge_ok (h : (s.reqs r).cache ≠ none) : s.decodeCharge r = .ok (s.decodeCost r) := by
  unfold decodeCharge decodeCost
  split
  · exact blocksNeeded_ok h
  · rfl

theorem charge_ok (h : (s.reqs r).cache ≠ none) : s.charge r = .ok (s.cost r) := by
  unfold charge cost
  split
  · exact blocksNeeded_ok h
  · split
    · exact prefillNeed_ok h
    · rfl

theorem total_ok {f : Rid → Except Error Int} {g : Rid → Int} {l : List Rid} (h : ∀ r ∈ l, f r = .ok (g r)) :
    total f l = .ok (l.map g).sum := by
  induction l with
  | nil => rfl
  | cons r l ih =>
    have h1 := h r List.mem_cons_self
    have h2 := ih fun x hx => h x (List.mem_cons_of_mem _ hx)
    simp [total, h1, h2]

theorem stepNeed_nonneg : 0 ≤ s.stepNeed r := BlockTable.need_nonneg _ _

theorem cost_spent (h : (s.reqs r).isSpent) : s.cost r = 0 := by
  obtain ⟨h1, h2⟩ := h
  simp [cost, Request.decodes, h1, h2]

theorem cost_of_decode (h : (s.reqs r).state = .decode) : s.cost r = s.decodeCost r := by
  simp [cost, decodeCost, h]

theorem cost_of_prefill (h : (s.reqs r).state = .prefill) : s.cost r = s.prefillRest r := by
  simp [cost, Request.decodes, h]

theorem costs_nil : s.costs [] = 0 := rfl

theorem costs_append (l l' : List Rid) : s.costs (l ++ l') = s.costs l + s.costs l' := by simp [costs]

end Charge

section Pool

variable (s : Scheduler)

def pool (entering : List Rid) (older : List Entry) : Pool :=
  { kv := s.kv, reqs := s.reqs, live := s.running ++ entering, waiting := s.waiting, opened := [], older := older,
    newer := [] }

variable {s} {entering : List Rid} {older : List Entry} {r : Rid}

theorem pool_held (hs : (s.pool entering older).Sound) (hr : r ∈ s.running ++ entering) :
    s.kv.Held (s.reqs r) := hs.kv.held r hr

theorem pool_active (hs : (s.pool entering older).Sound) (hr : r ∈ s.running ++ entering) : (s.reqs r).Active :=
  hs.active r hr (by simp [pool])

theorem pool_waiting (hs : (s.pool entering older).Sound) (hr : r ∈ s.waiting) : r ∉ s.running ++ entering :=
  hs.not_mem_live hr

theorem decodeNeed_ok {l : List Rid} (hs : (s.pool entering older).Sound) (hl : l ⊆ s.running ++ entering) :
    s.decodeNeed l = .ok (l.map s.decodeCost).sum :=
  total_ok fun _ hr => decodeCharge_ok (pool_held hs (hl hr)).cache

theorem outstanding_ok {l : List Rid} (hs : (s.pool entering older).Sound) (hl : l ⊆ s.running ++ entering) :
    s.outstanding l = .ok (s.costs l) :=
  total_ok fun _ hr => charge_ok (pool_held hs (hl hr)).cache

-- A prefilling request's table has no spare block, so the charge for the rest of its prefill is not clipped.
theorem prefillRest_eq (hs : (s.pool entering older).Sound) (hr : r ∈ s.running ++ entering)
    (hst : (s.reqs r).state = .prefill) :
    s.prefillRest r = (s.table r).need s.kv.blockSize ((s.reqs r).seqLen + 1 - (s.reqs r).covered) := by
  have hex : (s.reqs r).tableBlocks.length * s.kv.blockSize < (s.reqs r).covered + s.kv.blockSize := hs.exact r hr hst
  have hlt : (s.reqs r).covered < (s.reqs r).seqLen := by
    rcases (pool_active hs hr).phase with h | h
    · exact h.2.1
    · rw [hst] at h; simp at h
  have hbs : (0 : Int) < s.kv.blockSize := by have := @blockSize_pos s.kv; omega
  unfold prefillRest BlockTable.need blocksFor
  rw [table_blocks, table_numTokens]
  have e : ((s.reqs r).covered : Int) + ((s.reqs r).seqLen + 1 - (s.reqs r).covered) =
      (((s.reqs r).seqLen + 1 : Nat) : Int) := by push_cast; ring
  rw [e, max_eq_right]
  suffices h : ((s.reqs r).tableBlocks.length : Int) - 1 < ceilDiv ((s.reqs r).seqLen + 1 : Nat) s.kv.blockSize by omega
  rw [lt_ceilDiv hbs, sub_mul, one_mul]
  zify at hex
  push_cast
  omega

theorem cost_nonneg (hs : (s.pool entering older).Sound) (hr : r ∈ s.running ++ entering) : 0 ≤ s.cost r := by
  unfold cost
  split
  · exact stepNeed_nonneg
  · split
    · next h => rw [prefillRest_eq hs hr h]; exact BlockTable.need_nonneg _ _
    · exact le_rfl

theorem cost_le_costs {l : List Rid} (hs : (s.pool entering older).Sound) (hl : l ⊆ s.running ++ entering)
    (hr : r ∈ l) : s.cost r ≤ s.costs l := by
  refine List.single_le_sum (fun x hx => ?_) _ (List.mem_map_of_mem hr)
  obtain ⟨y, hy, rfl⟩ := List.mem_map.mp hx
  exact cost_nonneg hs (hl hy)

theorem ownBlocks_nodup (hs : (s.pool entering older).Sound) (hr : r ∈ s.running ++ entering) :
    (s.ownBlocks r).Nodup := by
  have hh := pool_held hs hr
  have hp : (s.kv.nodeBlocks (s.reqs r).cacheNode).Nodup := hs.kv.nodeBlocks_nodup _
  refine List.Nodup.append hh.nodup (hp.filter _) fun b h1 h2 => ?_
  simp only [List.mem_filter, decide_eq_true_eq] at h2
  exact h2.2 h1

theorem mem_ownBlocks {b : Int} : b ∈ s.ownBlocks r ↔
    b ∈ (s.reqs r).tableBlocks ∨ b ∈ s.kv.nodeBlocks (s.reqs r).cacheNode := by
  simp only [ownBlocks, List.mem_append, List.mem_filter, decide_eq_true_eq]
  tauto

theorem available_le (hs : (s.pool entering older).Sound) (hr : r ∈ s.running ++ entering) :
    s.kv.numAvailable + (s.ownBlocks r).length ≤ s.kv.allocator.numBlocks := by
  have h1 : (s.ownBlocks r).toFinset ⊆ s.kv.heldBlocks s.reqs (s.running ++ entering) := by
    intro b hb
    rw [List.mem_toFinset, mem_ownBlocks] at hb
    exact mem_heldBlocks.mpr ⟨r, hr, hb⟩
  have h2 := Finset.card_le_card h1
  rw [List.toFinset_card_of_nodup (ownBlocks_nodup hs hr)] at h2
  have h3 : s.kv.numAvailable = _ := hs.kv.numAvailable
  rw [h3]
  simp only [pool]
  omega

theorem available_lone (hs : (s.pool [] older).Sound) (hr : s.running = [r]) :
    s.kv.numAvailable + (s.ownBlocks r).length = s.kv.allocator.numBlocks := by
  have hm : r ∈ s.running ++ [] := by simp [hr]
  have h1 : s.kv.heldBlocks s.reqs (s.running ++ []) = (s.ownBlocks r).toFinset := by
    ext b
    rw [mem_heldBlocks, List.mem_toFinset, mem_ownBlocks, List.append_nil, hr]
    simp
  have h2 : s.kv.numAvailable = _ := hs.kv.numAvailable
  have h3 := List.toFinset_card_of_nodup (ownBlocks_nodup hs hm)
  simp only [pool] at h2
  rw [h1, h3] at h2
  omega

theorem available_nonneg (hs : (s.pool entering older).Sound) : 0 ≤ s.kv.numAvailable := by
  have h := hs.kv.length_evictableBlocks
  simp only [pool] at h
  unfold numAvailable
  omega

end Pool

end Scheduler

end MiniServe
