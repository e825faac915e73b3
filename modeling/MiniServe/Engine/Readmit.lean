import MiniServe.Engine.Trim

namespace MiniServe

namespace KVCacheManager

variable {kv : KVCacheManager} {store : Store} {live : List Rid} {r : Rid} {i : Nat} {b : Int}

theorem Sound.path_cell (hs : kv.Sound store live) {node : Option Nat} (h : (kv.nodeBlocks node)[i]? = some b) :
    ((kv.nodeTokens node).take ((i + 1) * kv.blockSize), b) ∈ kv.cachedCells := by
  cases ht : kv.tree with
  | none => simp [nodeBlocks, ht] at h
  | some t =>
    cases node with
    | none => simp [nodeBlocks, ht] at h
    | some u =>
      rw [nodeBlocks_some ht] at h
      rw [nodeTokens_some ht]
      have hc := path_cells (p := []) (hs.tree t ht).wf u (mem_edgeCells.mpr ⟨i, h, rfl⟩)
      simpa [cachedCells, ht] using hc

theorem Sound.path_own (hs : kv.Sound store live) (hr : r ∈ live)
    (hown : ∀ i b, (i + 1) * kv.blockSize ≤ (store r).covered →
      ((store r).tokens.take ((i + 1) * kv.blockSize), b) ∈ kv.cachedCells → b ∈ (store r).tableBlocks) :
    kv.nodeBlocks (store r).cacheNode ⊆ (store r).tableBlocks := by
  intro b hb
  obtain ⟨i, hi⟩ := List.mem_iff_getElem?.mp hb
  have hh := hs.held r hr
  have hlt := (List.getElem?_eq_some_iff.mp hi).1
  have hlen : (i + 1) * kv.blockSize ≤ (kv.nodeTokens (store r).cacheNode).length := by
    rw [hs.nodeTokens_length]
    exact Nat.mul_le_mul_right _ hlt
  refine hown i b (hlen.trans hh.path_le) ?_
  have hc := hs.path_cell hi
  rwa [List.prefix_iff_eq_take.mp hh.tokens, List.take_take, Nat.min_eq_left hlen] at hc

end KVCacheManager

open KVCacheManager

namespace Scheduler

variable {s s' s0 s1 : Scheduler} {older : List Entry} {r v : Rid} {p : List Rid}

-- No running request holds, with what its next step takes, more blocks than taking it back would.
def Tight (s : Scheduler) : Prop :=
  ∀ r ∈ s.running, (s.reqs r).decodes →
    ((s.reqs r).tableBlocks.length : Int) + s.stepNeed r ≤ s.blocksFor ((s.reqs r).seqLen + 1)

-- A block that holds the tokens `ts`, in the cache or in the table of a running request.
def Holds (s : Scheduler) (ts : List Token) (b : Int) : Prop :=
  (ts, b) ∈ s.kv.cachedCells ∨
    ∃ q ∈ s.running, ∃ i, i < (s.reqs q).covered / s.kv.blockSize ∧ (s.reqs q).tableBlocks[i]? = some b ∧
      ts = (s.reqs q).tokens.take ((i + 1) * s.kv.blockSize)

def Alone (s : Scheduler) : Prop :=
  s.kv.tree.isSome → ∀ r ∈ s.running, ∀ i b, (i + 1) * s.kv.blockSize < (s.reqs r).seqLen →
    s.Holds ((s.reqs r).tokens.take ((i + 1) * s.kv.blockSize)) b → b ∈ (s.reqs r).tableBlocks

section Cells

theorem preempt_cells (hs : (s.pool [] older).Sound) (hv : v ∈ s.running) (h : s.preempt v = .ok s') :
    ∀ c ∈ s'.kv.cachedCells, s.Holds c.1 c.2 := by
  have hvl : v ∈ s.running ++ [] := by simpa using hv
  have hkv : s.kv.Sound (Function.update s.reqs v { s.reqs v with state := .waiting }) (s.running ++ []) := by
    have h0 : s.kv.Sound (Function.update s.reqs v (s.reqs v)) (s.running ++ []) := by
      rw [Function.update_eq_self]; exact hs.kv
    exact Pool.kv_restate_same h0 rfl rfl rfl
  obtain ⟨kv', h1, h2⟩ := hkv.release hvl
  have hst : RequestState.waiting ∈ (s.reqs v).state.next := by
    have := hs.state_live hvl
    simp only [pool] at this
    rcases this with h | h <;> simp [h, RequestState.next]
  rw [Function.update_self] at h1
  have hkv' : s'.kv = kv' := by
    rw [preempt, Request.transition_ok hst] at h
    simp only [h1] at h
    rw [← Except.ok.inj h]
    rfl
  rintro ⟨ts, b⟩ hc
  rw [hkv'] at hc
  rcases h2.cells _ hc with hc | ⟨i, b', hi, hb, he⟩
  · exact .inl hc
  · obtain ⟨rfl, rfl⟩ := Prod.mk.inj he
    rw [Function.update_self] at hi hb
    exact .inr ⟨v, hv, i, hi, hb, by rw [Function.update_self]; rfl⟩

structure Gave (s0 s : Scheduler) (older : List Entry) : Prop where
  cleared : Cleared s0 s older
  cells : ∀ c ∈ s.kv.cachedCells, s0.Holds c.1 c.2

theorem Gave.refl (s : Scheduler) (older : List Entry) : Gave s s older :=
  ⟨Cleared.refl s older, fun _ hc => .inl hc⟩

theorem Gave.holds (h : Gave s0 s older) {ts : List Token} {b : Int} (hb : s.Holds ts b) : s0.Holds ts b := by
  rcases hb with hc | ⟨q, hq, i, hi, hb, rfl⟩
  · exact h.cells _ hc
  · rw [h.cleared.kept.reqs q hq, h.cleared.step.same.blockSize] at hi
    rw [h.cleared.kept.reqs q hq] at hb
    rw [h.cleared.kept.reqs q hq, h.cleared.step.same.blockSize]
    exact .inr ⟨q, h.cleared.sublist.subset hq, i, hi, hb, rfl⟩

theorem Gave.preempt (h : Gave s0 s older) (hs : (s.pool [] older).Sound) (hv : v ∈ s.running)
    (hlead : s.lead ≠ some v) (hp : s.preempt v = .ok s') : Gave s0 s' older := by
  obtain ⟨s1, h1, hC, -, -⟩ := h.cleared.preempt hs hv hlead
  obtain rfl : s1 = s' := Except.ok.inj (h1.symm.trans hp)
  exact ⟨hC, fun c hc => h.holds (preempt_cells hs hv hp c hc)⟩

end Cells

section Refused

variable {c c' : Chunks} {rest : List Rid}

theorem heldBlocks_card (hs : (s.pool [] older).Sound) :
    s.kv.numAvailable = s.kv.allocator.numBlocks - (s.kv.heldBlocks s.reqs (s.running ++ [])).card := hs.kv.numAvailable

theorem Gave.owns (h : Gave s0 s older) (ha : s0.Alone) (hr : r ∈ s0.running) {i : Nat} {b : Int}
    (hlt : (i + 1) * s.kv.blockSize < (s0.reqs r).seqLen)
    (hc : ((s0.reqs r).tokens.take ((i + 1) * s.kv.blockSize), b) ∈ s.kv.cachedCells) : b ∈ (s0.reqs r).tableBlocks := by
  have hsome : s0.kv.tree.isSome := by
    rw [← h.cleared.step.same.radix]
    cases ht : s.kv.tree with
    | none => simp [cachedCells, ht] at hc
    | some t => rfl
  rw [h.cleared.step.same.blockSize] at hlt hc
  exact ha hsome r hr i b hlt (h.cells _ hc)

theorem Gave.cost_le (hs : (s0.pool [] older).Sound) (h : Gave s0 s older) (ht : s0.Tight) (hv : v ∈ s.running)
    (hpend : (s.reqs v).numPending = 0) :
    ((s.reqs v).tableBlocks.length : Int) + s.cost v ≤ s.blocksFor ((s.reqs v).seqLen + 1) := by
  have hact := pool_active (h.cleared.step.sound hs) (by simpa using hv : v ∈ s.running ++ [])
  have hroom := hact.room hpend
  rcases hact.phase with hp | hd
  · rw [cost_of_prefill hp.1, prefillRest]
    omega
  · have hdec : (s.reqs v).decodes := ⟨hd.1, by simp only [Request.reachedMaxTokens]; omega⟩
    have hle := ht v (h.cleared.sublist.subset hv)
    rw [← h.cleared.kept.stepNeed h.cleared.step.same hv, ← h.cleared.kept.reqs v hv] at hle
    rw [cost_of_decode hd.1, decodeCost, if_pos hdec]
    unfold blocksFor at hle ⊢
    rw [h.cleared.step.same.blockSize]
    exact hle hdec

theorem available_reacquired (hs : (s.pool [] older).Sound) (hv : v ∈ s.running) (hsame : Same s s')
    (hk : Kept s s' (s.running.erase v)) (hrun : s'.running = s.running.erase v) {node : Option Nat} {blocks : List Int}
    {kv' : KVCacheManager} (hA : Acquired s'.kv kv' s'.reqs (s'.running ++ []) v blocks node)
    (hpath : s.kv.nodeBlocks (s.reqs v).cacheNode ⊆ (s.reqs v).tableBlocks) (hown : blocks ⊆ (s.reqs v).tableBlocks) :
    kv'.numAvailable + blocks.length ≤ s.kv.numAvailable + (s.reqs v).tableBlocks.length := by
  have hav := heldBlocks_card hs
  have hav' := hA.sound.numAvailable
  have hnum : kv'.allocator.numBlocks = s.kv.allocator.numBlocks := hA.frame.numBlocks.trans hsame.numBlocks
  have hnd : blocks.Nodup := by
    have := (hA.sound.held v List.mem_cons_self).nodup
    rw [Function.update_self] at this
    exact this
  have hself : blocks.toFinset ⊆ kv'.heldBlocks
    (Function.update s'.reqs v ((s'.reqs v).acquired s'.kv.blockSize blocks node))
      (v :: (s'.running ++ [])) := by
    intro b hb
    refine mem_heldBlocks.mpr ⟨v, List.mem_cons_self, .inl ?_⟩
    rw [Function.update_self]
    exact List.mem_toFinset.mp hb
  have hrest : s.kv.heldBlocks s.reqs (s.running ++ []) ⊆ kv'.heldBlocks (Function.update s'.reqs v
      ((s'.reqs v).acquired s'.kv.blockSize blocks node))
          (v :: (s'.running ++ [])) ∪ (s.reqs v).tableBlocks.toFinset := by
    intro b hb
    obtain ⟨q, hq, hm⟩ := mem_heldBlocks.mp hb
    rw [Finset.mem_union, List.mem_toFinset]
    by_cases hqv : q = v
    · subst hqv
      exact .inr (hm.elim id fun hm => hpath hm)
    · have hq' : q ∈ s.running.erase v := (List.mem_erase_of_ne hqv).mpr (by simpa using hq)
      have hlive : q ∈ s'.running ++ [] := List.mem_append_left _ (hrun ▸ hq')
      have hnode := hA.frame.nodeBlocks q hlive
      rw [hk.reqs q hq', hk.nodeBlocks q hq'] at hnode
      refine .inl (mem_heldBlocks.mpr ⟨q, List.mem_cons_of_mem _ hlive, ?_⟩)
      rw [Function.update_of_ne hqv, hk.reqs q hq', hnode]
      exact hm
  have hav' : kv'.numAvailable = (kv'.allocator.numBlocks : Int) - (kv'.heldBlocks (Function.update s'.reqs v
      ((s'.reqs v).acquired s'.kv.blockSize blocks node)) (v :: (s'.running ++ []))).card := hav'
  generalize kv'.heldBlocks (Function.update s'.reqs v ((s'.reqs v).acquired s'.kv.blockSize blocks node))
    (v :: (s'.running ++ [])) = held at hself hrest hav'
  have hblocks : blocks.toFinset ⊆ held ∩ (s.reqs v).tableBlocks.toFinset := fun b hb =>
    Finset.mem_inter.mpr ⟨hself hb, List.mem_toFinset.mpr (hown (List.mem_toFinset.mp hb))⟩
  have h1 := Finset.card_le_card hrest
  have h2 := Finset.card_le_card hblocks
  have h3 := Finset.card_union_add_card_inter held (s.reqs v).tableBlocks.toFinset
  have h4 := List.toFinset_card_le (s.reqs v).tableBlocks
  rw [List.toFinset_card_of_nodup hnd] at h2
  omega

-- Taking the last victim back asks for at least the blocks it gave.
theorem Gave.refused (hs : (s0.pool [] older).Sound) (h : Gave s0 s1 older) (h' : Gave s0 s' older)
    (hv : v ∈ s1.running) (hneed : s1.kv.numAvailable < s1.costs s1.running) (hp : s1.preempt v = .ok s')
    (ht : s0.Tight) (ha : s0.Alone) (hpend : (s'.reqs v).numPending = 0) {node : Option Nat} {blocks : List Int}
    {kv' : KVCacheManager} (hA : Acquired s'.kv kv' s'.reqs (s'.running ++ []) v blocks node) :
    kv'.numAvailable < s'.costs s'.running + (s'.blocksFor ((s'.reqs v).seqLen + 1) - blocks.length) := by
  have hs1 := h.cleared.step.sound hs
  have hv0 := h.cleared.sublist.subset hv
  have hreq : s1.reqs v = s0.reqs v := h.cleared.kept.reqs v hv
  obtain ⟨kv1, hp1, hstep, hk⟩ := preempt_ok hs1 hv
  obtain rfl : s1.preempted v kv1 = s' := Except.ok.inj (hp1.symm.trans hp)
  have hself : (s1.preempted v kv1).reqs v = { (s1.reqs v).dropped with
      state := .waiting
      numPreemptions := (s1.reqs v).numPreemptions + 1 } := Function.update_self _ _ _
  have hseq : ((s1.preempted v kv1).reqs v).seqLen = (s1.reqs v).seqLen := by rw [hself]; rfl
  have htok : ((s1.preempted v kv1).reqs v).tokens = (s1.reqs v).tokens := by rw [hself]; rfl
  have hcov : (s1.reqs v).covered < (s1.reqs v).seqLen := by
    rcases (pool_active hs1 (by simpa using hv : v ∈ s1.running ++ [])).phase with hp | hd
    · exact hp.2.1
    · omega
  have hown : blocks ⊆ (s1.reqs v).tableBlocks := by
    intro b hb
    obtain ⟨i, hi⟩ := List.mem_iff_getElem?.mp hb
    have hle : (i + 1) * (s1.preempted v kv1).kv.blockSize ≤ blocks.length * (s1.preempted v kv1).kv.blockSize :=
      Nat.mul_le_mul_right _ (List.getElem?_eq_some_iff.mp hi).1
    have hbound := hA.bound
    have hfound := hA.found i b hi
    rw [hseq] at hbound
    rw [htok, hreq] at hfound
    rw [hreq]
    exact h'.owns ha hv0 (by rw [← hreq]; omega) hfound
  have hpath : s1.kv.nodeBlocks (s1.reqs v).cacheNode ⊆ (s1.reqs v).tableBlocks := by
    refine hs1.kv.path_own (List.mem_append_left _ hv) fun i b hle hc => ?_
    simp only [pool] at hle hc ⊢
    rw [hreq] at hle hc hcov ⊢
    exact h.owns ha hv0 (by omega) hc
  have hcost := h.cost_le hs ht hv (by rw [hself] at hpend; exact hpend)
  have hsum : s1.costs s1.running = s1.cost v + s1.costs (s1.running.erase v) := by
    unfold costs
    rw [((List.perm_cons_erase hv).map s1.cost).sum_eq, List.map_cons, List.sum_cons]
  have hrest : (s1.preempted v kv1).costs (s1.preempted v kv1).running = s1.costs (s1.running.erase v) :=
    hk.costs hstep.same (List.Subset.refl _)
  have hfor : (s1.preempted v kv1).blocksFor (((s1.preempted v kv1).reqs v).seqLen + 1) =
      s1.blocksFor ((s1.reqs v).seqLen + 1) := by
    unfold blocksFor
    rw [hstep.same.blockSize, hseq]
  have hav := available_reacquired hs1 hv hstep.same hk rfl hA hpath hown
  rw [hrest, hfor]
  omega

end Refused

end Scheduler

end MiniServe
