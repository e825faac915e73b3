import MiniServe.Engine.SchedulerPool

namespace MiniServe

open KVCacheManager

namespace Scheduler

variable {s s' s'' : Scheduler} {entering entering' : List Rid} {older : List Entry} {r : Rid}

structure Same (s s' : Scheduler) : Prop where
  maxRunning : s'.maxRunning = s.maxRunning
  maxPrefillTokens : s'.maxPrefillTokens = s.maxPrefillTokens
  chunkedPrefillSize : s'.chunkedPrefillSize = s.chunkedPrefillSize
  tokensPerStep : s'.tokensPerStep = s.tokensPerStep
  policy : s'.policy = s.policy
  numBlocks : s'.kv.allocator.numBlocks = s.kv.allocator.numBlocks
  blockSize : s'.kv.blockSize = s.kv.blockSize
  radix : s'.kv.tree.isSome = s.kv.tree.isSome

theorem Same.refl (s : Scheduler) : Same s s := ⟨rfl, rfl, rfl, rfl, rfl, rfl, rfl, rfl⟩

theorem Same.trans (h1 : Same s s') (h2 : Same s' s'') : Same s s'' where
  maxRunning := h2.maxRunning.trans h1.maxRunning
  maxPrefillTokens := h2.maxPrefillTokens.trans h1.maxPrefillTokens
  chunkedPrefillSize := h2.chunkedPrefillSize.trans h1.chunkedPrefillSize
  tokensPerStep := h2.tokensPerStep.trans h1.tokensPerStep
  policy := h2.policy.trans h1.policy
  numBlocks := h2.numBlocks.trans h1.numBlocks
  blockSize := h2.blockSize.trans h1.blockSize
  radix := h2.radix.trans h1.radix

structure Kept (s s' : Scheduler) (l : List Rid) : Prop where
  reqs : ∀ x ∈ l, s'.reqs x = s.reqs x
  nodeBlocks : ∀ x ∈ l, s'.kv.nodeBlocks (s.reqs x).cacheNode = s.kv.nodeBlocks (s.reqs x).cacheNode

section Kept

variable {l l' : List Rid}

theorem Kept.refl (s : Scheduler) (l : List Rid) : Kept s s l := ⟨fun _ _ => rfl, fun _ _ => rfl⟩

theorem Kept.trans (h1 : Kept s s' l) (h2 : Kept s' s'' l) : Kept s s'' l where
  reqs := fun x hx => (h2.reqs x hx).trans (h1.reqs x hx)
  nodeBlocks := fun x hx => by
    have h := h2.nodeBlocks x hx
    rw [h1.reqs x hx] at h
    exact h.trans (h1.nodeBlocks x hx)

theorem Kept.mono (h : Kept s s' l) (hl : l' ⊆ l) : Kept s s' l' :=
  ⟨fun x hx => h.reqs x (hl hx), fun x hx => h.nodeBlocks x (hl hx)⟩

theorem Kept.of_frame (hf : Frame s.kv s'.kv s.reqs l) (h : ∀ x ∈ l, s'.reqs x = s.reqs x) : Kept s s' l :=
  ⟨h, hf.nodeBlocks⟩

theorem Kept.stepNeed (h : Kept s s' l) (hc : Same s s') (hr : r ∈ l) : s'.stepNeed r = s.stepNeed r := by
  unfold Scheduler.stepNeed table
  rw [h.reqs r hr, hc.blockSize, hc.tokensPerStep]

theorem Kept.decodeCost (h : Kept s s' l) (hc : Same s s') (hr : r ∈ l) : s'.decodeCost r = s.decodeCost r := by
  unfold Scheduler.decodeCost
  rw [h.stepNeed hc hr, h.reqs r hr]

theorem Kept.prefillRest (h : Kept s s' l) (hc : Same s s') (hr : r ∈ l) : s'.prefillRest r = s.prefillRest r := by
  unfold Scheduler.prefillRest blocksFor
  rw [h.reqs r hr, hc.blockSize]

theorem Kept.cost (h : Kept s s' l) (hc : Same s s') (hr : r ∈ l) : s'.cost r = s.cost r := by
  unfold Scheduler.cost
  rw [h.stepNeed hc hr, h.prefillRest hc hr, h.reqs r hr]

theorem Kept.costs (h : Kept s s' l) (hc : Same s s') (hl : l' ⊆ l) : s'.costs l' = s.costs l' := by
  unfold Scheduler.costs
  rw [List.map_congr_left fun x hx => h.cost hc (hl hx)]

theorem Kept.ownBlocks (h : Kept s s' l) (hr : r ∈ l) : s'.ownBlocks r = s.ownBlocks r := by
  unfold Scheduler.ownBlocks
  rw [h.reqs r hr, h.nodeBlocks r hr]

end Kept

structure Step (s s' : Scheduler) (entering entering' : List Rid) (older : List Entry) : Prop where
  moves : Pool.Moves none (s.pool entering older) (s'.pool entering' older)
  same : Same s s'
  perm : (s'.running ++ entering' ++ s'.waiting).Perm (s.running ++ entering ++ s.waiting)
  other : ∀ x, x ∉ s.running ++ entering ++ s.waiting → s'.reqs x = s.reqs x

theorem Step.refl (s : Scheduler) (entering : List Rid) (older : List Entry) : Step s s entering entering older :=
  ⟨Pool.Moves.refl _, Same.refl s, List.Perm.refl _, fun _ _ => rfl⟩

theorem Step.trans {entering'' : List Rid} (h1 : Step s s' entering entering' older)
    (h2 : Step s' s'' entering' entering'' older) : Step s s'' entering entering'' older :=
  ⟨h1.moves.trans h2.moves, h1.same.trans h2.same, h2.perm.trans h1.perm, fun x hx =>
    (h2.other x fun h => hx (h1.perm.mem_iff.mp h)).trans (h1.other x hx)⟩

theorem Step.sound (h : Step s s' entering entering' older) (hs : (s.pool entering older).Sound) :
    (s'.pool entering' older).Sound := h.moves.sound hs

theorem acquire_ok (hs : (s.pool entering older).Sound) (hr : r ∈ s.waiting) :
    ∃ node blocks kv', s.acquire r = .ok (blocks.length * s.kv.blockSize,
        s.put r (kv', (s.reqs r).acquired s.kv.blockSize blocks node)) ∧
      Acquired s.kv kv' s.reqs (s.running ++ entering) r blocks node := by
  obtain ⟨node, blocks, kv', h1, h2⟩ := hs.kv.acquire (pool_waiting hs hr)
  refine ⟨node, blocks, kv', ?_, h2⟩
  simp only [pool] at h1
  simp [acquire, h1, Request.acquired]

section Refuse

variable {node : Option Nat} {blocks : List Int} {kv' : KVCacheManager}

theorem acquired_held (h : Acquired s.kv kv' s.reqs (s.running ++ entering) r blocks node) :
    kv'.Sound (Function.update s.reqs r ((s.reqs r).acquired s.kv.blockSize blocks node))
      (r :: (s.running ++ entering)) := h.sound

theorem abandon_ok (hs : (s.pool entering older).Sound) (hr : r ∈ s.waiting)
    (h : Acquired s.kv kv' s.reqs (s.running ++ entering) r blocks node) :
    ∃ s', (s.put r (kv', (s.reqs r).acquired s.kv.blockSize blocks node)).abandon r = .ok s' ∧
      Step s s' entering entering older ∧ Kept s s' (s.running ++ entering) ∧ s'.running = s.running ∧
      s'.waiting = s.waiting ∧ s'.kv.numAvailable = s.kv.numAvailable := by
  have hl := pool_waiting hs hr
  have hne : ∀ x ∈ s.running ++ entering, x ≠ r := fun x hx e => hl (e ▸ hx)
  obtain ⟨kv2, h1, h2⟩ := (acquired_held h).abandon List.mem_cons_self
  rw [Function.update_self] at h1 h2
  let q : Request := { (s.reqs r).dropped with numCachedTokens := 0 }
  have hm : Pool.Move none (s.pool entering older) ((s.put r (kv2, q)).pool entering older) := Pool.Move.lookup hr h h2
  have hf : Frame kv' kv2 s.reqs (s.running ++ entering) :=
    (h2.frame.mono fun x hx => List.mem_cons_of_mem _ hx).congr fun x hx => by
      rw [Function.update_of_ne (hne x hx)]
  have hf := h.frame.trans hf
  have hkept : Kept s (s.put r (kv2, q)) (s.running ++ entering) :=
    Kept.of_frame hf fun x hx => Function.update_of_ne (hne x hx) _ _
  have hother : ∀ x, x ∉ s.running ++ entering ++ s.waiting → (s.put r (kv2, q)).reqs x = s.reqs x := fun x hx => by
    refine Function.update_of_ne ?_ _ _
    rintro rfl
    exact hx (List.mem_append_right _ hr)
  refine ⟨s.put r (kv2, q), ?_, ⟨hm.moves, ⟨rfl, rfl, rfl, rfl, rfl, ?_, ?_, ?_⟩, List.Perm.refl _, hother⟩,
    hkept, rfl, rfl, ?_⟩
  · simp only [abandon, put, Function.update_self, h1, Function.update_idem]
    rfl
  · exact hf.numBlocks
  · exact hf.blockSize
  · exact hf.radix
  · have e1 : s.kv.numAvailable = _ := hs.kv.numAvailable
    have e2 : kv2.numAvailable = _ := (hm.sound hs).kv.numAvailable
    have e3 : kv2.heldBlocks (s.put r (kv2, q)).reqs (s.running ++ entering) =
        s.kv.heldBlocks s.reqs (s.running ++ entering) := by
      ext b
      simp only [mem_heldBlocks]
      refine exists_congr fun x => and_congr_right fun hx => ?_
      rw [hkept.reqs x hx, hf.nodeBlocks x hx]
    simp only [pool] at e1 e2
    rw [e1, show (s.put r (kv2, q)).kv.numAvailable = kv2.numAvailable from rfl, e2]
    simp only [put] at e3 ⊢
    rw [e3, hf.numBlocks]

end Refuse

section Enter

variable {node : Option Nat} {blocks : List Int} {kv' : KVCacheManager}

def entered (s : Scheduler) (r : Rid) (kv' : KVCacheManager) (blocks : List Int) (node : Option Nat)
    (running : List Rid) (stats : Stats) : Scheduler :=
  { s with
    kv := kv'
    reqs := Function.update s.reqs r
      { (s.reqs r).acquired s.kv.blockSize blocks node with state := .prefill }
    waiting := s.waiting.erase r
    running := running
    stats := stats }

theorem enterPrefill_ok (hs : (s.pool entering older).Sound) (hr : r ∈ s.waiting) (kv' : KVCacheManager)
    (blocks : List Int) (node : Option Nat) (cached : Nat) :
    ∃ stats, (s.put r (kv', (s.reqs r).acquired s.kv.blockSize blocks node)).enterPrefill r cached =
      .ok (s.entered r kv' blocks node s.running stats) := by
  have hst : (s.reqs r).state = .waiting := (hs.queued r hr).1
  refine ⟨s.stats.admitted ((s.reqs r).numPreemptions = 0) (s.reqs r).seqLen cached, ?_⟩
  simp only [enterPrefill, put, Function.update_self]
  rw [Request.transition_ok (by simp [Request.acquired, hst, RequestState.next])]
  simp only [set, entered, Function.update_idem]
  rfl

theorem entered_same {running : List Rid} {stats : Stats}
    (h : Acquired s.kv kv' s.reqs (s.running ++ entering) r blocks node) :
    Same s (s.entered r kv' blocks node running stats) :=
  ⟨rfl, rfl, rfl, rfl, rfl, h.frame.numBlocks, h.frame.blockSize, h.frame.radix⟩

theorem entered_kept (running : List Rid) (stats : Stats) (hs : (s.pool entering older).Sound) (hr : r ∈ s.waiting)
    (h : Acquired s.kv kv' s.reqs (s.running ++ entering) r blocks node) :
    Kept s (s.entered r kv' blocks node running stats) (s.running ++ entering) := by
  refine Kept.of_frame h.frame fun x hx => Function.update_of_ne ?_ _ _
  rintro rfl
  exact pool_waiting hs hr hx

-- Without chunking the admitted requests join `running` at the end of the call, with it at once.
theorem entered_step {running entering' : List Rid} {stats : Stats}
    (hr : r ∈ s.waiting) (hn : (s.reqs r).numPending = 0)
    (h : Acquired s.kv kv' s.reqs (s.running ++ entering) r blocks node)
    (hl : running ++ entering' = s.running ++ entering ++ [r]) :
    Step s (s.entered r kv' blocks node running stats) entering entering' older := by
  have hm : Pool.Move none (s.pool entering older)
      ((s.entered r kv' blocks node running stats).pool entering' older) := by
    have : Pool.Move none (s.pool entering older) _ := Pool.Move.enter hr hn h
    simp only [pool, entered, hl]
    exact this
  refine ⟨hm.moves, entered_same h, ?_, fun x hx => Function.update_of_ne ?_ _ _⟩
  · simp only [entered, hl]
    rw [List.append_assoc]
    exact (List.perm_cons_erase hr).symm.append_left _
  · rintro rfl
    exact hx (List.mem_append_right _ hr)

end Enter

section Preempt

variable {kv' : KVCacheManager}

def preempted (s : Scheduler) (r : Rid) (kv' : KVCacheManager) : Scheduler :=
  { s with
    kv := kv'
    reqs := Function.update s.reqs r { (s.reqs r).dropped with
      state := .waiting
      numPreemptions := (s.reqs r).numPreemptions + 1 }
    running := s.running.erase r
    waiting := r :: s.waiting
    numPreemptions := s.numPreemptions + 1 }

theorem preempt_ok (hs : (s.pool [] older).Sound) (hr : r ∈ s.running) :
    ∃ kv', s.preempt r = .ok (s.preempted r kv') ∧ Step s (s.preempted r kv') [] [] older ∧
      Kept s (s.preempted r kv') (s.running.erase r) := by
  have hrl : r ∈ s.running ++ [] := by simpa using hr
  have hst : RequestState.waiting ∈ (s.reqs r).state.next := by
    have := hs.state_live hrl
    simp only [pool] at this
    rcases this with h | h <;> simp [h, RequestState.next]
  have hkv : s.kv.Sound (Function.update s.reqs r { s.reqs r with state := .waiting }) (s.running ++ []) := by
    have h0 : s.kv.Sound (Function.update s.reqs r (s.reqs r)) (s.running ++ []) := by
      rw [Function.update_eq_self]; exact hs.kv
    exact Pool.kv_restate_same h0 rfl rfl rfl
  obtain ⟨kv', h1, h2⟩ := hkv.release hrl
  rw [Function.update_self] at h1
  have hm : Pool.Move none (s.pool [] older) ((s.preempted r kv').pool [] older) := by
    have hrel : Released s.kv kv' (Function.update s.reqs r { s.reqs r with state := .waiting }) (s.running ++ []) r
        { (s.reqs r).dropped with state := .waiting } := by
      rw [Function.update_self] at h2; exact h2
    have : Pool.Move none (s.pool [] older) _ := Pool.Move.preempt hrl (by simp [pool]) rfl hrel
    simp only [pool, preempted, List.append_nil] at this ⊢
    exact this
  have hne : ∀ x ∈ s.running.erase r, x ≠ r := by
    rintro x hx rfl
    have hnd := hs.kv.nodup
    simp only [pool, List.append_nil] at hnd
    exact hnd.not_mem_erase hx
  have hf : Frame s.kv kv' s.reqs (s.running.erase r) := by
    have := h2.frame
    rw [List.append_nil] at this
    exact this.congr fun x hx => by rw [Function.update_of_ne (hne x hx)]
  refine ⟨kv', ?_, ⟨hm.moves, ⟨rfl, rfl, rfl, rfl, rfl, hf.numBlocks, hf.blockSize, hf.radix⟩, ?_, ?_⟩,
    Kept.of_frame hf fun x hx => Function.update_of_ne (hne x hx) _ _⟩
  · simp [preempt, Request.transition_ok hst, h1, put, preempted, Request.dropped]
  · simp only [preempted, List.append_nil]
    exact List.perm_middle.trans ((List.perm_cons_erase hr).symm.append_right _)
  · intro x hx
    refine Function.update_of_ne ?_ _ _
    rintro rfl
    exact hx (by simp [hr])

end Preempt

end Scheduler

end MiniServe
