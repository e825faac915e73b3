import MiniServe.Engine.MakeRoom

namespace MiniServe

open KVCacheManager

namespace Scheduler

variable {s s' s0 : Scheduler} {older : List Entry} {entering : List Rid} {r : Rid}

section Acquired

variable {node : Option Nat} {blocks : List Int} {kv' : KVCacheManager} {running : List Rid} {stats : Stats}

theorem acquired_same (h : Acquired s.kv kv' s.reqs (s.running ++ entering) r blocks node) (q : Request) :
    Same s (s.put r (kv', q)) :=
  ⟨rfl, rfl, rfl, rfl, rfl, h.frame.numBlocks, h.frame.blockSize, h.frame.radix⟩

theorem acquired_kept (hs : (s.pool entering older).Sound) (hr : r ∈ s.waiting)
    (h : Acquired s.kv kv' s.reqs (s.running ++ entering) r blocks node) (q : Request) :
    Kept s (s.put r (kv', q)) (s.running ++ entering) := by
  refine Kept.of_frame h.frame fun x hx => Function.update_of_ne ?_ _ _
  rintro rfl
  exact pool_waiting hs hr hx

theorem acquired_prefillNeed :
    (s.put r (kv', (s.reqs r).acquired s.kv.blockSize blocks node)).prefillNeed r =
      .ok ((s.entered r kv' blocks node running stats).prefillRest r) := by
  simp [prefillNeed, prefillRest, put, entered, Request.acquired, blocksFor, Request.tableBlocks,
    BlockTable.numBlocks, Request.seqLen]

theorem acquired_decodeNeed (hs : (s.pool entering older).Sound) (hr : r ∈ s.waiting)
    (h : Acquired s.kv kv' s.reqs (s.running ++ entering) r blocks node) (q : Request) :
    (s.put r (kv', q)).decodeNeed s.running = .ok (s.running.map s.decodeCost).sum := by
  have hk := acquired_kept hs hr h q
  refine total_ok fun x hx => ?_
  have hx : x ∈ s.running ++ entering := List.mem_append_left _ hx
  rw [← hk.decodeCost (acquired_same h q) hx]
  refine decodeCharge_ok ?_
  rw [hk.reqs x hx]
  exact (pool_held hs hx).cache

theorem acquired_outstanding (hs : (s.pool entering older).Sound) (hr : r ∈ s.waiting)
    (h : Acquired s.kv kv' s.reqs (s.running ++ entering) r blocks node) (q : Request) :
    (s.put r (kv', q)).outstanding s.running = .ok (s.costs s.running) := by
  have hk := acquired_kept hs hr h q
  refine total_ok fun x hx => ?_
  have hx : x ∈ s.running ++ entering := List.mem_append_left _ hx
  rw [← hk.cost (acquired_same h q) hx]
  refine charge_ok ?_
  rw [hk.reqs x hx]
  exact (pool_held hs hx).cache

theorem fits_cases (running : List Rid) (stats : Stats) (hs : (s.pool entering older).Sound) (hr : r ∈ s.waiting)
    (h : Acquired s.kv kv' s.reqs (s.running ++ entering) r blocks node) (m : Admission) (n : Int) :
    let s1 := s.put r (kv', (s.reqs r).acquired s.kv.blockSize blocks node)
    let need := (s.entered r kv' blocks node running stats).prefillRest r
    s1.fits m r n = .ok none ∨
      (s1.fits m r n = .ok (some need) ∧ (s.running.map s.decodeCost).sum + m.reserved + need ≤ kv'.numAvailable) := by
  intro s1 need
  have h1 : s1.prefillNeed r = .ok need := acquired_prefillNeed
  have h2 : s1.decodeNeed s1.running = .ok (s.running.map s.decodeCost).sum := acquired_decodeNeed hs hr h _
  have h3 : s1.kv.numAvailable = kv'.numAvailable := rfl
  unfold fits
  split
  · rw [h1, h2]
    simp only [h3]
    split
    · exact .inr ⟨rfl, by omega⟩
    · exact .inl rfl
  · exact .inl rfl

theorem fitsChunked_cases (running : List Rid) (stats : Stats) (hs : (s.pool [] older).Sound) (hr : r ∈ s.waiting)
    (h : Acquired s.kv kv' s.reqs (s.running ++ []) r blocks node) :
    let s1 := s.put r (kv', (s.reqs r).acquired s.kv.blockSize blocks node)
    let need := (s.entered r kv' blocks node running stats).prefillRest r
    s1.fitsChunked r = .ok false ∨
      (s1.fitsChunked r = .ok true ∧ s.costs s.running + need ≤ kv'.numAvailable) := by
  intro s1 need
  have h1 : s1.prefillNeed r = .ok need := acquired_prefillNeed
  have h2 : s1.outstanding s1.running = .ok (s.costs s.running) := acquired_outstanding hs hr h _
  have h3 : s1.kv.numAvailable = kv'.numAvailable := rfl
  unfold fitsChunked
  rw [h1, h2]
  simp only [h3]
  by_cases hle : need ≤ kv'.numAvailable - s.costs s.running
  · exact .inr ⟨by simp [hle], by omega⟩
  · exact .inl (by simp [hle])

theorem entered_self : (s.entered r kv' blocks node running stats).reqs r =
    { (s.reqs r).acquired s.kv.blockSize blocks node with state := .prefill } := Function.update_self _ _ _

end Acquired

section Whole

structure Entered (s0 s : Scheduler) (m : Admission) (older : List Entry) : Prop where
  step : Step s0 s [] m.admitted older
  running : s.running = s0.running
  kept : Kept s0 s s0.running
  len : m.admitted ≠ [] → s.running.length + m.admitted.length ≤ s.maxRunning
  reserved : m.reserved = (m.admitted.map s.prefillRest).sum
  budget : m.admitted ≠ [] → (s.running.map s.decodeCost).sum + m.reserved ≤ s.kv.numAvailable
  fresh : ∀ x ∈ m.admitted, (s.reqs x).state = .prefill ∧ (s.reqs x).numCachedTokens = (s.reqs x).covered

theorem Entered.refl (s : Scheduler) (budget : Int) (older : List Entry) : Entered s s ⟨[], budget, 0⟩ older :=
  ⟨Step.refl s [] older, rfl, Kept.refl s _, by simp, rfl, by simp, by simp⟩

theorem Entered.refuse {m : Admission} (h : Entered s0 s m older) (hstep : Step s s' m.admitted m.admitted older)
    (hk : Kept s s' (s.running ++ m.admitted)) (hrun : s'.running = s.running)
    (hav : s'.kv.numAvailable = s.kv.numAvailable) : Entered s0 s' m older := by
  have hk1 : Kept s s' s.running := hk.mono (List.subset_append_left _ _)
  have hk2 : Kept s s' m.admitted := hk.mono (List.subset_append_right _ _)
  refine ⟨h.step.trans hstep, hrun.trans h.running, h.kept.trans (h.running ▸ hk1), ?_, ?_, ?_, ?_⟩
  · rw [hrun, hstep.same.maxRunning]; exact h.len
  · rw [h.reserved, List.map_congr_left fun x hx => hk2.prefillRest hstep.same hx]
  · rw [hrun, hav, List.map_congr_left fun x hx => hk1.decodeCost hstep.same hx]
    exact h.budget
  · intro x hx
    rw [hk2.reqs x hx]
    exact h.fresh x hx

theorem Entered.enter {m : Admission} {node : Option Nat} {blocks : List Int} {kv' : KVCacheManager} {stats : Stats}
    {n : Int} (hs : (s0.pool [] older).Sound) (h : Entered s0 s m older) (hr : r ∈ s.waiting)
    (hn : (s.reqs r).numPending = 0) (hacq : Acquired s.kv kv' s.reqs (s.running ++ m.admitted) r blocks node)
    (hlen : s.running.length + m.admitted.length < s.maxRunning)
    (hfit : (s.running.map s.decodeCost).sum + m.reserved +
      (s.entered r kv' blocks node s.running stats).prefillRest r ≤ kv'.numAvailable) :
    Entered s0 (s.entered r kv' blocks node s.running stats)
      (m.enter r n ((s.entered r kv' blocks node s.running stats).prefillRest r)) older := by
  have hs' := h.step.sound hs
  have hsame : Same s (s.entered r kv' blocks node s.running stats) := entered_same hacq
  have hk := entered_kept s.running stats hs' hr hacq
  have hk1 := hk.mono (List.subset_append_left s.running m.admitted)
  have hk2 := hk.mono (List.subset_append_right s.running m.admitted)
  have hstep : Step s (s.entered r kv' blocks node s.running stats) m.admitted (m.admitted ++ [r]) older :=
    entered_step hr hn hacq (by simp)
  refine ⟨h.step.trans hstep, h.running, h.kept.trans (h.running ▸ hk1), fun _ => ?_, ?_, fun _ => ?_, ?_⟩
  · simp only [Admission.enter, List.length_append, List.length_singleton]
    rw [hsame.maxRunning]
    exact hlen
  · simp only [Admission.enter, List.map_append, List.sum_append, List.map_singleton, List.sum_singleton]
    rw [h.reserved, List.map_congr_left fun x hx => hk2.prefillRest hsame hx]
  · have e : (s.entered r kv' blocks node s.running stats).running = s.running := rfl
    rw [e, List.map_congr_left fun x hx => hk1.decodeCost hsame hx]
    simp only [Admission.enter]
    rw [← add_assoc]
    exact hfit
  · intro x hx
    rcases List.mem_append.mp hx with hx | hx
    · rw [hk2.reqs x hx]
      exact h.fresh x hx
    · rw [List.mem_singleton.mp hx, entered_self]
      exact ⟨rfl, rfl⟩

theorem admitLoop_spec {l : List Rid} {m : Admission} (hs : (s0.pool [] older).Sound) (h : Entered s0 s m older)
    (hnd : l.Nodup) (hl : ∀ x ∈ l, x ∈ s.waiting) :
    ∃ m' s', admitLoop l s m = .ok (m'.admitted, s') ∧ Entered s0 s' m' older := by
  induction l generalizing s m with
  | nil => exact ⟨m, s, by simp [admitLoop], h⟩
  | cons r rest ih =>
    have hs' := h.step.sound hs
    have hr := hl r List.mem_cons_self
    obtain ⟨hrn, hnd⟩ := List.nodup_cons.mp hnd
    by_cases hfull : s.running.length + m.admitted.length ≥ s.maxRunning
    · exact ⟨m, s, by simp [admitLoop, hfull], h⟩
    by_cases hp : (s.reqs r).numPending = 0
    · obtain ⟨node, blocks, kv', hacq, hA⟩ := acquire_ok hs' hr
      obtain ⟨stats, hent⟩ := enterPrefill_ok hs' hr kv' blocks node (blocks.length * s.kv.blockSize)
      rcases fits_cases s.running stats hs' hr hA m
        (((s.put r (kv', (s.reqs r).acquired s.kv.blockSize blocks node)).reqs r).seqLen -
          (blocks.length * s.kv.blockSize : Nat)) with hfit | ⟨hfit, hle⟩
      · obtain ⟨s2, hab, hstep, hk, hrun, -, hav⟩ := abandon_ok hs' hr hA
        refine ⟨m, s2, ?_, h.refuse hstep hk hrun hav⟩
        rw [admitLoop]
        simp only [hfull, if_false, hp, ne_eq, not_true_eq_false, hacq, hfit, hab]
      · have hE := h.enter (n := (((s.put r (kv', (s.reqs r).acquired s.kv.blockSize blocks node)).reqs r).seqLen -
          (blocks.length * s.kv.blockSize : Nat) : Int)) hs hr hp hA (by omega) hle
        obtain ⟨m', s', h1, h2⟩ := ih hE hnd fun x hx => by
          have hne : x ≠ r := by rintro rfl; exact hrn hx
          exact (List.mem_erase_of_ne hne).mpr (hl x (List.mem_cons_of_mem _ hx))
        refine ⟨m', s', ?_, h2⟩
        rw [admitLoop]
        simp only [hfull, if_false, hp, ne_eq, not_true_eq_false, hacq, hfit, hent]
        exact h1
    · exact ⟨m, s, by simp [admitLoop, hfull, hp], h⟩

theorem admitWaiting_spec (hs : (s.pool [] older).Sound) :
    ∃ m s', s.admitWaiting = .ok (m.admitted, s') ∧ Entered s s' m older := by
  have hp : s.order.Perm s.waiting := SchedulePolicy.perm_order s.policy s.waiting
  have hw : s.waiting.Nodup := (List.nodup_append.mp hs.nodup).2.1
  exact admitLoop_spec hs (Entered.refl s _ older) (hp.nodup_iff.mpr hw) fun x hx => hp.mem_iff.mp hx

end Whole

end Scheduler

end MiniServe
