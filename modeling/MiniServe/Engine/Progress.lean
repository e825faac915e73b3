import MiniServe.Engine.Placeholder

namespace MiniServe

open KVCacheManager

namespace Scheduler

variable {s s' : Scheduler} {older : List Entry} {r : Rid}

section Loops

theorem admitLoop_admitted {l a : List Rid} {m : Admission} (h : admitLoop l s m = .ok (a, s')) : m.admitted <+: a := by
  induction l generalizing s m with
  | nil =>
    rw [admitLoop] at h
    obtain ⟨rfl, -⟩ := Prod.mk.inj (Except.ok.inj h)
    exact List.prefix_refl _
  | cons r rest ih =>
    rw [admitLoop] at h
    split at h
    · obtain ⟨rfl, -⟩ := Prod.mk.inj (Except.ok.inj h)
      exact List.prefix_refl _
    split at h
    · obtain ⟨rfl, -⟩ := Prod.mk.inj (Except.ok.inj h)
      exact List.prefix_refl _
    split at h
    · simp at h
    dsimp only at h
    split at h
    · simp at h
    · split at h
      · simp at h
      · obtain ⟨rfl, -⟩ := Prod.mk.inj (Except.ok.inj h)
        exact List.prefix_refl _
    · split at h
      · simp at h
      · exact (List.prefix_append _ _).trans (ih h)

theorem chunkRunning_rows {l : List Rid} {c c' : Chunks} (h : s.chunkRunning l c = .ok c') : c.rows <+: c'.rows := by
  induction l generalizing c with
  | nil =>
    obtain rfl := Except.ok.inj h
    exact List.prefix_refl _
  | cons r rest ih =>
    rw [chunkRunning] at h
    split at h
    · split at h
      · simp at h
      · exact (List.prefix_append _ _).trans (ih h)
    · exact ih h

theorem acquire_running {cached : Nat} (h : s.acquire r = .ok (cached, s')) : s'.running = s.running := by
  unfold acquire at h
  split at h
  · simp at h
  · obtain ⟨-, rfl⟩ := Prod.mk.inj (Except.ok.inj h)
    rfl

theorem abandon_running (h : s.abandon r = .ok s') : s'.running = s.running := by
  unfold abandon at h
  split at h
  · simp at h
  · obtain rfl := Except.ok.inj h
    rfl

theorem enterPrefill_running {cached : Nat} (h : s.enterPrefill r cached = .ok s') : s'.running = s.running := by
  unfold enterPrefill at h
  split at h
  · simp at h
  · obtain rfl := Except.ok.inj h
    rfl

theorem chunkAdmit_grows {l : List Rid} {c c' : Chunks} (h : chunkAdmit l s c = .ok (c', s')) :
    c.rows <+: c'.rows ∧ s.running <+: s'.running := by
  induction l generalizing s c with
  | nil =>
    rw [chunkAdmit] at h
    obtain ⟨rfl, rfl⟩ := Prod.mk.inj (Except.ok.inj h)
    exact ⟨List.prefix_refl _, List.prefix_refl _⟩
  | cons r rest ih =>
    rw [chunkAdmit] at h
    split at h
    · obtain ⟨rfl, rfl⟩ := Prod.mk.inj (Except.ok.inj h)
      exact ⟨List.prefix_refl _, List.prefix_refl _⟩
    split at h
    · obtain ⟨rfl, rfl⟩ := Prod.mk.inj (Except.ok.inj h)
      exact ⟨List.prefix_refl _, List.prefix_refl _⟩
    split at h
    · simp at h
    next cached s1 hacq =>
    have h1 := acquire_running hacq
    split at h
    · simp at h
    · split at h
      · simp at h
      · next s2 hab =>
        obtain ⟨rfl, rfl⟩ := Prod.mk.inj (Except.ok.inj h)
        rw [abandon_running hab, h1]
        exact ⟨List.prefix_refl _, List.prefix_refl _⟩
    · split at h
      · simp at h
      · next s2 hent =>
        obtain ⟨hrows, hrun⟩ := ih h
        rw [enterPrefill_running hent, h1] at hrun
        exact ⟨(List.prefix_append _ _).trans hrows, (List.prefix_append _ _).trans hrun⟩

theorem chunkRunning_lead {l : List Rid} {c c' : Chunks} (h : s.chunkRunning l c = .ok c') (hb : 0 < c.budget)
    (hl : l.find? (fun r => ¬ (s.reqs r).isSpent) = some r) (hst : (s.reqs r).state = .prefill) :
    r ∈ c'.rows.map Row.rid := by
  induction l with
  | nil => simp at hl
  | cons x rest ih =>
    rw [chunkRunning] at h
    by_cases hx : (s.reqs x).isSpent
    · have hne : ¬ ((s.reqs x).state = .prefill ∧ 0 < c.budget) := by
        rintro ⟨hp, -⟩
        rw [hx.1] at hp
        simp at hp
      rw [if_neg hne] at h
      rw [List.find?_cons_of_neg (by simpa using hx)] at hl
      exact ih h hl
    · rw [List.find?_cons_of_pos (by simpa using hx)] at hl
      obtain rfl := Option.some.inj hl
      rw [if_pos ⟨hst, hb⟩] at h
      split at h
      · simp at h
      · obtain ⟨tail, htail⟩ := chunkRunning_rows h
        rw [← htail]
        simp [Chunks.take]

end Loops

section Lead

theorem lead_state (hs : (s.pool [] older).Sound) (hl : s.lead = some r) :
    (s.reqs r).decodes ∨ (s.reqs r).state = .prefill := by
  have hm : r ∈ s.running ++ [] := by simpa using lead_mem hl
  have hst : (s.reqs r).state = .prefill ∨ (s.reqs r).state = .decode := hs.state_live hm
  rcases hst with h | h
  · exact .inr h
  · exact .inl ⟨h, fun hmax => lead_not_spent hl ⟨h, hmax⟩⟩

theorem Entered.lead {m : Admission} (h : Entered s s' m older) : s'.lead = s.lead := by
  unfold Scheduler.lead
  rw [h.running]
  refine List.find?_congr fun x hx => ?_
  rw [h.kept.reqs x hx]

theorem lead_mem_decodings (hl : s.lead = some r) (hd : (s.reqs r).decodes) : r ∈ s.decodings := by
  rw [decodings, List.mem_filter, decide_eq_true_eq]
  exact ⟨lead_mem hl, hd⟩

theorem ChunkedCase.lead_row {s1 s2 : Scheduler} {c1 c2 : Chunks} (hs : (s1.pool [] older).Sound)
    (hpos : s1.chunkedPrefillSize ≠ 0)
    (hrun : s1.chunkRunning s1.running ⟨s1.decodings.map s1.decodeRow,
      (s1.chunkedPrefillSize : Int) - (s1.decodings.map s1.decodeRow).length⟩ = .ok c1)
    (hadm : chunkAdmit (if 0 < c1.budget then s1.order else []) s1 c1 = .ok (c2, s2)) (hl : s1.lead = some r) :
    s1.decodings ≠ [] ∨ (s1.reqs r).state = .prefill ∧ r ∈ c2.rows.map Row.rid := by
  by_cases hdec : s1.decodings = []
  · right
    have hst : (s1.reqs r).state = .prefill := by
      refine (lead_state hs hl).resolve_left fun hd => ?_
      have := lead_mem_decodings hl hd
      rw [hdec] at this
      simp at this
    refine ⟨hst, ?_⟩
    rw [hdec] at hrun
    have hmem := chunkRunning_lead hrun (by simp; omega) hl hst
    obtain ⟨tail, htail⟩ := (chunkAdmit_grows hadm).1
    rw [← htail, List.map_append]
    exact List.mem_append_left _ hmem
  · exact .inl hdec

theorem schedule_none (hs : (s.pool [] older).Sound)
    (hd : s.chunkedPrefillSize = 0 → ∀ x ∈ s.running, (s.reqs x).state = .decode)
    (h : s.schedule = (.ok none, s')) : s.lead = none := by
  by_contra hne
  obtain ⟨r, hr⟩ := Option.ne_none_iff_exists'.mp hne
  unfold schedule at h
  split at h
  · next hz =>
    have hcase := scheduleWhole_cases hs (hd hz)
    rw [h] at hcase
    generalize hres : ((.ok none, s') : Except Error (Option Batch) × Scheduler) = res at hcase
    cases hcase with
    | prefill hadm hE hm hd1 => simp at hres
    | @decode m s1 s2 m' hadm hE hm hC hd2 hroom hdec hle =>
      have hl : s2.lead = some r := by rw [hC.lead, hE.lead, hr]
      have hdr : (s2.reqs r).decodes := by
        refine ⟨hd2 r (lead_mem hl), fun hmax => lead_not_spent hl ⟨hd2 r (lead_mem hl), hmax⟩⟩
      have hmem := lead_mem_decodings hl hdr
      rw [← hdec] at hmem
      have hnil : m'.decoding ≠ [] := List.ne_nil_of_mem hmem
      rw [if_neg hnil] at hres
      simp at hres
    | stuck hE hm hC hd2 hst => simp at hres
  · next hz =>
    have hcase := scheduleChunked_cases hs
    rw [h] at hcase
    generalize hres : ((.ok none, s') : Except Error (Option Batch) × Scheduler) = res at hcase
    cases hcase with
    | @batch s1 s2 p c1 c2 hC hroom hle hrun hadm hG =>
      have hs1 := hC.step.sound hs
      have hl : s1.lead = some r := hC.lead.trans hr
      have hnil : c2.rows ≠ [] := by
        rcases ChunkedCase.lead_row hs1 (by
          rw [hC.step.same.chunkedPrefillSize]; exact hz) hrun hadm hl with hdec | ⟨-, hmem⟩
        · obtain ⟨pre, hpre, -⟩ := hG.rows.rows
          simpa [hpre] using fun h => absurd h hdec
        · intro h0
          simp [h0] at hmem
      rw [if_neg hnil] at hres
      simp at hres
    | stuck hC hst => simp at hres

end Lead

section First

variable {kv' : KVCacheManager} {blocks : List Int} {node : Option Nat}

def Accepted (s : Scheduler) (q : Request) : Prop :=
  s.blocksFor (q.maxLen + s.tokensPerStep - 1) ≤ s.kv.allocator.numBlocks

theorem Accepted.alike {q q' : Request} (h : s.Accepted q) (hsame : Same s s') (ha : Pool.Alike q q') :
    s'.Accepted q' := by
  simp only [Accepted, blocksFor, Request.maxLen] at h ⊢
  rw [hsame.blockSize, hsame.numBlocks, hsame.tokensPerStep, ha.1, ha.2.1]
  exact h

theorem Accepted.blocksFor_le {q : Request} (h : s.Accepted q) (hlt : q.outputIds.length < q.params.maxNewTokens) :
    s.blocksFor (q.seqLen + 1) ≤ s.kv.allocator.numBlocks := by
  have hbs : (0 : Int) < s.kv.blockSize := by have := @blockSize_pos s.kv; omega
  refine (ceilDiv_mono hbs ?_).trans h
  have := s.tokensPerStep_pos
  simp only [Request.seqLen, Request.maxLen]
  omega

-- With nothing running, all the pool but the request's own cached prefix is there for it.
theorem lone_need_le (stats : Stats) (hs : (s.pool [] older).Sound) (hrun : s.running = []) (hr : r ∈ s.waiting)
    (hn : (s.reqs r).numPending = 0) (hacc : s.Accepted (s.reqs r))
    (h : Acquired s.kv kv' s.reqs (s.running ++ []) r blocks node) :
    (s.entered r kv' blocks node [r] stats).prefillRest r ≤ kv'.numAvailable := by
  have hstep : Step s (s.entered r kv' blocks node [r] stats) [] [] older := entered_step hr hn h (by simp [hrun])
  have hs' := hstep.sound hs
  have hlone := available_lone hs' (rfl : (s.entered r kv' blocks node [r] stats).running = [r])
  have hown : ((s.entered r kv' blocks node [r] stats).ownBlocks r).length = blocks.length := by
    have hblocks : ((s.entered r kv' blocks node [r] stats).reqs r).tableBlocks = blocks := by rw [entered_self]; rfl
    have hnode : (s.entered r kv' blocks node [r] stats).kv.nodeBlocks
        ((s.entered r kv' blocks node [r] stats).reqs r).cacheNode = blocks := by
      rw [entered_self]; exact h.nodeBlocks
    rw [ownBlocks, hblocks, hnode]
    simp
  have hroom := (hs.queued r hr).2.2 hn
  have hle := hacc.blocksFor_le hroom
  have hneed : (s.entered r kv' blocks node [r] stats).prefillRest r =
      s.blocksFor ((s.reqs r).seqLen + 1) - blocks.length := by
    unfold prefillRest blocksFor
    rw [entered_self]
    simp only [entered, h.frame.blockSize]
    rfl
  rw [hneed]
  have hav : kv'.numAvailable + blocks.length = s.kv.allocator.numBlocks := by
    rw [hown] at hlone
    rw [← h.frame.numBlocks]
    exact hlone
  omega

theorem admitWaiting_first {rest : List Rid} (hs : (s.pool [] older).Sound) (hrun : s.running = [])
    (ho : s.order = r :: rest) (hn : (s.reqs r).numPending = 0) (hacc : s.Accepted (s.reqs r)) {a : List Rid}
    (h : s.admitWaiting = .ok (a, s')) : ∃ tail, a = r :: tail := by
  have hr : r ∈ s.waiting := (SchedulePolicy.perm_order s.policy s.waiting).mem_iff.mp (by
    rw [show s.policy.order s.reqs s.kv s.waiting = r :: rest from ho]; exact List.mem_cons_self)
  obtain ⟨node, blocks, kv', hacq, hA⟩ := acquire_ok hs hr
  obtain ⟨stats, hent⟩ := enterPrefill_ok hs hr kv' blocks node (blocks.length * s.kv.blockSize)
  have hle := lone_need_le stats hs hrun hr hn hacc hA
  have hfit : (s.put r (kv', (s.reqs r).acquired s.kv.blockSize blocks node)).fits ⟨[], s.maxPrefillTokens, 0⟩ r
      (((s.put r (kv', (s.reqs r).acquired s.kv.blockSize blocks node)).reqs r).seqLen -
        (blocks.length * s.kv.blockSize : Nat)) =
            .ok (some ((s.entered r kv' blocks node [r] stats).prefillRest r)) := by
    have h1 := @acquired_prefillNeed s r node blocks kv' [r] stats
    have h2 : (s.put r (kv', (s.reqs r).acquired s.kv.blockSize blocks node)).decodeNeed
        (s.put r (kv', (s.reqs r).acquired s.kv.blockSize blocks node)).running = .ok 0 := by
      rw [show (s.put r (kv', (s.reqs r).acquired s.kv.blockSize blocks node)).running = [] from hrun]
      rfl
    have h3 : (s.put r (kv', (s.reqs r).acquired s.kv.blockSize blocks node)).kv.numAvailable = kv'.numAvailable := rfl
    unfold fits
    rw [if_pos (.inl rfl), h1, h2, h3]
    simp only [sub_zero]
    rw [if_pos hle]
  rw [admitWaiting, ho, admitLoop] at h
  have hpos := s.maxRunning_pos
  simp only [hrun, List.length_nil, hn, ne_eq, not_true_eq_false, if_false, hacq] at h
  rw [if_neg (by omega)] at h
  simp only [hfit, hent] at h
  obtain ⟨tail, htail⟩ := admitLoop_admitted h
  exact ⟨tail, htail.symm⟩

theorem chunkAdmit_first {rest : List Rid} {c c' : Chunks} (hs : (s.pool [] older).Sound) (hrun : s.running = [])
    (ho : s.order = r :: rest) (hn : (s.reqs r).numPending = 0) (hacc : s.Accepted (s.reqs r)) (hb : 0 < c.budget)
    (h : chunkAdmit s.order s c = .ok (c', s')) : r ∈ c'.rows.map Row.rid := by
  have hr : r ∈ s.waiting := (SchedulePolicy.perm_order s.policy s.waiting).mem_iff.mp (by
    rw [show s.policy.order s.reqs s.kv s.waiting = r :: rest from ho]; exact List.mem_cons_self)
  obtain ⟨node, blocks, kv', hacq, hA⟩ := acquire_ok hs hr
  obtain ⟨stats, hent⟩ := enterPrefill_ok hs hr kv' blocks node (blocks.length * s.kv.blockSize)
  have hle := lone_need_le stats hs hrun hr hn hacc hA
  have hfit : (s.put r (kv', (s.reqs r).acquired s.kv.blockSize blocks node)).fitsChunked r = .ok true := by
    have h1 := @acquired_prefillNeed s r node blocks kv' [r] stats
    have h2 : (s.put r (kv', (s.reqs r).acquired s.kv.blockSize blocks node)).outstanding
        (s.put r (kv', (s.reqs r).acquired s.kv.blockSize blocks node)).running = .ok 0 := by
      rw [show (s.put r (kv', (s.reqs r).acquired s.kv.blockSize blocks node)).running = [] from hrun]
      rfl
    have h3 : (s.put r (kv', (s.reqs r).acquired s.kv.blockSize blocks node)).kv.numAvailable = kv'.numAvailable := rfl
    unfold fitsChunked
    rw [h1, h2, h3]
    simp only [sub_zero, hle, decide_true]
  rw [ho, chunkAdmit] at h
  have hpos := s.maxRunning_pos
  have hgo : ¬ (c.budget ≤ 0 ∨ s.running.length ≥ s.maxRunning) := by
    rw [hrun]
    simp only [List.length_nil]
    omega
  rw [if_neg hgo] at h
  simp only [hn, ne_eq, not_true_eq_false, if_false, hacq, hfit, hent] at h
  obtain ⟨tail, htail⟩ := (chunkAdmit_grows h).1
  rw [← htail]
  simp [Chunks.take]

theorem order_head (hw : s.waiting ≠ []) : ∃ r rest, s.order = r :: rest ∧ r ∈ s.waiting := by
  have hp : s.order.Perm s.waiting := SchedulePolicy.perm_order s.policy s.waiting
  cases ho : s.order with
  | nil => exact absurd (by rw [ho] at hp; exact hp.nil_eq.symm) hw
  | cons r rest => exact ⟨r, rest, rfl, hp.mem_iff.mp (by rw [ho]; exact List.mem_cons_self)⟩

theorem schedule_first (hs : (s.pool [] older).Sound) (hrun : s.running = []) (hw : s.waiting ≠ [])
    (hn : ∀ x ∈ s.waiting, (s.reqs x).numPending = 0) (hacc : ∀ x ∈ s.waiting, s.Accepted (s.reqs x)) :
    ∃ r b s', s.order.head? = some r ∧ s.schedule = (.ok (some b), s') ∧ r ∈ b.rows.map Row.rid := by
  obtain ⟨r, rest, ho, hr⟩ := order_head hw
  refine ⟨r, ?_⟩
  have hd : ∀ x ∈ s.running, (s.reqs x).state = .decode := by simp [hrun]
  unfold schedule
  split
  · have hcase := scheduleWhole_cases hs hd
    generalize s.scheduleWhole = res at hcase ⊢
    cases hcase with
    | @prefill m s1 hadm hE hm hd1 =>
      obtain ⟨tail, htail⟩ := admitWaiting_first hs hrun ho (hn r hr) (hacc r hr) hadm
      exact ⟨_, _, by rw [ho]; rfl, rfl, by simp [htail, wholeRow]⟩
    | decode hadm hE hm hC hd2 hroom hdec hle =>
      obtain ⟨tail, htail⟩ := admitWaiting_first hs hrun ho (hn r hr) (hacc r hr) hadm
      rw [htail] at hm
      simp at hm
    | @stuck m s1 s2 hE hm hC hd2 hst =>
      obtain ⟨x, hx, -⟩ := hC.stuck_iff.mp hst
      have := lead_mem hx
      rw [hE.running, hrun] at this
      simp at this
  · next hz =>
    have hcase := scheduleChunked_cases hs
    generalize s.scheduleChunked = res at hcase ⊢
    cases hcase with
    | @batch s1 s2 p c1 c2 hC hroom hle hrows hadm hG =>
      have hs1 := hC.step.sound hs
      -- Nothing runs, so nothing is preempted and every token of the step is there for chunks.
      have hsame : s1 = s := by
        have h0 : s.outstanding s.running = .ok 0 := by rw [hrun]; rfl
        have hav := available_nonneg hs
        have hgo : s.makeRoomChunked = (.ok [], s) := by
          rw [makeRoomChunked, makeRoomChunkedLoop.eq_def]
          simp [h0, hav]
        rw [hgo] at hroom
        exact (Prod.mk.inj hroom).2.symm
      subst hsame
      have hdec : s1.decodings = [] := by simp [decodings, hrun]
      rw [hrun, hdec] at hrows
      obtain rfl := Except.ok.inj hrows
      have hb : (0 : Int) < s1.chunkedPrefillSize - (([] : List Rid).map s1.decodeRow).length := by simp; omega
      rw [if_pos hb] at hadm
      have hmem := chunkAdmit_first hs1 hrun ho (hn r hr) (hacc r hr) hb hadm
      have hne : c2.rows ≠ [] := fun h0 => by simp [h0] at hmem
      rw [if_neg hne]
      exact ⟨_, _, by rw [ho]; rfl, rfl, hmem⟩
    | @stuck s1 hC hst =>
      obtain ⟨x, hx, -⟩ := hC.stuck_iff.mp hst
      have := lead_mem hx
      rw [hrun] at this
      simp at this

end First

end Scheduler

namespace Engine

variable {e : Engine} {model : Model} {c : EngineConfig} {ok : List Token → Prop}

theorem Reachable.accepted (h : Reachable model c ok e) :
    ∀ r ∈ e.requests, e.scheduler.Accepted (e.request r) :=
  h.kept (fun hsame ha hq => hq.alike hsame ha) fun _ hfit => hfit

theorem Sound.no_pending (he : e.Sound) (hi : e.inflight = none) {r : Rid}
    (hr : r ∈ e.scheduler.running ∨ r ∈ e.scheduler.waiting) : (e.request r).numPending = 0 := by
  have hd := he.pool.not_done (r := r) (by simpa [Scheduler.openPool, Scheduler.pool] using hr)
  have hp := (he.pool.pending r hd).length
  simp only [Scheduler.openPool, Scheduler.pool, entries, hi, inflightEntries, slotsOf, List.append_nil,
    List.filterMap_nil, List.length_nil] at hp
  exact hp.symm

theorem Sound.lead_of_running (he : e.Sound) (hi : e.inflight = none) (hr : e.scheduler.running ≠ []) :
    e.scheduler.lead ≠ none := by
  obtain ⟨r, rest, hrun⟩ := List.exists_cons_of_ne_nil hr
  have hm : r ∈ e.scheduler.running := by rw [hrun]; exact List.mem_cons_self
  have hact := Scheduler.pool_active he.pool (by simpa using hm : r ∈ e.scheduler.running ++ [])
  have hroom := hact.room (he.no_pending hi (.inl hm))
  have hns : ¬ (e.scheduler.reqs r).isSpent := fun h => absurd h.2 (not_le.mpr hroom)
  simp [Scheduler.lead, hrun, hns]

theorem Sound.never_stalls (he : e.Sound) (hacc : ∀ r ∈ e.requests, e.scheduler.Accepted (e.request r))
    (hi : e.inflight = none) (hu : e.scheduler.waiting ≠ [] ∨ e.scheduler.running ≠ []) :
    (∀ s, e.scheduler.schedule ≠ (.ok none, s)) ∧
      (e.scheduler.running = [] → ∃ r b s, e.scheduler.order.head? = some r ∧
        e.scheduler.schedule = (.ok (some b), s) ∧ r ∈ b.rows.map Row.rid) := by
  have hfirst : e.scheduler.running = [] → e.scheduler.waiting ≠ [] → ∃ r b s, e.scheduler.order.head? = some r ∧
      e.scheduler.schedule = (.ok (some b), s) ∧ r ∈ b.rows.map Row.rid := fun hrun hw =>
    Scheduler.schedule_first he.pool hrun hw (fun x hx => he.no_pending hi (.inr hx))
      fun x hx => hacc x (he.mem_queues.mpr (.inr hx))
  refine ⟨fun s hs => ?_, fun hrun => hfirst hrun (hu.resolve_right (not_not_intro hrun))⟩
  by_cases hrun : e.scheduler.running = []
  · obtain ⟨r, b, s', -, hs', -⟩ := hfirst hrun (hu.resolve_right (not_not_intro hrun))
    rw [hs] at hs'
    simp at hs'
  · exact he.lead_of_running hi hrun (Scheduler.schedule_none he.pool he.whole hs)

end Engine

end MiniServe
