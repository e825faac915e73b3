import MiniServe.Engine.Admission

namespace MiniServe

open KVCacheManager

namespace Scheduler

variable {s s' s0 : Scheduler} {older : List Entry} {r : Rid}

structure RowFits (s : Scheduler) (row : Row) : Prop where
  mem : row.rid ∈ s.running
  start : (s.reqs row.rid).covered = row.start
  pos : 1 ≤ row.len
  le : row.start + row.len ≤ (s.reqs row.rid).seqLen
  kind : (s.reqs row.rid).state = .prefill ∨ ((s.reqs row.rid).decodes ∧ row.len = 1)

structure BatchFits (s : Scheduler) (b : Batch) : Prop where
  nodup : (b.rows.map Row.rid).Nodup
  rows : ∀ row ∈ b.rows, s.RowFits row
  decode : ∀ row ∈ b.rows.take b.numDecode, (s.reqs row.rid).state = .decode
  prefill : ∀ row ∈ b.rows.drop b.numDecode, (s.reqs row.rid).state = .prefill
  nonempty : b.rows ≠ []
  numDecode_le : b.numDecode ≤ b.rows.length
  phase : b.phase = .decode ↔ b.numDecode = b.rows.length

structure Scheduled (s s' : Scheduler) (older : List Entry) (res : Except Error (Option Batch)) : Prop where
  step : Step s s' [] [] older
  len : s.running.length ≤ s.maxRunning → s'.running.length ≤ s'.maxRunning
  error : ∀ e, res = .error e → e = .loneRequestDoesNotFit
  stuck : res = .error .loneRequestDoesNotFit ↔ s.Stuck
  fits : ∀ b, res = .ok b → s'.costs s'.running ≤ s'.kv.numAvailable
  batch : ∀ b, res = .ok (some b) → s'.BatchFits b

theorem decodeRow_fits (hs : (s.pool [] older).Sound) (hr : r ∈ s.running) (hd : (s.reqs r).decodes) :
    s.RowFits (s.decodeRow r) := by
  have hact := pool_active hs (by simpa using hr : r ∈ s.running ++ [])
  rcases hact.phase with h | ⟨-, h, -⟩
  · rw [hd.1] at h; simp at h
  · refine ⟨hr, ?_, le_rfl, ?_, .inr ⟨hd, rfl⟩⟩
    · show (s.reqs r).covered = (s.reqs r).seqLen - 1
      omega
    · show (s.reqs r).seqLen - 1 + 1 ≤ (s.reqs r).seqLen
      omega

theorem map_decodeRow_rid (l : List Rid) : (l.map s.decodeRow).map Row.rid = l := by
  simp [decodeRow, Function.comp_def]

theorem not_stuck_of_kept (hs : (s'.pool [] older).Sound) (hk : Kept s s' s.running) (hc : Same s s')
    (hsub : s.running ⊆ s'.running) (hle : s'.costs s'.running ≤ s'.kv.numAvailable) : ¬ s.Stuck := by
  rintro ⟨r, hr, hlt⟩
  have hm := lead_mem hr
  have h1 := available_le hs (by simpa using hsub hm : r ∈ s'.running ++ [])
  have h2 : s'.cost r ≤ s'.costs s'.running := cost_le_costs hs (by simp) (hsub hm)
  rw [hk.cost hc hm] at h2
  rw [hk.ownBlocks hm, hc.numBlocks] at h1
  omega

section Whole

theorem Entered.not_stuck_iff {m : Admission} (h : Entered s0 s m older) : s.Stuck ↔ s0.Stuck := by
  have hlead : s.lead = s0.lead := by
    unfold lead
    rw [h.running]
    refine List.find?_congr fun x hx => ?_
    rw [h.kept.reqs x hx]
  unfold Stuck
  rw [hlead, h.step.same.numBlocks]
  refine exists_congr fun r => and_congr_right fun hr => ?_
  rw [h.kept.cost h.step.same (lead_mem hr), h.kept.ownBlocks (lead_mem hr)]

theorem join_step {admitted : List Rid} (s : Scheduler) :
    Step s { s with running := s.running ++ admitted } admitted [] older := by
  have e : Scheduler.pool { s with running := s.running ++ admitted } [] older = s.pool admitted older := by
    simp [pool]
  refine ⟨?_, ⟨rfl, rfl, rfl, rfl, rfl, rfl, rfl, rfl⟩, ?_, fun _ _ => rfl⟩
  · rw [e]; exact Pool.Moves.refl _
  · simp

theorem costs_join {m : Admission} (h : Entered s0 s m older) (hd : ∀ x ∈ s.running, (s.reqs x).state = .decode) :
    Scheduler.costs { s with running := s.running ++ m.admitted } (s.running ++ m.admitted) =
      (s.running.map s.decodeCost).sum + m.reserved := by
  show s.costs (s.running ++ m.admitted) = _
  rw [costs_append, h.reserved]
  unfold costs
  rw [List.map_congr_left fun x hx => cost_of_decode (hd x hx),
    List.map_congr_left fun x hx => cost_of_prefill (h.fresh x hx).1]

theorem wholeRow_fits {m : Admission} (hs : (s.pool m.admitted older).Sound) (h : Entered s0 s m older)
    (hr : r ∈ m.admitted) :
    RowFits { s with running := s.running ++ m.admitted } (s.wholeRow r) ∧
      (s.wholeRow r).start + (s.wholeRow r).len = (s.reqs r).seqLen := by
  obtain ⟨hst, hc⟩ := h.fresh r hr
  have hact := pool_active hs (List.mem_append_right _ hr)
  have hlt : (s.reqs r).covered < (s.reqs r).seqLen := by
    rcases hact.phase with h | h
    · exact h.2.1
    · rw [hst] at h; simp at h
  have hlen : (s.reqs r).covered + ((s.reqs r).seqLen - (s.reqs r).covered) = (s.reqs r).seqLen := by omega
  refine ⟨⟨List.mem_append_right _ hr, ?_, ?_, ?_, .inl hst⟩, ?_⟩
  · exact hc.symm
  · show 1 ≤ (s.reqs r).seqLen - (s.reqs r).numCachedTokens
    omega
  · show (s.reqs r).numCachedTokens + ((s.reqs r).seqLen - (s.reqs r).numCachedTokens) ≤ (s.reqs r).seqLen
    omega
  · show (s.reqs r).numCachedTokens + ((s.reqs r).seqLen - (s.reqs r).numCachedTokens) = (s.reqs r).seqLen
    omega

def Settles (s : Scheduler) (res : Except Error (Option Batch)) : Prop :=
  ∀ x ∈ s.running, (s.reqs x).state = .decode ∨
    ∃ b, res = .ok (some b) ∧ ∃ row ∈ b.rows, row.rid = x ∧ row.start + row.len = (s.reqs x).seqLen

-- What a call without chunking comes to: a batch of whole prefills, the decode batch once there is room for
-- it, or no room even for the head of the queue.
inductive WholeCase (s : Scheduler) (older : List Entry) : Except Error (Option Batch) × Scheduler → Prop
  | prefill {m : Admission} {s1 : Scheduler} (hadm : s.admitWaiting = .ok (m.admitted, s1)) (hE : Entered s s1 m older)
      (hm : m.admitted ≠ []) (hd : ∀ x ∈ s1.running, (s1.reqs x).state = .decode) :
      WholeCase s older (.ok (some ⟨.prefill, m.admitted.map s1.wholeRow, [], 0⟩),
        { s1 with running := s1.running ++ m.admitted })
  | decode {m : Admission} {s1 s2 : Scheduler} {m' : Room} (hadm : s.admitWaiting = .ok (m.admitted, s1))
      (hE : Entered s s1 m older) (hm : m.admitted = []) (hC : Cleared s1 s2 older)
      (hd : ∀ x ∈ s2.running, (s2.reqs x).state = .decode) (hroom : s1.makeRoom s1.decodings = (.ok m', s2))
      (hdec : m'.decoding = s2.decodings) (hle : s2.costs s2.running ≤ s2.kv.numAvailable) :
      WholeCase s older (if m'.decoding = [] then (.ok none, s2) else
        (.ok (some ⟨.decode, m'.decoding.map s2.decodeRow, m'.preempted, m'.decoding.length⟩), s2))
  | stuck {m : Admission} {s1 s2 : Scheduler} (hE : Entered s s1 m older) (hm : m.admitted = [])
      (hC : Cleared s1 s2 older) (hd : ∀ x ∈ s2.running, (s2.reqs x).state = .decode) (hst : s2.Stuck) :
      WholeCase s older (.error .loneRequestDoesNotFit, s2)

theorem scheduleWhole_cases (hs : (s.pool [] older).Sound) (hd : ∀ x ∈ s.running, (s.reqs x).state = .decode) :
    WholeCase s older s.scheduleWhole := by
  obtain ⟨m, s1, hadm, hE⟩ := admitWaiting_spec hs
  have hs1 := hE.step.sound hs
  have hd1 : ∀ x ∈ s1.running, (s1.reqs x).state = .decode := fun x hx => by
    have hx := hE.running ▸ hx
    rw [hE.kept.reqs x hx]
    exact hd x hx
  by_cases hnil : m.admitted = []
  · have hs1' : (s1.pool [] older).Sound := hnil ▸ hs1
    obtain ⟨s2, hC, hd2, ⟨m', hok, hdec, hle⟩ | ⟨herr, hst⟩⟩ := makeRoom_spec hs1' hd1
    · have e : s.scheduleWhole = (if m'.decoding = [] then (.ok none, s2) else
          (.ok (some ⟨.decode, m'.decoding.map s2.decodeRow, m'.preempted, m'.decoding.length⟩), s2)) := by
        unfold scheduleWhole
        rw [hadm]
        simp only [ne_eq, hnil, not_true_eq_false, if_false]
        rw [show s1.running.filter (fun r => (s1.reqs r).decodes) = s1.decodings from rfl, hok]
      rw [e]
      exact .decode hadm hE hnil hC hd2 hok hdec hle
    · have e : s.scheduleWhole = (.error .loneRequestDoesNotFit, s2) := by
        unfold scheduleWhole
        rw [hadm]
        simp only [ne_eq, hnil, not_true_eq_false, if_false]
        rw [show s1.running.filter (fun r => (s1.reqs r).decodes) = s1.decodings from rfl, herr]
      rw [e]
      exact .stuck hE hnil hC hd2 hst
  · have e : s.scheduleWhole = (.ok (some ⟨.prefill, m.admitted.map s1.wholeRow, [], 0⟩),
        { s1 with running := s1.running ++ m.admitted }) := by
      unfold scheduleWhole
      rw [hadm]
      simp [hnil]
    rw [e]
    exact .prefill hadm hE hnil hd1

theorem scheduleWhole_spec (hs : (s.pool [] older).Sound) (hd : ∀ x ∈ s.running, (s.reqs x).state = .decode) :
    Scheduled s s.scheduleWhole.2 older s.scheduleWhole.1 ∧ s.scheduleWhole.2.Settles s.scheduleWhole.1 := by
  have hcase := scheduleWhole_cases hs hd
  generalize s.scheduleWhole = res at hcase
  have hcleared : ∀ {m : Admission} {s1 s2 : Scheduler}, Entered s s1 m older → m.admitted = [] →
      Cleared s1 s2 older → Step s s2 [] [] older ∧
        (s.running.length ≤ s.maxRunning → s2.running.length ≤ s2.maxRunning) ∧ (s2.Stuck ↔ s.Stuck) := by
    intro m s1 s2 hE hnil hC
    have hstep : Step s s2 [] [] older := by
      have := hE.step
      rw [hnil] at this
      exact this.trans hC.step
    refine ⟨hstep, fun h => ?_, hC.stuck_iff.trans hE.not_stuck_iff⟩
    rw [hstep.same.maxRunning]
    exact hC.sublist.length_le.trans (hE.running ▸ h)
  cases hcase with
  | @prefill m s1 hadm hE hnil hd1 =>
    let s2 : Scheduler := { s1 with running := s1.running ++ m.admitted }
    have hs1 := hE.step.sound hs
    have hstep : Step s s2 [] [] older := hE.step.trans (join_step s1)
    have hs2 := hstep.sound hs
    have hle : s2.costs s2.running ≤ s2.kv.numAvailable := by
      rw [show s2.costs s2.running = _ from costs_join hE hd1]
      exact hE.budget hnil
    have hk : Kept s s2 s.running := ⟨hE.kept.reqs, hE.kept.nodeBlocks⟩
    have hsub : s.running ⊆ s2.running := fun x hx => List.mem_append_left _ (hE.running ▸ hx)
    have hns := not_stuck_of_kept hs2 hk hstep.same hsub hle
    have hmap : (m.admitted.map s1.wholeRow).map Row.rid = m.admitted := by simp [wholeRow, Function.comp_def]
    refine ⟨⟨hstep, fun _ => ?_, by simp, by simpa using hns, fun _ _ => hle, fun b hb => ?_⟩, fun x hx => ?_⟩
    · have := hE.len hnil
      simpa [s2] using this
    · obtain rfl : _ = b := Option.some.inj (Except.ok.inj hb)
      refine ⟨?_, fun row hrow => ?_, by simp, fun row hrow => ?_, by simpa using hnil, Nat.zero_le _,
        by simp [eq_comm, hnil]⟩
      · rw [hmap]
        have hnd := hs1.kv.nodup
        exact (List.nodup_append.mp hnd).2.1
      · obtain ⟨x, hx, rfl⟩ := List.mem_map.mp hrow
        exact (wholeRow_fits hs1 hE hx).1
      · obtain ⟨x, hx, rfl⟩ := List.mem_map.mp (List.mem_of_mem_drop hrow)
        exact (hE.fresh x hx).1
    · rcases List.mem_append.mp hx with hx | hx
      · exact .inl (hd1 x hx)
      · exact .inr ⟨_, rfl, s1.wholeRow x, List.mem_map_of_mem hx, rfl, (wholeRow_fits hs1 hE hx).2⟩
  | @decode m s1 s2 m' hadm hE hnil hC hd2 hroom hdec hle =>
    obtain ⟨hstep, hlen, hiff⟩ := hcleared hE hnil hC
    have hs2 := hstep.sound hs
    have hns := fun h => not_stuck_of_fits hs2 hle (hiff.mpr h)
    have hset : ∀ res, s2.Settles res := fun res x hx => .inl (hd2 x hx)
    by_cases hemp : m'.decoding = []
    · simp only [hemp, if_true]
      exact ⟨⟨hstep, hlen, by simp, by simpa using hns, fun _ _ => hle, by simp⟩, hset _⟩
    · simp only [hemp, if_false]
      refine ⟨⟨hstep, hlen, by simp, by simpa using hns, fun _ _ => hle, fun b hb => ?_⟩, hset _⟩
      obtain rfl : _ = b := Option.some.inj (Except.ok.inj hb)
      have hmem : ∀ row ∈ m'.decoding.map s2.decodeRow, ∃ x ∈ s2.running, (s2.reqs x).decodes ∧
          s2.decodeRow x = row := by
        intro row hrow
        obtain ⟨x, hx, rfl⟩ := List.mem_map.mp hrow
        rw [hdec, decodings, List.mem_filter, decide_eq_true_eq] at hx
        exact ⟨x, hx.1, hx.2, rfl⟩
      refine ⟨?_, fun row hrow => ?_, fun row hrow => ?_, fun row hrow => ?_, by simpa using hemp, by simp, by simp⟩
      · simp only [map_decodeRow_rid, hdec]
        exact (running_nodup hs2).filter _
      · obtain ⟨x, hx, hdx, rfl⟩ := hmem row hrow
        exact decodeRow_fits hs2 hx hdx
      · obtain ⟨x, hx, hdx, rfl⟩ := hmem row (List.mem_of_mem_take hrow)
        exact hdx.1
      · rw [List.drop_of_length_le (by simp)] at hrow
        exact absurd hrow List.not_mem_nil
  | @stuck m s1 s2 hE hnil hC hd2 hst =>
    obtain ⟨hstep, hlen, hiff⟩ := hcleared hE hnil hC
    refine ⟨⟨hstep, hlen, fun e he => (Except.error.inj he).symm, ?_, by simp, by simp⟩, fun x hx => .inl (hd2 x hx)⟩
    simpa using hiff.mp hst

end Whole

section Chunked

structure ChunksFit (s : Scheduler) (dec : List Row) (c : Chunks) : Prop where
  nodup : (c.rows.map Row.rid).Nodup
  rows : ∃ pre, c.rows = dec ++ pre ∧ ∀ row ∈ pre, s.RowFits row ∧ (s.reqs row.rid).state = .prefill

theorem ChunksFit.take {dec : List Row} {c : Chunks} (h : s.ChunksFit dec c) (hr : r ∈ s.running)
    (hst : (s.reqs r).state = .prefill) (hnew : r ∉ c.rows.map Row.rid)
    (hlt : (s.reqs r).covered < (s.reqs r).seqLen) (hb : 0 < c.budget) :
    s.ChunksFit dec (c.take r (s.reqs r).covered (s.reqs r).seqLen) := by
  obtain ⟨hnd, pre, hpre, hfit⟩ := h
  refine ⟨?_, pre ++ [⟨r, (s.reqs r).covered,
    (min (((s.reqs r).seqLen : Int) - (s.reqs r).covered) c.budget).toNat⟩], ?_, fun row hrow => ?_⟩
  · simp only [Chunks.take, List.map_append, List.map_singleton]
    simpa using List.Nodup.concat hnew hnd
  · simp [Chunks.take, hpre]
  · rcases List.mem_append.mp hrow with hrow | hrow
    · exact hfit row hrow
    · rw [List.mem_singleton.mp hrow]
      refine ⟨⟨hr, rfl, ?_, ?_, .inl hst⟩, hst⟩
      · show 1 ≤ (min (((s.reqs r).seqLen : Int) - (s.reqs r).covered) c.budget).toNat
        omega
      · show (s.reqs r).covered + (min (((s.reqs r).seqLen : Int) - (s.reqs r).covered) c.budget).toNat ≤
          (s.reqs r).seqLen
        omega

theorem chunkRunning_spec {dec : List Row} {l : List Rid} {c : Chunks} (hs : (s.pool [] older).Sound)
    (h : s.ChunksFit dec c) (hl : l ⊆ s.running) (hnd : l.Nodup)
    (hnew : ∀ x ∈ l, (s.reqs x).state = .prefill → x ∉ c.rows.map Row.rid) :
    ∃ c', s.chunkRunning l c = .ok c' ∧ s.ChunksFit dec c' := by
  induction l generalizing c with
  | nil => exact ⟨c, rfl, h⟩
  | cons r rest ih =>
    obtain ⟨hrn, hnd⟩ := List.nodup_cons.mp hnd
    have hr := hl List.mem_cons_self
    have hrest : rest ⊆ s.running := fun x hx => hl (List.mem_cons_of_mem _ hx)
    by_cases hc : (s.reqs r).state = .prefill ∧ 0 < c.budget
    · obtain ⟨hst, hb⟩ := hc
      have hr' : r ∈ s.running ++ [] := by simpa using hr
      obtain ⟨tb, htb⟩ := Option.ne_none_iff_exists'.mp (pool_held hs hr').cache
      have hcov : (s.reqs r).covered = tb.numTokens := by simp [Request.covered, htb]
      have hlt : (s.reqs r).covered < (s.reqs r).seqLen := by
        rcases (pool_active hs hr').phase with h | h
        · exact h.2.1
        · rw [hst] at h; simp at h
      have hfit := h.take hr hst (hnew r List.mem_cons_self hst) hlt hb
      obtain ⟨c', h1, h2⟩ := ih hfit hrest hnd fun x hx hx' => by
        have hne : x ≠ r := by rintro rfl; exact hrn hx
        simp only [Chunks.take, List.map_append, List.map_singleton, List.mem_append, List.mem_singleton, not_or]
        exact ⟨hnew x (List.mem_cons_of_mem _ hx) hx', hne⟩
      refine ⟨c', ?_, h2⟩
      simp only [chunkRunning, hst, hb, and_self, if_true, htb]
      rw [← hcov]
      exact h1
    · obtain ⟨c', h1, h2⟩ := ih h hrest hnd fun x hx => hnew x (List.mem_cons_of_mem _ hx)
      refine ⟨c', ?_, h2⟩
      simp only [chunkRunning, hc, if_false]
      exact h1

structure Grown (s0 s : Scheduler) (older : List Entry) (dec : List Row) (c : Chunks) : Prop where
  step : Step s0 s [] [] older
  kept : Kept s0 s s0.running
  sub : s0.running ⊆ s.running
  came : ∀ x ∈ s.running, x ∈ s0.running ∨ (s.reqs x).state = .prefill
  len : s0.running.length ≤ s0.maxRunning → s.running.length ≤ s.maxRunning
  fits : s.costs s.running ≤ s.kv.numAvailable
  rows : s.ChunksFit dec c

theorem RowFits.kept {row : Row} (h : s.RowFits row) (hk : Kept s s' s.running) (hsub : s.running ⊆ s'.running) :
    s'.RowFits row := by
  have e := hk.reqs _ h.mem
  exact ⟨hsub h.mem, by rw [e]; exact h.start, h.pos, by rw [e]; exact h.le, by rw [e]; exact h.kind⟩

theorem ChunksFit.kept {dec : List Row} {c : Chunks} (h : s.ChunksFit dec c) (hk : Kept s s' s.running)
    (hsub : s.running ⊆ s'.running) : s'.ChunksFit dec c := by
  obtain ⟨hnd, pre, hpre, hfit⟩ := h
  refine ⟨hnd, pre, hpre, fun row hrow => ?_⟩
  obtain ⟨h1, h2⟩ := hfit row hrow
  exact ⟨h1.kept hk hsub, by rw [hk.reqs _ h1.mem]; exact h2⟩

theorem Grown.refuse {dec : List Row} {c : Chunks} (h : Grown s0 s older dec c) (hstep : Step s s' [] [] older)
    (hk : Kept s s' s.running) (hrun : s'.running = s.running) (hav : s'.kv.numAvailable = s.kv.numAvailable) :
    Grown s0 s' older dec c := by
  have hsub : s.running ⊆ s'.running := by rw [hrun]; exact List.Subset.refl _
  refine ⟨h.step.trans hstep, h.kept.trans (hk.mono h.sub), hrun ▸ h.sub, fun x hx => ?_, ?_, ?_, h.rows.kept hk hsub⟩
  · rw [hrun] at hx
    rw [hk.reqs x hx]
    exact h.came x hx
  · rw [hrun, hstep.same.maxRunning]; exact h.len
  · rw [hav, hrun, hk.costs hstep.same (List.Subset.refl _)]
    exact h.fits

theorem Grown.enter {dec : List Row} {c : Chunks} {node : Option Nat} {blocks : List Int} {kv' : KVCacheManager}
    {stats : Stats} (hs : (s0.pool [] older).Sound) (h : Grown s0 s older dec c)
    (hdec : ∀ row ∈ dec, row.rid ∈ s.running)
    (hr : r ∈ s.waiting) (hn : (s.reqs r).numPending = 0)
    (hacq : Acquired s.kv kv' s.reqs (s.running ++ []) r blocks node) (hlen : s.running.length < s.maxRunning)
    (hb : 0 < c.budget)
    (hfit : s.costs s.running +
      (s.entered r kv' blocks node (s.running ++ [r]) stats).prefillRest r ≤ kv'.numAvailable) :
    Grown s0 (s.entered r kv' blocks node (s.running ++ [r]) stats) older dec
      (c.take r (blocks.length * s.kv.blockSize) (s.reqs r).seqLen) := by
  have hs' := h.step.sound hs
  have hsame : Same s (s.entered r kv' blocks node (s.running ++ [r]) stats) := entered_same hacq
  have hk : Kept s (s.entered r kv' blocks node (s.running ++ [r]) stats) s.running := by
    have := entered_kept (s.running ++ [r]) stats hs' hr hacq
    simpa using this
  have hstep : Step s (s.entered r kv' blocks node (s.running ++ [r]) stats) [] [] older :=
    entered_step hr hn hacq (by simp)
  have hsub : s.running ⊆ (s.entered r kv' blocks node (s.running ++ [r]) stats).running :=
    List.subset_append_left _ _
  refine ⟨h.step.trans hstep, h.kept.trans (hk.mono h.sub), fun x hx => hsub (h.sub hx),
    fun x hx => ?_, fun _ => ?_, ?_, ?_⟩
  · rcases List.mem_append.mp hx with hx | hx
    · rw [hk.reqs x hx]
      exact h.came x hx
    · rw [List.mem_singleton.mp hx, entered_self]
      exact .inr rfl
  · rw [hsame.maxRunning]
    simpa [entered] using hlen
  · have e : (s.entered r kv' blocks node (s.running ++ [r]) stats).running = s.running ++ [r] := rfl
    rw [e, costs_append, hk.costs hsame (List.Subset.refl _)]
    have hc : (s.entered r kv' blocks node (s.running ++ [r]) stats).costs [r] =
        (s.entered r kv' blocks node (s.running ++ [r]) stats).prefillRest r := by
      have : ((s.entered r kv' blocks node (s.running ++ [r]) stats).reqs r).state = .prefill := by rw [entered_self]
      simp [costs, cost_of_prefill this]
    rw [hc]
    exact hfit
  · have hmem : r ∈ (s.entered r kv' blocks node (s.running ++ [r]) stats).running :=
      List.mem_append_right _ (List.mem_singleton_self r)
    have hcov : ((s.entered r kv' blocks node (s.running ++ [r]) stats).reqs r).covered =
        blocks.length * s.kv.blockSize := by rw [entered_self]; rfl
    have hseq : ((s.entered r kv' blocks node (s.running ++ [r]) stats).reqs r).seqLen = (s.reqs r).seqLen := by
      rw [entered_self]; rfl
    have hnew : r ∉ c.rows.map Row.rid := by
      intro hmem'
      obtain ⟨pre, hpre, hpfit⟩ := h.rows.rows
      obtain ⟨row, hrow, rfl⟩ := List.mem_map.mp hmem'
      have hlive : row.rid ∈ s.running := by
        rw [hpre] at hrow
        rcases List.mem_append.mp hrow with hrow | hrow
        · exact hdec row hrow
        · exact (hpfit row hrow).1.mem
      exact pool_waiting hs' hr (by simpa using hlive)
    have hlt : ((s.entered r kv' blocks node (s.running ++ [r]) stats).reqs r).covered <
        ((s.entered r kv' blocks node (s.running ++ [r]) stats).reqs r).seqLen := by
      have hpos : 0 < (s.reqs r).promptIds.length := List.length_pos_iff.mpr (hs'.queued r hr).2.1
      have hbd := hacq.bound
      rw [hcov, hseq]
      simp only [Request.seqLen] at hbd ⊢
      omega
    have := (h.rows.kept hk hsub).take hmem (by rw [entered_self]) hnew hlt hb
    rw [hcov, hseq] at this
    exact this

theorem chunkAdmit_spec {dec : List Row} {l : List Rid} {c : Chunks} (hs : (s0.pool [] older).Sound)
    (hdec : ∀ row ∈ dec, row.rid ∈ s0.running) (h : Grown s0 s older dec c) (hnd : l.Nodup)
    (hl : ∀ x ∈ l, x ∈ s.waiting) :
    ∃ c' s', chunkAdmit l s c = .ok (c', s') ∧ Grown s0 s' older dec c' := by
  induction l generalizing s c with
  | nil => exact ⟨c, s, by simp [chunkAdmit], h⟩
  | cons r rest ih =>
    have hs' := h.step.sound hs
    have hr := hl r List.mem_cons_self
    obtain ⟨hrn, hnd⟩ := List.nodup_cons.mp hnd
    by_cases hfull : c.budget ≤ 0 ∨ s.running.length ≥ s.maxRunning
    · exact ⟨c, s, by simp [chunkAdmit, hfull], h⟩
    by_cases hp : (s.reqs r).numPending = 0
    · obtain ⟨node, blocks, kv', hacq, hA⟩ := acquire_ok hs' hr
      obtain ⟨stats, hent⟩ := enterPrefill_ok hs' hr kv' blocks node (blocks.length * s.kv.blockSize)
      rcases fitsChunked_cases (s.running ++ [r]) stats hs' hr hA with hfit | ⟨hfit, hle⟩
      · obtain ⟨s2, hab, hstep, hk, hrun, -, hav⟩ := abandon_ok hs' hr hA
        refine ⟨c, s2, ?_, h.refuse hstep (by simpa using hk) hrun hav⟩
        rw [chunkAdmit]
        simp only [hfull, if_false, hp, ne_eq, not_true_eq_false, hacq, hfit, hab]
      · have hG := h.enter hs (fun row hrow => h.sub (hdec row hrow)) hr hp hA (by omega) (by omega) hle
        obtain ⟨c', s', h1, h2⟩ := ih hG hnd fun x hx => by
          have hne : x ≠ r := by rintro rfl; exact hrn hx
          exact (List.mem_erase_of_ne hne).mpr (hl x (List.mem_cons_of_mem _ hx))
        refine ⟨c', s', ?_, h2⟩
        rw [chunkAdmit]
        simp only [hfull, if_false, hp, ne_eq, not_true_eq_false, hacq, hfit, hent]
        rw [entered_self]
        exact h1
    · exact ⟨c, s, by simp [chunkAdmit, hfull, hp], h⟩

theorem chunkPhase_decode {n m : Nat} : chunkPhase n m = .decode ↔ n = m := by
  unfold chunkPhase
  split
  · next h => simp [h]
  · next h => split <;> simp [h]

inductive ChunkedCase (s : Scheduler) (older : List Entry) : Except Error (Option Batch) × Scheduler → Prop
  | batch {s1 s2 : Scheduler} {p : List Rid} {c1 c2 : Chunks} (hC : Cleared s s1 older)
      (hroom : s.makeRoomChunked = (.ok p, s1)) (hle : s1.costs s1.running ≤ s1.kv.numAvailable)
      (hrun : s1.chunkRunning s1.running ⟨s1.decodings.map s1.decodeRow,
        (s1.chunkedPrefillSize : Int) - (s1.decodings.map s1.decodeRow).length⟩ = .ok c1)
      (hadm : chunkAdmit (if 0 < c1.budget then s1.order else []) s1 c1 = .ok (c2, s2))
      (hG : Grown s1 s2 older (s1.decodings.map s1.decodeRow) c2) :
      ChunkedCase s older (if c2.rows = [] then (.ok none, s2) else
        (.ok (some ⟨chunkPhase s1.decodings.length c2.rows.length, c2.rows, p, s1.decodings.length⟩), s2))
  | stuck {s1 : Scheduler} (hC : Cleared s s1 older) (hst : s1.Stuck) :
      ChunkedCase s older (.error .loneRequestDoesNotFit, s1)

theorem decodings_fit (hs : (s.pool [] older).Sound) :
    ∀ row ∈ s.decodings.map s.decodeRow, s.RowFits row ∧ (s.reqs row.rid).state = .decode := by
  intro row hrow
  obtain ⟨x, hx, rfl⟩ := List.mem_map.mp hrow
  rw [decodings, List.mem_filter, decide_eq_true_eq] at hx
  exact ⟨decodeRow_fits hs hx.1 hx.2, hx.2.1⟩

theorem scheduleChunked_cases (hs : (s.pool [] older).Sound) : ChunkedCase s older s.scheduleChunked := by
  obtain ⟨s1, hC, ⟨p, hok, hle⟩ | ⟨herr, hst⟩⟩ := makeRoomChunked_spec hs
  · have hs1 := hC.step.sound hs
    let dec := s1.decodings.map s1.decodeRow
    have hmap : dec.map Row.rid = s1.decodings := map_decodeRow_rid _
    have hfit0 : s1.ChunksFit dec ⟨dec, (s1.chunkedPrefillSize : Int) - dec.length⟩ := by
      refine ⟨?_, [], by simp, by simp⟩
      show (dec.map Row.rid).Nodup
      rw [hmap]
      exact (running_nodup hs1).filter _
    obtain ⟨c1, hrun, hfit1⟩ := chunkRunning_spec hs1 hfit0 (List.Subset.refl _) (running_nodup hs1) fun x hx hst => by
      show x ∉ dec.map Row.rid
      rw [hmap, decodings, List.mem_filter, decide_eq_true_eq]
      rintro ⟨-, h, -⟩
      rw [hst] at h
      simp at h
    have hperm : s1.order.Perm s1.waiting := SchedulePolicy.perm_order s1.policy s1.waiting
    have hw : s1.waiting.Nodup := (List.nodup_append.mp hs1.nodup).2.1
    have hG0 : Grown s1 s1 older dec c1 :=
      ⟨Step.refl _ _ _, Kept.refl _ _, List.Subset.refl _, fun _ => .inl, id, hle, hfit1⟩
    obtain ⟨c2, s2, hadm, hG⟩ := chunkAdmit_spec (l := if 0 < c1.budget then s1.order else []) hs1
      (fun row hrow => (decodings_fit hs1 row hrow).1.mem) hG0
      (by split
          · exact hperm.nodup_iff.mpr hw
          · exact List.nodup_nil)
      (by split
          · exact fun x hx => hperm.mem_iff.mp hx
          · simp)
    have e : s.scheduleChunked = (if c2.rows = [] then (.ok none, s2) else
        (.ok (some ⟨chunkPhase s1.decodings.length c2.rows.length, c2.rows, p, s1.decodings.length⟩), s2)) := by
      have hlen : (s1.decodings.map s1.decodeRow).length = s1.decodings.length := List.length_map _
      unfold scheduleChunked
      rw [hok]
      simp only
      rw [show s1.running.filter (fun r => (s1.reqs r).decodes) = s1.decodings from rfl, hrun]
      simp only [hadm, hlen]
    rw [e]
    exact .batch hC hok hle hrun hadm hG
  · have e : s.scheduleChunked = (.error .loneRequestDoesNotFit, s1) := by
      unfold scheduleChunked
      rw [herr]
    rw [e]
    exact .stuck hC hst

theorem scheduleChunked_spec (hs : (s.pool [] older).Sound) :
    Scheduled s s.scheduleChunked.2 older s.scheduleChunked.1 := by
  have hcase := scheduleChunked_cases hs
  generalize s.scheduleChunked = res at hcase
  cases hcase with
  | @batch s1 s2 p c1 c2 hC hroom hle hrun hadm hG =>
    have hs1 := hC.step.sound hs
    have hdec := decodings_fit hs1
    have hstep := hC.step.trans hG.step
    have hs2 := hstep.sound hs
    have hlen : s.running.length ≤ s.maxRunning → s2.running.length ≤ s2.maxRunning := fun h => by
      refine hG.len ?_
      rw [hC.step.same.maxRunning]
      exact hC.sublist.length_le.trans h
    have hns : ¬ s.Stuck := fun h => not_stuck_of_fits hs1 hle (hC.stuck_iff.mpr h)
    have hnum : s1.decodings.length = (s1.decodings.map s1.decodeRow).length := (List.length_map _).symm
    by_cases hemp : c2.rows = []
    · simp only [hemp, if_true]
      exact ⟨hstep, hlen, by simp, by simpa using hns, fun _ _ => hG.fits, by simp⟩
    · simp only [hemp, if_false]
      refine ⟨hstep, hlen, by simp, by simpa using hns, fun _ _ => hG.fits, fun b hb => ?_⟩
      obtain rfl : _ = b := Option.some.inj (Except.ok.inj hb)
      obtain ⟨pre, hpre, hpfit⟩ := hG.rows.rows
      refine ⟨hG.rows.nodup, fun row hrow => ?_, fun row hrow => ?_, fun row hrow => ?_, hemp, by simp [hpre],
        chunkPhase_decode⟩
      · simp only [hpre] at hrow
        rcases List.mem_append.mp hrow with hrow | hrow
        · exact (hdec row hrow).1.kept hG.kept hG.sub
        · exact (hpfit row hrow).1
      · simp only [hpre, hnum, List.take_left] at hrow
        rw [hG.kept.reqs _ (hdec row hrow).1.mem]
        exact (hdec row hrow).2
      · simp only [hpre, hnum, List.drop_left] at hrow
        exact (hpfit row hrow).2
  | @stuck s1 hC hst =>
    have hlen : s.running.length ≤ s.maxRunning → s1.running.length ≤ s1.maxRunning := fun h => by
      rw [hC.step.same.maxRunning]
      exact hC.sublist.length_le.trans h
    refine ⟨hC.step, hlen, fun e he => (Except.error.inj he).symm, ?_, by simp, by simp⟩
    simpa using hC.stuck_iff.mp hst

end Chunked

theorem schedule_spec (hs : (s.pool [] older).Sound)
    (hd : s.chunkedPrefillSize = 0 → ∀ x ∈ s.running, (s.reqs x).state = .decode) :
    Scheduled s s.schedule.2 older s.schedule.1 ∧ (s.chunkedPrefillSize = 0 → s.schedule.2.Settles s.schedule.1) := by
  unfold schedule
  split
  · next h =>
    obtain ⟨h1, h2⟩ := scheduleWhole_spec hs (hd h)
    exact ⟨h1, fun _ => h2⟩
  · next h => exact ⟨scheduleChunked_spec hs, fun h' => absurd h' h⟩

end Scheduler

end MiniServe
