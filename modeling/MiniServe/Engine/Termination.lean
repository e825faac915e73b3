import MiniServe.Engine.Progress
import MiniServe.Lib.Loop

namespace MiniServe

open KVCacheManager

def Request.tokensLeft (q : Request) : Nat := q.params.maxNewTokens - q.outputIds.length + 1

theorem Request.isSpent_iff {q : Request} : q.isSpent ↔ q.state = .decode ∧ q.tokensLeft = 1 := by
  simp only [isSpent, reachedMaxTokens, tokensLeft]
  refine and_congr_right fun _ => ?_
  omega

theorem Request.tokensLeft_le {q q' : Request} (h : Pool.Alike q q') (hle : q.outputIds.length ≤ q'.outputIds.length) :
    q'.tokensLeft ≤ q.tokensLeft := by
  simp only [tokensLeft, h.2.1]
  omega

namespace Pool

variable {p p' : Pool} {sample : Option (Rid → Token)} {r : Rid}

-- A request that has not ended keeps every token it was given: a preemption throws KV away, not output.
theorem Move.output_grows (h : Move sample p p') (hs : p.Sound) (hr : (p.reqs r).promptIds ≠ [])
    (hd : ¬ (p'.reqs r).isDone) :
    ¬ (p.reqs r).isDone ∧ (p.reqs r).outputIds.length ≤ (p'.reqs r).outputIds.length ∧
      (sample = none → (p'.reqs r).outputIds.length = (p.reqs r).outputIds.length) := by
  have hput : ∀ (x : Rid) (q : Request), ¬ (p.reqs x).isDone → (p.reqs x).outputIds.length ≤ q.outputIds.length →
      (sample = none → q.outputIds.length = (p.reqs x).outputIds.length) →
      ¬ (Function.update p.reqs x q r).isDone →
      ¬ (p.reqs r).isDone ∧ (p.reqs r).outputIds.length ≤ (Function.update p.reqs x q r).outputIds.length ∧
        (sample = none → (Function.update p.reqs x q r).outputIds.length = (p.reqs r).outputIds.length) := by
    intro x q hx hq hq' hd
    by_cases e : r = x
    · subst e; rw [Function.update_self]; exact ⟨hx, hq, hq'⟩
    · rw [Function.update_of_ne e] at hd ⊢; exact ⟨hd, le_rfl, fun _ => rfl⟩
  have hgone : ∀ (x : Rid) (q : Request), q.isDone → ¬ (Function.update p.reqs x q r).isDone →
      ¬ (p.reqs r).isDone ∧ (p.reqs r).outputIds.length ≤ (Function.update p.reqs x q r).outputIds.length ∧
        (sample = none → (Function.update p.reqs x q r).outputIds.length = (p.reqs r).outputIds.length) := by
    intro x q hq hd
    by_cases e : r = x
    · subst e; rw [Function.update_self] at hd; exact absurd hq hd
    · rw [Function.update_of_ne e] at hd ⊢; exact ⟨hd, le_rfl, fun _ => rfl⟩
  cases h with
  | @submit x q hb hx hq =>
    have hne : r ≠ x := by
      rintro rfl
      exact hr (by rw [hb]; rfl)
    have e : Function.update p.reqs x q r = p.reqs r := Function.update_of_ne hne _ _
    simp only [put] at hd ⊢
    rw [e] at hd ⊢
    exact ⟨hd, le_rfl, fun _ => rfl⟩
  | lookup hr h1 h2 => exact hput _ _ (hs.not_done (.inr hr)) le_rfl (fun _ => rfl) hd
  | enter hr hn h => exact hput _ _ (hs.not_done (.inr hr)) le_rfl (fun _ => rfl) hd
  | preempt hr ho hn h => exact hput _ _ (hs.not_done (.inl hr)) le_rfl (fun _ => rfl) hd
  | evict h => exact ⟨hd, le_rfl, fun _ => rfl⟩
  | extend hf hr ho hn hc hstart hpos hroom hpre h =>
    exact hput _ _ (hs.not_done (.inl hr)) le_rfl (fun _ => rfl) hd
  | chunk hf ho hpre hlt htok h =>
    exact hput _ _ (hs.not_done (.inl (hs.head_row ho).1)) le_rfl (fun _ => rfl) hd
  | first hf ho hpre heq htok h =>
    exact hput _ _ (hs.not_done (.inl (hs.head_row ho).1)) (by simp [Request.sampled]) (by simp [hf]) hd
  | again hf ho hdec hlen htok =>
    exact hput _ _ (hs.not_done (.inl (hs.head_row ho).1)) (by simp [Request.sampled]) (by simp [hf]) hd
  | skip ho h => exact ⟨hd, le_rfl, fun _ => rfl⟩
  | fill ho hop hnd hr hk hst => exact hput _ _ hnd (by simp [Request.filled]) (by simp [Request.filled]) hd
  | finish ho hop hnd hr hk h => exact hgone _ _ (.inl rfl) hd
  | abort hop hr h => exact hgone _ _ (.inr rfl) hd
  | turn ho hop => exact ⟨hd, le_rfl, fun _ => rfl⟩

theorem Moves.output_grows (h : Moves sample p p') (hs : p.Sound) (hr : (p.reqs r).promptIds ≠ [])
    (hd : ¬ (p'.reqs r).isDone) :
    ¬ (p.reqs r).isDone ∧ (p.reqs r).outputIds.length ≤ (p'.reqs r).outputIds.length ∧
      (sample = none → (p'.reqs r).outputIds.length = (p.reqs r).outputIds.length) := by
  induction h with
  | refl => exact ⟨hd, le_rfl, fun _ => rfl⟩
  | @tail p1 p2 h1 hm ih =>
    obtain ⟨hd1, hle, heq⟩ := hm.output_grows (Moves.sound h1 hs) ((Moves.alike h1 hr).ne_nil hr) hd
    obtain ⟨hd0, hle0, heq0⟩ := ih hd1
    exact ⟨hd0, hle0.trans hle, fun hn => (heq hn).trans (heq0 hn)⟩

theorem Moves.tokensLeft_le (h : Moves sample p p') (hs : p.Sound) (hr : (p.reqs r).promptIds ≠ [])
    (hd : ¬ (p'.reqs r).isDone) : (p'.reqs r).tokensLeft ≤ (p.reqs r).tokensLeft :=
  Request.tokensLeft_le (h.alike hr) (h.output_grows hs hr hd).2.1

theorem Moves.tokensLeft_eq (h : Moves none p p') (hs : p.Sound) (hr : (p.reqs r).promptIds ≠ [])
    (hd : ¬ (p'.reqs r).isDone) : (p'.reqs r).tokensLeft = (p.reqs r).tokensLeft := by
  simp only [Request.tokensLeft, (h.alike hr).2.1, (h.output_grows hs hr hd).2.2 rfl]

end Pool

namespace Scheduler

variable {s s' : Scheduler} {older : List Entry} {b : Batch} {r : Rid}

theorem lead_grows (hrun : s.running <+: s'.running) (hreq : ∀ x ∈ s.running, s'.reqs x = s.reqs x)
    (hl : s.lead = some r) : s'.lead = some r := by
  obtain ⟨rest, hrest⟩ := hrun
  unfold lead at hl ⊢
  have hsame : s.running.find? (fun r => ¬ (s'.reqs r).isSpent) = s.running.find? (fun r => ¬ (s.reqs r).isSpent) :=
    List.find?_congr fun x hx => by rw [hreq x hx]
  rw [← hrest, List.find?_append, hsame, hl]
  rfl

theorem decodeRow_complete (hs : (s.pool [] older).Sound) (hr : r ∈ s.running) :
    (s.decodeRow r).start + (s.decodeRow r).len = (s.reqs r).seqLen := by
  have hp := (pool_active hs (by simpa using hr : r ∈ s.running ++ [])).prompt
  have hpos : 0 < (s.reqs r).promptIds.length := List.length_pos_iff.mpr hp
  simp only [decodeRow, Request.seqLen]
  omega

-- A batch without a completing row is all chunks, and the first of them is the head of the queue's.
theorem schedule_lead (hs : (s.pool [] older).Sound) (hz : s.chunkedPrefillSize ≠ 0)
    (h : s.schedule = (.ok (some b), s')) (hinc : ∀ row ∈ b.rows, row.start + row.len ≠ (s'.reqs row.rid).seqLen)
    (hl : s.lead = some r) : s'.lead = some r ∧ s'.reqs r = s.reqs r ∧ r ∈ b.rows.map Row.rid := by
  rw [schedule, if_neg hz] at h
  have hcase := scheduleChunked_cases hs
  rw [h] at hcase
  generalize hres : ((.ok (some b), s') : Except Error (Option Batch) × Scheduler) = res at hcase
  cases hcase with
  | @batch s1 s2 p c1 c2 hC hroom hle hrun hadm hG =>
    by_cases hemp : c2.rows = []
    · rw [if_pos hemp] at hres
      simp at hres
    rw [if_neg hemp] at hres
    obtain ⟨hb, rfl⟩ := Prod.mk.inj hres
    obtain rfl := Option.some.inj (Except.ok.inj hb)
    have hs1 := hC.step.sound hs
    have hl1 : s1.lead = some r := hC.lead.trans hl
    have hz1 : s1.chunkedPrefillSize ≠ 0 := by rw [hC.step.same.chunkedPrefillSize]; exact hz
    have hreq : s'.reqs r = s.reqs r := by
      rw [hG.kept.reqs r (lead_mem hl1), hC.kept.reqs r (lead_mem hl1)]
    refine ⟨lead_grows (chunkAdmit_grows hadm).2 hG.kept.reqs hl1, hreq, ?_⟩
    rcases ChunkedCase.lead_row hs1 hz1 hrun hadm hl1 with hdec | ⟨-, hmem⟩
    · obtain ⟨x, rest, hx⟩ := List.exists_cons_of_ne_nil hdec
      have hxd : x ∈ s1.decodings := by rw [hx]; exact List.mem_cons_self
      have hxr : x ∈ s1.running := (List.mem_filter.mp hxd).1
      obtain ⟨pre, hpre, -⟩ := hG.rows.rows
      have hrow : s1.decodeRow x ∈ c2.rows := by
        rw [hpre]
        exact List.mem_append_left _ (List.mem_map_of_mem hxd)
      refine absurd ?_ (hinc _ hrow)
      rw [show (s1.decodeRow x).rid = x from rfl, hG.kept.reqs x hxr]
      exact decodeRow_complete hs1 hxr
    · exact hmem
  | stuck hC hst => simp at hres

end Scheduler

namespace Engine

variable {e e' e2 : Engine} {model : Model} {s s1 s2 : Scheduler} {b : Batch} {ids : List Token}
  {slots : List (Option Nat)} {r : Rid}

def work (e : Engine) : Nat := ∑ r ∈ e.requests.toFinset, (e.request r).tokensLeft

-- What is left of the prefill of the first running request with work left; it is never preempted.
def leadRest (e : Engine) : WithTop Nat :=
  match e.scheduler.lead with
  | none => ⊤
  | some r => (((e.request r).seqLen - (e.request r).covered : Nat) : WithTop Nat)

def effort (e : Engine) : Nat ×ₗ WithTop Nat ×ₗ Nat :=
  toLex (e.work, toLex (e.leadRest, if e.inflight = none then 0 else 1))

theorem Sound.request_not_done (he : e.Sound) (hr : r ∈ e.requests) : ¬ (e.request r).isDone :=
  he.pool.not_done (by simpa [Scheduler.openPool, Scheduler.pool] using he.mem_queues.mp hr)

theorem Stepped.tokensLeft_le (h : Stepped model e e') (he : e.Sound) (hr : (e.request r).promptIds ≠ [])
    (hd : ¬ (e'.request r).isDone) : (e'.request r).tokensLeft ≤ (e.request r).tokensLeft := by
  cases h with
  | idle hsch hm => exact hm.tokensLeft_le he.pool hr hd
  | launch hsch hb hids hs hL hp =>
    have h1 := hs.trans hL.opens
    have hs1 := h1.sound he.pool
    have hr1 := (h1.alike hr).ne_nil hr
    have hr2 := (hL.settles.alike hr1).ne_nil hr1
    have hs2 := hL.settles.sound hs1
    have hd2 := (hp.output_grows hs2 hr2 hd).1
    have hd1 := (hL.settles.output_grows hs1 hr1 hd2).1
    exact ((hp.tokensLeft_le hs2 hr2 hd).trans (hL.settles.tokensLeft_le hs1 hr1 hd2)).trans
      (h1.tokensLeft_le he.pool hr hd1)

theorem Stepped.work_lt_or (h : Stepped model e e') (ha : Advanced e e') (he : e.Sound) (he' : e'.Sound) :
    e'.work < e.work ∨ e'.requests.toFinset = e.requests.toFinset ∧
      ∀ x ∈ e.requests, (e'.request x).tokensLeft = (e.request x).tokensLeft := by
  have hsub : e'.requests.toFinset ⊆ e.requests.toFinset := fun x hx => by
    rw [List.mem_toFinset] at hx ⊢
    exact ha.requests x hx
  have hle : ∀ x ∈ e'.requests.toFinset, (e'.request x).tokensLeft ≤ (e.request x).tokensLeft := by
    intro x hx
    rw [List.mem_toFinset] at hx
    exact h.tokensLeft_le he (he.promptIds_ne (ha.requests x hx)) (he'.request_not_done hx)
  rcases Loop.sum_lt_or_same hsub hle fun x _ => Nat.succ_pos _ with hlt | ⟨heq, hsame⟩
  · exact .inl hlt
  · exact .inr ⟨heq, fun x hx => hsame x (List.mem_toFinset.mpr hx)⟩

theorem launched_gain {row : Row} (hs : (s.pool [] e.entries).Sound) (hb : s.BatchFits b)
    (hL : Launches model { e with scheduler := s, launched := some b } b ids e.entries s1 s2 slots)
    (hp : Pool.Moves none (s2.openPool [] e.entries
      (entriesOf (sampleOf model s1 (wrote e s1 b e.entries ids)) b.rows slots)) e'.pool)
    (hrow : row ∈ b.rows) (hc : row.start + row.len = (s.reqs row.rid).seqLen) (hd : ¬ (e'.request row.rid).isDone) :
    (e'.request row.rid).tokensLeft < (s.reqs row.rid).tokensLeft := by
  have hopen := (hb.rows row hrow).opens hs
  have hmem : row.rid ∈ s.running ++ [] := by simpa using hopen.mem
  have hr : (s.reqs row.rid).promptIds ≠ [] := (Scheduler.pool_active hs hmem).prompt
  have hs2 := hL.settles.sound (hL.opens.sound hs)
  have h1 : Pool.Alike (s.reqs row.rid) (s1.reqs row.rid) := hL.opens.alike hr
  have h2 : Pool.Alike (s1.reqs row.rid) (s2.reqs row.rid) := hL.settles.alike (h1.ne_nil hr)
  have hlast : (e'.request row.rid).tokensLeft ≤ (s2.reqs row.rid).tokensLeft :=
    hp.tokensLeft_le hs2 ((h1.trans h2).ne_nil hr) hd
  have hgain := ((hL.rows row hrow).complete hc).2
  have hroom := hopen.room
  simp only at hgain
  refine lt_of_le_of_lt hlast ?_
  simp only [Request.tokensLeft, (h1.trans h2).2.1, hgain]
  omega

theorem running_same (he : e.Sound) (he' : e'.Sound)
    (hperm : (e2.scheduler.running ++ e2.scheduler.waiting).Perm (e.scheduler.running ++ e.scheduler.waiting))
    (hk : ReadBack e2 e') (heq : e'.requests.toFinset = e.requests.toFinset) :
    e'.scheduler.running = e2.scheduler.running := by
  have hnd := he.requests.nodup_iff.mpr he.queues_nodup
  have hnd' := he'.requests.nodup_iff.mpr he'.queues_nodup
  have hreq : e'.requests.Perm e.requests := (List.perm_ext_iff_of_nodup hnd' hnd).mpr fun x => by
    rw [← List.mem_toFinset, heq, List.mem_toFinset]
  have hlen := ((he'.requests.symm.trans hreq).trans (he.requests.trans hperm.symm)).length_eq
  simp only [List.length_append] at hlen
  have h1 := hk.running.length_le
  have h2 := hk.waiting.length_le
  exact hk.running.eq_of_length (by omega)

section Chunks

variable (he : e.Sound) (he' : e'.Sound) (hsch : e.scheduler.schedule = (.ok (some b), s))
  (hL : Launches model { e with scheduler := s, launched := some b } b ids e.entries s1 s2 slots)
  (hp : Pool.Moves none (s2.openPool [] e.entries
    (entriesOf (sampleOf model s1 (wrote e s1 b e.entries ids)) b.rows slots)) e'.pool)
  (hk : ReadBack e2 e') (he2 : e2.scheduler = s2) (heq : e'.requests.toFinset = e.requests.toFinset)
  (hsame : ∀ x ∈ e.requests, (e'.request x).tokensLeft = (e.request x).tokensLeft)
include he he' hsch hL hp heq hsame

theorem scheduled_left (hr : r ∈ e.requests) : (s.reqs r).tokensLeft = (e'.request r).tokensLeft ∧
    Pool.Alike (s.reqs r) (e'.request r) ∧ (s.reqs r).outputIds.length ≤ (e'.request r).outputIds.length := by
  obtain ⟨hS, -⟩ := he.schedule_eq hsch
  have hs := hS.step.sound he.pool
  have hr' : r ∈ e'.requests := by rw [← List.mem_toFinset, heq, List.mem_toFinset]; exact hr
  have hd := he'.request_not_done hr'
  have hne := he.promptIds_ne hr
  have h0 : Pool.Alike (e.request r) (s.reqs r) := hS.step.moves.alike hne
  have h1 : Pool.Alike (s.reqs r) (s1.reqs r) := hL.opens.alike (h0.ne_nil hne)
  have h2 : Pool.Alike (s1.reqs r) (s2.reqs r) := hL.settles.alike ((h0.trans h1).ne_nil hne)
  have hne2 := ((h0.trans h1).trans h2).ne_nil hne
  have h3 : Pool.Alike (s2.reqs r) (e'.request r) := hp.alike hne2
  have hs2 := hL.settles.sound (hL.opens.sound hs)
  obtain ⟨hd2, hg3, -⟩ := hp.output_grows hs2 hne2 hd
  obtain ⟨hd1, hg2, -⟩ := hL.settles.output_grows (hL.opens.sound hs) ((h0.trans h1).ne_nil hne) hd2
  obtain ⟨hd0, hg1, -⟩ := hL.opens.output_grows hs (h0.ne_nil hne) hd1
  have hle : (e'.request r).tokensLeft ≤ (s.reqs r).tokensLeft :=
    Request.tokensLeft_le ((h1.trans h2).trans h3) ((hg1.trans hg2).trans hg3)
  have hge : (s.reqs r).tokensLeft ≤ (e.request r).tokensLeft := hS.step.moves.tokensLeft_le he.pool hne hd0
  refine ⟨?_, (h1.trans h2).trans h3, (hg1.trans hg2).trans hg3⟩
  have := hsame r hr
  omega

theorem no_row_completes : ∀ row ∈ b.rows, row.start + row.len < (s.reqs row.rid).seqLen := by
  intro row hrow
  obtain ⟨hS, -⟩ := he.schedule_eq hsch
  have hb := hS.batch b rfl
  have hr : row.rid ∈ e.requests :=
    (he.toCore.scheduled hS).requests.mem_iff.mpr (List.mem_append_left _ (hb.rows row hrow).mem)
  have hr' : row.rid ∈ e'.requests := by rw [← List.mem_toFinset, heq, List.mem_toFinset]; exact hr
  refine lt_of_le_of_ne (hb.rows row hrow).le fun hc => ?_
  have hlt := launched_gain (hS.step.sound he.pool) hb hL hp hrow hc (he'.request_not_done hr')
  have := (scheduled_left he he' hsch hL hp heq hsame hr).1
  omega

theorem chunked_of_same : e.scheduler.chunkedPrefillSize ≠ 0 := by
  intro hz
  have hinc := no_row_completes he he' hsch hL hp heq hsame
  obtain ⟨hS, hset⟩ := he.schedule_eq hsch
  have hb := hS.batch b rfl
  obtain ⟨row, rest, hrows⟩ := List.exists_cons_of_ne_nil hb.nonempty
  have hrow : row ∈ b.rows := by rw [hrows]; exact List.mem_cons_self
  rcases hset hz _ (hb.rows row hrow).mem with hst | ⟨b', hb', row', hrow', hrid, hc⟩
  · have := decode_row_complete (hS.step.sound he.pool) hb hrow hst
    have := hinc row hrow
    omega
  · obtain rfl := Option.some.inj (Except.ok.inj hb')
    have := hinc row' hrow'
    rw [hrid] at this
    omega

include hk he2 in
theorem chunk_states {x : Rid} (hx : x ∈ s.running) :
    e'.scheduler.running = s.running ∧ (e'.request x).state = (s.reqs x).state := by
  have hinc := no_row_completes he he' hsch hL hp heq hsame
  obtain ⟨hS, -⟩ := he.schedule_eq hsch
  have hrun : e2.scheduler.running = s.running := by
    rw [he2, hL.settled.running, hL.reserved.running]
  have hwait : e2.scheduler.waiting = s.waiting := by
    rw [he2, hL.settled.waiting, hL.reserved.waiting]
  have hperm : (e2.scheduler.running ++ e2.scheduler.waiting).Perm (e.scheduler.running ++ e.scheduler.waiting) := by
    rw [hrun, hwait]
    simpa using hS.step.perm
  have hrun' := (running_same he he' hperm hk heq).trans hrun
  refine ⟨hrun', ?_⟩
  rw [show (e'.request x).state = _ from hk.state x (by rw [hrun']; exact hx), he2]
  by_cases hmem : x ∈ b.rows.map Row.rid
  · obtain ⟨row, hrow, rfl⟩ := List.mem_map.mp hmem
    exact (hL.rows row hrow).chunk (hinc row hrow)
  · rw [hL.settled.other x hmem, hL.reserved.other x hmem]

include hk he2 in
theorem chunk_lead : e'.scheduler.lead = s.lead := by
  obtain ⟨hS, -⟩ := he.schedule_eq hsch
  have hmem : ∀ x ∈ s.running, x ∈ e.requests := fun x hx =>
    (he.toCore.scheduled hS).requests.mem_iff.mpr (List.mem_append_left _ hx)
  obtain ⟨row, rest, hrows⟩ := List.exists_cons_of_ne_nil (hS.batch b rfl).nonempty
  have hrow : row ∈ b.rows := by rw [hrows]; exact List.mem_cons_self
  have hrun := (chunk_states he he' hsch hL hp hk he2 heq hsame ((hS.batch b rfl).rows row hrow).mem).1
  unfold Scheduler.lead
  rw [hrun]
  refine List.find?_congr fun x hx => ?_
  have hst := (chunk_states he he' hsch hL hp hk he2 heq hsame hx).2
  have hleft := (scheduled_left he he' hsch hL hp heq hsame (hmem x hx)).1
  have hiff : (e'.scheduler.reqs x).isSpent ↔ (s.reqs x).isSpent := by
    rw [Request.isSpent_iff, Request.isSpent_iff, hleft, ← hst]
    rfl
  simp only [hiff]

include hk he2 in
theorem chunk_advances : e'.leadRest < e.leadRest := by
  have hinc := no_row_completes he he' hsch hL hp heq hsame
  have hz := chunked_of_same he he' hsch hL hp heq hsame
  have hlead := chunk_lead he he' hsch hL hp hk he2 heq hsame
  obtain ⟨hS, -⟩ := he.schedule_eq hsch
  have hb := hS.batch b rfl
  have hs := hS.step.sound he.pool
  cases hl : e.scheduler.lead with
  | none =>
    -- Nothing ran with work left: the batch has admitted a request, and it has not finished its prefill.
    obtain ⟨row, rest, hrows⟩ := List.exists_cons_of_ne_nil hb.nonempty
    have hrow : row ∈ b.rows := by rw [hrows]; exact List.mem_cons_self
    have hns : ¬ (s.reqs row.rid).isSpent := by
      rintro ⟨hst, -⟩
      have := decode_row_complete hs hb hrow hst
      have := hinc row hrow
      omega
    have hsome : s.lead ≠ none := by
      intro h0
      have := List.find?_eq_none.mp h0 row.rid (hb.rows row hrow).mem
      simp [hns] at this
    obtain ⟨x, hx⟩ := Option.ne_none_iff_exists'.mp hsome
    simp only [leadRest, hl, hlead, hx]
    exact WithTop.coe_lt_top _
  | some r =>
    obtain ⟨hsl, hreq, hmem⟩ := Scheduler.schedule_lead he.pool hz hsch (fun row hrow => (hinc row hrow).ne) hl
    obtain ⟨row, hrow, rfl⟩ := List.mem_map.mp hmem
    have hfit := hb.rows row hrow
    have hrun := (chunk_states he he' hsch hL hp hk he2 heq hsame hfit.mem).1
    have hr : row.rid ∈ e.requests :=
      (he.toCore.scheduled hS).requests.mem_iff.mpr (List.mem_append_left _ hfit.mem)
    have hcov : (e'.request row.rid).covered = row.start + row.len := by
      have h1 := ((hL.opens.sound hs).opened row hrow).2.covered
      have h2 := hk.cache row.rid (by rw [hrun]; exact hfit.mem)
      rw [he2, hL.settled.cache] at h2
      rw [← h1]
      unfold Request.covered
      rw [show (e'.request row.rid).cache = _ from h2]
      rfl
    have hseq : (e'.request row.rid).seqLen = (s.reqs row.rid).seqLen := by
      obtain ⟨hleft, halike, hle⟩ := scheduled_left he he' hsch hL hp heq hsame hr
      have hroom := (hfit.opens hs).room
      simp only [Request.tokensLeft, halike.2.1] at hleft
      simp only [Request.seqLen, halike.1]
      omega
    have hstart := hfit.start
    have hpos := hfit.pos
    have hlt := hinc row hrow
    simp only [leadRest, hl, hlead, hsl, hcov, hseq]
    rw [show e.request row.rid = s.reqs row.rid from hreq.symm, hstart]
    refine Nat.cast_lt.mpr ?_
    omega

end Chunks

theorem Stepped.effort_lt (h : Stepped model e e') (ha : Advanced e e') (he : e.Sound) (he' : e'.Sound)
    (hacc : ∀ r ∈ e.requests, e.scheduler.Accepted (e.request r)) (hu : e.hasUnfinished) : e'.effort < e.effort := by
  rcases h.work_lt_or ha he he' with hlt | ⟨heq, hsame⟩
  · exact Prod.Lex.toLex_lt_toLex.mpr (.inl hlt)
  have hwork : e'.work = e.work := by
    unfold work
    rw [heq]
    exact Finset.sum_congr rfl fun x hx => hsame x (List.mem_toFinset.mp hx)
  refine Prod.Lex.toLex_lt_toLex.mpr (.inr ⟨hwork, ?_⟩)
  cases h with
  | @idle s e1 hsch hm hd he1 hk hi =>
    have hlead : e.scheduler.lead = none := Scheduler.schedule_none he.pool he.whole hsch
    have hfly : e.inflight ≠ none := by
      intro h0
      refine (he.never_stalls hacc h0 ?_).1 s hsch
      exact (hu.resolve_right (not_not_intro h0))
    have htop : e.leadRest = ⊤ := by simp [leadRest, hlead]
    rcases lt_or_eq_of_le (le_top (a := e'.leadRest)) with hlt | hfull
    · exact Prod.Lex.toLex_lt_toLex.mpr (.inl (by rw [htop]; exact hlt))
    · exact Prod.Lex.toLex_lt_toLex.mpr (.inr ⟨hfull.trans htop.symm, by simp [hi, hfly]⟩)
  | launch hsch hb hids hs hL hp hd he2 hk =>
    exact Prod.Lex.toLex_lt_toLex.mpr (.inl (chunk_advances he he' hsch hL hp hk he2 heq hsame))

def Pursued (l : List Rid) (e : Engine) : Prop := ∀ r ∈ l, r ∈ e.requests ∨ (e.request r).state = .finished

theorem Stepped.before_read (h : Stepped model e e') (he : e.Sound) : ∃ e2, ReadBack e2 e' ∧
    (∀ r ∈ e.requests, ¬ (e2.scheduler.reqs r).isDone) ∧
      ∀ r, r ∉ e.requests → e2.scheduler.reqs r = e.scheduler.reqs r := by
  cases h with
  | @idle s e1 hsch hm hd he1 hk hi =>
    obtain ⟨hS, -⟩ := he.schedule_eq hsch
    have hcore := he.toCore.scheduled hS
    refine ⟨e1, hk, fun r hr => ?_, fun r hr => ?_⟩
    · rw [he1]
      refine hcore.pool.not_done ?_
      simpa [Scheduler.openPool, Scheduler.pool] using hcore.requests.mem_iff.mp hr
    · rw [he1]
      exact hS.step.other r (by simpa using fun h => hr (he.requests.mem_iff.mpr h))
  | @launch s s1 s2 b ids slots e2 hsch hb hids hs hL hp hd he2 hk =>
    obtain ⟨hS, -⟩ := he.schedule_eq hsch
    have hcore := he.toCore.scheduled hS
    have hs2 := hL.settles.sound (hL.opens.sound hcore.pool)
    refine ⟨e2, hk, fun r hr => ?_, fun r hr => ?_⟩
    · rw [he2]
      refine hs2.not_done ?_
      have hq : r ∈ s.running ∨ r ∈ s.waiting := List.mem_append.mp (hcore.requests.mem_iff.mp hr)
      rw [← hL.reserved.running, ← hL.reserved.waiting, ← hL.settled.running, ← hL.settled.waiting] at hq
      simpa [Scheduler.openPool, Scheduler.pool] using hq
    · have hrow : r ∉ b.rows.map Row.rid := by
        intro hmem
        obtain ⟨row, hrow, rfl⟩ := List.mem_map.mp hmem
        exact hr (hcore.requests.mem_iff.mpr (List.mem_append_left _ (hb.rows row hrow).mem))
      rw [he2, hL.settled.other r hrow, hL.reserved.other r hrow]
      exact hS.step.other r (by simpa using fun h => hr (he.requests.mem_iff.mpr h))

theorem Stepped.pursued {l : List Rid} (h : Stepped model e e') (he : e.Sound) (he' : e'.Sound) (hl : Pursued l e) :
    Pursued l e' := by
  obtain ⟨e2, hk, hopen, hother⟩ := h.before_read he
  intro r hr
  by_cases hin : r ∈ e.requests
  · by_cases hin' : r ∈ e'.requests
    · exact .inl hin'
    · right
      have hq : r ∉ e'.pool.live ++ e'.pool.waiting := by
        have := fun h => hin' (he'.requests.mem_iff.mpr h)
        simpa [Engine.pool, Scheduler.openPool, Scheduler.pool] using this
      have hgone : (e'.request r).isDone ∨ e'.request r = Request.blank r := he'.pool.gone r hq
      have hne := (h.alike (he.promptIds_ne hin)).ne_nil (he.promptIds_ne hin)
      have hdone : (e'.request r).isDone := hgone.resolve_right fun hb => hne (by rw [hb]; rfl)
      rcases hk.ended r with hst | hst
      · refine absurd ?_ (hopen r hin)
        unfold Request.isDone at hdone ⊢
        rw [← hst]
        exact hdone
      · exact hst
  · have hf := (hl r hr).resolve_left hin
    right
    rcases hk.ended r with hst | hst
    · show (e'.scheduler.reqs r).state = _
      rw [hst, hother r hin]
      exact hf
    · exact hst

instance : Decidable e.scheduler.hasUnfinished := inferInstanceAs (Decidable (_ ∨ _))

instance : Decidable e.hasUnfinished := inferInstanceAs (Decidable (_ ∨ _))

-- One turn of the loop of `generate`; the model may answer differently at each step.
def generateTurn (models : Nat → Model) (p : Nat × Engine) : Except Error Unit × Nat × Engine :=
  match p.2.step (models p.1) with
  | (.error err, e) => (.error err, p.1 + 1, e)
  | (.ok _, e) => (.ok (), p.1 + 1, e)

def drain (models : Nat → Model) (fuel : Nat) (e : Engine) : Option (Except Error Unit × Nat × Engine) :=
  Loop.runWhile (fun p : Nat × Engine => p.2.hasUnfinished) (generateTurn models) fuel (0, e)

structure Draining (l : List Rid) (e : Engine) : Prop where
  sound : e.Sound
  accepted : ∀ r ∈ e.requests, e.scheduler.Accepted (e.request r)
  pursued : Pursued l e

theorem Draining.step {l : List Rid} {out : Option Batch} (h : Draining l e) (hu : e.hasUnfinished)
    (hs : e.step model = (.ok out, e')) : Draining l e' ∧ e'.effort < e.effort := by
  rcases h.sound.step_cases model with ⟨s, -, h1⟩ | ⟨b, s, err, -, -, h1⟩ | ⟨out', e1, h1, he1, hst, hadv⟩
  · rw [hs] at h1
    simp at h1
  · rw [hs] at h1
    simp at h1
  · rw [hs] at h1
    obtain rfl : e' = e1 := (Prod.mk.inj h1).2
    refine ⟨⟨he1, fun r hr => ?_, hst.pursued h.sound he1 h.pursued⟩, hst.effort_lt hadv h.sound he1 h.accepted hu⟩
    have hr0 := hadv.requests r hr
    exact (h.accepted r hr0).alike hadv.same (hst.alike (h.sound.promptIds_ne hr0))

theorem workload_ends {model : Model} {c : EngineConfig} {ok : List Token → Prop} (h : Reachable model c ok e)
    (models : Nat → Model) :
    ∃ fuel res n e', drain models fuel e = some (res, n, e') ∧
      (res = .ok () → ¬ e'.hasUnfinished ∧ ∀ r ∈ e.requests, (e'.request r).state = .finished) := by
  have hstart : Draining e.requests e := ⟨h.sound, h.accepted, fun r hr => .inl hr⟩
  have hturn : ∀ p p' : Nat × Engine, Draining e.requests p.2 → p.2.hasUnfinished →
    generateTurn models p = (.ok (), p') →
      Draining e.requests p'.2 ∧ p'.2.effort < p.2.effort := by
    intro p p' hI hu hb
    unfold generateTurn at hb
    split at hb
    · simp at hb
    · next out e1 hs =>
      obtain rfl := (Prod.mk.inj hb).2
      exact hI.step hu hs
  obtain ⟨fuel, res, ⟨n, e'⟩, hrun, hend⟩ := Loop.runWhile_ends (fun p : Nat × Engine => p.2.effort) hturn
    (show Draining e.requests ((0, e) : Nat × Engine).2 from hstart)
  refine ⟨fuel, res, n, e', hrun, fun hok => ?_⟩
  obtain ⟨hdrain, hnot⟩ := hend hok
  refine ⟨hnot, fun r hr => (hdrain.pursued r hr).resolve_left fun hin => hnot (.inl ?_)⟩
  rcases hdrain.sound.mem_queues.mp hin with hq | hq
  · exact .inr (List.ne_nil_of_mem hq)
  · exact .inl (List.ne_nil_of_mem hq)

theorem workload_ends_submitted : submitted.requests = [0] ∧
    ∃ fuel res n e', drain (fun _ => constant 7) fuel submitted = some (res, n, e') ∧
      (res = .ok () → ¬ e'.hasUnfinished ∧ ∀ r ∈ submitted.requests, (e'.request r).state = .finished) := by
  have h : Reachable (constant 7) tiny (fun _ => True) submitted := .add .init trivial
  exact ⟨by decide +kernel, workload_ends h fun _ => constant 7⟩

end Engine

end MiniServe
