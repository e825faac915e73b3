import MiniServe.Spec.DraftVerdict

namespace MiniServe

open KVCacheManager Generate Pool

namespace SpecEngine

variable {e e1 e' : SpecEngine} {s s1 : Scheduler} {target : Target} {dm : DraftModel} {b : Batch} {r : Rid}
  {c : SpecConfig}

section Round

variable {q q' : Request} {row : Row} {proposals new : List Token} {mark : Option Nat}

theorem Verdict.take_prefix (h : Verdict q q' row proposals new mark) {n m k : Nat} (hmark : mark = some n)
    (hstart : row.start + 1 = q.seqLen) (hm : m ≤ n) :
    (q.tokens ++ proposals.take k).take m <+: q'.tokens.take q'.covered := by
  obtain ⟨-, hseq, hn, tb, -, hc⟩ := h.going n hmark
  have hpos := h.pos
  have hcov : q'.covered = n := by simp [Request.covered, hc]
  have hlen : q.tokens.length = row.start + 1 := by rw [Request.tokens_length, hstart]
  have htok : q'.tokens = q.tokens ++ new := by
    rw [Request.tokens, h.outputIds, h.alike.1, Request.tokens, List.append_assoc]
  have hnew : new.take (new.length - 1) = proposals.take (new.length - 1) := by
    refine List.ext_getElem? fun j => ?_
    by_cases hj : j < new.length - 1
    · rw [List.getElem?_take_of_lt hj, List.getElem?_take_of_lt hj]
      exact h.proposed j (by omega)
    · rw [List.getElem?_eq_none (by rw [List.length_take]; omega),
        List.getElem?_eq_none (by rw [List.length_take]; omega)]
  have hlast : q'.tokens.take n = (q.tokens ++ proposals).take n := by
    rw [htok, List.take_append, List.take_append, show n - q.tokens.length = new.length - 1 by omega, hnew]
  rw [hcov, hlast]
  have hcut : q.tokens ++ proposals.take k = (q.tokens ++ proposals).take (q.tokens.length + k) := by
    rw [List.take_append, List.take_of_length_le (Nat.le_add_right _ _), Nat.add_sub_cancel_left]
  rw [hcut, List.take_take]
  exact List.take_prefix_take_left ((Nat.min_le_left _ _).trans hm)

theorem overlong_of_last {reqs : List Rid}
    (hno : ¬ ∀ r ∈ reqs, IsLong ((e.base.request r).outputIds.getLast?.getD 0)) : e.Overlong reqs := by
  by_contra hall
  refine hno fun r hr => ?_
  by_contra hn
  cases hlast : (e.base.request r).outputIds.getLast? with
  | none =>
    rw [hlast] at hn
    exact hn (by decide)
  | some id =>
    rw [hlast] at hn
    exact hall ⟨r, hr, id, List.mem_append_right _ (List.mem_of_getLast? hlast), hn⟩

section Concluded

variable {reqs : List Rid} {columns : List (List Token)} {news : Rid → List Token} {marks : Rid → Option Nat}
  {base' : Engine} {cap : Rid → Nat} {d1 d2 : DraftRunner} {t : BlockTable}

theorem Rounds.Passed.tokens (hp : Rounds.Passed target e reqs columns s1 news marks base') (r : Rid) :
    (s1.reqs r).tokens = (e.base.request r).tokens := by
  obtain ⟨t, ht⟩ := hp.reserved.reqs r
  rw [ht]
  rfl

theorem Rounds.Passed.runs (hp : Rounds.Passed target e reqs columns s1 news marks base')
    (hP : Proposed e reqs cap columns d1) (hM : DraftRunner.Marked d1 d2 e.base.scheduler.running reqs cap marks)
    (ht : d2.tables r = some t) : r ∈ base'.scheduler.running ∧ (base'.request r).state = .decode := by
  obtain ⟨d, hj⟩ := hp.judges
  have hm : r ∈ s1.running := by
    rw [hp.reserved.running]
    exact hM.capped.mem r t ht
  have hst : (base'.request r).state = .decode := by
    by_cases hr : r ∈ reqs
    · obtain ⟨t', ht', -⟩ := hP.table r hr
      obtain ⟨n, hn, -⟩ := hM.cut hr ht' ht
      exact ((hp.verdict r hr).going n hn).1
    · rw [hp.other hr]
      exact hP.decode r t ((hM.other r hr).symm.trans ht)
  refine ⟨hj.stays r hm fun _ hfin => ?_, hst⟩
  rw [show base'.scheduler.reqs r = base'.request r from rfl, hst] at hfin
  simp at hfin

theorem Rounds.Passed.blocks_le (hp : Rounds.Passed target e reqs columns s1 news marks base')
    (hP : Proposed e reqs (fun r => (s1.reqs r).tableBlocks.length) columns d1)
    (hM : DraftRunner.Marked d1 d2 e.base.scheduler.running reqs (fun r => (s1.reqs r).tableBlocks.length) marks)
    (ht : d2.tables r = some t) : t.blocks.length ≤ (base'.request r).tableBlocks.length := by
  have hle : t.blocks.length ≤ (s1.reqs r).tableBlocks.length := hM.capped.len_le r t ht
  by_cases hr : r ∈ reqs
  · obtain ⟨t', ht', -⟩ := hP.table r hr
    obtain ⟨n, hn, -⟩ := hM.cut hr ht' ht
    obtain ⟨-, -, -, tb, h1, h2⟩ := (hp.verdict r hr).going n hn
    simp only [Request.tableBlocks, h1, h2] at hle ⊢
    exact hle
  · obtain ⟨d, hj⟩ := hp.judges
    rw [show base'.request r = s1.reqs r from hj.other r hr]
    exact hle

theorem Rounds.Passed.holds (hp : Rounds.Passed target e reqs columns s1 news marks base')
    (hP : Proposed e reqs cap columns d1) (hM : DraftRunner.Marked d1 d2 e.base.scheduler.running reqs cap marks)
    (hseq : ∀ r ∈ reqs, 1 ≤ (e.base.request r).seqLen) :
    d2.Holds fun r => (base'.request r).tokens.take (base'.request r).covered := by
  refine hP.holds.shrink hM.sized.blockSize hM.device fun r t ht => .inr ?_
  by_cases hr : r ∈ reqs
  · obtain ⟨t', ht', -⟩ := hP.table r hr
    obtain ⟨n, hn, rfl⟩ := hM.cut hr ht' ht
    refine ⟨t', ht', rfl, Nat.min_le_left _ _, ?_⟩
    have hstart : (e.verifyRow r).start + 1 = (s1.reqs r).seqLen := by
      have hpos := hseq r hr
      have hlast : (e.verifyRow r).start = (e.base.request r).seqLen - 1 := rfl
      rw [← Request.tokens_length, hp.tokens, Request.tokens_length]
      omega
    rw [if_pos hr, ← hp.tokens r]
    have hv := hp.verdict r hr
    exact hv.take_prefix hn hstart (Nat.min_le_right _ _)
  · refine ⟨t, (hM.other r hr).symm.trans ht, rfl, le_rfl, ?_⟩
    rw [if_neg hr, hp.other hr]
    exact List.take_prefix _ _

theorem Rounds.Passed.fresh (hp : Rounds.Passed target e reqs columns s1 news marks base')
    (hP : Proposed e reqs cap columns d1) (hM : DraftRunner.Marked d1 d2 e.base.scheduler.running reqs cap marks)
    (hseq : ∀ r ∈ reqs, 1 ≤ (e.base.request r).seqLen) (ht : d2.tables r = some t) (h0 : t.numTokens = 0) :
    t.blocks = [] := by
  by_cases hr : r ∈ reqs
  · obtain ⟨t', ht', hle⟩ := hP.table r hr
    obtain ⟨n, hn, rfl⟩ := hM.cut hr ht' ht
    obtain ⟨-, -, hn, -⟩ := (hp.verdict r hr).going n hn
    have hpos := (hp.verdict r hr).pos
    have hlen := hseq r hr
    have h0 : min t'.numTokens n = 0 := h0
    omega
  · exact hP.fresh r t hr ((hM.other r hr).symm.trans ht) h0

end Concluded

theorem Rounds.follows (h : Rounds target e b) (hf : e.draft.Follows e.base.scheduler)
    (hg : e.gamma ≠ 0) (dm : DraftModel) :
    (∃ err, e.round target dm (b.rows.map Row.rid) = .error err ∧ e.Overlong (b.rows.map Row.rid)) ∨
      ∃ e', e.round target dm (b.rows.map Row.rid) = .ok e' ∧ e'.draft.Follows e'.base.scheduler := by
  obtain ⟨s1, hres, hv⟩ := h.reserves
  rcases h.proposes hf hv dm with ⟨err, hprop, hbad⟩ | ⟨columns, d1, hprop, hP⟩
  · exact .inl ⟨err, by simp only [SpecEngine.round, hprop], hbad⟩
  by_cases hlong : ∀ r ∈ b.rows.map Row.rid, IsLong ((e.base.request r).outputIds.getLast?.getD 0)
  swap
  · left
    cases hver : SpecEngine.verdicts { e with draft := d1 } target (b.rows.map Row.rid) columns with
    | ok e' => exact absurd (Rounds.verdicts_longs hver) hlong
    | error err => exact ⟨err, by simp only [SpecEngine.round, hprop, hver], overlong_of_last hlong⟩
  right
  obtain ⟨s1', news, marks, base', hp⟩ := h.passes (proposals_eq hg hprop).2 hlong
  obtain rfl : s1' = s1 := (Prod.mk.inj (hp.reserve.symm.trans hres)).2
  obtain ⟨d, hj⟩ := hp.judges
  obtain ⟨d2, hend, hM⟩ := hP.capped.concludeAll marks h.batch.nodup fun r hr => by
    obtain ⟨t, ht, -⟩ := hP.table r hr
    exact ⟨t, ht⟩
  have hround : e.round target dm (b.rows.map Row.rid) = .ok { e with
      base := base', draft := d2, packed :=
          e.packed ++ ModelRunner.passTables s1' ((b.rows.map Row.rid).map e.verifyRow) } := by
    have heq := hp.eq d1
    rw [hend] at heq
    simp only [SpecEngine.round, hprop]
    exact heq
  have hsame : Scheduler.Same e.base.scheduler base'.scheduler := hp.reserved.same.trans hj.same
  have hseq : ∀ r ∈ b.rows.map Row.rid, 1 ≤ (e.base.request r).seqLen := fun r hr => by
    have := (h.decodes hr).2.2
    omega
  refine ⟨_, hround, hM.capped.sound, ?_, ?_, ?_, fun r t ht => hp.runs hP hM ht, fun r t ht => hp.blocks_le hP hM ht,
    hp.holds hP hM hseq, fun r t ht h0 => hp.fresh hP hM hseq ht h0⟩
  · exact (hM.sized.numBlocks.trans hP.sized.numBlocks).trans (hf.numBlocks.trans hsame.numBlocks.symm)
  · exact (hM.sized.blockSize.trans hP.sized.blockSize).trans (hf.blockSize.trans hsame.blockSize.symm)
  · rw [hM.sized.maxPrefillTokens, hP.sized.maxPrefillTokens]
    exact hf.maxPrefillTokens

end Round

section Run

theorem fillRows_error {ids : List Token} {err : Error} (h : ModelRunner.fillRows b ids none = .error err) :
    placeholder ∈ ids := by
  by_contra hnot
  have h0 : ids.count placeholder = 0 := List.count_eq_zero.mpr hnot
  have h1 : (ids.take b.numDecode).count placeholder = 0 :=
    List.count_eq_zero.mpr fun hm => hnot (List.mem_of_mem_take hm)
  simp [ModelRunner.fillRows, h0, h1] at h

-- The target's tokens need nothing filled in, unless a prompt has the placeholder as one of its tokens.
theorem Based.fill_error (h : Based target e) (hsch : e.base.scheduler.schedule = (.ok (some b), s)) {err : Error}
    (hfill : ModelRunner.fillRows b (b.rows.flatMap (ModelRunner.rowIds s)) none = .error err) :
    ∃ r ∈ e.base.requests, placeholder ∈ (e.base.request r).promptIds := by
  have hids := fillRows_error hfill
  obtain ⟨row, hrow, hid⟩ := List.mem_flatMap.mp hids
  obtain ⟨hrun, hr, hprompt⟩ := h.scheduled_row hsch hrow
  refine ⟨row.rid, hr, ?_⟩
  obtain ⟨hs, -⟩ := h.scheduled_pool hsch
  have hd := hs.not_done (r := row.rid) (.inl (by simpa [Scheduler.pool] using hrun))
  obtain ⟨ready, hout, hready, -⟩ := hs.pending row.rid hd
  have hzero : (s.reqs row.rid).numPending = 0 := Rounds.no_pending hs hd
  have htok : placeholder ∈ (s.reqs row.rid).tokens := by
    rw [ModelRunner.rowIds, Request.tokenSlice_eq] at hid
    exact List.mem_of_mem_drop (List.mem_of_mem_take hid)
  rw [Request.tokens, List.mem_append, hprompt] at htok
  refine htok.resolve_right fun hm => hready ?_
  have hout : (s.reqs row.rid).outputIds = _ := hout
  rw [hout, show ((s.pool [] []).reqs row.rid).numPending = 0 from hzero, List.replicate_zero, List.append_nil] at hm
  exact hm

-- Nothing to schedule means nothing is running, and then the draft has no tables.
theorem idle_follows (h : Based target e) (hf : e.draft.Follows e.base.scheduler)
    (hsch : e.base.scheduler.schedule = (.ok none, s)) : e.draft.Follows s := by
  have hrun : e.base.scheduler.running = [] := by
    by_contra hne
    exact h.sound.lead_of_running h.inflight hne (Scheduler.schedule_none h.pool_sound h.sound.whole hsch)
  refine hf.target (h.scheduled hsch).1.step.same fun r t ht => ?_
  have hr := (hf.running r t ht).1
  rw [hrun] at hr
  simp at hr

-- A step raises only where the scheduler does, or on a token of a prompt that no pass takes.
theorem step_follows (h : Based target e) (hf : e.draft.Follows e.base.scheduler) (dm : DraftModel) :
    (∃ err, (e.step target dm).1 = .error err ∧ ((∃ s, e.base.scheduler.schedule = (.error err, s)) ∨
      (∃ r ∈ e.base.requests, placeholder ∈ (e.base.request r).promptIds) ∨
      (target.toModel.Long → e.PromptOverflow))) ∨
      ∃ out e', e.step target dm = (.ok out, e') ∧ e'.draft.Follows e'.base.scheduler := by
  obtain ⟨res, s, hsch⟩ : ∃ res s, e.base.scheduler.schedule = (res, s) := ⟨_, _, rfl⟩
  cases res with
  | error err => exact .inl ⟨err, by simp only [SpecEngine.step, hsch], .inl ⟨s, hsch⟩⟩
  | ok out =>
    cases out with
    | none =>
      have hf' := idle_follows h hf hsch
      exact .inr ⟨none, { e with base := { e.base with scheduler := s, launched := none } },
        by simp only [SpecEngine.step, hsch], hf'⟩
    | some b =>
      let e1 : SpecEngine := { e with base := { e.base with scheduler := s, launched := some b } }
      obtain ⟨d1, hrel, hf1, -⟩ := scheduled_follows e1 h hf hsch rfl
      let e2 : SpecEngine := { e1 with draft := d1 }
      by_cases hround : e2.gamma ≠ 0 ∧ b.phase = .decode
      · have hrounds : Rounds target e2 b := h.rounds hsch hround.2 rfl rfl
        have hrun : e1.runBatch target dm b = e2.round target dm (b.rows.map Row.rid) := by
          simp only [runBatch, hrel]
          exact if_pos hround
        rcases hrounds.follows hf1 hround.1 dm with ⟨err, h2, r, hr, id, hid, hn⟩ | ⟨e', h2, hf2⟩
        · rw [h2] at hrun
          refine .inl ⟨err, by simp only [SpecEngine.step, hsch]; rw [hrun], .inr (.inr fun hm => ?_)⟩
          obtain ⟨row, hrow, rfl⟩ := List.mem_map.mp hr
          obtain ⟨hs, hc⟩ := h.scheduled_pool hsch
          obtain ⟨hrid, hreq, hprompt⟩ := h.scheduled_row hsch hrow
          exact overflow_of_tokens hs hc hrid hreq hprompt hm hid hn
        · rw [h2] at hrun
          exact .inr ⟨some b, e', by simp only [SpecEngine.step, hsch]; rw [hrun], hf2⟩
      · have hplain : e1.runBatch target dm b = e2.plain target dm b := by
          simp only [runBatch, hrel]
          exact if_neg hround
        rcases plain_follows e2 h hsch rfl hf1 dm with ⟨err, hp, hcause⟩ | ⟨e', hp, hf2⟩
        · rw [hp] at hplain
          exact .inl ⟨err, by simp only [SpecEngine.step, hsch]; rw [hplain], .inr (hcause.imp_left (h.fill_error hsch))⟩
        · rw [hp] at hplain
          exact .inr ⟨some b, e', by simp only [SpecEngine.step, hsch]; rw [hplain], hf2⟩

theorem new_follows (c : SpecConfig) : (new c).draft.Follows (new c).base.scheduler where
  sound := ⟨[], (Engine.new_sound { c.engine with radix := false }).pool.kv⟩
  numBlocks := rfl
  blockSize := rfl
  maxPrefillTokens := c.maxPrefillTokens_pos
  running := fun r t ht => by simp [new] at ht
  blocks := fun r t ht => by simp [new] at ht
  holds := fun r t ht => by simp [new] at ht
  fresh := fun r t ht => by simp [new] at ht

theorem Call.follows (h : Call target dm e e') (hb : Based target e) (hf : e.draft.Follows e.base.scheduler) :
    e'.draft.Follows e'.base.scheduler := by
  cases h with
  | add prompt params => exact addRequest_follows hb hf prompt params
  | abort h => exact abort_follows hb hf h
  | setGamma h =>
    unfold SpecEngine.setGamma at h
    split at h
    · simp at h
    · obtain rfl := Except.ok.inj h
      exact ⟨hf.sound, hf.numBlocks, hf.blockSize, hf.maxPrefillTokens, hf.running, hf.blocks, hf.holds, hf.fresh⟩
  | setRoundGraphs h =>
    unfold SpecEngine.setRoundGraphs at h
    split at h
    · simp at h
    · obtain rfl := Except.ok.inj h
      exact hf
  | step h =>
    rcases step_follows hb hf dm with ⟨err, herr, -⟩ | ⟨out, e1, h1, hf'⟩
    · rw [h] at herr
      simp at herr
    · rw [h] at h1
      rw [(Prod.mk.inj h1).2]
      exact hf'

theorem Calls.follows (h : Calls target dm (new c) e) : e.draft.Follows e.base.scheduler := by
  induction h with
  | refl => exact new_follows c
  | tail h hc ih => exact hc.follows (Calls.based h (new_based target c)) ih

end Run

end SpecEngine

end MiniServe
