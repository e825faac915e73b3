import MiniServe.Spec.Follows

namespace MiniServe

open KVCacheManager Generate Pool

namespace SpecEngine

variable {e e1 e' : SpecEngine} {s : Scheduler} {older : List Entry} {r : Rid} {target : Target} {dm : DraftModel}
  {b : Batch}

theorem Based.pool_sound (h : Based target e) : (e.base.scheduler.pool [] []).Sound := by
  have := h.sound.pool
  rw [h.entries] at this
  exact this

section Calls

theorem addRequest_follows (hb : Based target e) (h : e.draft.Follows e.base.scheduler) (prompt : List Token)
    (params : SamplingParams) :
        (e.addRequest prompt params).2.draft.Follows (e.addRequest prompt params).2.base.scheduler := by
  unfold SpecEngine.addRequest
  split
  · rcases e.base.addRequest_cases prompt params with ⟨err, d, he⟩ | ⟨q, d, hq, hrid, -, -, -, -, he⟩
    · simp only [he]
      exact h
    · simp only [he]
      refine h.target ⟨rfl, rfl, rfl, rfl, rfl, rfl, rfl, rfl⟩ fun r t ht => ?_
      obtain ⟨hr, hst⟩ := h.running r t ht
      have hne : r ≠ q.rid := by
        rintro rfl
        exact (hb.sound.later q.rid hrid.ge).2 (List.mem_append_left _ hr)
      refine ⟨hr, ?_⟩
      show (e.base.scheduler.reqs r).Onward (Function.update e.base.scheduler.reqs q.rid q r)
      rw [Function.update_of_ne hne]
      exact .refl hst
  · exact h

theorem abort_follows (hb : Based target e) (h : e.draft.Follows e.base.scheduler) (ha : e.abort r = .ok e') :
    e'.draft.Follows e'.base.scheduler := by
  obtain ⟨hbase, -⟩ := abort_base ha
  obtain ⟨base, h1, h2, hm, hk⟩ := hb.sound.abort r
  obtain rfl : base = e'.base := Except.ok.inj (h1.symm.trans hbase)
  unfold SpecEngine.abort at ha
  split at ha
  · split at ha
    · simp at ha
    · next q hq =>
      unfold SpecEngine.retire at ha
      obtain ⟨d', hrel, hf, -, htab⟩ := release_follows
        (e := { e with base := { e.base with scheduler := e.base.scheduler.set r q } }) h hb.pool_sound hb.tree r
      rw [hrel] at ha
      simp only at ha
      split at ha
      · simp at ha
      · next base' hret =>
        obtain rfl := Except.ok.inj ha
        refine hf.target hk.same fun x t hx => ?_
        have hne : x ≠ r := by
          rintro rfl
          rw [htab, if_pos rfl] at hx
          simp at hx
        obtain ⟨hrun, hst⟩ := hf.running x t hx
        have hsame : base'.request x = e.base.request x :=
          (Engine.retire_other hret hne).trans (Function.update_of_ne hne _ _)
        have hmem : x ∈ e.base.requests := hb.sound.requests.mem_iff.mpr (List.mem_append_left _ hrun)
        have hpool' : (base'.scheduler.pool [] []).Sound := by
          have hin : base'.inflight = none := hk.inflight.trans hb.inflight
          have hent : base'.entries = [] := by simp [Engine.entries, hin, Engine.inflightEntries]
          have := h2.pool
          rw [hent] at this
          exact this
        have hopen : (e.base.scheduler.openPool [] [] []).Sound := hb.pool_sound
        refine ⟨hk.stays hopen hpool' hrun ?_ ?_, ?_⟩
        · rw [hsame]
          simp [Request.isDone, Engine.request, hst]
        · rw [hsame]
          exact hb.sound.promptIds_ne hmem
        · rw [show base'.scheduler.reqs x = _ from hsame]
          exact .refl hst
  · obtain rfl := Except.ok.inj ha
    exact h

end Calls

section Prefill

variable {reqs : List Rid} {d' : DraftRunner}

theorem Prefilled.follows (hp : Prefilled e.draft d' reqs) (h : e.draft.Follows s)
    (hc : d'.Capped s.running fun r => (s.reqs r).tableBlocks.length)
    (hh : d'.Holds fun r => (s.reqs r).tokens.take (s.reqs r).covered)
    (hreqs : ∀ r ∈ reqs, (s.reqs r).state = .decode) : d'.Follows s where
  sound := hc.sound
  numBlocks := hp.sized.numBlocks.trans h.numBlocks
  blockSize := hp.sized.blockSize.trans h.blockSize
  maxPrefillTokens := hp.sized.maxPrefillTokens ▸ h.maxPrefillTokens
  running := fun r t ht => by
    refine ⟨hc.mem r t ht, ?_⟩
    by_cases hr : r ∈ reqs
    · exact hreqs r hr
    · exact (h.running r t ((hp.other r hr).symm.trans ht)).2
  blocks := hc.len_le
  holds := hh
  fresh := fun r t ht h0 => by
    by_cases hr : r ∈ reqs
    · obtain ⟨t', n, ht', hg⟩ := hp.table r hr
      obtain rfl := Option.some.inj (ht.symm.trans ht')
      refine hg.fresh e.draft.allocator.blockSize_pos (fun hn => ?_) h0
      cases hd : e.draft.tables r with
      | none => simp [DraftRunner.tableOf, hd, BlockTable.empty]
      | some t0 =>
        rw [DraftRunner.tableOf_eq hd] at hn ⊢
        exact h.fresh r t0 hd hn
    · exact h.fresh r t ((hp.other r hr).symm.trans ht) h0

theorem draftPrefill_follows (h : e.draft.Follows e.base.scheduler) (hs : (e.base.scheduler.pool [] []).Sound)
    (ht : e.base.scheduler.kv.tree = none) (hnd : reqs.Nodup)
    (hreqs : ∀ r ∈ reqs, r ∈ e.base.scheduler.running ∧ (e.base.request r).state = .decode) (dm : DraftModel) :
    (∃ err, e.draftPrefill dm reqs = .error err ∧ e.Overlong reqs) ∨
      ∃ d', e.draftPrefill dm reqs = .ok { e with draft := d' } ∧ d'.Follows e.base.scheduler ∧
        Prefilled e.draft d' reqs := by
  have hfill := draftPrefill_ok e (h.capped hs ht) h.holds h.maxPrefillTokens h.fresh hnd (fun r hr => by
    obtain ⟨hm, hst⟩ := hreqs r hr
    have hl : r ∈ (e.base.scheduler.pool [] []).live := by simpa [Scheduler.pool] using hm
    have hcap := (hs.kv.held r hl).capacity
    have hcov : (e.base.request r).covered + 1 = (e.base.request r).seqLen := by
      rcases (Scheduler.pool_active hs (by simpa using hm)).phase with hp | hp
      · rw [show (e.base.scheduler.reqs r).state = .decode from hst] at hp
        simp at hp
      · exact hp.2.1
    have hlen : (e.base.request r).seqLen - 1 = (e.base.request r).covered := by omega
    rw [hlen, h.blockSize]
    exact ⟨hm, hcap, rfl⟩) dm
  refine hfill.imp_right ?_
  rintro ⟨d', h1, h2, h3, h4⟩
  exact ⟨d', h1, h4.follows h h2 h3 fun r hr => (hreqs r hr).2, h4⟩

end Prefill

section Plain

theorem processRows_follows {es : List Entry} {base' : Engine} (h : e.draft.Follows s) (hs : (s.pool [] older).Sound)
    (ht : s.kv.tree = none) (hb : Engine.processRows es e.base = .ok base') :
    ∃ d', processRows es e = .ok { e with base := base', draft := d' } ∧ d'.Follows s ∧ d'.packed = e.draft.packed ∧
      ∀ x, d'.tables x = if (base'.request x).isDone ∧ ¬ (e.base.request x).isDone then none else e.draft.tables x := by
  induction es generalizing e with
  | nil =>
    obtain rfl := Except.ok.inj hb
    exact ⟨e.draft, rfl, h, rfl, fun x => by simp⟩
  | cons y es ih =>
    obtain ⟨r, tok, slot⟩ := y
    unfold Engine.processRows at hb
    split at hb
    · simp at hb
    · next base1 h1 =>
      obtain ⟨d1, hrow, hf1, hp1, ht1⟩ : ∃ d1, e.processRow r tok slot = .ok { e with base := base1, draft := d1 } ∧
          d1.Follows s ∧ d1.packed = e.draft.packed ∧ ∀ x, d1.tables x =
            if (base1.request x).isDone ∧ ¬ (e.base.request x).isDone then none else e.draft.tables x := by
        have hother : ∀ x, x ≠ r → ¬ ((base1.request x).isDone ∧ ¬ (e.base.request x).isDone) := by
          intro x hx
          rw [Engine.processRow_other h1 hx]
          exact fun hc => hc.2 hc.1
        unfold processRow
        rw [h1]
        simp only
        split
        · next hdone =>
          obtain ⟨d1, h2, h3, h4, h5⟩ := release_follows (e := { e with base := base1 }) h hs ht r
          refine ⟨d1, h2, h3, h4, fun x => ?_⟩
          rw [h5]
          by_cases hx : x = r
          · subst hx
            rw [if_pos rfl, if_pos hdone]
          · rw [if_neg hx, if_neg (hother x hx)]
        · next hdone =>
          refine ⟨e.draft, rfl, h, rfl, fun x => ?_⟩
          by_cases hx : x = r
          · subst hx
            rw [if_neg hdone]
          · rw [if_neg (hother x hx)]
      obtain ⟨d', h2, hf2, hp2, ht2⟩ := ih (e := { e with base := base1, draft := d1 }) hf1 hb
      refine ⟨d', by simp only [processRows, hrow, h2], hf2, hp2.trans hp1, fun x => ?_⟩
      rw [ht2 x]
      simp only [ht1 x]
      by_cases h0 : (e.base.request x).isDone
      · have hx1 := Engine.processRow_done h1 h0
        have hx2 := Engine.processRows_done hb (hx1 ▸ h0)
        simp [hx1, hx2, h0]
      · by_cases hd1 : (base1.request x).isDone
        · have hx2 := Engine.processRows_done hb hd1
          simp [hx2, h0, hd1]
        · simp [h0, hd1]

def PromptOverflow (e : SpecEngine) : Prop := ∃ r ∈ e.base.requests, ∃ id ∈ (e.base.request r).promptIds, ¬ IsLong id

theorem outputs_longs {d : Device} (hs : (s.pool [] []).Sound) (hc : Content target.toModel d none (s.pool [] []))
    (hr : r ∈ s.running) (hm : target.toModel.Long) : ∀ id ∈ (s.reqs r).outputIds, IsLong id := by
  have hd := hs.not_done (r := r) (.inl (by simpa [Scheduler.pool] using hr))
  have hzero : (s.reqs r).numPending = 0 := Rounds.no_pending hs hd
  have hout : (s.pool [] []).outputs r = (s.reqs r).outputIds := by
    simp [outputs, inflightTokens, Scheduler.pool, Request.readyIds, hzero]
  have hstream := (hc.told r).output hd
  intro id hid
  rw [← hout, hstream] at hid
  obtain ⟨l, rfl⟩ := mem_stream hid
  exact hm _ _ _ _

theorem overflow_of_tokens {d : Device} (hs : (s.pool [] []).Sound) (hc : Content target.toModel d none (s.pool [] []))
    (hr : r ∈ s.running) (hreq : r ∈ e.base.requests) (ha : (s.reqs r).promptIds = (e.base.request r).promptIds)
    (hm : target.toModel.Long) {id : Token} (hid : id ∈ (s.reqs r).tokens) (hn : ¬ IsLong id) : e.PromptOverflow := by
  rcases List.mem_append.mp hid with hid | hid
  · exact ⟨r, hreq, id, ha ▸ hid, hn⟩
  · exact absurd (outputs_longs hs hc hr hm id hid) hn

theorem Based.outputIds_eq (h : Based target e) (hr : r ∈ e.base.scheduler.running) :
    (e.base.request r).outputIds = stream (target.toModel.nextAfter (e.base.request r))
    (e.base.request r).outputIds.length := by
  have hd := h.sound.pool.not_done (r := r) (.inl (by simpa [Scheduler.openPool, Scheduler.pool] using hr))
  have hzero : (e.base.scheduler.reqs r).numPending = 0 := h.sound.no_pending h.inflight (.inl hr)
  have hout : e.base.pool.outputs r = (e.base.request r).outputIds := by
    rw [Engine.pool, h.entries]
    simp [outputs, inflightTokens, Scheduler.openPool, Scheduler.pool, Request.readyIds, hzero, Engine.request]
  exact hout.symm.trans ((h.content.told r).output hd)

theorem Based.covered_succ (h : Based target e) (hr : r ∈ e.base.scheduler.running)
    (hst : (e.base.request r).state = .decode) :
    (e.base.request r).covered + 1 = (e.base.request r).seqLen := by
  rcases (Scheduler.pool_active h.pool_sound (by simpa using hr)).phase with hp | hp
  · rw [show (e.base.scheduler.reqs r).state = .decode from hst] at hp
    simp at hp
  · exact hp.2.1

theorem Based.onward (h : Based target e) (h' : Based target e') (ha : Alike (e.base.request r) (e'.base.request r))
    (hr : r ∈ e.base.scheduler.running) (hr' : r ∈ e'.base.scheduler.running) (hst : (e.base.request r).state = .decode)
    (hst' : (e'.base.request r).state = .decode)
    (hb : (e.base.request r).tableBlocks.length ≤ (e'.base.request r).tableBlocks.length)
    (hc : (e.base.request r).covered ≤ (e'.base.request r).covered) : (e.base.request r).Onward (e'.base.request r) := by
  refine ⟨hst', hb, ?_⟩
  have h1 := h.covered_succ hr hst
  have h2 := h'.covered_succ hr' hst'
  have hlen : (e.base.request r).outputIds.length ≤ (e'.base.request r).outputIds.length := by
    simp only [Request.seqLen, ha.1] at h1 h2
    omega
  have htok : (e.base.request r).tokens <+: (e'.base.request r).tokens := by
    rw [Request.tokens, Request.tokens, ha.1, h.outputIds_eq hr, h'.outputIds_eq hr', Model.nextAfter_alike ha]
    exact List.prefix_append_right_inj _ |>.mpr (stream_begins hlen)
  exact (htok.take _).trans (List.take_prefix_take_left hc)

-- After the scheduler has been called, the draft caches of the requests it preempted are dropped.
theorem scheduled_follows (e1 : SpecEngine) (h : Based target e) (hf : e.draft.Follows e.base.scheduler)
    (hsch : e.base.scheduler.schedule = (.ok (some b), s)) (he1 : e1 = { e with base := { e.base with
      scheduler := s, launched := some b } }) :
    ∃ d', releaseDrafts b.preempted e1 = .ok { e1 with draft := d' } ∧ d'.Follows s ∧ d'.packed = e.draft.packed := by
  subst he1
  have hR := Scheduler.schedule_retains h.pool_sound h.sound.whole hsch
  obtain ⟨d', h1, h2, h3, h4⟩ := releaseDrafts_follows (e := { e with base := { e.base with
    scheduler := s, launched := some b } }) (l := b.preempted) hf h.pool_sound h.tree
  refine ⟨d', h1, h2.target (h.scheduled hsch).1.step.same fun r t ht => ?_, h3⟩
  obtain ⟨hr, hst⟩ := h2.running r t ht
  have hp : r ∉ b.preempted := by
    intro hp
    rw [h4, if_pos hp] at ht
    simp at ht
  obtain ⟨hr', hreq⟩ := hR.stays r hr hp
  refine ⟨hr', ?_⟩
  rw [hreq]
  exact .refl hst

theorem Based.scheduled_row (h : Based target e) (hsch : e.base.scheduler.schedule = (.ok (some b), s)) {row : Row}
    (hrow : row ∈ b.rows) :
    row.rid ∈ s.running ∧ row.rid ∈ e.base.requests ∧
    (s.reqs row.rid).promptIds = (e.base.request row.rid).promptIds := by
  have hS := (h.scheduled hsch).1
  have hperm : (s.running ++ s.waiting).Perm (e.base.scheduler.running ++ e.base.scheduler.waiting) := by
    simpa using hS.step.perm
  have hrun := ((hS.batch b rfl).rows row hrow).mem
  have hr : row.rid ∈ e.base.requests :=
    h.sound.requests.mem_iff.mpr (hperm.mem_iff.mp (List.mem_append_left _ hrun))
  exact ⟨hrun, hr, ((h.pool_moves hsch).alike (h.sound.promptIds_ne hr)).1⟩

theorem Based.scheduled_pool (h : Based target e) (hsch : e.base.scheduler.schedule = (.ok (some b), s)) :
    (s.pool [] []).Sound ∧ Content target.toModel e.base.device none (s.pool [] []) := by
  have hm := h.pool_moves hsch
  exact ⟨hm.sound h.sound.pool, hm.content h.sound.pool h.content⟩

theorem Based.raw_overflow (h : Based target e) (hsch : e.base.scheduler.schedule = (.ok (some b), s))
    (hm : target.toModel.Long)
    (hbad : ¬ ∀ id ∈ b.rows.flatMap (ModelRunner.rowIds s), IsLong id) : e.PromptOverflow := by
  obtain ⟨hs, hc⟩ := h.scheduled_pool hsch
  by_contra hnone
  refine hbad fun id hid => ?_
  by_contra hn
  obtain ⟨row, hrow, hid⟩ := List.mem_flatMap.mp hid
  obtain ⟨hrun, hr, hp⟩ := h.scheduled_row hsch hrow
  rw [ModelRunner.rowIds, Request.tokenSlice_eq] at hid
  exact hnone (overflow_of_tokens hs hc hrun hr hp hm (List.mem_of_mem_drop (List.mem_of_mem_take hid)) hn)

theorem Based.launches (h : Based target e) (hsch : e.base.scheduler.schedule = (.ok (some b), s)) {ids : List Token}
    (hids : ModelRunner.fillRows b (b.rows.flatMap (ModelRunner.rowIds s)) none = .ok ids)
    (hlong : ∀ id ∈ b.rows.flatMap (ModelRunner.rowIds s), IsLong id) :
    ∃ L base base', Engine.Runs target.toModel { e.base with scheduler := s, launched := some b } b L base base' := by
  obtain ⟨hS, -⟩ := h.scheduled hsch
  have hcore := h.sound.toCore.scheduled (h.entries.symm ▸ hS)
  rw [h.entries] at hcore
  refine Engine.runs ⟨hcore.pool, hcore.requests, hcore.later, hcore.len⟩ (hS.batch b rfl) (hS.fits _ rfl) ?_ hids hlong
  have := hS.step.same.radix
  rw [h.tree] at this
  simpa using this

theorem Based.read (h : Based target e) (hsch : e.base.scheduler.schedule = (.ok (some b), s)) {L : Launched}
    {base base' : Engine} (hruns :
      Engine.Runs target.toModel { e.base with scheduler := s, launched := some b } b L base base') :
    e.base.step target.toModel = (.ok (some b), base') ∧ Based target { e with base := base' } := by
  have hstep := step_of_process h hsch hruns.launch hruns.rows
  have hbased : Based target { e with base := base' } := h.plain hstep rfl
  exact ⟨hstep, hbased⟩

theorem Based.read_alike (h : Based target e) {out : Option Batch} {base' : Engine}
    (hstep : e.base.step target.toModel = (.ok out, base')) (hr : (e.base.request r).promptIds ≠ []) :
    Alike (e.base.request r) (base'.request r) := by
  rcases h.sound.step_cases target.toModel with ⟨s, -, h1⟩ | ⟨b, s, err, -, -, h1⟩ | ⟨out', e1, h1, h2, hst, hA⟩
  · rw [hstep] at h1; simp at h1
  · rw [hstep] at h1; simp at h1
  · rw [hstep] at h1
    rw [(Prod.mk.inj h1).2]
    exact hst.alike hr

theorem read_follows (h : Based target e) (hsch : e.base.scheduler.schedule = (.ok (some b), s)) {L : Launched}
    {base base' : Engine} (hruns :
      Engine.Runs target.toModel { e.base with scheduler := s, launched := some b } b L base base')
    {d : DraftRunner} (hf : d.Follows s) (hd : ∀ r t, d.tables r = some t → ¬ (base'.request r).isDone) :
    d.Follows base'.scheduler := by
  obtain ⟨hstep, hb'⟩ := h.read hsch hruns
  have hR := Scheduler.schedule_retains h.pool_sound h.sound.whole hsch
  refine hf.target (hruns.same.trans hruns.kept.same) fun r t ht => ?_
  obtain ⟨hr, hst⟩ := hf.running r t ht
  have hwas : r ∈ e.base.scheduler.running ∧ s.reqs r = e.base.request r := by
    rcases hR.came r hr with ⟨h1, -, h2⟩ | h1
    · exact ⟨h1, h2⟩
    · rw [hst] at h1
      simp at h1
  have hne : (e.base.request r).promptIds ≠ [] :=
    h.sound.promptIds_ne (h.sound.requests.mem_iff.mpr (List.mem_append_left _ hwas.1))
  have ha := h.read_alike hstep hne
  have hr' : r ∈ base'.scheduler.running :=
    hruns.kept.stays hruns.pool hb'.pool_sound (hruns.running ▸ hr) (hd r t ht) (ha.ne_nil hne)
  have hst' : (base'.request r).state = .decode := (hruns.kept.state r hr').trans (hruns.decode r hst hr)
  obtain ⟨hblocks, hcov⟩ := hruns.table_le hr'
  have hreq : Engine.request { e.base with scheduler := s, launched := some b } r = e.base.request r := hwas.2
  rw [hreq] at hblocks hcov
  refine ⟨hr', ?_⟩
  rw [hwas.2]
  rw [hwas.2] at hst
  exact h.onward hb' ha hwas.1 hr' hst hst' hblocks hcov

theorem plain_follows (e1 : SpecEngine) (h : Based target e) (hsch : e.base.scheduler.schedule = (.ok (some b), s))
    (he1 : e1.base = { e.base with scheduler := s, launched := some b }) (hf : e1.draft.Follows s) (dm : DraftModel) :
    (∃ err, e1.plain target dm b = .error err ∧
      (ModelRunner.fillRows b (b.rows.flatMap (ModelRunner.rowIds s)) none = .error err ∨
        (target.toModel.Long → e.PromptOverflow))) ∨
      ∃ e2, e1.plain target dm b = .ok e2 ∧ e2.draft.Follows e2.base.scheduler := by
  have hS := (h.scheduled hsch).1
  cases hids : ModelRunner.fillRows b (b.rows.flatMap (ModelRunner.rowIds s)) none with
  | error err =>
    refine .inl ⟨err, ?_, .inl rfl⟩
    have hlaunch : e1.base.launch target.toModel b none = .error err := by
      rw [he1]
      simp only [Engine.launch, ModelRunner.forward, hids]
    simp only [SpecEngine.plain, hlaunch]
  | ok ids =>
    by_cases hlong : ∀ id ∈ b.rows.flatMap (ModelRunner.rowIds s), IsLong id
    swap
    · have hbad : ∃ id ∈ b.rows.flatMap (ModelRunner.rowIds s), ¬ IsLong id := by
        by_contra hall
        exact hlong fun id hid => by_contra fun hn => hall ⟨id, hid, hn⟩
      obtain ⟨-, hlaunch, -, -⟩ :=
        @Engine.launch_long [] { e.base with scheduler := s, launched := some b } target.toModel b
        none ids (h.scheduled_pool hsch).1 (hS.batch b rfl) (hS.fits _ rfl) hids hbad
      rw [← he1] at hlaunch
      exact .inl ⟨.longOverflow, by simp only [SpecEngine.plain, hlaunch], .inr fun hm => h.raw_overflow hsch hm hlong⟩
    obtain ⟨L, base, base', hruns⟩ := h.launches hsch hids hlong
    obtain ⟨hstep, hb'⟩ := h.read hsch hruns
    have htree : s.kv.tree = none := by
      have := hS.step.same.radix
      rw [h.tree] at this
      simpa using this
    let mid : SpecEngine := { e1 with
      base := base
      packed := e1.packed ++ ModelRunner.passTables (ModelRunner.reserve e1.base.scheduler b.rows).2 b.rows }
    obtain ⟨d', hrows, hf', -, htab⟩ :=
      processRows_follows (e := mid) (s := s) hf (h.scheduled_pool hsch).1 htree hruns.rows
    have hlaunch : e1.base.launch target.toModel b none = .ok (L, base) := by
      rw [he1]
      exact hruns.launch
    have hfol : d'.Follows base'.scheduler := by
      refine read_follows h hsch hruns hf' fun r t ht hd => ?_
      have hr : r ∈ base.scheduler.running := hruns.running ▸ (hf'.running r t ht).1
      have hnd : ¬ (base.request r).isDone :=
        hruns.pool.not_done (.inl (by simpa [Scheduler.openPool, Scheduler.pool] using hr))
      rw [htab, if_pos ⟨hd, hnd⟩] at ht
      simp at ht
    let e2 : SpecEngine := { mid with base := base', draft := d' }
    have hplain : e1.plain target dm b = if e2.gamma =
        0 then .ok e2 else e2.draftPrefill dm (e2.decoding (b.rows.map Row.rid)) := by
      simp only [SpecEngine.plain, hlaunch]
      rw [show processRows L.entries _ = Except.ok e2 from hrows]
    rw [hplain]
    split
    · exact .inr ⟨e2, rfl, hfol⟩
    have hdec : ∀ r ∈ e2.decoding (b.rows.map Row.rid), r ∈ base'.scheduler.running ∧ (base'.request r).state = .decode ∧
        r ∈ e.base.requests ∧ (base'.request r).promptIds = (e.base.request r).promptIds := by
      intro r hr
      obtain ⟨hrow, hst⟩ := List.mem_filter.mp hr
      have hst : (base'.request r).state = .decode := by simpa using hst
      obtain ⟨row, hm, rfl⟩ := List.mem_map.mp hrow
      obtain ⟨hs, hreq, -⟩ := h.scheduled_row hsch hm
      have hne := h.sound.promptIds_ne hreq
      have ha := h.read_alike hstep hne
      refine ⟨hruns.kept.stays hruns.pool hb'.pool_sound (hruns.running ▸ hs) ?_ (ha.ne_nil hne), hst, hreq, ha.1⟩
      simp [Request.isDone, hst]
    rcases draftPrefill_follows (e := e2) hfol hb'.pool_sound hb'.tree ((hS.batch b rfl).nodup.filter _)
      (fun r hr => ⟨(hdec r hr).1, (hdec r hr).2.1⟩) dm with ⟨err, h1, r, hr, id, hid, hn⟩ | ⟨d2, h1, h2, -⟩
    · refine .inl ⟨err, h1, .inr fun hm => ?_⟩
      obtain ⟨hrun, -, hreq, hp⟩ := hdec r hr
      have hc := hb'.content
      rw [Engine.pool, hb'.entries] at hc
      exact overflow_of_tokens hb'.pool_sound hc hrun hreq hp hm hid hn
    · exact .inr ⟨_, h1, h2⟩

end Plain

end SpecEngine

end MiniServe
