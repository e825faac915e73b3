import MiniServe.Spec.Round

namespace MiniServe

open KVCacheManager Generate Pool

namespace Engine

variable {e e' : Engine} {model : Model} {s : Scheduler} {b : Batch} {row : Row}

theorem fillRows_none {ids ids' : List Token} (h : ModelRunner.fillRows b ids none = .ok ids') :
    ids' = ids ∧ placeholder ∉ ids := by
  simp only [ModelRunner.fillRows] at h
  split at h
  · simp at h
  · next hcount =>
    split at h
    · next hzero =>
      rw [not_not] at hcount
      exact ⟨(Except.ok.inj h).symm, List.count_eq_zero.mp (hcount.symm.trans hzero)⟩
    · simp at h

theorem launch_frame {prev : Option Launched} {L : Launched} (h : e.launch model b prev = .ok (L, e')) :
    L.batch = b ∧ e' = { e with scheduler := e'.scheduler, device := e'.device } := by
  simp only [launch] at h
  split at h
  · simp at h
  · split at h
    · simp at h
    · obtain ⟨rfl, rfl⟩ := Prod.mk.inj (Except.ok.inj h)
      exact ⟨rfl, rfl⟩

theorem inputRow_plain (hs : (s.pool [] []).Sound) (hb : s.BatchFits b) (hrow : row ∈ b.rows)
    (hno : placeholder ∉ ModelRunner.rowIds s row) : (inputRow [] s row).length = row.len ∧
      ∀ i < row.len, (inputRow [] s row)[i]? = ((s.pool [] []).truth row.rid)[row.start + i]? := by
  have hfit := hb.rows row hrow
  have hd := hs.not_done (.inl (by simpa using hfit.mem : row.rid ∈ s.running ++ []))
  have hzero : (s.reqs row.rid).numPending = 0 := (hs.pending row.rid hd).length.symm
  have htruth : (s.pool [] []).truth row.rid = (s.reqs row.rid).tokens := by
    simp [truth, outputs, inflightTokens, Scheduler.pool, Request.readyIds, hzero, Request.tokens]
  rw [inputRow_eq hno, htruth, ModelRunner.rowIds, Request.tokenSlice_eq]
  refine ⟨?_, fun i hi => ?_⟩
  · rw [List.length_take, List.length_drop, Request.tokens_length]
    have := hfit.le
    omega
  · rw [List.getElem?_take_of_lt hi, List.getElem?_drop]

theorem Stepped.content_plain (he : e.Sound) (hi : e.inflight = none) (hc : Content model e.device none e.pool)
    (h : Stepped model e e') : Content model e'.device none e'.pool := by
  cases h with
  | idle hsch hm hd =>
    rw [hd]
    exact hm.content he.pool hc
  | @launch s s1 s2 b ids slots e2 hsch hb hids hs hL hread hd =>
    have hent : e.entries = [] := by simp [entries, hi, inflightEntries]
    rw [hi] at hids
    obtain ⟨hids', hno⟩ := fillRows_none hids
    have hsound := hs.sound he.pool
    have hin : ∀ row ∈ b.rows, placeholder ∉ ModelRunner.rowIds s row := fun row hrow hm =>
      hno (List.mem_flatMap.mpr ⟨row, hrow, hm⟩)
    rw [hent] at hs hL hread hd hsound
    have hids'' : ids = b.rows.flatMap (inputRow [] s) := by
      rw [hids']
      exact List.flatMap_congr fun row hrow => (inputRow_eq (hin row hrow)).symm
    have hlaunch := hL.content hsound (hs.content he.pool hc)
      (fun row hrow => inputRow_plain hsound hb hrow (hin row hrow)) hids''
    rw [hd]
    exact hread.content (hL.settles.sound (hL.opens.sound hsound)) hlaunch

end Engine

namespace SpecEngine

variable {e e' : SpecEngine} {target : Target} {dm : DraftModel}

structure Based (target : Target) (e : SpecEngine) : Prop where
  sound : e.base.Sound
  content : Content target.toModel e.base.device none e.base.pool
  overlap : e.base.overlap = false
  tree : e.base.scheduler.kv.tree = none
  tokensPerStep : e.base.scheduler.tokensPerStep = e.gamma + 1
  greedy : ∀ r ∈ e.base.requests, (e.base.request r).params.isGreedy

theorem Based.inflight (h : Based target e) : e.base.inflight = none := h.sound.overlap h.overlap

theorem Based.entries (h : Based target e) : e.base.entries = [] := by
  simp [Engine.entries, h.inflight, Engine.inflightEntries]

theorem new_based (target : Target) (c : SpecConfig) : Based target (new c) where
  sound := Engine.new_sound c.engine
  content := Engine.new_content target.toModel c.engine
  overlap := rfl
  tree := rfl
  tokensPerStep := rfl
  greedy := by simp [new, Engine.new]

theorem Based.moved (h : Based target e) (hs : e'.base.Sound)
    (hc : Content target.toModel e'.base.device none e'.base.pool)
    (ho : e'.base.overlap = e.base.overlap) (hsame : Scheduler.Same e.base.scheduler e'.base.scheduler)
    (hg : e'.gamma = e.gamma) (hreq : ∀ r ∈ e'.base.requests, r ∈ e.base.requests)
    (ha : ∀ r, (e.base.request r).promptIds ≠ [] → Alike (e.base.request r) (e'.base.request r)) : Based target e' where
  sound := hs
  content := hc
  overlap := ho.trans h.overlap
  tree := by
    have := hsame.radix
    rw [h.tree] at this
    simpa using this
  tokensPerStep := by rw [hsame.tokensPerStep, h.tokensPerStep, hg]
  greedy := fun r hr => by
    rw [(ha r (h.sound.promptIds_ne (hreq r hr))).2.1]
    exact h.greedy r (hreq r hr)

section Calls

theorem Based.addRequest (h : Based target e) (prompt : List Token) (params : SamplingParams) :
    Based target (e.addRequest prompt params).2 := by
  unfold SpecEngine.addRequest
  split
  · next hg =>
    rcases e.base.addRequest_cases prompt params with ⟨err, d, he⟩ | ⟨q, d, hq, hrid, hpr, hpa, -, -, he⟩
    · simp only [he]
      exact ⟨h.sound.rename (Nat.le_succ _), h.content, h.overlap, h.tree, h.tokensPerStep, h.greedy⟩
    · simp only [he]
      obtain ⟨hs, hm⟩ := h.sound.submit (d := d) hq hrid
      refine ⟨hs, hm.content h.sound.pool h.content, h.overlap, h.tree, h.tokensPerStep, fun r hr => ?_⟩
      show (Function.update e.base.scheduler.reqs q.rid q r).params.isGreedy
      by_cases hx : r = q.rid
      · rw [hx, Function.update_self, hpa]
        exact hg
      · rw [Function.update_of_ne hx]
        exact h.greedy r ((List.mem_append.mp hr).resolve_right (by simpa using hx))
  · exact h

theorem releaseDraft_eq {r : Rid} (h : e.releaseDraft r = .ok e') : e' = { e with draft := e'.draft } := by
  unfold releaseDraft at h
  split at h
  · simp at h
  · rw [← Except.ok.inj h]

theorem abort_base {r : Rid} (h : e.abort r = .ok e') :
    e.base.abort r = .ok e'.base ∧ e' = { e with base := e'.base, draft := e'.draft } := by
  unfold SpecEngine.abort at h
  unfold Engine.abort
  by_cases hm : r ∈ e.base.requests
  · rw [if_pos hm] at h ⊢
    cases hq : (e.base.request r).transition .aborted with
    | error err =>
      rw [hq] at h
      simp at h
    | ok q =>
      rw [hq] at h
      simp only [SpecEngine.retire] at h
      split at h
      · simp at h
      · next e1 he1 =>
        have heq := releaseDraft_eq he1
        split at h
        · simp at h
        · next base hbase =>
          obtain rfl := Except.ok.inj h
          rw [heq] at hbase
          refine ⟨hbase, ?_⟩
          rw [heq]
  · rw [if_neg hm] at h ⊢
    obtain rfl := Except.ok.inj h
    exact ⟨rfl, rfl⟩

theorem Based.abort {r : Rid} (h : Based target e) (ha : e.abort r = .ok e') : Based target e' := by
  obtain ⟨hb, heq⟩ := abort_base ha
  obtain ⟨base, h1, h2, hm, hk⟩ := h.sound.abort r
  obtain rfl : base = e'.base := Except.ok.inj (h1.symm.trans hb)
  refine h.moved h2 ?_ hk.overlap hk.same (by rw [heq]) ?_ fun r hr => hm.alike hr
  · rw [hk.device]
    exact hm.content h.sound.pool h.content
  · exact (Engine.advanced_of e.base h.sound (List.Perm.refl _) (Scheduler.Same.refl _) rfl h.sound.requests hk).requests

theorem Based.setGamma {value : Int} (h : Based target e) (hg : e.setGamma value = .ok e') : Based target e' := by
  unfold SpecEngine.setGamma at hg
  split at hg
  · simp at hg
  · obtain rfl := Except.ok.inj hg
    exact ⟨⟨⟨h.sound.pool, h.sound.requests, h.sound.later, h.sound.len⟩, h.sound.whole, h.sound.overlap, h.sound.rows⟩,
      h.content, h.overlap, h.tree, rfl, h.greedy⟩

theorem Based.setRoundGraphs {value : Bool} (h : Based target e) (hg : e.setRoundGraphs value = .ok e') :
    Based target e' := by
  unfold SpecEngine.setRoundGraphs at hg
  split at hg
  · simp at hg
  · obtain rfl := Except.ok.inj hg
    exact ⟨h.sound, h.content, h.overlap, h.tree, h.tokensPerStep, h.greedy⟩

end Calls

section DraftOnly

variable {reqs : List Rid} {columns : List (List Token)}

theorem draftPrefill_eq (h : e.draftPrefill dm reqs = .ok e') : e' = { e with draft := e'.draft } := by
  unfold draftPrefill at h
  split at h
  · simp at h
  · split at h
    · simp at h
    · rw [← Except.ok.inj h]

theorem firstStepStarts_eq {starts : List Nat} (h : e.firstStepStarts reqs = .ok (starts, e')) :
    e' = { e with draft := e'.draft } := by
  unfold firstStepStarts at h
  split at h
  · simp at h
  · split at h
    · simp only at h
      split at h
      · simp at h
      · rw [← (Prod.mk.inj (Except.ok.inj h)).2]
    · rw [← (Prod.mk.inj (Except.ok.inj h)).2]

theorem releaseDrafts_eq {l : List Rid} (h : releaseDrafts l e = .ok e') : e' = { e with draft := e'.draft } := by
  induction l generalizing e with
  | nil => rw [← Except.ok.inj h]
  | cons r l ih =>
    unfold releaseDrafts at h
    split at h
    · simp at h
    · next e1 he1 =>
      have := ih h
      rw [releaseDraft_eq he1] at this
      exact this

theorem decodeSteps_length {d d' : DraftRunner} {rids : List Rid} {n : Nat} {tokens : List Token} {pos : List Nat}
    (h : DraftRunner.decodeSteps dm rids n tokens pos d = .ok (columns, d')) : columns.length = n := by
  induction n generalizing d d' tokens pos columns with
  | zero =>
    rw [← (Prod.mk.inj (Except.ok.inj h)).1]
    rfl
  | succ n ih =>
    unfold DraftRunner.decodeSteps at h
    split at h
    · simp at h
    · split at h
      · simp at h
      · next hrest =>
        rw [← (Prod.mk.inj (Except.ok.inj h)).1, List.length_cons, ih hrest]

theorem propose_length {d d' : DraftRunner} {feeds : List Feed} {gamma : Nat}
    (h : d.propose dm feeds gamma = .ok (columns, d')) : columns.length = gamma - 1 + 1 := by
  unfold DraftRunner.propose at h
  split at h
  · simp at h
  · split at h
    · simp at h
    · next hrest =>
      rw [← (Prod.mk.inj (Except.ok.inj h)).1, List.length_cons, decodeSteps_length hrest]

theorem proposals_eq (hg : e.gamma ≠ 0) (h : e.proposals dm reqs = .ok (columns, e')) :
    e' = { e with draft := e'.draft } ∧ columns.length = e.gamma := by
  unfold proposals at h
  split at h
  · simp at h
  · next e1 h1 =>
    have heq1 := draftPrefill_eq h1
    split at h
    · simp at h
    · split at h
      · simp at h
      · next starts e2 h2 =>
        have heq2 := firstStepStarts_eq h2
        split at h
        · simp at h
        · next columns' d h3 =>
          obtain ⟨rfl, rfl⟩ := Prod.mk.inj (Except.ok.inj h)
          have hgamma : e2.gamma = e.gamma := by rw [heq2, heq1]
          have hlen := propose_length h3
          refine ⟨by rw [heq2, heq1], ?_⟩
          rw [hgamma] at hlen
          omega

theorem processRows_base {es : List Entry} (h : processRows es e = .ok e') :
    Engine.processRows es e.base = .ok e'.base ∧ e' = { e with base := e'.base, draft := e'.draft } := by
  induction es generalizing e with
  | nil =>
    obtain rfl := Except.ok.inj h
    exact ⟨rfl, rfl⟩
  | cons x es ih =>
    obtain ⟨r, tok, slot⟩ := x
    unfold processRows at h
    split at h
    · simp at h
    · next e1 h1 =>
      unfold processRow at h1
      split at h1
      · simp at h1
      · next base hbase =>
        have heq : e1 = { e with base := base, draft := e1.draft } := by
          split at h1
          · exact releaseDraft_eq h1
          · rw [← Except.ok.inj h1]
        obtain ⟨h2, h3⟩ := ih h
        rw [heq] at h2 h3
        exact ⟨by simp only [Engine.processRows, hbase, h2], h3⟩

end DraftOnly

section Step

variable {s : Scheduler} {b : Batch}

-- A launch of the target and the reading back of it are a step of the plain engine.
theorem step_of_process {L : Launched} {base base' : Engine} (h : Based target e)
    (hsch : e.base.scheduler.schedule = (.ok (some b), s))
    (hL : Engine.launch { e.base with scheduler := s, launched := some b } target.toModel b none = .ok (L, base))
    (hproc : Engine.processRows L.entries base = .ok base') : e.base.step target.toModel = (.ok (some b), base') := by
  obtain ⟨hbatch, hframe⟩ := Engine.launch_frame hL
  have hin : base.inflight = none := by
    rw [hframe]
    exact h.inflight
  have hl : Engine.launchBatch { e.base with scheduler := s, launched := some b } target.toModel (some b) =
      .ok (some L, base) := by
    have hL' : Engine.launch { e.base with scheduler := s, launched := some b } target.toModel b e.base.inflight =
        .ok (L, base) := by
      rw [h.inflight]
      exact hL
    simp only [Engine.launchBatch]
    rw [show Engine.launch _ target.toModel b _ = _ from hL']
  refine Engine.step_of_launch hsch hl ?_
  rw [h.overlap]
  have hsame : ({ base with inflight := none } : Engine) = base := by rw [← hin]
  simp only [Bool.false_eq_true, if_false, hsame, Engine.readBack, Engine.process]
  rw [show Engine.processRows L.entries base = _ from hproc, hbatch]

theorem plain_step (h : Based target e) (hsch : e.base.scheduler.schedule = (.ok (some b), s)) {e1 : SpecEngine}
    (he1 : e1.base = { e.base with scheduler := s, launched := some b }) (hp : e1.plain target dm b = .ok e') :
    e.base.step target.toModel = (.ok (some b), e'.base) ∧ e'.gamma = e1.gamma := by
  unfold plain at hp
  split at hp
  · simp at hp
  · next L base hL =>
    split at hp
    · simp at hp
    · next e2 h2 =>
      obtain ⟨hproc, heq⟩ := processRows_base h2
      have hbase : e'.base = e2.base ∧ e'.gamma = e2.gamma := by
        split at hp
        · rw [← Except.ok.inj hp]
          exact ⟨rfl, rfl⟩
        · rw [draftPrefill_eq hp]
          exact ⟨rfl, rfl⟩
      rw [he1] at hL
      refine ⟨?_, by rw [hbase.2, heq]⟩
      rw [hbase.1]
      exact step_of_process h hsch hL hproc

theorem idle_step (h : Based target e) (hsch : e.base.scheduler.schedule = (.ok none, s)) :
    e.base.step target.toModel = (.ok none, { e.base with scheduler := s, launched := none }) := by
  have hl : Engine.launchBatch { e.base with scheduler := s, launched := none } target.toModel none =
      .ok (none, { e.base with scheduler := s, launched := none }) := rfl
  refine Engine.step_of_launch hsch hl ?_
  have hin := h.inflight
  have ho : ¬ e.base.overlap = true := by simp [h.overlap]
  rw [if_neg ho, if_neg ho]
  simp only [Engine.readBack]
  rw [← hin]

theorem Based.scheduled (h : Based target e) {res : Except Error (Option Batch)}
    (hsch : e.base.scheduler.schedule = (res, s)) :
    Scheduler.Scheduled e.base.scheduler s [] res ∧ (e.base.scheduler.chunkedPrefillSize = 0 → s.Settles res) := by
  have := h.sound.schedule_eq hsch
  rw [h.entries] at this
  exact this

theorem Based.pool_moves (h : Based target e) {res : Except Error (Option Batch)}
    (hsch : e.base.scheduler.schedule = (res, s)) : Moves none e.base.pool (s.pool [] []) := by
  rw [Engine.pool, h.entries]
  exact (h.scheduled hsch).1.step.moves

theorem Based.rounds (h : Based target e) (hsch : e.base.scheduler.schedule = (.ok (some b), s))
    (hph : b.phase = .decode)
    {e1 : SpecEngine} (he1 : e1.base = { e.base with scheduler := s, launched := some b }) (hg : e1.gamma = e.gamma) :
    Rounds target e1 b := by
  have hS := (h.scheduled hsch).1
  have hm := h.pool_moves hsch
  have hs1 : e1.base.scheduler = s := by rw [he1]
  have hperm : (s.running ++ s.waiting).Perm (e.base.scheduler.running ++ e.base.scheduler.waiting) := by
    simpa using hS.step.perm
  refine ⟨?_, ?_, ?_, ?_, ?_, fun r hr => ?_, ?_, hph, ?_⟩
  · rw [hs1]
    exact hm.sound h.sound.pool
  · rw [hs1, he1]
    exact hm.content h.sound.pool h.content
  · rw [he1]
    exact h.sound.requests.trans hperm.symm
  · have := hS.step.same.radix
    rw [h.tree] at this
    rw [hs1]
    simpa using this
  · rw [hs1, hS.step.same.tokensPerStep, h.tokensPerStep, hg]
  · have hr : r ∈ e.base.requests := h.sound.requests.mem_iff.mpr (hperm.mem_iff.mp (List.mem_append_left _ (hs1 ▸ hr)))
    have ha : Alike (e.base.request r) (s.reqs r) := hm.alike (h.sound.promptIds_ne hr)
    rw [Engine.request, hs1, ha.2.1]
    exact h.greedy r hr
  · rw [hs1]
    exact hS.batch b rfl
  · rw [hs1]
    exact hS.fits _ rfl

inductive Advances (target : Target) (e e' : SpecEngine) (out : Option Batch) : Prop
  | plain (hnot : ∀ b, out = some b → e.gamma = 0 ∨ b.phase ≠ .decode)
      (hstep : e.base.step target.toModel = (.ok out, e'.base))
  | round {b : Batch} {s s1 : Scheduler} {e1 : SpecEngine} {columns : List (List Token)} {new : Rid → List Token}
      {marks : Rid → Option Nat} (hout : out = some b) (hg : e.gamma ≠ 0)
      (hsch : e.base.scheduler.schedule = (.ok (some b), s))
        (hbase : e1.base = { e.base with scheduler := s, launched := some b })
      (hgamma : e1.gamma = e.gamma) (hcol : columns.length = e.gamma) (hr : Rounds target e1 b)
      (hp : Rounds.Passed target e1 (b.rows.map Row.rid) columns s1 new marks e'.base)

theorem Based.advances (h : Based target e) {out : Option Batch} (hstep : e.step target dm = (.ok out, e')) :
    Advances target e e' out ∧ e'.gamma = e.gamma := by
  unfold SpecEngine.step at hstep
  split at hstep
  · simp at hstep
  · next s hsch =>
    obtain ⟨h1, rfl⟩ := Prod.mk.inj hstep
    obtain rfl := Except.ok.inj h1
    exact ⟨.plain (by simp) (idle_step h hsch), rfl⟩
  · next b s hsch =>
    simp only at hstep
    split at hstep
    · simp at hstep
    · next e2 hrun =>
      obtain ⟨h1, rfl⟩ := Prod.mk.inj hstep
      obtain rfl := Except.ok.inj h1
      unfold runBatch at hrun
      split at hrun
      · simp at hrun
      · next e1 hrel =>
        have heq1 := releaseDrafts_eq hrel
        have hb1 : e1.base = { e.base with scheduler := s, launched := some b } := by rw [heq1]
        have hg1 : e1.gamma = e.gamma := by rw [heq1]
        split at hrun
        · next hc =>
          unfold SpecEngine.round at hrun
          split at hrun
          · simp at hrun
          · next columns e3 hprop =>
            obtain ⟨heq3, hcol⟩ := proposals_eq hc.1 hprop
            have hr := h.rounds hsch hc.2 hb1 hg1
            have hlong := Rounds.verdicts_longs hrun
            rw [heq3] at hlong
            obtain ⟨s1, new, marks, base', hp⟩ := hr.passes hcol hlong
            have := hp.eq e3.draft
            rw [← heq3, hrun] at this
            split at this
            · simp at this
            · next d hd =>
              have heq := Except.ok.inj this
              rw [heq]
              exact ⟨.round rfl (hg1 ▸ hc.1) hsch hb1 hg1 (hcol.trans hg1) hr hp, hg1⟩
        · next hc =>
          obtain ⟨h2, h3⟩ := plain_step h hsch hb1 hrun
          refine ⟨.plain (fun b' hb' => ?_) h2, h3.trans hg1⟩
          obtain rfl := Option.some.inj hb'
          rw [not_and_or, not_not, hg1] at hc
          exact hc

section Passed

variable {s1 : Scheduler} {e1 : SpecEngine} {columns : List (List Token)} {new : Rid → List Token}
  {marks : Rid → Option Nat} {base' : Engine}

theorem Rounds.Passed.other {reqs : List Rid} (h : Rounds.Passed target e1 reqs columns s1 new marks base') {x : Rid}
    (hx : x ∉ reqs) : base'.request x = e1.base.request x := by
  obtain ⟨d, hj⟩ := h.judges
  exact (hj.other x hx).trans (h.reserved.other x (by rw [Rounds.map_rid]; exact hx))

theorem Rounds.Passed.alike (h : Rounds.Passed target e1 (b.rows.map Row.rid) columns s1 new marks base') (x : Rid) :
    Alike (e1.base.request x) (base'.request x) := by
  by_cases hx : x ∈ b.rows.map Row.rid
  · obtain ⟨c, hc⟩ := h.reserved.reqs x
    have h1 : Alike (e1.base.request x) (s1.reqs x) := by
      rw [hc]
      exact ⟨rfl, rfl, rfl⟩
    exact h1.trans (h.verdict x hx).alike
  · rw [h.other hx]
    exact ⟨rfl, rfl, rfl⟩

theorem Rounds.Passed.running (h : Rounds.Passed target e1 (b.rows.map Row.rid) columns s1 new marks base') {x : Rid}
    (hx : x ∈ base'.scheduler.running) (hb : x ∈ b.rows.map Row.rid) : ∃ n, marks x = some n := by
  cases hm : marks x with
  | some n => exact ⟨n, rfl⟩
  | none =>
    have hst := (h.verdict x hb).ended hm
    exact absurd (.inl hst) (h.sound.not_done (.inl (by simpa [Scheduler.openPool, Scheduler.pool] using hx)))

theorem Based.passed (h : Based target e) (hsch : e.base.scheduler.schedule = (.ok (some b), s))
    (hb1 : e1.base = { e.base with scheduler := s, launched := some b })
    (hp : Rounds.Passed target e1 (b.rows.map Row.rid) columns s1 new marks base') (hbase : e'.base = base')
    (hg : e'.gamma = e.gamma) : Based target e' := by
  subst hbase
  obtain ⟨hS, hset⟩ := h.scheduled hsch
  have hcore := h.sound.toCore.scheduled (h.entries.symm ▸ hS)
  have hm := h.pool_moves hsch
  obtain ⟨d, hj⟩ := hp.judges
  have hreq : ∀ x, e1.base.request x = s.reqs x := fun x => by rw [Engine.request, hb1]
  have hR := hp.reserved
  rw [hb1] at hR hj
  have hin : e'.base.inflight = none := hj.inflight.trans h.inflight
  have hent : e'.base.entries = [] := by simp [Engine.entries, hin, Engine.inflightEntries]
  have hsame : Scheduler.Same e.base.scheduler e'.base.scheduler := (hS.step.same.trans hR.same).trans hj.same
  have hrun : ∀ x ∈ e'.base.scheduler.running, x ∈ s.running := fun x hx => hR.running ▸ hj.running.subset hx
  have hperm : e'.base.requests.Perm (e'.base.scheduler.running ++ e'.base.scheduler.waiting) := by
    refine hj.requests ?_
    show e.base.requests.Perm (s1.running ++ s1.waiting)
    rw [hR.running, hR.waiting]
    exact hcore.requests
  have hsub : ∀ x ∈ e'.base.scheduler.running ++ e'.base.scheduler.waiting, x ∈ s.running ++ s.waiting := by
    intro x hx
    rcases List.mem_append.mp hx with hx | hx
    · exact List.mem_append_left _ (hrun x hx)
    · rw [hj.waiting] at hx
      exact List.mem_append_right _ (hR.waiting ▸ hx)
  have hsound : e'.base.Sound := by
    refine ⟨⟨?_, hperm, fun r hr => ?_, ?_⟩, fun hc x hx => ?_, fun _ => hin, fun L hL => ?_⟩
    · rw [hent]
      exact hp.sound
    · rw [hj.nextRid] at hr
      obtain ⟨hblank, hnot⟩ := hcore.later r hr
      have hx : r ∉ b.rows.map Row.rid := fun hx => by
        obtain ⟨row, hrow, rfl⟩ := List.mem_map.mp hx
        exact hnot (List.mem_append_left _ ((hS.batch b rfl).rows row hrow).mem)
      refine ⟨?_, fun hx' => hnot (hsub r hx')⟩
      have := hp.other hx
      rw [Engine.request, hreq] at this
      rw [this]
      exact hblank
    · rw [hsame.maxRunning]
      refine hj.running.length_le.trans ?_
      show s1.running.length ≤ _
      rw [hR.running, ← hS.step.same.maxRunning]
      exact hcore.len
    · rw [hsame.chunkedPrefillSize] at hc
      by_cases hb : x ∈ b.rows.map Row.rid
      · obtain ⟨n, hn⟩ := hp.running hx hb
        exact ((hp.verdict x hb).going n hn).1
      · have := hp.other hb
        rw [Engine.request, hreq] at this
        rw [this]
        rcases hset hc x (hrun x hx) with hst | ⟨b', hb', row, hrow, hrid, -⟩
        · exact hst
        · obtain rfl := Option.some.inj (Except.ok.inj hb')
          exact absurd (List.mem_map.mpr ⟨row, hrow, hrid⟩) hb
    · rw [hin] at hL
      simp at hL
  refine h.moved hsound ?_ hj.overlap hsame hg (fun r hr => ?_) fun r hr => ?_
  · rw [Engine.pool, hent]
    exact hp.content
  · exact hcore.requests.mem_iff.mpr (hsub r (hperm.mem_iff.mp hr))
  · have h1 : Alike (e.base.request r) (s.reqs r) := hm.alike hr
    rw [← hreq] at h1
    exact h1.trans (hp.alike r)

end Passed

theorem Based.plain (h : Based target e) {out : Option Batch} (hstep : e.base.step target.toModel = (.ok out, e'.base))
    (hg : e'.gamma = e.gamma) : Based target e' := by
  rcases h.sound.step_cases target.toModel with ⟨s, -, h1⟩ | ⟨b, s, err, -, -, h1⟩ | ⟨out', e1, h1, h2, hst, hA⟩
  · rw [hstep] at h1; simp at h1
  · rw [hstep] at h1; simp at h1
  · obtain rfl : e1 = e'.base := by
      rw [hstep] at h1
      exact (Prod.mk.inj h1).2.symm
    exact h.moved h2 (hst.content_plain h.sound h.inflight h.content) hA.overlap hA.same hg hA.requests
      fun r hr => hst.alike hr

theorem Based.step (h : Based target e) {out : Option Batch} (hstep : e.step target dm = (.ok out, e')) :
    Based target e' := by
  obtain ⟨hadv, hg⟩ := h.advances hstep
  cases hadv with
  | plain _ hplain => exact h.plain hplain hg
  | round hout _ hsch hbase _ _ _ hp => exact h.passed hsch hbase hp rfl hg

theorem Based.raised (h : Based target e) {err : Error} (hsch : e.base.scheduler.schedule = (.error err, s)) :
    Based target { e with base := { e.base with scheduler := s } } := by
  have hm := h.pool_moves hsch
  refine h.moved (h.sound.step_error hsch) ?_ rfl (h.scheduled hsch).1.step.same rfl
    (fun _ hr => hr) fun r hr => hm.alike hr
  have := hm.content h.sound.pool h.content
  rw [Engine.pool, show Engine.entries { e.base with scheduler := s } = [] from h.entries]
  exact this

end Step

end SpecEngine

end MiniServe
