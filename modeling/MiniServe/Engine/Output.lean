import MiniServe.Engine.Forward

namespace MiniServe

open KVCacheManager Generate

namespace Pool

variable {p p' : Pool} {r : Rid}

-- With at most one token in flight the sequence is the request's, its placeholder replaced.
theorem Sound.truth_map (hs : p.Sound) (hd : ¬ (p.reqs r).isDone) (h1 : (p.reqs r).numPending ≤ 1)
    (hp : placeholder ∉ (p.reqs r).promptIds) : p.truth r = (p.reqs r).tokens.map fun id =>
      if id = placeholder then (inflightTokens (p.older ++ p.newer) r).headD 0 else id := by
  have hpend := hs.pending r hd
  have hlen : (inflightTokens (p.older ++ p.newer) r).length = (p.reqs r).numPending := by
    rw [inflightTokens_length, hpend.length]
  have hready : placeholder ∉ (p.reqs r).promptIds ++ (p.reqs r).readyIds := by
    obtain ⟨ready, ho, hnot, -⟩ := hpend
    have hr : (p.reqs r).readyIds = ready := by simp [Request.readyIds, ho]
    rw [hr, List.mem_append, not_or]
    exact ⟨hp, hnot⟩
  have hmap : ∀ tok : Token, ((p.reqs r).promptIds ++ (p.reqs r).readyIds).map
      (fun id => if id = placeholder then tok else id) = (p.reqs r).promptIds ++ (p.reqs r).readyIds := fun tok => by
    refine (List.map_congr_left fun id hid => ?_).trans (List.map_id _)
    have : id ≠ placeholder := fun e => hready (e ▸ hid)
    simp [this]
  rw [hpend.tokens_eq, List.map_append, hmap, truth, outputs, ← List.append_assoc]
  congr 1
  rcases Nat.le_one_iff_eq_zero_or_eq_one.mp h1 with h0 | h1
  · rw [h0] at hlen
    rw [List.length_eq_zero_iff.mp hlen, h0]
    rfl
  · rw [h1] at hlen
    obtain ⟨tok, htok⟩ := List.length_eq_one_iff.mp hlen
    rw [htok, h1]
    simp

end Pool

namespace Engine

variable {e e' : Engine} {model : Model} {c : EngineConfig} {r : Rid} {s s1 : Scheduler} {b : Batch} {row : Row}
  {es : List Entry} {d : Device}

theorem Reserved.truth {rows : List Row} (h : Scheduler.Reserved s s1 rows) (r : Rid) :
    (s1.openPool rows es []).truth r = (s.pool [] es).truth r := by
  obtain ⟨cache, hc⟩ := h.reqs r
  simp only [Pool.truth, Pool.outputs, Scheduler.openPool, Scheduler.pool, hc]
  rfl

theorem inputRow_truth (hs : (s.pool [] es).Sound) (hb : s.BatchFits b)
    (hp : ∀ row ∈ b.rows, placeholder ∉ (s.reqs row.rid).promptIds) (hrow : row ∈ b.rows) :
    (inputRow es s row).length = row.len ∧
      ∀ i < row.len, (inputRow es s row)[i]? = ((s.pool [] es).truth row.rid)[row.start + i]? := by
  have hl : row.rid ∈ s.running ++ [] := by simpa using (hb.rows row hrow).mem
  have hd := hs.not_done (.inl hl)
  have htruth : (s.pool [] es).truth row.rid = (s.reqs row.rid).tokens.map fun id =>
      if id = placeholder then (inflightTokens (es ++ []) row.rid).headD 0 else id :=
    hs.truth_map hd (row_pending hs hb hrow).2 (hp row hrow)
  refine ⟨?_, fun i hi => ?_⟩
  · have := (hb.rows row hrow).le
    rw [inputRow, List.length_map, ModelRunner.rowIds, Request.tokenSlice_eq, List.length_take, List.length_drop,
      Request.tokens_length]
    omega
  · rw [htruth, List.append_nil, inputRow, ModelRunner.rowIds, Request.tokenSlice_eq,
      List.getElem?_map, List.getElem?_map,
      List.getElem?_take_of_lt hi, List.getElem?_drop]

theorem Launches.content {ids : List Token} {s2 : Scheduler} {slots : List (Option Nat)}
    (hs : (e.scheduler.pool [] es).Sound) (hc : Pool.Content model e.device none (e.scheduler.pool [] es))
    (hin : ∀ row ∈ b.rows, (inputRow es e.scheduler row).length = row.len ∧
      ∀ i < row.len, (inputRow es e.scheduler row)[i]? = ((e.scheduler.pool [] es).truth row.rid)[row.start + i]?)
    (hids : ids = b.rows.flatMap (inputRow es e.scheduler)) (hL : Launches model e b ids es s1 s2 slots) :
    Pool.Content model (wrote e s1 b es ids) none
      (s2.openPool [] es (entriesOf (sampleOf model s1 (wrote e s1 b es ids)) b.rows slots)) := by
  have hs1 := hL.opens.sound hs
  have hlen : ∀ row ∈ (s1.openPool b.rows es []).opened, (inputRow es e.scheduler row).length = row.len :=
    fun row hrow => (hin row hrow).1
  have hwrote : wrote e s1 b es ids =
      ModelRunner.write e.device ((s1.openPool b.rows es []).writes (inputRow es e.scheduler)) := by
    rw [← Pool.writes_eq hlen, hids]
    rfl
  have hrun := (hL.opens.content hs hc).run (f := sampleOf model s1 (wrote e s1 b es ids)) hs1 hlen
    (fun row hrow i hi => by rw [Reserved.truth hL.reserved]; exact (hin row hrow).2 i hi)
    (fun row _ => by rw [← hwrote]; rfl)
  rw [← hwrote] at hrun
  have hend := hL.settles.content hs1 hrun
  exact ⟨fun r hr pos hw => hend.tables r hr pos ⟨hw.1, fun h => by simp at h⟩, hend.cells, hend.told,
    fun f hf => by simp at hf⟩

theorem Stepped.content (he : e.Sound) (hp : ∀ r ∈ e.requests, placeholder ∉ (e.request r).promptIds)
    (hc : Pool.Content model e.device none e.pool) (h : Stepped model e e') :
    Pool.Content model e'.device none e'.pool := by
  cases h with
  | idle hsch hm hd =>
    rw [hd]
    exact hm.content he.pool hc
  | @launch s s1 s2 b ids slots e2 hsch hb hids hs hL hread hd =>
    have hfill := (he.fills hsch fun row hrow => hp _ (he.scheduled_prompt hsch hrow).1).filled
    rw [hids] at hfill
    have hsound := hs.sound he.pool
    have hp' : ∀ row ∈ b.rows, placeholder ∉ (s.reqs row.rid).promptIds := by
      intro row hrow
      obtain ⟨hreq, hprompt⟩ := he.scheduled_prompt hsch hrow
      rw [hprompt]
      exact hp _ hreq
    have hlaunch := hL.content hsound (hs.content he.pool hc) (fun row hrow => inputRow_truth hsound hb hp' hrow)
      (Except.ok.inj hfill)
    have hmid := hL.settles.sound (hL.opens.sound hsound)
    rw [hd]
    exact hread.content hmid hlaunch

theorem new_content (model : Model) (c : EngineConfig) : Pool.Content model (new c).device none (new c).pool where
  tables := fun r hr => by simp [new, pool, Scheduler.openPool, Scheduler.pool, EngineConfig.scheduler] at hr
  cells := fun key b hk => by
    cases hr : c.radix <;>
      simp [new, pool, Scheduler.openPool, Scheduler.pool, EngineConfig.scheduler, KVCacheManager.new, hr, cachedCells,
        RadixTree.new, cells] at hk
  told := fun r => ⟨fun _ => rfl, fun _ => Nat.zero_le _, fun _ tok htok => by
      simp [new, pool, Scheduler.openPool, Scheduler.pool, EngineConfig.scheduler, Request.blank,
        Request.readyIds] at htok,
    fun h => by simp [new, pool, Scheduler.openPool, Scheduler.pool, EngineConfig.scheduler, Request.blank] at h,
    fun h => by simp [new, pool, Scheduler.openPool, Scheduler.pool, EngineConfig.scheduler, Request.blank] at h⟩
  sampled := fun f hf => by simp at hf

theorem Reachable.content (h : Reachable model c (fun prompt => placeholder ∉ prompt) e) :
    Pool.Content model e.device none e.pool := by
  induction h with
  | init => exact new_content model c
  | @add e prompt params h hp ih =>
    rcases e.addRequest_cases prompt params with ⟨err, d, he⟩ | ⟨q, d, hq, hrid, -, -, -, -, he⟩
    · rw [he]; exact ih
    · rw [he]; exact (h.sound.submit hq hrid).2.content h.sound.pool ih
  | @abort e e' r h ha ih =>
    obtain ⟨e1, h1, -, hm, hk⟩ := h.sound.abort r
    obtain rfl : e1 = e' := Except.ok.inj (h1.symm.trans ha)
    rw [hk.device]
    exact hm.content h.sound.pool ih
  | step h hs ih =>
    rcases h.sound.step_cases model with ⟨s, -, h1⟩ | ⟨b, s, err, -, -, h1⟩ | ⟨out', e1, h1, -, hst, -⟩
    · rw [hs] at h1; simp at h1
    · rw [hs] at h1; simp at h1
    · rw [hs] at h1
      obtain rfl := (Prod.mk.inj h1).2
      exact hst.content h.sound h.prompts ih
  | @raised e s err h hs ih =>
    obtain ⟨hS, -⟩ := h.sound.schedule
    rw [hs] at hS
    exact hS.step.moves.content h.sound.pool ih

section Alone

variable {ok : List Token → Prop} {prompt : List Token} {params : SamplingParams}

inductive Call (model : Model) (ok : List Token → Prop) : Engine → Engine → Prop
  | add {e : Engine} {prompt : List Token} {params : SamplingParams} (hp : ok prompt) :
      Call model ok e (e.addRequest prompt params).2
  | abort {e e' : Engine} {r : Rid} (ha : e.abort r = .ok e') : Call model ok e e'
  | step {e e' : Engine} {out : Option Batch} (hs : e.step model = (.ok out, e')) : Call model ok e e'

def Calls (model : Model) (ok : List Token → Prop) : Engine → Engine → Prop := Relation.ReflTransGen (Call model ok)

theorem Reachable.call (h : Reachable model c ok e) (hc : Call model ok e e') : Reachable model c ok e' := by
  cases hc with
  | add hp => exact .add h hp
  | abort ha => exact .abort h ha
  | step hs => exact .step h hs

theorem Call.alike (he : e.Sound) (hr : (e.request r).promptIds ≠ []) (h : Call model ok e e') :
    Pool.Alike (e.request r) (e'.request r) := by
  cases h with
  | @add prompt params hp =>
    rcases e.addRequest_cases prompt params with ⟨err, d, h1⟩ | ⟨q, d, hq, hrid, -, -, -, -, h1⟩
    · rw [h1]; exact ⟨rfl, rfl, rfl⟩
    · rw [h1]; exact (he.submit (d := d) hq hrid).2.alike hr
  | @abort _ r' ha =>
    obtain ⟨e1, h1, -, hm, -⟩ := he.abort r'
    obtain rfl : e1 = e' := Except.ok.inj (h1.symm.trans ha)
    exact hm.alike hr
  | step hs =>
    rcases he.step_cases model with ⟨s, -, h1⟩ | ⟨b, s, err, -, -, h1⟩ | ⟨out', e1, h1, -, hst, -⟩
    · rw [hs] at h1; simp at h1
    · rw [hs] at h1; simp at h1
    · rw [hs] at h1
      obtain rfl := (Prod.mk.inj h1).2
      exact hst.alike hr

theorem Calls.alike (h : Calls model ok e e') (he : Reachable model c ok e) (hr : (e.request r).promptIds ≠ []) :
    Reachable model c ok e' ∧ Pool.Alike (e.request r) (e'.request r) := by
  induction h with
  | refl => exact ⟨he, rfl, rfl, rfl⟩
  | tail _ hc ih => exact ⟨ih.1.call hc, ih.2.trans (hc.alike ih.1.sound (ih.2.ne_nil hr))⟩

def submission (e : Engine) (prompt : List Token) (params : SamplingParams) : Request :=
  { rid := e.nextRid, promptIds := prompt, params, seed := params.seed.getD (e.seeds e.drawn) }

theorem calls_submission (h : Reachable model c ok e) (hok : ok prompt)
    (hadd : e.addRequest prompt params = (.ok r, e')) {e2 : Engine} (hrun : Calls model ok e' e2) :
    Reachable model c ok e2 ∧ Pool.Alike (e.submission prompt params) (e2.request r) := by
  have hreach : Reachable model c ok e' := by
    have := @Reachable.add _ _ _ _ _ params h hok
    rwa [hadd] at this
  rcases e.addRequest_cases prompt params with ⟨err, d, h1⟩ | ⟨q, d, hq, hrid, hpr, hpa, hseed, -, h1⟩
  · rw [hadd] at h1
    simp at h1
  · rw [hadd] at h1
    obtain ⟨h1, h2⟩ := Prod.mk.inj h1
    obtain rfl := Except.ok.inj h1
    have hself : e'.request q.rid = q := by
      rw [h2]
      exact Function.update_self _ _ _
    obtain ⟨h3, h4⟩ := hrun.alike hreach (r := q.rid) (by rw [hself]; exact hq.prompt)
    rw [hself] at h4
    exact ⟨h3, Pool.Alike.trans ⟨hpr, hpa, hseed⟩ h4⟩

theorem scheduling_keeps_output (h : Reachable model c (fun prompt => placeholder ∉ prompt) e)
    (hprompt : placeholder ∉ prompt) (hadd : e.addRequest prompt params = (.ok r, e')) {e2 : Engine}
    (hrun : Calls model (fun prompt => placeholder ∉ prompt) e' e2) :
    ((e2.request r).state = .finished → (e2.request r).outputIds = model.output (e.submission prompt params)) ∧
      ((e2.request r).state = .aborted → (e2.request r).outputIds <+: model.output (e.submission prompt params)) := by
  obtain ⟨h2, ha⟩ := calls_submission h hprompt hadd hrun
  have htold := h2.content.told r
  rw [← Model.output_alike ha]
  exact ⟨htold.finished, htold.aborted⟩

def ended : Engine := (afterFirst.step (constant 7)).2

theorem scheduling_keeps_output_ended : (ended.request 0).state = .finished ∧ (ended.request 0).outputIds = [7, 7] ∧
    (ended.request 0).outputIds = (constant 7).output ((new tiny).submission [1, 2] { maxNewTokens := 2 }) := by
  have hstep : ∀ e : Engine, (e.step (constant 7)).1.isOk = true →
      Call (constant 7) (fun prompt => placeholder ∉ prompt) e (e.step (constant 7)).2 := by
    intro e he
    cases hr : (e.step (constant 7)).1 with
    | error err => simp [hr, Except.isOk, Except.toBool] at he
    | ok out => exact .step (Prod.ext hr rfl)
  have hadd : (new tiny).addRequest [1, 2] { maxNewTokens := 2 } = (.ok 0, submitted) :=
    Prod.ext (by decide +kernel) rfl
  have hrun : Calls (constant 7) (fun prompt => placeholder ∉ prompt) submitted ended :=
    (Relation.ReflTransGen.single (hstep submitted (by decide +kernel))).tail (hstep afterFirst (by decide +kernel))
  have hfin : (ended.request 0).state = .finished := by decide +kernel
  exact ⟨hfin, by decide +kernel, (scheduling_keeps_output .init (by decide) hadd hrun).1 hfin⟩

end Alone

end Engine

end MiniServe
