import MiniServe.Engine.Invariants
import MiniServe.Engine.PagedRun

namespace MiniServe

open KVCacheManager PackedTables ModelRunner

namespace Engine

variable {e e' : Engine} {d : Device} {r : Rid} {model : Model}

def on (e : Engine) (d : Device) : Engine := { e with device := d }

@[simp] theorem on_scheduler : (e.on d).scheduler = e.scheduler := rfl

@[simp] theorem on_requests : (e.on d).requests = e.requests := rfl

@[simp] theorem on_request : (e.on d).request r = e.request r := rfl

@[simp] theorem on_overlap : (e.on d).overlap = e.overlap := rfl

@[simp] theorem on_inflight : (e.on d).inflight = e.inflight := rfl

theorem retire_on : (e.on d).retire r = (e.retire r).map (·.on d) := by
  cases hr : release (e.scheduler.set r (e.request r).dropPending) r with
  | error err => simp [retire, hr, Except.map]
  | ok s =>
    cases ht : s.retire r with
    | error err => simp [retire, hr, ht, Except.map]
    | ok s =>
      simp only [retire, on_scheduler, on_request, hr, ht]
      by_cases h : r ∈ e.requests
      · rw [if_pos (show r ∈ (e.on d).requests from h), if_pos h]
        rfl
      · rw [if_neg (show r ∉ (e.on d).requests from h), if_neg h]
        rfl

theorem abort_on : (e.on d).abort r = (e.abort r).map (·.on d) := by
  by_cases h : r ∈ e.requests
  · cases hq : (e.request r).transition .aborted with
    | error err => simp [abort, h, hq, Except.map]
    | ok q =>
      simp only [abort, on_requests, on_request, on_scheduler, if_pos h, hq]
      exact @retire_on { e with scheduler := e.scheduler.set r q } d r
  · simp [abort, h, Except.map]

theorem processRow_on (tok : Token) (slot : Option Nat) :
    (e.on d).processRow r tok slot = (e.processRow r tok slot).map (·.on d) := by
  cases slot with
  | none => rfl
  | some k =>
    simp only [processRow]
    by_cases hdone : (e.request r).isDone
    · show (if (e.request r).isDone then _ else _) = _
      rw [if_pos hdone, if_pos hdone]
      rfl
    · show (if (e.request r).isDone then _ else _) = _
      rw [if_neg hdone, if_neg hdone]
      show (if k + 1 ≥ (e.request r).params.maxNewTokens ∨ tok ∈ (e.request r).params.stopTokenIds then _ else _) = _
      by_cases hend : k + 1 ≥ (e.request r).params.maxNewTokens ∨ tok ∈ (e.request r).params.stopTokenIds
      · rw [if_pos hend, if_pos hend, on_request]
        split
        · rfl
        · next q _ => exact @retire_on { e with scheduler := e.scheduler.set r q } d r
      · rw [if_neg hend, if_neg hend]
        rfl

theorem processRows_on (l : List (Rid × Token × Option Nat)) :
    processRows l (e.on d) = (processRows l e).map (·.on d) := by
  induction l generalizing e with
  | nil => rfl
  | cons x l ih =>
    obtain ⟨r, tok, slot⟩ := x
    rw [processRows, processRows, processRow_on]
    cases e.processRow r tok slot with
    | error err => rfl
    | ok e1 => exact ih

theorem readBack_on (L : Option Launched) : (e.on d).readBack L = (e.readBack L).map fun x => (x.1, x.2.on d) := by
  cases L with
  | none => rfl
  | some L =>
    rw [readBack, readBack, process, process, processRows_on]
    cases processRows L.entries e with
    | error err => rfl
    | ok e1 => rfl

theorem addRequest_on (prompt : List Token) (params : SamplingParams) :
    (e.on d).addRequest prompt params = ((e.addRequest prompt params).1, (e.addRequest prompt params).2.on d) := by
  cases hq : Request.new e.nextRid prompt params with
  | error err =>
    dsimp only [addRequest, on]
    rw [hq]
  | ok q =>
    have hq' : Request.new (e.on d).nextRid prompt params = .ok q := hq
    cases hs : e.scheduler.add { q with seed := params.seed.getD (e.seeds e.drawn) } with
    | error err =>
      have hs' : (e.on d).scheduler.add
        { q with seed := params.seed.getD ((e.on d).seeds (e.on d).drawn) } = .error err := hs
      simp only [addRequest, hq, hq', hs, hs']
      cases params.seed <;> rfl
    | ok s =>
      have hs' : (e.on d).scheduler.add { q with seed := params.seed.getD ((e.on d).seeds (e.on d).drawn) } = .ok s := hs
      simp only [addRequest, hq, hq', hs, hs']
      cases params.seed <;> rfl

theorem addRequest_same (e : Engine) (prompt : List Token) (params : SamplingParams) :
    Scheduler.Same e.scheduler (e.addRequest prompt params).2.scheduler ∧
    (e.addRequest prompt params).2.device = e.device := by
  rcases e.addRequest_cases prompt params with ⟨err, d, h⟩ | ⟨q, d, -, -, -, -, -, -, h⟩
  · rw [h]
    exact ⟨Scheduler.Same.refl _, rfl⟩
  · rw [h]
    exact ⟨⟨rfl, rfl, rfl, rfl, rfl, rfl, rfl, rfl⟩, rfl⟩

theorem readBack_device {L : Option Launched} {out : Option Batch} (h : e.readBack L = .ok (out, e')) :
    e'.device = e.device := by
  have hon := readBack_on (e := e) (d := e.device) L
  rw [show e.on e.device = e from rfl, h] at hon
  have heq : e' = e'.on e.device := (Prod.mk.inj (Except.ok.inj hon)).2
  rw [heq]
  rfl

end Engine

namespace PagedEngine

variable {p p' : PagedEngine} {e e' : Engine} {K : PagedKernel} {model : Model} {c : EngineConfig}

-- The two engines differ in what is past the pool's blocks: the block of the padding rows.
structure Shows (p : PagedEngine) (e : Engine) : Prop where
  engine : p.engine = e.on p.engine.device
  same : SameBelow (e.scheduler.kv.allocator.numBlocks * e.scheduler.kv.blockSize) e.device p.engine.device
  kernels : p.kernels.Sound e.scheduler.kv.allocator.numBlocks e.scheduler.kv.blockSize

inductive Mirrors (K : PagedKernel) (model : Model) (p : PagedEngine) (e : Engine) : Prop
  | tooLarge {b : Batch} {s : Scheduler} {x : PassInput} {err : PassError} {p' : PagedEngine}
      (hsch : e.scheduler.schedule = (.ok (some b), s)) (hx : PassOf s b e.inflight x)
      (he : x.TooLarge e.scheduler.kv.allocator.numBlocks err) (hp : p.step K model = (.error err, p'))
  | error {err : Error} {p' : PagedEngine} {e' : Engine} (hp : p.step K model = (.error (.engine err), p'))
      (hs : e.step model = (.error err, e'))
  | ok {out : Option Batch} {p' : PagedEngine} {e' : Engine} (hp : p.step K model = (.ok out, p'))
      (hs : e.step model = (.ok out, e')) (hd : SameBelow (e.scheduler.kv.allocator.numBlocks * e.scheduler.kv.blockSize)
        e'.device p'.engine.device) (he : p'.engine = e'.on p'.engine.device)
      (hk : p'.kernels.Sound e.scheduler.kv.allocator.numBlocks e.scheduler.kv.blockSize)

theorem launchBatch_error {b : Batch} {err : PassError} {k' : Kernels}
    (h : forwardPaged K model p.engine.scheduler p.engine.device b p.engine.inflight p.kernels = (.error err, k')) :
    p.launchBatch K model (some b) = (.error err, p.raised b k') := by simp only [launchBatch, launch, h]

theorem launchBatch_ok {b : Batch} {pass : Pass} {k' : Kernels} {slots : List (Option Nat)} {s : Scheduler}
    (h : forwardPaged K model p.engine.scheduler p.engine.device b p.engine.inflight p.kernels = (.ok pass, k'))
    (hset : Engine.settleRows
      (b.rows.zip (b.rows.map (Engine.completes p.engine.scheduler))) pass.scheduler = .ok (slots, s)) :
    p.launchBatch K model (some b) = (.ok (some ⟨b, pass.tokens, slots⟩),
      ⟨{ p.engine with scheduler := s, device := pass.device }, k'⟩) := by
  simp only [launchBatch, launch, h, hset]

theorem step_launch_error {batch : Option Batch} {s : Scheduler} {err : PassError}
    (hsch : p.engine.scheduler.schedule = (.ok batch, s))
    (h : launchBatch K model
      { p with engine := { p.engine with scheduler := s, launched := batch } } batch = (.error err, p')) :
    p.step K model = (.error err, p') := by simp only [PagedEngine.step, hsch, h]

theorem step_launched {s : Scheduler} {batch : Option Batch} {L : Option Launched} {e2 : Engine} {d w : Device}
    {k k' : Kernels} (hsch : e.scheduler.schedule = (.ok batch, s))
    (hl : Engine.launchBatch { e with scheduler := s, launched := batch } model batch = .ok (L, e2))
    (hp : launchBatch K model ⟨{ e.on d with scheduler := s, launched := batch }, k⟩ batch = (.ok L, ⟨e2.on w, k'⟩))
    (hd : SameBelow (e.scheduler.kv.allocator.numBlocks * e.scheduler.kv.blockSize) e2.device w)
    (hk : k'.Sound e.scheduler.kv.allocator.numBlocks e.scheduler.kv.blockSize) :
    Mirrors K model ⟨e.on d, k⟩ e := by
  let e3 : Engine := { e2 with inflight := if e.overlap then L else none }
  let prev := if e.overlap then e.inflight else L
  have hpair : (if e.overlap = true then (e.inflight, L) else (L, none)) = (prev, if e.overlap then L else none) := by
    simp only [prev]
    split <;> rfl
  have hsch' : (e.on d).scheduler.schedule = (.ok batch, s) := hsch
  have hpair' : (if (e.on d).overlap = true then ((e.on d).inflight, L) else (L, none)) =
      (prev, if e.overlap then L else none) := hpair
  have hon : Engine.readBack { e2.on w with inflight := if e.overlap then L else none } prev = _ :=
    @Engine.readBack_on e3 w prev
  cases hrb : e3.readBack prev with
  | error err =>
    have hstep : e.step model = (.error err, e2) := by
      simp only [Engine.step, hsch, hl, hpair]
      rw [show Engine.readBack _ prev = _ from hrb]
    have hpaged : step K model ⟨e.on d, k⟩ = (.error (.engine err), ⟨e2.on w, k'⟩) := by
      rw [hrb] at hon
      simp only [step, hsch']
      rw [hp]
      simp only [hpair']
      rw [hon]
      rfl
    exact .error hpaged hstep
  | ok out =>
    obtain ⟨out, e'⟩ := out
    have hpaged : step K model ⟨e.on d, k⟩ = (.ok out, ⟨e'.on w, k'⟩) := by
      rw [hrb] at hon
      simp only [step, hsch']
      rw [hp]
      simp only [hpair']
      rw [hon]
      rfl
    refine .ok hpaged (Engine.step_of_launch hsch hl hrb) ?_ rfl hk
    rw [Engine.readBack_device hrb]
    exact hd

theorem step_batch {s : Scheduler} {b : Batch} {d : Device} {k : Kernels} (he : e.Sound) (ht : e.pool.Trim)
    (hK : K.Documented) (hsch : e.scheduler.schedule = (.ok (some b), s))
    (hd : SameBelow (e.scheduler.kv.allocator.numBlocks * e.scheduler.kv.blockSize) e.device d)
    (hk : k.Sound e.scheduler.kv.allocator.numBlocks e.scheduler.kv.blockSize) : Mirrors K model ⟨e.on d, k⟩ e := by
  have hS := (he.schedule_eq hsch).1
  have hpool : (s.pool [] e.entries).Sound := hS.step.sound he.pool
  have htrim : (s.pool [] e.entries).Trim := hS.step.moves.trim he.pool ht
  have hb := hS.batch b rfl
  have hfit := hS.fits _ rfl
  let e1 : Engine := { e with scheduler := s, launched := some b }
  have hsch' : (e.on d).scheduler.schedule = (.ok (some b), s) := hsch
  cases hids : fillRows b (b.rows.flatMap (rowIds s)) e.inflight with
  | error err =>
    have hfill := fillRows_eq b e.inflight hb.numDecode_le (numDecode_le_ids hb)
    cases hidx : fillIdx b (b.rows.flatMap (rowIds s)) e.inflight with
    | ok fill =>
      rw [hids, hidx] at hfill
      simp [Except.map] at hfill
    | error err' =>
      rw [hids, hidx] at hfill
      obtain rfl : err = err' := Except.error.inj hfill
      have hforward : forwardPaged K model s d b e.inflight k = (.error (.engine err), k) := by
        simp only [forwardPaged, hidx]
      have hp := launchBatch_error (p := ⟨e1.on d, k⟩) hforward
      exact .error (step_launch_error hsch' hp) (Engine.step_fill_error hsch hids)
  | ok ids =>
    have hnum := hS.step.same.numBlocks
    have hsize := hS.step.same.blockSize
    rw [← hnum, ← hsize] at hd hk
    obtain ⟨k', hk', hrun⟩ := forwardPaged_cases model hpool hb htrim hfit hids hK hk hd
    rw [hnum, hsize] at hk' hrun
    rcases hrun with ⟨x, err, hx, hbig, hrun⟩ | ⟨hlong, pass, w, hforward, hrun, hw⟩
    · have hp := launchBatch_error (p := ⟨e1.on d, k⟩) hrun
      exact .tooLarge hsch hx hbig (step_launch_error hsch' hp)
    · obtain ⟨s1, s2, slots, -, hlaunch⟩ :=
        @Engine.launch_ok e.entries e1 model b e.inflight ids hpool hb hfit hids hlong
      cases hset : Engine.settleRows (b.rows.zip (b.rows.map (Engine.completes s))) pass.scheduler with
      | error err =>
        simp only [Engine.launch, e1, hforward, hset] at hlaunch
        simp at hlaunch
      | ok x =>
        obtain ⟨slots, s2⟩ := x
        have hl : e1.launchBatch model (some b) =
            .ok (some ⟨b, pass.tokens, slots⟩, { e1 with scheduler := s2, device := pass.device }) := by
          simp only [Engine.launchBatch, Engine.launch, e1, hforward, hset]
        have hp := launchBatch_ok (p := ⟨e1.on d, k⟩) hrun hset
        exact step_launched hsch hl hp hw hk'

theorem Shows.step (model : Model) (h : p.Shows e) (he : e.Sound) (ht : e.pool.Trim) (hK : K.Documented) :
    Mirrors K model p e := by
  obtain ⟨hengine, hsame, hk⟩ := h
  generalize p.engine.device = d at hengine hsame
  obtain ⟨engine, k⟩ := p
  obtain rfl : engine = e.on d := hengine
  obtain ⟨⟨res, s⟩, hsch⟩ : ∃ x, e.scheduler.schedule = x := ⟨_, rfl⟩
  cases res with
  | error err =>
    have hp : PagedEngine.step K model ⟨e.on d, k⟩ =
        (.error (.engine err), ⟨{ e.on d with scheduler := s }, k⟩) := by
      simp only [PagedEngine.step, Engine.on_scheduler, hsch]
    have hs : e.step model = (.error err, { e with scheduler := s }) := by simp only [Engine.step, hsch]
    exact .error hp hs
  | ok batch =>
    cases batch with
    | none => exact step_launched hsch rfl rfl hsame hk
    | some b => exact step_batch he ht hK hsch hsame hk

-- A runner's kernels as it builds them: one pass was planned to profile memory, and the decode
-- graphs, when captured, run over the pool's blocks and one more.
inductive Built (N bs : Nat) : Kernels → Prop
  | eager (probe : SizedTable) : Built N bs { packed := ((PackedTables.new 64 4096).pack [probe] 0 0 1).2 }
  | captured {maxBs : Nat} {buckets : List Nat} {g : DecodeGraphs} (probe : SizedTable)
      (hb : graphBuckets maxBs = .ok buckets)
      (hg : DecodeGraphs.new buckets 1 (N + 1) bs N = .ok g) :
      Built N bs { packed := ((PackedTables.new 64 4096).pack [probe] 0 0 1).2, graphs := some g, useCudaGraph := true }

theorem Built.sound {N bs : Nat} {k : Kernels} (h : Built N bs k) : k.Sound N bs := by
  have hpacked (probe : SizedTable) : ((PackedTables.new 64 4096).pack [probe] 0 0 1).2.Sized :=
    (PackedTables.new_sized 64 4096 (by decide) (by decide)).pack [probe] 0 0 1
  cases h with
  | eager probe => exact ⟨hpacked probe, nofun, nofun⟩
  | captured probe hb hg =>
    refine ⟨hpacked probe, fun g' hg' => ?_, fun _ => by simp⟩
    obtain rfl := Option.some.inj hg'
    exact ⟨_, .new hb hg⟩

inductive Reachable (K : PagedKernel) (model : Model) (c : EngineConfig) (ok : List Token → Prop) : PagedEngine → Prop
  | init {k : Kernels} (hk : Built c.numBlocks c.blockSize k) : Reachable K model c ok ⟨.new c, k⟩
  | add {p : PagedEngine} {prompt : List Token} {params : SamplingParams}
      (h : Reachable K model c ok p) (hp : ok prompt) :
      Reachable K model c ok { p with engine := (p.engine.addRequest prompt params).2 }
  | abort {p : PagedEngine} {e : Engine} {r : Rid} (h : Reachable K model c ok p) (ha : p.engine.abort r = .ok e) :
      Reachable K model c ok { p with engine := e }
  | step {p p' : PagedEngine} {out : Option Batch} (h : Reachable K model c ok p) (hs : p.step K model = (.ok out, p')) :
      Reachable K model c ok p'
  | raised {p : PagedEngine} {s : Scheduler} {err : Error} (h : Reachable K model c ok p)
      (hs : p.engine.scheduler.schedule = (.error err, s)) :
      Reachable K model c ok { p with engine := { p.engine with scheduler := s } }
  | switch {p : PagedEngine} {on : Bool} (h : Reachable K model c ok p) (hon : on = true → p.kernels.graphs ≠ none) :
      Reachable K model c ok { p with kernels := { p.kernels with useCudaGraph := on } }

theorem Shows.of_same {d : Device} {k : Kernels} (hs : Scheduler.Same e.scheduler e'.scheduler)
    (hd : SameBelow (e.scheduler.kv.allocator.numBlocks * e.scheduler.kv.blockSize) e'.device d)
    (hk : k.Sound e.scheduler.kv.allocator.numBlocks e.scheduler.kv.blockSize) : Shows ⟨e'.on d, k⟩ e' := by
  rw [← hs.numBlocks, ← hs.blockSize] at hd hk
  exact ⟨rfl, hd, hk⟩

theorem Reachable.shows {ok : List Token → Prop} (hK : K.Documented) (h : Reachable K model c ok p) :
    ∃ e, Engine.Reachable model c ok e ∧ p.Shows e := by
  induction h with
  | init hk => exact ⟨.new c, .init, rfl, SameBelow.refl _ _, hk.sound⟩
  | @add p prompt params h hp ih =>
    obtain ⟨e, he, hshow⟩ := ih
    obtain ⟨hsame, hdev⟩ := e.addRequest_same prompt params
    refine ⟨_, @Engine.Reachable.add _ _ _ _ prompt params he hp, ?_⟩
    rw [hshow.engine, Engine.addRequest_on]
    exact .of_same hsame (by rw [hdev]; exact hshow.same) hshow.kernels
  | @abort p e1 r h ha ih =>
    obtain ⟨e, he, hshow⟩ := ih
    obtain ⟨e', habort, -, -, hk⟩ := he.sound.abort r
    rw [hshow.engine, Engine.abort_on, habort] at ha
    obtain rfl := Except.ok.inj ha
    refine ⟨e', he.abort habort, ?_⟩
    exact .of_same hk.same (by rw [hk.device]; exact hshow.same) hshow.kernels
  | @step p p' out h hs ih =>
    obtain ⟨e, he, hshow⟩ := ih
    cases hshow.step model he.sound he.trim hK with
    | tooLarge _ _ _ hp =>
      rw [hs] at hp
      simp at hp
    | error hp _ =>
      rw [hs] at hp
      simp at hp
    | @ok out' p1 e' hp hstep hd heng hk =>
      rw [hs] at hp
      obtain ⟨-, rfl⟩ := Prod.mk.inj hp
      have hsame : Scheduler.Same e.scheduler e'.scheduler := by
        rcases he.sound.step_cases model with ⟨s, -, h1⟩ | ⟨b, s, err, -, -, h1⟩ | ⟨out', e1, h1, -, -, hadv⟩
        · rw [hstep] at h1; simp at h1
        · rw [hstep] at h1; simp at h1
        · rw [hstep] at h1
          obtain rfl := (Prod.mk.inj h1).2
          exact hadv.same
      refine ⟨e', he.step hstep, ?_⟩
      have hshow' := Shows.of_same hsame hd hk
      rwa [← heng] at hshow'
  | @raised p s err h hs ih =>
    obtain ⟨e, he, hshow⟩ := ih
    rw [hshow.engine] at hs ⊢
    have hS := (he.sound.schedule_eq hs).1
    exact ⟨_, he.raised hs, @Shows.of_same e { e with scheduler := s } _ _ hS.step.same hshow.same hshow.kernels⟩
  | switch h hon ih =>
    obtain ⟨e, he, hshow⟩ := ih
    exact ⟨e, he, hshow.engine, hshow.same, hshow.kernels.packed, hshow.kernels.graphs, hon⟩

theorem device_run_refines (hK : K.Documented) (h : Reachable K model c (fun prompt => placeholder ∉ prompt) p) :
    ∃ e, Engine.Reachable model c (fun prompt => placeholder ∉ prompt) e ∧ p.Shows e ∧ Mirrors K model p e ∧
      ∀ r, ((p.engine.request r).state = .finished →
          (p.engine.request r).outputIds = model.output (p.engine.request r)) ∧
        ((p.engine.request r).state = .aborted →
            (p.engine.request r).outputIds <+: model.output (p.engine.request r)) := by
  obtain ⟨e, he, hshow⟩ := h.shows hK
  refine ⟨e, he, hshow, hshow.step model he.sound he.trim hK, fun r => ?_⟩
  have htold := he.content.told r
  rw [hshow.engine]
  exact ⟨htold.finished, htold.aborted⟩

section Example

def readPages : PagedKernel where
  attended _ bs qoLens v d := (List.range qoLens.length).flatMap fun i =>
    QueryRow.causal bs ⟨Ragged.slice v.indices (v.indptr.getD i 0).toNat (v.indptr.getD (i + 1) 0).toNat,
      v.last.getD i 0, qoLens.getD i 0⟩ d

theorem readPages_documented : readPages.Documented := by
  intro numPages bs rows v d _ hv
  have hrows : rows = (List.range rows.length).map fun i =>
      ⟨Ragged.slice v.indices (v.indptr.getD i 0).toNat (v.indptr.getD (i + 1) 0).toNat,
        v.last.getD i 0, (rows.map QueryRow.queries).getD i 0⟩ := by
    apply List.ext_getElem
    · simp
    · intro i hi _
      have hpages := hv.pages i rows[i].pages (by simp [hi])
      rw [List.getElem_map, List.getElem_range, hpages]
      simp [hv.last, hi]
  simp only [readPages, List.length_map]
  conv_rhs => rw [hrows]
  rw [List.flatMap_map]

theorem counting_nonneg (h : List (Option (Token × Nat))) (_ : SamplingParams) (_ _ : Nat) : 0 ≤ (h.length : Token) :=
  Int.natCast_nonneg _

def counting : Model := ⟨fun h _ _ _ => h.length, counting_nonneg⟩

def probe : SizedTable := ⟨⟨[0], 2⟩, 2⟩

def oneRow : DecodeGraphs :=
  (DecodeGraphs.new [1] 1 3 2 2).toOption.getD ⟨0, 0, 0, 0, [], fun _ => [], fun _ => [], [], .new 1 1⟩

theorem oneRow_new : DecodeGraphs.new [1] 1 (2 + 1) 2 2 = .ok oneRow := by
  have hok : (DecodeGraphs.new [1] 1 3 2 2).isOk = true := by decide +kernel
  rw [oneRow]
  cases h : DecodeGraphs.new [1] 1 3 2 2 with
  | error err =>
    rw [h] at hok
    cases hok
  | ok d => rfl

def oneRowKernels : Kernels where
  packed := ((PackedTables.new 64 4096).pack [probe] 0 0 1).2
  graphs := some oneRow
  useCudaGraph := true

theorem oneRowKernels_built : Built 2 2 oneRowKernels :=
    .captured probe (show graphBuckets (1 : Nat) = .ok [1] from rfl) oneRow_new

def started : PagedEngine := ⟨((Engine.new Engine.tiny).addRequest [1, 2] { maxNewTokens := 2 }).2, oneRowKernels⟩

def prefilled : PagedEngine := (started.step readPages counting).2

def decoded : PagedEngine := (prefilled.step readPages counting).2

theorem device_run_refines_decoded : (decoded.engine.request 0).state = .finished ∧
    (decoded.engine.request 0).outputIds = [2, 3] ∧
    (decoded.engine.request 0).outputIds = counting.output (decoded.engine.request 0) := by
  have hstep (p : PagedEngine) (hp : Reachable readPages counting Engine.tiny (fun prompt => placeholder ∉ prompt) p)
      (hok : (p.step readPages counting).1.isOk = true) :
      Reachable readPages counting Engine.tiny (fun prompt => placeholder ∉ prompt) (p.step readPages counting).2 := by
    cases hr : (p.step readPages counting).1 with
    | error err =>
      rw [hr] at hok
      cases hok
    | ok out => exact .step hp (Prod.ext hr rfl)
  have hstarted : Reachable readPages counting Engine.tiny (fun prompt => placeholder ∉ prompt) started :=
    .add (.init oneRowKernels_built) (by decide)
  have hprefilled := hstep started hstarted (by decide +kernel)
  have hdecoded : Reachable readPages counting Engine.tiny (fun prompt => placeholder ∉ prompt) decoded :=
    hstep prefilled hprefilled (by decide +kernel)
  have hfin : (decoded.engine.request 0).state = .finished := by decide +kernel
  obtain ⟨e, -, -, -, hout⟩ := device_run_refines readPages_documented hdecoded
  have htokens : (decoded.engine.request 0).outputIds = [2, 3] := by decide +kernel
  exact ⟨hfin, htokens, (hout 0).1 hfin⟩

end Example

end PagedEngine

end MiniServe
