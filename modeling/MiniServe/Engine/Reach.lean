import MiniServe.Engine.Process

namespace MiniServe

open KVCacheManager

def Launched.Whole (L : Launched) : Prop :=
  L.tokens.length = L.batch.rows.length ∧ L.slots.length = L.batch.rows.length

theorem Pool.empty_sound {kv : KVCacheManager} (h : kv.Sound Request.blank []) :
    Pool.Sound ⟨kv, Request.blank, [], [], [], [], []⟩ where
  kv := h
  nodup := List.nodup_nil
  queued := by simp
  active := by simp
  opened := by simp
  opened_nodup := List.nodup_nil
  gone := fun _ _ => .inr rfl
  path := by simp
  exact := by simp
  fresh := by simp
  pending := fun _ _ => ⟨[], rfl, by simp, rfl⟩
  older_once := List.nodup_nil
  newer_once := List.nodup_nil
  nonneg := by simp

namespace Engine

variable {e e' : Engine} {model : Model} {older newer : List Entry} {s : Scheduler}

def inflightEntries : Option Launched → List Entry
  | none => []
  | some L => L.entries

def entries (e : Engine) : List Entry := inflightEntries e.inflight

def pool (e : Engine) : Pool := e.scheduler.openPool [] e.entries []

structure Core (e : Engine) (older newer : List Entry) : Prop where
  pool : (e.scheduler.openPool [] older newer).Sound
  requests : e.requests.Perm (e.scheduler.running ++ e.scheduler.waiting)
  later : ∀ r, e.nextRid ≤ r → e.scheduler.reqs r = Request.blank r ∧ r ∉ e.scheduler.running ++ e.scheduler.waiting
  len : e.scheduler.running.length ≤ e.scheduler.maxRunning

structure Sound (e : Engine) : Prop extends Core e e.entries [] where
  whole : e.scheduler.chunkedPrefillSize = 0 → ∀ x ∈ e.scheduler.running, (e.scheduler.reqs x).state = .decode
  overlap : e.overlap = false → e.inflight = none
  rows : ∀ L, e.inflight = some L → L.Whole

theorem new_sound (c : EngineConfig) : (new c).Sound := by
  have hkv : (KVCacheManager.new (.fresh c.numBlocks c.blockSize c.numBlocks_pos c.blockSize_pos) c.radix).Sound
      Request.blank [] :=
    KVCacheManager.new_sound (BlockAllocator.fresh_sound _ _) (fun _ => rfl) c.radix fun _ => ⟨rfl, rfl⟩
  refine ⟨⟨Pool.empty_sound hkv, List.Perm.refl _, fun r _ => ⟨rfl, ?_⟩, Nat.zero_le _⟩, fun _ x hx => ?_, fun _ => rfl,
    fun L hL => ?_⟩
  · simp [new, EngineConfig.scheduler]
  · simp [new, EngineConfig.scheduler] at hx
  · simp [new] at hL

theorem Core.kept {older' newer' : List Entry} (h : Core e older newer) (hk : Kept e e')
    (hpool : (e'.scheduler.openPool [] older' newer').Sound) : Core e' older' newer' where
  pool := hpool
  requests := hk.requests h.requests
  later := fun r hr => by
    rw [hk.nextRid] at hr
    obtain ⟨h1, h2⟩ := h.later r hr
    refine ⟨hk.blank r h1 h2, fun hx => h2 ?_⟩
    rcases List.mem_append.mp hx with hx | hx
    · exact List.mem_append_left _ (hk.running.subset hx)
    · exact List.mem_append_right _ (hk.waiting.subset hx)
  len := by
    rw [hk.same.maxRunning]
    exact hk.running.length_le.trans h.len

theorem Core.scheduled {res : Except Error (Option Batch)} (h : Core e older [])
    (hs : Scheduler.Scheduled e.scheduler s older res) : Core { e with scheduler := s } older [] where
  pool := hs.step.sound h.pool
  requests := h.requests.trans (by simpa using hs.step.perm.symm)
  later := fun r hr => by
    obtain ⟨h1, h2⟩ := h.later r hr
    refine ⟨(hs.step.other r (by simpa using h2)).trans h1, fun hx => h2 ?_⟩
    have := hs.step.perm.mem_iff (a := r)
    simp only [List.append_nil] at this
    exact this.mp hx
  len := hs.len h.len

theorem Core.launched {b : Batch} {ids : List Token} {s1 s2 : Scheduler} {slots : List (Option Nat)} {d : Device}
    {es : List Entry} (h : Core e older []) (hb : e.scheduler.BatchFits b)
    (hL : Launches model e b ids older s1 s2 slots)
    (hes : es = entriesOf (sampleOf model s1 (wrote e s1 b older ids)) b.rows slots) :
    Core { e with scheduler := s2, device := d } older es := by
  have hrun : s2.running = e.scheduler.running := hL.settled.running.trans hL.reserved.running
  have hwait : s2.waiting = e.scheduler.waiting := hL.settled.waiting.trans hL.reserved.waiting
  refine ⟨?_, ?_, fun r hr => ?_, ?_⟩
  · rw [hes]
    exact hL.settles.sound (hL.opens.sound h.pool)
  · show e.requests.Perm (s2.running ++ s2.waiting)
    rw [hrun, hwait]
    exact h.requests
  · obtain ⟨h1, h2⟩ := h.later r hr
    have hx : r ∉ b.rows.map Row.rid := fun hx => by
      obtain ⟨row, hrow, rfl⟩ := List.mem_map.mp hx
      exact h2 (List.mem_append_left _ (hb.rows row hrow).mem)
    show s2.reqs r = _ ∧ r ∉ s2.running ++ s2.waiting
    rw [hL.settled.other r hx, hL.reserved.other r hx, hrun, hwait]
    exact ⟨h1, h2⟩
  · show s2.running.length ≤ s2.maxRunning
    rw [hrun, hL.settled.same.maxRunning, hL.reserved.same.maxRunning]
    exact h.len

theorem readBack_ok (L : Option Launched)
    (h : Core e (inflightEntries L) newer) :
    ∃ out e', e.readBack L = .ok (out, e') ∧
      Pool.Moves none (e.scheduler.openPool [] (inflightEntries L) newer) (e'.scheduler.openPool [] [] newer) ∧
      ReadBack e e' := by
  cases L with
  | none => exact ⟨none, e, rfl, Pool.Moves.refl _, ReadBack.refl e⟩
  | some L =>
    obtain ⟨e', h1, h2, h3⟩ := processRows_ok h.pool h.requests
    exact ⟨some L.batch, e', by simp only [readBack, process]; rw [show processRows L.entries e = _ from h1], h2, h3⟩

theorem turn_moves (s : Scheduler) (newer : List Entry) :
    Pool.Moves none (s.openPool [] [] newer) (s.openPool [] newer []) :=
  (Pool.Move.turn (p := s.openPool [] [] newer) rfl rfl).moves

inductive Stepped (model : Model) (e e' : Engine) : Prop
  | idle {s : Scheduler} {e1 : Engine} (hsch : e.scheduler.schedule = (.ok none, s))
      (hm : Pool.Moves none e.pool e'.pool) (hd : e'.device = e.device) (he1 : e1.scheduler = s) (hk : ReadBack e1 e')
      (hi : e'.inflight = none)
  | launch {s s1 s2 : Scheduler} {b : Batch} {ids : List Token} {slots : List (Option Nat)} {e2 : Engine}
      (hsch : e.scheduler.schedule = (.ok (some b), s)) (hb : s.BatchFits b)
      (hids : ModelRunner.fillRows b (b.rows.flatMap (ModelRunner.rowIds s)) e.inflight = .ok ids)
      (hs : Pool.Moves none e.pool (s.pool [] e.entries))
      (hL : Launches model { e with scheduler := s, launched := some b } b ids e.entries s1 s2 slots)
      (hp : Pool.Moves none (s2.openPool [] e.entries
        (entriesOf (sampleOf model s1 (wrote e s1 b e.entries ids)) b.rows slots)) e'.pool)
      (hd : e'.device = wrote e s1 b e.entries ids) (he2 : e2.scheduler = s2) (hk : ReadBack e2 e')

structure Advanced (e e' : Engine) : Prop where
  overlap : e'.overlap = e.overlap
  same : Scheduler.Same e.scheduler e'.scheduler
  requests : ∀ x ∈ e'.requests, x ∈ e.requests

-- The queues after a call, through the scheduler's permutation of them and the requests that ended.
theorem advanced_of (e1 : Engine) (he : e.Sound) (hperm : (e1.scheduler.running ++ e1.scheduler.waiting).Perm
      (e.scheduler.running ++ e.scheduler.waiting)) (hsame : Scheduler.Same e.scheduler e1.scheduler)
    (ho : e1.overlap = e.overlap) (hreq : e1.requests.Perm (e1.scheduler.running ++ e1.scheduler.waiting))
    (hk : Kept e1 e') : Advanced e e' := by
  refine ⟨hk.overlap.trans ho, hsame.trans hk.same, fun x hx => ?_⟩
  rw [he.requests.mem_iff, ← hperm.mem_iff]
  have hx := (hk.requests hreq).mem_iff.mp hx
  rcases List.mem_append.mp hx with hx | hx
  · exact List.mem_append_left _ (hk.running.subset hx)
  · exact List.mem_append_right _ (hk.waiting.subset hx)

theorem Sound.schedule (he : e.Sound) :
    Scheduler.Scheduled e.scheduler e.scheduler.schedule.2 e.entries e.scheduler.schedule.1 ∧
      (e.scheduler.chunkedPrefillSize = 0 → e.scheduler.schedule.2.Settles e.scheduler.schedule.1) :=
  Scheduler.schedule_spec he.pool he.whole

theorem Sound.schedule_eq {res : Except Error (Option Batch)} (he : e.Sound) (hsch : e.scheduler.schedule = (res, s)) :
    Scheduler.Scheduled e.scheduler s e.entries res ∧ (e.scheduler.chunkedPrefillSize = 0 → s.Settles res) := by
  have h := he.schedule
  rw [hsch] at h
  exact h

theorem step_of_launch {batch out : Option Batch} {L : Option Launched} {e2 e3 : Engine}
    (hsch : e.scheduler.schedule = (.ok batch, s))
    (hl : Engine.launchBatch { e with scheduler := s, launched := batch } model batch = .ok (L, e2))
    (hr : Engine.readBack { e2 with inflight := if e.overlap then L else none } (if e.overlap then e.inflight else L) =
      .ok (out, e3)) : e.step model = (.ok out, e3) := by
  have hpair : (if e.overlap then (e.inflight, L) else (L, none)) =
      (if e.overlap then e.inflight else L, if e.overlap then L else none) := by split <;> rfl
  simp only [Engine.step, hsch, hl, hpair, hr]

theorem Sound.step_idle (he : e.Sound) (hsch : e.scheduler.schedule = (.ok none, s)) (model : Model) :
    ∃ out e', e.step model = (.ok out, e') ∧ e'.Sound ∧ Stepped model e e' ∧ Advanced e e' := by
  obtain ⟨hS, hset⟩ := he.schedule
  rw [hsch] at hS hset
  have hcore := he.toCore.scheduled hS
  have hwhole : s.chunkedPrefillSize = 0 → ∀ x ∈ s.running, (s.reqs x).state = .decode := by
    intro hc x hx
    rw [hS.step.same.chunkedPrefillSize] at hc
    rcases hset hc x hx with h | ⟨b, hb, -⟩
    · exact h
    · simp at hb
  let e1 : Engine := { e with scheduler := s, launched := none, inflight := none }
  -- With overlap the step reads back what was in flight, without it nothing was.
  obtain ⟨prev, hprev, hes⟩ : ∃ prev, (if e.overlap then e.inflight else none) = prev ∧
      inflightEntries prev = e.entries := by
    refine ⟨_, rfl, ?_⟩
    cases ho : e.overlap with
    | true => rfl
    | false => simp [entries, he.overlap ho]
  have hc1 : Core e1 (inflightEntries prev) [] := by
    rw [hes]
    exact ⟨hcore.pool, hcore.requests, hcore.later, hcore.len⟩
  obtain ⟨out, e', hrb, hm, hk⟩ := readBack_ok prev hc1
  have hent : e'.entries = [] := by simp [entries, hk.inflight, e1, inflightEntries]
  have hc' : Core e' e'.entries [] := by
    refine hc1.kept hk.toKept ?_
    rw [hent]
    exact hm.sound hc1.pool
  refine ⟨out, e', ?_, ⟨hc', ?_, fun _ => hk.inflight, ?_⟩, .idle hsch ?_ hk.device rfl hk hk.inflight,
    advanced_of e1 he (by simpa using hS.step.perm) hS.step.same rfl hc1.requests hk.toKept⟩
  · refine step_of_launch hsch rfl ?_
    have hnone : (if e.overlap then (none : Option Launched) else none) = none := by split <;> rfl
    rw [hnone, hprev]
    exact hrb
  · intro hc x hx
    rw [hk.state x hx]
    rw [hk.same.chunkedPrefillSize] at hc
    exact hwhole hc x (hk.running.subset hx)
  · intro L hL
    rw [hk.inflight] at hL
    simp [e1] at hL
  · rw [hes] at hm
    have := hS.step.moves.trans hm
    simp only [Engine.pool, hent]
    exact this

theorem decode_row_complete {b : Batch} {row : Row} (hs : (s.pool [] older).Sound) (hb : s.BatchFits b)
    (hrow : row ∈ b.rows) (hst : (s.reqs row.rid).state = .decode) :
    row.start + row.len = (s.reqs row.rid).seqLen := by
  have hr := hb.rows row hrow
  have hstart := hr.start
  rcases hr.kind with h | ⟨-, hlen⟩
  · rw [hst] at h; simp at h
  · rcases (Scheduler.pool_active hs (by simpa using hr.mem)).phase with h | ⟨-, h, -⟩
    · rw [hst] at h; simp at h
    · omega

theorem settled_decode {b : Batch} {ids : List Token} {s1 s2 : Scheduler} {slots : List (Option Nat)}
    (hs : (e.scheduler.pool [] older).Sound) (hb : e.scheduler.BatchFits b)
    (hset : e.scheduler.Settles (.ok (some b))) (hL : Launches model e b ids older s1 s2 slots) :
    ∀ x ∈ s2.running, (s2.reqs x).state = .decode := by
  intro x hx
  have hx : x ∈ e.scheduler.running := by
    rw [← hL.reserved.running, ← hL.settled.running]
    exact hx
  rcases hset x hx with hst | ⟨b', hb', row, hrow, hrid, hc⟩
  · by_cases hmem : x ∈ b.rows.map Row.rid
    · obtain ⟨row, hrow, rfl⟩ := List.mem_map.mp hmem
      exact ((hL.rows row hrow).complete (decode_row_complete hs hb hrow hst)).1
    · rw [hL.settled.other x hmem, hL.reserved.other x hmem]
      exact hst
  · obtain rfl : b = b' := Option.some.inj (Except.ok.inj hb')
    subst hrid
    exact ((hL.rows row hrow).complete hc).1

theorem Sound.step_launch {b : Batch} {ids : List Token} (he : e.Sound)
    (hsch : e.scheduler.schedule = (.ok (some b), s))
    (hids : ModelRunner.fillRows b (b.rows.flatMap (ModelRunner.rowIds s)) e.inflight = .ok ids)
    (hlong : ∀ id ∈ b.rows.flatMap (ModelRunner.rowIds s), IsLong id) (model : Model) :
    ∃ out e', e.step model = (.ok out, e') ∧ e'.Sound ∧ Stepped model e e' ∧ Advanced e e' := by
  obtain ⟨hS, hset⟩ := he.schedule
  rw [hsch] at hS hset
  have hb : s.BatchFits b := hS.batch b rfl
  let e1 : Engine := { e with scheduler := s, launched := some b }
  have hcore : Core e1 e.entries [] := by
    have := he.toCore.scheduled hS
    exact ⟨this.pool, this.requests, this.later, this.len⟩
  obtain ⟨s1, s2, slots, hL, hlaunch⟩ :=
    @launch_ok e.entries e1 model b e.inflight ids hcore.pool hb (hS.fits _ rfl) hids hlong
  let sample := sampleOf model s1 (wrote e s1 b e.entries ids)
  let L : Launched := ⟨b, b.rows.map fun row => sample row.rid, slots⟩
  have hsame : Scheduler.Same e.scheduler s2 := (hS.step.same.trans hL.reserved.same).trans hL.settled.same
  have hLw : L.Whole := ⟨by simp [L], (hL.slots.length_eq).symm⟩
  have hwhole : e.scheduler.chunkedPrefillSize = 0 → ∀ x ∈ s2.running, (s2.reqs x).state = .decode := fun hc =>
    settled_decode hcore.pool hb (hset hc) hL
  let e2 : Engine := { e1 with
    scheduler := s2
    device := wrote e s1 b e.entries ids
    inflight := if e.overlap then some L else none }
  have hc2 : Core e2 e.entries L.entries := by
    have := hcore.launched hb hL rfl (d := wrote e s1 b e.entries ids)
    exact ⟨this.pool, this.requests, this.later, this.len⟩
  -- With overlap the older batch is read back and this one stays in flight; without it this one is read back.
  have hread : ∃ out e', e2.readBack (if e.overlap then e.inflight else some L) = .ok (out, e') ∧ ReadBack e2 e' ∧
      Pool.Moves none (s2.openPool [] e.entries L.entries) e'.pool := by
    cases ho : e.overlap with
    | true =>
      obtain ⟨out, e', hrb, hm, hk⟩ := readBack_ok e.inflight hc2
      refine ⟨out, e', hrb, hk, ?_⟩
      have hent : e'.entries = L.entries := by simp [entries, hk.inflight, e2, ho, inflightEntries]
      have := hm.trans (turn_moves e'.scheduler L.entries)
      rw [Engine.pool, hent]
      exact this
    | false =>
      have hnil : e.entries = [] := by simp [entries, he.overlap ho, inflightEntries]
      have hc3 : Core e2 (inflightEntries (some L)) [] :=
        ⟨(turn_moves s2 L.entries).sound (hnil ▸ hc2.pool), hc2.requests, hc2.later, hc2.len⟩
      obtain ⟨out, e', hrb, hm, hk⟩ := readBack_ok (some L) hc3
      refine ⟨out, e', hrb, hk, ?_⟩
      have hent : e'.entries = [] := by simp [entries, hk.inflight, e2, ho, inflightEntries]
      have := (turn_moves s2 L.entries).trans hm
      rw [Engine.pool, hent, hnil]
      exact this
  obtain ⟨out, e', hrb, hk, hm⟩ := hread
  have hpool : e'.pool.Sound := hm.sound hc2.pool
  refine ⟨out, e', ?_, ⟨hc2.kept hk.toKept hpool, ?_, fun ho => ?_, fun L' hL' => ?_⟩,
    .launch hsch hb hids hS.step.moves hL hm hk.device rfl hk, advanced_of e2 he ?_ hsame rfl hc2.requests hk.toKept⟩
  · have hl : e1.launchBatch model (some b) = .ok (some L, { e1 with
        scheduler := s2
        device := wrote e s1 b e.entries ids }) := by
      simp only [launchBatch]
      rw [show e1.launch model b e1.inflight = _ from hlaunch]
      rfl
    exact step_of_launch hsch hl hrb
  · intro hc x hx
    rw [hk.state x hx]
    rw [hk.same.chunkedPrefillSize, show e2.scheduler.chunkedPrefillSize = e.scheduler.chunkedPrefillSize from
      hsame.chunkedPrefillSize] at hc
    exact hwhole hc x (hk.running.subset hx)
  · rw [hk.overlap] at ho
    rw [hk.inflight]
    simp only [e2]
    rw [show e.overlap = false from ho]
    rfl
  · rw [hk.inflight] at hL'
    cases ho : e.overlap with
    | true =>
      obtain rfl : L = L' := by simpa [e2, ho] using hL'
      exact hLw
    | false => simp [e2, ho] at hL'
  · show (s2.running ++ s2.waiting).Perm _
    rw [hL.settled.running, hL.settled.waiting, hL.reserved.running, hL.reserved.waiting]
    simpa using hS.step.perm

theorem Sound.step_error {err : Error} (he : e.Sound) (hsch : e.scheduler.schedule = (.error err, s)) :
    Sound { e with scheduler := s } := by
  obtain ⟨hS, hset⟩ := he.schedule
  rw [hsch] at hS hset
  have hcore := he.toCore.scheduled hS
  refine ⟨⟨hcore.pool, hcore.requests, hcore.later, hcore.len⟩, fun hc x hx => ?_, he.overlap, he.rows⟩
  rw [show e.scheduler.chunkedPrefillSize = _ from hS.step.same.chunkedPrefillSize.symm] at hset
  rcases hset hc x hx with h | ⟨b, hb, -⟩
  · exact h
  · simp at hb

theorem step_fill_error {b : Batch} {err : Error} (hsch : e.scheduler.schedule = (.ok (some b), s))
    (hids : ModelRunner.fillRows b (b.rows.flatMap (ModelRunner.rowIds s)) e.inflight = .error err) :
    e.step model = (.error err, { e with scheduler := s, launched := some b }) := by
  simp [Engine.step, hsch, launchBatch, launch, ModelRunner.forward, hids, raised, ModelRunner.raisedIn]

-- Why a scheduled batch is not run: the placeholder fill raises, or the copy of an id that is no int64.
def Refused (s : Scheduler) (b : Batch) (prev : Option Launched) (err : Error) : Prop :=
  ModelRunner.fillRows b (b.rows.flatMap (ModelRunner.rowIds s)) prev = .error err ∨
    (∃ ids, ModelRunner.fillRows b (b.rows.flatMap (ModelRunner.rowIds s)) prev = .ok ids) ∧ err = .longOverflow ∧
      ∃ id ∈ b.rows.flatMap (ModelRunner.rowIds s), ¬ IsLong id

theorem Sound.step_long {b : Batch} {ids : List Token} (he : e.Sound) (hsch : e.scheduler.schedule = (.ok (some b), s))
    (hids : ModelRunner.fillRows b (b.rows.flatMap (ModelRunner.rowIds s)) e.inflight = .ok ids)
    (hlong : ∃ id ∈ b.rows.flatMap (ModelRunner.rowIds s), ¬ IsLong id) (model : Model) :
    ∃ s1, e.step model = (.error .longOverflow, { e with scheduler := s1, launched := some b }) ∧
      Pool.Moves none e.pool (s1.openPool b.rows e.entries []) := by
  obtain ⟨hS, -⟩ := he.schedule_eq hsch
  have hcore := he.toCore.scheduled hS
  obtain ⟨s1, hlaunch, hraised, hopens⟩ := @launch_long e.entries { e with scheduler := s, launched := some b } model b
    e.inflight ids hcore.pool (hS.batch b rfl) (hS.fits _ rfl) hids hlong
  refine ⟨s1, ?_, hS.step.moves.trans hopens⟩
  have hbatch : Engine.launchBatch { e with scheduler := s, launched := some b } model (some b) =
      .error .longOverflow := by
    simp only [launchBatch]
    rw [show Engine.launch { e with scheduler := s, launched := some b } model b e.inflight = _ from hlaunch]
  simp only [Engine.step, hsch, hbatch, raised]
  rw [show ModelRunner.raisedIn s b e.inflight = s1 from hraised]

theorem Sound.step_refused {b : Batch} {err : Error} (he : e.Sound) (hsch : e.scheduler.schedule = (.ok (some b), s))
    (h : Refused s b e.inflight err) (model : Model) : (e.step model).1 = .error err := by
  rcases h with hfill | ⟨⟨ids, hids⟩, rfl, hlong⟩
  · exact congrArg Prod.fst (step_fill_error hsch hfill)
  · obtain ⟨s1, hstep, -⟩ := he.step_long hsch hids hlong model
    exact congrArg Prod.fst hstep

theorem Sound.step_cases (he : e.Sound) (model : Model) :
    (∃ s, e.scheduler.schedule = (.error .loneRequestDoesNotFit, s) ∧
        e.step model = (.error .loneRequestDoesNotFit, { e with scheduler := s })) ∨
      (∃ b s err, e.scheduler.schedule = (.ok (some b), s) ∧
        Refused s b e.inflight err ∧ (e.step model).1 = .error err) ∨
      ∃ out e', e.step model = (.ok out, e') ∧ e'.Sound ∧ Stepped model e e' ∧ Advanced e e' := by
  obtain ⟨hS, -⟩ := he.schedule
  obtain ⟨⟨res, s⟩, hsch⟩ : ∃ p, e.scheduler.schedule = p := ⟨_, rfl⟩
  rw [hsch] at hS
  cases res with
  | error err =>
    obtain rfl := hS.error err rfl
    exact .inl ⟨s, hsch, by simp [Engine.step, hsch]⟩
  | ok batch =>
    cases batch with
    | none => exact .inr (.inr (he.step_idle hsch model))
    | some b =>
      have hrefused : ∀ err, Refused s b e.inflight err → ∃ b' s' err', e.scheduler.schedule = (.ok (some b'), s') ∧
          Refused s' b' e.inflight err' ∧ (e.step model).1 = .error err' :=
        fun err h => ⟨b, s, err, hsch, h, he.step_refused hsch h model⟩
      cases hids : ModelRunner.fillRows b (b.rows.flatMap (ModelRunner.rowIds s)) e.inflight with
      | error err => exact .inr (.inl (hrefused err (.inl hids)))
      | ok ids =>
        by_cases hlong : ∃ id ∈ b.rows.flatMap (ModelRunner.rowIds s), ¬ IsLong id
        · exact .inr (.inl (hrefused .longOverflow (.inr ⟨⟨ids, hids⟩, rfl, hlong⟩)))
        · exact .inr (.inr (he.step_launch hsch hids (by simpa using hlong) model))

theorem Sound.abort (he : e.Sound) (r : Rid) :
    ∃ e', e.abort r = .ok e' ∧ e'.Sound ∧ Pool.Moves none e.pool e'.pool ∧ Kept e e' := by
  obtain ⟨e', h1, h2, hk⟩ := abort_ok he.pool he.requests r
  have hent : e'.entries = e.entries := by simp [entries, hk.inflight]
  have hpool : e'.pool = e'.scheduler.openPool [] e.entries [] := by rw [Engine.pool, hent]
  refine ⟨e', h1, ⟨he.toCore.kept hk (hent ▸ h2.sound he.pool), fun hc x hx => ?_, fun ho => ?_, fun L hL => ?_⟩, ?_, hk⟩
  · rw [hk.state x hx]
    rw [hk.same.chunkedPrefillSize] at hc
    exact he.whole hc x (hk.running.subset hx)
  · rw [hk.inflight]
    exact he.overlap (hk.overlap ▸ ho)
  · rw [hk.inflight] at hL
    exact he.rows L hL
  · rw [hpool]
    exact h2

theorem Sound.rename {n d : Nat} (he : e.Sound) (hn : e.nextRid ≤ n) : Sound { e with nextRid := n, drawn := d } :=
  ⟨⟨he.pool, he.requests, fun r hr => he.later r (hn.trans hr), he.len⟩, he.whole, he.overlap, he.rows⟩

theorem addRequest_cases (e : Engine) (prompt : List Token) (params : SamplingParams) :
    (∃ err d, e.addRequest prompt params = (.error err, { e with nextRid := e.nextRid + 1, drawn := d })) ∨
      ∃ q d, q.Fresh ∧ q.rid = e.nextRid ∧ q.promptIds = prompt ∧ q.params = params ∧
        q.seed = params.seed.getD (e.seeds e.drawn) ∧
        e.scheduler.blocksFor (q.maxLen + e.scheduler.tokensPerStep - 1) ≤ e.scheduler.kv.allocator.numBlocks ∧
        e.addRequest prompt params = (.ok q.rid, { e with
          nextRid := e.nextRid + 1
          drawn := d
          requests := e.requests ++ [q.rid]
          scheduler := { e.scheduler.set q.rid q with waiting := e.scheduler.waiting ++ [q.rid] } }) := by
  by_cases hp : prompt = []
  · exact .inl ⟨.emptyPrompt, e.drawn, by simp [addRequest, Request.new, hp]⟩
  · let q : Request := { rid := e.nextRid, promptIds := prompt, params, seed := params.seed.getD (e.seeds e.drawn) }
    have hq : Request.new e.nextRid prompt params = .ok { rid := e.nextRid, promptIds := prompt, params } := by
      simp [Request.new, hp]
    by_cases hfit : e.scheduler.blocksFor (q.maxLen + e.scheduler.tokensPerStep - 1) >
        e.scheduler.kv.allocator.numBlocks
    · have hadd : e.scheduler.add q = .error (.needsMoreThanPool q.rid q.maxLen
          (e.scheduler.kv.allocator.numBlocks * e.scheduler.kv.blockSize)) := by
        simp only [Scheduler.add]
        rw [if_neg (by simp [q]), if_pos hfit]
      refine .inl ⟨.needsMoreThanPool q.rid q.maxLen (e.scheduler.kv.allocator.numBlocks * e.scheduler.kv.blockSize),
        params.seed.elim (e.drawn + 1) fun _ => e.drawn, ?_⟩
      simp only [addRequest, hq]
      rw [show e.scheduler.add _ = _ from hadd]
      cases params.seed <;> rfl
    · have hadd : e.scheduler.add q =
          .ok { e.scheduler.set q.rid q with waiting := e.scheduler.waiting ++ [q.rid] } := by
        simp only [Scheduler.add]
        rw [if_neg (by simp [q]), if_neg hfit]
      refine .inr ⟨q, params.seed.elim (e.drawn + 1) fun _ => e.drawn,
        ⟨hp, rfl, rfl, rfl, rfl, rfl⟩, rfl, rfl, rfl, rfl, not_lt.mp hfit, ?_⟩
      simp only [addRequest, hq]
      rw [show e.scheduler.add _ = _ from hadd]
      cases params.seed <;> rfl

theorem Sound.submit {q : Request} {d : Nat} (he : e.Sound) (hq : q.Fresh) (hrid : q.rid = e.nextRid) :
    let e' := { e with
      nextRid := e.nextRid + 1
      drawn := d
      requests := e.requests ++ [q.rid]
      scheduler := { e.scheduler.set q.rid q with waiting := e.scheduler.waiting ++ [q.rid] } }
    Sound e' ∧ Pool.Move none e.pool e'.pool := by
  intro e'
  obtain ⟨hblank, hnot⟩ := he.later q.rid (le_of_eq hrid.symm)
  have hnot' : q.rid ∉ e.pool.live ++ e.pool.waiting := by
    simpa [Engine.pool, Scheduler.openPool, Scheduler.pool] using hnot
  have hm : Pool.Move none e.pool e'.pool := Pool.Move.submit hblank hnot' hq
  refine ⟨⟨⟨hm.sound he.pool, ?_, fun r hr => ?_, he.len⟩, fun hc x hx => ?_, he.overlap, he.rows⟩, hm⟩
  · show (e.requests ++ [q.rid]).Perm (e.scheduler.running ++ (e.scheduler.waiting ++ [q.rid]))
    rw [← List.append_assoc]
    exact he.requests.append_right _
  · have hlt : e.nextRid < r := hr
    have hne : r ≠ q.rid := by
      rw [hrid]
      exact (Nat.ne_of_lt hlt).symm
    obtain ⟨h1, h2⟩ := he.later r (Nat.le_of_lt hlt)
    refine ⟨?_, ?_⟩
    · show Function.update e.scheduler.reqs q.rid q r = _
      rw [Function.update_of_ne hne]
      exact h1
    · show r ∉ e.scheduler.running ++ (e.scheduler.waiting ++ [q.rid])
      rw [← List.append_assoc, List.mem_append, not_or]
      exact ⟨h2, by simpa using hne⟩
  · have hne : x ≠ q.rid := by
      rintro rfl
      exact hnot (List.mem_append_left _ hx)
    show (Function.update e.scheduler.reqs q.rid q x).state = _
    rw [Function.update_of_ne hne]
    exact he.whole hc x hx

-- The states of an engine under any interleaving of calls; `ok` restricts the prompts. A rejected
-- submission and a schedule that raises leave the engine as it is, an abort and a step return.
inductive Reachable (model : Model) (c : EngineConfig) (ok : List Token → Prop) : Engine → Prop
  | init : Reachable model c ok (new c)
  | add {e : Engine} {prompt : List Token} {params : SamplingParams} (h : Reachable model c ok e) (hp : ok prompt) :
      Reachable model c ok (e.addRequest prompt params).2
  | abort {e e' : Engine} {r : Rid} (h : Reachable model c ok e) (ha : e.abort r = .ok e') : Reachable model c ok e'
  | step {e e' : Engine} {out : Option Batch} (h : Reachable model c ok e) (hs : e.step model = (.ok out, e')) :
      Reachable model c ok e'
  | raised {e : Engine} {s : Scheduler} {err : Error} (h : Reachable model c ok e)
      (hs : e.scheduler.schedule = (.error err, s)) : Reachable model c ok { e with scheduler := s }

theorem Reachable.sound {c : EngineConfig} {ok : List Token → Prop} (h : Reachable model c ok e) : e.Sound := by
  induction h with
  | init => exact new_sound c
  | @add e prompt params h hp ih =>
    rcases e.addRequest_cases prompt params with ⟨err, d, he⟩ | ⟨q, d, hq, hrid, -, -, -, -, he⟩
    · rw [he]; exact ih.rename (Nat.le_succ _)
    · rw [he]; exact (ih.submit hq hrid).1
  | abort h ha ih =>
    obtain ⟨e', h1, h2, -⟩ := ih.abort _
    rw [h1] at ha
    exact Except.ok.inj ha ▸ h2
  | step h hs ih =>
    rcases ih.step_cases model with ⟨s, -, h1⟩ | ⟨b, s, err, -, -, h1⟩ | ⟨out', e', h1, h2, -⟩
    · rw [hs] at h1; simp at h1
    · rw [hs] at h1; simp at h1
    · rw [hs] at h1
      exact (Prod.mk.inj h1).2 ▸ h2
  | raised h hs ih => exact ih.step_error hs

end Engine

end MiniServe
