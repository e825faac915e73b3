import MiniServe.Engine.Slots

namespace MiniServe

open KVCacheManager

namespace Engine

variable {s s' : Scheduler} {older newer : List Entry} {row : Row} {rest rows : List Row} {sample : Rid → Token}

structure Settled (s s' : Scheduler) (rows : List Row) : Prop where
  same : Scheduler.Same s s'
  running : s'.running = s.running
  waiting : s'.waiting = s.waiting
  cache : ∀ x, (s'.reqs x).cache = (s.reqs x).cache
  other : ∀ x, x ∉ rows.map Row.rid → s'.reqs x = s.reqs x

theorem Settled.refl (s : Scheduler) : Settled s s [] :=
  ⟨Scheduler.Same.refl s, rfl, rfl, fun _ => rfl, fun _ _ => rfl⟩

theorem Settled.trans {s'' : Scheduler} {rows' : List Row} (h1 : Settled s s' rows) (h2 : Settled s' s'' rows') :
    Settled s s'' (rows ++ rows') := by
  refine ⟨h1.same.trans h2.same, h2.running.trans h1.running, h2.waiting.trans h1.waiting,
    fun x => (h2.cache x).trans (h1.cache x), fun x hx => ?_⟩
  rw [List.map_append, List.mem_append, not_or] at hx
  rw [h2.other x hx.2, h1.other x hx.1]

theorem Settled.put {kv' : KVCacheManager} {q : Request} {live : List Rid} (hf : Frame s.kv kv' s.reqs live)
    (hq : q.cache = (s.reqs row.rid).cache) : Settled s (s.put row.rid (kv', q)) [row] := by
  refine ⟨⟨rfl, rfl, rfl, rfl, rfl, hf.numBlocks, hf.blockSize, hf.radix⟩, rfl, rfl, fun x => ?_, fun x hx => ?_⟩
  · show (Function.update s.reqs row.rid q x).cache = _
    by_cases e : x = row.rid
    · rw [e, Function.update_self, hq]
    · rw [Function.update_of_ne e]
  · have e : x ≠ row.rid := by simpa using hx
    exact Function.update_of_ne e _ _

structure RowSettled (s s' : Scheduler) (row : Row) : Prop where
  complete : row.start + row.len = (s.reqs row.rid).seqLen → (s'.reqs row.rid).state = .decode ∧
    (s'.reqs row.rid).outputIds.length = (s.reqs row.rid).outputIds.length + 1
  chunk : row.start + row.len < (s.reqs row.rid).seqLen → (s'.reqs row.rid).state = (s.reqs row.rid).state

theorem kv_sampled_state (hs : (s.openPool (row :: rest) older newer).Sound) :
    s.kv.Sound (Function.update s.reqs row.rid { (s.reqs row.rid).sampled with state := .decode })
      (s.running ++ []) := by
  obtain ⟨hl, -⟩ := hs.head_row rfl
  have hh := hs.kv.held _ hl
  have h0 : s.kv.Sound (Function.update s.reqs row.rid (s.reqs row.rid)) (s.running ++ []) := by
    rw [Function.update_eq_self]; exact hs.kv
  refine Pool.kv_restate h0 rfl rfl fun _ => ⟨fun ht => ?_, ?_⟩
  · have := hh.covered ht
    show (s.reqs row.rid).covered ≤ (s.reqs row.rid).sampled.seqLen
    rw [Request.seqLen_sampled]
    exact Nat.le_succ_of_le this
  · show _ <+: (s.reqs row.rid).sampled.tokens
    rw [Request.tokens_sampled]
    exact hh.tokens.trans (List.prefix_append _ _)

-- One slot a row: the index of the row's placeholder when it completes, none when it is a chunk.
def SlotsFor (s : Scheduler) (row : Row) (slot : Option Nat) : Prop :=
  (row.start + row.len = (s.reqs row.rid).seqLen → slot = some (s.reqs row.rid).outputIds.length) ∧
    (row.start + row.len < (s.reqs row.rid).seqLen → slot = none)

theorem settleRow_complete (s : Scheduler) (row : Row) :
    settleRow s row true = if (s.reqs row.rid).state = .prefill then
      match (s.reqs row.rid).sampled.transition .decode with
      | .error err => .error err
      | .ok q =>
        match s.kv.commit q with
        | .error err => .error err
        | .ok p => .ok (some (s.reqs row.rid).outputIds.length, s.put row.rid p)
      else .ok (some (s.reqs row.rid).outputIds.length, s.set row.rid (s.reqs row.rid).sampled) := rfl

theorem settleRow_ok (hs : (s.openPool (row :: rest) older newer).Sound)
    (hle : row.start + row.len ≤ (s.reqs row.rid).seqLen) (hlen : (s.reqs row.rid).state = .decode → row.len = 1)
    (htok : 0 ≤ sample row.rid) :
    ∃ slot s', settleRow s row (row.start + row.len = (s.reqs row.rid).seqLen) = .ok (slot, s') ∧
      Pool.Move (some sample) (s.openPool (row :: rest) older newer)
        (s'.openPool rest older (newer ++ [(row.rid, sample row.rid, slot)])) ∧
      Settled s s' [row] ∧ SlotsFor s row slot ∧ RowSettled s s' row := by
  obtain ⟨hl, hop, -⟩ := hs.head_row rfl
  have hopen : (s.reqs row.rid).Opened row := hop
  have hst : (s.reqs row.rid).state = .prefill ∨ (s.reqs row.rid).state = .decode := by
    rcases hopen.phase with h | h
    · exact .inl h.1
    · exact .inr h.1
  by_cases hc : row.start + row.len = (s.reqs row.rid).seqLen
  · rcases hst with hst | hst
    · -- The prefill is complete: its first token is sampled and its whole blocks are cached.
      obtain ⟨kv', node, hcom, hC⟩ := (kv_sampled_state hs).commit hl
      rw [Function.update_self] at hcom
      let q : Request := { (s.reqs row.rid).sampled with state := .decode, cacheNode := node }
      have hf : Frame s.kv kv' s.reqs (s.running ++ []) := hC.frame.congr fun x _ => by
        by_cases e : x = row.rid
        · subst e; rw [Function.update_self]; rfl
        · rw [Function.update_of_ne e]
      refine ⟨some (s.reqs row.rid).outputIds.length, s.put row.rid (kv', q), ?_, ?_, Settled.put hf rfl,
        ⟨fun _ => rfl, fun h => absurd hc (by omega)⟩,
        ⟨fun _ => ⟨by simp [Scheduler.put, q], by simp [Scheduler.put, q, Request.sampled]⟩,
          fun h => absurd hc (by omega)⟩⟩
      · have ht : (s.reqs row.rid).sampled.transition .decode =
            .ok { (s.reqs row.rid).sampled with state := .decode } :=
          Request.transition_ok (by simp [Request.sampled, hst, RequestState.next])
        rw [decide_eq_true hc, settleRow_complete, if_pos hst, ht]
        simp only
        rw [hcom]
      · exact Pool.Move.first (p := s.openPool (row :: rest) older newer) rfl rfl hst hc htok hC
    · refine ⟨some (s.reqs row.rid).outputIds.length, s.set row.rid (s.reqs row.rid).sampled, ?_, ?_, ?_,
        ⟨fun _ => rfl, fun h => absurd hc (by omega)⟩,
        ⟨fun _ => ⟨by simp [Scheduler.set, Request.sampled, hst], by simp [Scheduler.set, Request.sampled]⟩,
          fun h => absurd hc (by omega)⟩⟩
      · rw [decide_eq_true hc, settleRow_complete, if_neg (by simp [hst])]
      · exact Pool.Move.again (p := s.openPool (row :: rest) older newer) rfl rfl hst (hlen hst) htok
      · exact Settled.put (Frame.refl s.kv s.reqs []) rfl
  · have hlt : row.start + row.len < (s.reqs row.rid).seqLen := by omega
    have hst : (s.reqs row.rid).state = .prefill := by
      rcases hopen.phase with h | h
      · exact h.1
      · have := hlen h.1
        omega
    obtain ⟨kv', node, hcom, hC⟩ := hs.kv.commit hl
    refine ⟨none, s.put row.rid (kv', { s.reqs row.rid with cacheNode := node }), ?_, ?_, Settled.put hC.frame rfl,
      ⟨fun h => absurd h hc, fun _ => rfl⟩, ⟨fun h => absurd h hc, fun _ => by simp [Scheduler.put]⟩⟩
    · simp only [Scheduler.openPool, Scheduler.pool] at hcom
      simp [settleRow, hc, hcom]
    · exact Pool.Move.chunk (p := s.openPool (row :: rest) older newer) rfl rfl hst hlt htok hC

def entriesOf (sample : Rid → Token) (rows : List Row) (slots : List (Option Nat)) : List Entry :=
  (rows.map Row.rid).zip ((rows.map fun row => sample row.rid).zip slots)

theorem settleRows_ok (hs : (s.openPool rows older newer).Sound)
    (hle : ∀ row ∈ rows, row.start + row.len ≤ (s.reqs row.rid).seqLen)
    (hlen : ∀ row ∈ rows, (s.reqs row.rid).state = .decode → row.len = 1)
    (htok : ∀ row ∈ rows, 0 ≤ sample row.rid) (done : Row → Bool)
    (hdone : ∀ row ∈ rows, done row = decide (row.start + row.len = (s.reqs row.rid).seqLen)) :
    ∃ slots s', settleRows (rows.zip (rows.map done)) s = .ok (slots, s') ∧
      List.Forall₂ (SlotsFor s) rows slots ∧
      Pool.Moves (some sample) (s.openPool rows older newer)
        (s'.openPool [] older (newer ++ entriesOf sample rows slots)) ∧
      Settled s s' rows ∧ ∀ row ∈ rows, RowSettled s s' row := by
  induction rows generalizing s newer with
  | nil =>
    refine ⟨[], s, rfl, List.Forall₂.nil, ?_, Settled.refl s, by simp⟩
    simpa [entriesOf] using Pool.Moves.refl _
  | cons row rest ih =>
    obtain ⟨slot, s1, h1, hm, hset, hslot, hrow⟩ := settleRow_ok hs (hle row List.mem_cons_self)
      (hlen row List.mem_cons_self) (htok row List.mem_cons_self)
    obtain ⟨-, -, hnr, -⟩ := hs.head_row rfl
    have hother : ∀ x ∈ rest, s1.reqs x.rid = s.reqs x.rid := fun x hx => by
      refine hset.other _ ?_
      simp only [List.map_cons, List.map_nil, List.mem_singleton]
      exact fun e => hnr (e ▸ List.mem_map_of_mem hx)
    obtain ⟨slots, s2, h2, hslots, hms, hset2, hrows⟩ := ih (hm.sound hs)
      (fun x hx => by rw [hother x hx]; exact hle x (List.mem_cons_of_mem _ hx))
      (fun x hx => by rw [hother x hx]; exact hlen x (List.mem_cons_of_mem _ hx))
      (fun x hx => htok x (List.mem_cons_of_mem _ hx))
      (fun x hx => by rw [hother x hx]; exact hdone x (List.mem_cons_of_mem _ hx))
    refine ⟨slot :: slots, s2, ?_, List.Forall₂.cons hslot ?_, ?_, hset.trans hset2, ?_⟩
    · simp only [List.map_cons, List.zip_cons_cons, settleRows, hdone row List.mem_cons_self, h1, h2]
    · refine (List.forall₂_iff_get.mpr ?_)
      rw [List.forall₂_iff_get] at hslots
      refine ⟨hslots.1, fun i hi hi' => ?_⟩
      have := hslots.2 i hi hi'
      rw [SlotsFor, hother _ (List.get_mem _ _)] at this
      exact this
    · have := hm.moves.trans hms
      simpa [entriesOf] using this
    · intro x hx
      rcases List.mem_cons.mp hx with rfl | hx
      · have hx' : x.rid ∉ rest.map Row.rid := hnr
        have e := hset2.other _ hx'
        exact ⟨by rw [e]; exact hrow.complete, by rw [e]; exact hrow.chunk⟩
      · have h := hrows x hx
        exact ⟨by rw [← hother x hx]; exact h.complete, by rw [← hother x hx]; exact h.chunk⟩

section Launch

variable {e : Engine} {model : Model} {b : Batch} {prev : Option Launched} {ids : List Token}

def wrote (e : Engine) (s1 : Scheduler) (b : Batch) (older : List Entry) (ids : List Token) : Device :=
  ModelRunner.write e.device ((b.rows.flatMap (s1.openPool b.rows older []).rowSlots).zip
    (ids.zip (b.rows.flatMap ModelRunner.rowPositions)))

def sampleOf (model : Model) (s : Scheduler) (d : Device) (r : Rid) : Token :=
  model.next (ModelRunner.history d s.kv.blockSize (s.table r)) (s.reqs r).params (s.reqs r).seed (s.reqs r).seqLen

-- A launch in two halves, with the device's writes between them: `s1` is the scheduler when the rows'
-- tables have grown, `s2` when they are settled.
structure Launches (model : Model) (e : Engine) (b : Batch) (ids : List Token) (older : List Entry)
    (s1 s2 : Scheduler) (slots : List (Option Nat)) : Prop where
  reserved : Scheduler.Reserved e.scheduler s1 b.rows
  opens : Pool.Moves none (e.scheduler.pool [] older) (s1.openPool b.rows older [])
  settles : Pool.Moves (some (sampleOf model s1 (wrote e s1 b older ids))) (s1.openPool b.rows older [])
    (s2.openPool [] older (entriesOf (sampleOf model s1 (wrote e s1 b older ids)) b.rows slots))
  settled : Settled s1 s2 b.rows
  slots : List.Forall₂ (SlotsFor s1) b.rows slots
  rows : ∀ row ∈ b.rows, RowSettled e.scheduler s2 row

theorem startsAgree (hs : (s.pool [] older).Sound) (hb : s.BatchFits b) : ModelRunner.startsAgree s b.rows := by
  intro row hrow
  have hr := hb.rows row hrow
  obtain ⟨tb, htb⟩ := Option.ne_none_iff_exists'.mp (Scheduler.pool_held hs (by simpa using hr.mem)).cache
  have := hr.start
  rw [Request.covered, htb] at this
  simp [htb, this]

theorem launch_ok (hs : (e.scheduler.pool [] older).Sound) (hb : e.scheduler.BatchFits b)
    (hfit : e.scheduler.costs e.scheduler.running ≤ e.scheduler.kv.numAvailable)
    (hids : ModelRunner.fillRows b (b.rows.flatMap (ModelRunner.rowIds e.scheduler)) prev = .ok ids)
    (hlong : ∀ id ∈ b.rows.flatMap (ModelRunner.rowIds e.scheduler), IsLong id) :
    ∃ s1 s2 slots, Launches model e b ids older s1 s2 slots ∧
      e.launch model b prev =
        .ok (⟨b, b.rows.map fun row => sampleOf model s1 (wrote e s1 b older ids) row.rid, slots⟩,
          { e with scheduler := s2, device := wrote e s1 b older ids }) := by
  obtain ⟨s1, hres, hopens, hR⟩ := Scheduler.reserve_ok hs (fun row hrow => (hb.rows row hrow).opens hs) hb.nodup
    ((hb.rowCosts_le hs).trans hfit)
  have hs1 := hopens.sound hs
  have hslots : ModelRunner.rowSlots s1 b.rows = .ok (b.rows.flatMap (s1.openPool b.rows older []).rowSlots) :=
    Scheduler.rowSlots_ok hs1 (List.Subset.refl _)
  let sample := sampleOf model s1 (wrote e s1 b older ids)
  obtain ⟨slots, s2, hset, hfor, hmoves, hsettled, hdone⟩ := @settleRows_ok _ _ _ _ sample hs1
    (fun row hrow => by rw [hR.seqLen]; exact (hb.rows row hrow).le)
    (fun row hrow hst => by
      rcases (hb.rows row hrow).kind with h | h
      · rw [hR.state, h] at hst; simp at hst
      · exact h.2)
    (fun row _ => model.next_nonneg _ _ _ _) (completes e.scheduler)
    (fun row _ => by rw [hR.seqLen]; rfl)
  refine ⟨s1, s2, slots, ⟨hR, hopens, ?_, hsettled, hfor, ?_⟩, ?_⟩
  · simpa using hmoves
  · intro row hrow
    have h := hdone row hrow
    refine ⟨fun hc => ?_, fun hc => ?_⟩
    · rw [← hR.outputIds]
      exact h.complete (by rw [hR.seqLen]; exact hc)
    · rw [← hR.state]
      exact h.chunk (by rw [hR.seqLen]; exact hc)
  · have hraw : ¬ ∃ id ∈ b.rows.flatMap (ModelRunner.rowIds e.scheduler), ¬ IsLong id := by
      rintro ⟨id, hid, hn⟩
      exact hn (hlong id hid)
    simp only [launch, ModelRunner.forward, hids, startsAgree hs hb, not_true_eq_false, if_false, hres, hslots]
    rw [if_neg hraw]
    simp only [hset]
    rfl

theorem launch_long (hs : (e.scheduler.pool [] older).Sound) (hb : e.scheduler.BatchFits b)
    (hfit : e.scheduler.costs e.scheduler.running ≤ e.scheduler.kv.numAvailable)
    (hids : ModelRunner.fillRows b (b.rows.flatMap (ModelRunner.rowIds e.scheduler)) prev = .ok ids)
    (hlong : ∃ id ∈ b.rows.flatMap (ModelRunner.rowIds e.scheduler), ¬ IsLong id) :
    ∃ s1, e.launch model b prev = .error .longOverflow ∧ ModelRunner.raisedIn e.scheduler b prev = s1 ∧
      Pool.Moves none (e.scheduler.pool [] older) (s1.openPool b.rows older []) := by
  obtain ⟨s1, hres, hopens, -⟩ := Scheduler.reserve_ok hs (fun row hrow => (hb.rows row hrow).opens hs) hb.nodup
    ((hb.rowCosts_le hs).trans hfit)
  have hslots : ModelRunner.rowSlots s1 b.rows = .ok (b.rows.flatMap (s1.openPool b.rows older []).rowSlots) :=
    Scheduler.rowSlots_ok (hopens.sound hs) (List.Subset.refl _)
  refine ⟨s1, ?_, ?_, hopens⟩
  · simp only [launch, ModelRunner.forward, hids, startsAgree hs hb, not_true_eq_false, if_false, hres, hslots]
    rw [if_pos hlong]
  · simp only [ModelRunner.raisedIn, hids, startsAgree hs hb, if_true, hres]

end Launch

end Engine

end MiniServe
