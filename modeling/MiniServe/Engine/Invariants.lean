import MiniServe.Engine.Reach

namespace MiniServe

open KVCacheManager

namespace Engine

variable {e e' : Engine} {model : Model} {c : EngineConfig} {ok : List Token → Prop} {r : Rid}

theorem Reachable.next (h : Reachable model c ok e) (hs : (e.step model).1.isOk = true) :
    Reachable model c ok (e.step model).2 := by
  cases hr : (e.step model).1 with
  | error err => simp [hr, Except.isOk, Except.toBool] at hs
  | ok out => exact .step h (Prod.ext hr rfl)

theorem schedule_of_fst {s : Scheduler} {res : Except Error (Option Batch)} (h : s.schedule.1 = res) :
    s.schedule = (res, s.schedule.2) := Prod.ext h rfl

def tiny : EngineConfig where
  numBlocks := 2
  blockSize := 2
  radix := true
  maxRunning := 4
  maxPrefillTokens := 64
  chunkedPrefillSize := 0
  tokensPerStep := 1
  policy := .fcfs
  overlap := false
  seeds := fun _ => 0
  numBlocks_pos := Nat.two_pos
  blockSize_pos := Nat.two_pos
  maxRunning_pos := Nat.succ_pos (nat_lit 3)
  maxPrefillTokens_pos := by decide
  tokensPerStep_pos := Nat.one_pos

def constant (tok : Nat) : Model := ⟨fun _ _ _ _ => tok, fun _ _ _ _ => Int.natCast_nonneg tok⟩

theorem constant_long {tok : Nat} (h : (tok : Int) < 2 ^ 63) : (constant tok).Long :=
  fun _ _ _ _ => ⟨le_trans (by decide) (Int.natCast_nonneg tok), h⟩

def submitted : Engine := ((new tiny).addRequest [1, 2] { maxNewTokens := 2 }).2

def afterFirst : Engine := (submitted.step (constant 7)).2

theorem afterFirst_reachable : Reachable (constant 7) tiny (fun _ => True) afterFirst := by
  have h : Reachable (constant 7) tiny (fun _ => True) submitted := .add .init trivial
  exact h.next (by decide +kernel)

section Queues

structure NothingLost (e : Engine) : Prop where
  requests_nodup : e.requests.Nodup
  once : ∀ r ∈ e.requests, (e.scheduler.running ++ e.scheduler.waiting).count r = 1
  running_state : ∀ r ∈ e.requests, r ∈ e.scheduler.running ↔
    ((e.request r).state = .prefill ∨ (e.request r).state = .decode)
  running_cache : ∀ r ∈ e.requests, r ∈ e.scheduler.running ↔ (e.request r).cache ≠ none
  waiting_state : ∀ r ∈ e.requests, r ∈ e.scheduler.waiting ↔ (e.request r).state = .waiting ∧
    (e.request r).cache = none ∧ (e.request r).cacheNode = none
  len : e.scheduler.running.length ≤ e.scheduler.maxRunning
  done : ∀ r, (e.request r).isDone → r ∉ e.scheduler.running ∧ r ∉ e.scheduler.waiting ∧ r ∉ e.requests ∧
    (e.request r).cache = none
  unlocked : e.requests = [] → ∀ t, e.scheduler.kv.tree = some t → ∀ n ∈ t.forest.labels, n.lock = 0
  idle : e.requests = [] → e.scheduler.kv.numIdleBlocks = e.scheduler.kv.allocator.numBlocks
  cleared : e.requests = [] → ∃ kv, e.scheduler.kv.clear = .ok kv ∧
    kv.allocator.numFree = e.scheduler.kv.allocator.numBlocks ∧ ∀ b, kv.allocator.ref b = 0

theorem Sound.queues_nodup (he : e.Sound) : (e.scheduler.running ++ e.scheduler.waiting).Nodup := by
  have := he.pool.nodup
  simpa [Scheduler.openPool, Scheduler.pool] using this

theorem Sound.mem_queues (he : e.Sound) : r ∈ e.requests ↔ r ∈ e.scheduler.running ∨ r ∈ e.scheduler.waiting := by
  rw [he.requests.mem_iff, List.mem_append]

theorem Sound.running_facts (he : e.Sound) (hr : r ∈ e.scheduler.running) :
    ((e.request r).state = .prefill ∨ (e.request r).state = .decode) ∧ (e.request r).cache ≠ none := by
  have hl : r ∈ e.scheduler.running ++ [] := by simpa using hr
  exact ⟨he.pool.state_live hl, (he.pool.kv.held r hl).cache⟩

theorem Sound.waiting_facts (he : e.Sound) (hr : r ∈ e.scheduler.waiting) :
    (e.request r).state = .waiting ∧ (e.request r).cache = none ∧ (e.request r).cacheNode = none :=
  ⟨(he.pool.queued r hr).1, he.pool.kv.idle r (he.pool.not_mem_live hr)⟩

theorem Sound.idle_kv (he : e.Sound) (h : e.requests = []) : e.scheduler.kv.Sound e.scheduler.reqs [] := by
  have hp : [].Perm (e.scheduler.running ++ e.scheduler.waiting) := h ▸ he.requests
  have hrun : e.scheduler.running = [] := (List.append_eq_nil_iff.mp hp.nil_eq.symm).1
  have hkv : e.scheduler.kv.Sound e.scheduler.reqs (e.scheduler.running ++ []) := he.pool.kv
  rwa [hrun] at hkv

theorem Sound.nothing_lost (he : e.Sound) : e.NothingLost where
  requests_nodup := he.requests.nodup_iff.mpr he.queues_nodup
  once := fun r hr => List.count_eq_one_of_mem he.queues_nodup (he.requests.mem_iff.mp hr)
  running_state := fun r hr => by
    refine ⟨fun h => (he.running_facts h).1, fun h => ?_⟩
    refine (he.mem_queues.mp hr).resolve_right fun hw => ?_
    rw [(he.waiting_facts hw).1] at h
    simp at h
  running_cache := fun r hr => by
    refine ⟨fun h => (he.running_facts h).2, fun h => ?_⟩
    exact (he.mem_queues.mp hr).resolve_right fun hw => h (he.waiting_facts hw).2.1
  waiting_state := fun r hr => by
    refine ⟨fun h => he.waiting_facts h, fun h => ?_⟩
    exact (he.mem_queues.mp hr).resolve_left fun hl => (he.running_facts hl).2 h.2.1
  len := he.len
  done := fun r hd => by
    have hl : r ∉ e.scheduler.running := fun h =>
      he.pool.not_done (.inl (by simpa [Scheduler.openPool, Scheduler.pool] using h)) hd
    have hw : r ∉ e.scheduler.waiting := fun h => he.pool.not_done (.inr h) hd
    refine ⟨hl, hw, fun h => (he.mem_queues.mp h).elim hl hw, ?_⟩
    exact (he.pool.kv.idle r (by simpa [Scheduler.openPool, Scheduler.pool] using hl)).1
  unlocked := fun h t ht => (he.idle_kv h).idle_unlocked ht
  idle := fun h => (he.idle_kv h).numIdleBlocks
  cleared := fun h => (he.idle_kv h).clear

theorem reachable_nothing_lost (h : Reachable model c ok e) : e.NothingLost := h.sound.nothing_lost

theorem reachable_nothing_lost_after_first : afterFirst.NothingLost := reachable_nothing_lost afterFirst_reachable

end Queues

section Writes

structure WritesPrivate (s : Scheduler) (rows : List Row) (slots : List Int) : Prop where
  nodup : slots.Nodup
  ref : ∀ slot ∈ slots, s.kv.allocator.ref (slot / s.kv.blockSize) = 1
  own : ∀ row ∈ rows, ∀ own, ModelRunner.rowSlots s [row] = .ok own → ∀ slot ∈ own, slot ∈ slots ∧
    slot / s.kv.blockSize ∈ (s.reqs row.rid).tableBlocks ∧ slot / s.kv.blockSize ∉ s.kv.cachedBlocks ∧
      ∀ x, x ≠ row.rid → slot / s.kv.blockSize ∉ (s.reqs x).tableBlocks

theorem writes_private {s : Scheduler} {rows : List Row} {older newer : List Entry}
    (hs : (s.openPool rows older newer).Sound) :
    WritesPrivate s rows (rows.flatMap (s.openPool rows older newer).rowSlots) := by
  have hpriv : ∀ row ∈ rows, ∀ slot ∈ (s.openPool rows older newer).rowSlots row,
      slot / s.kv.blockSize ∈ (s.reqs row.rid).tableBlocks ∧ slot / s.kv.blockSize ∉ s.kv.cachedBlocks ∧
        (∀ x ∈ s.running ++ [], x ≠ row.rid → slot / s.kv.blockSize ∉ (s.reqs x).tableBlocks) ∧
        s.kv.allocator.ref (slot / s.kv.blockSize) = 1 := by
    intro row hrow slot hslot
    obtain ⟨pos, hpos, rfl⟩ := List.mem_map.mp hslot
    obtain ⟨h1, h2, h3⟩ := hs.writable.opened_pos hrow hpos
    have hb := Pool.rowSlot_block (p := s.openPool rows older newer) row.rid pos
    simp only [Scheduler.openPool, Scheduler.pool] at hb
    simp only [Scheduler.openPool, Scheduler.pool]
    rw [hb]
    exact hs.writable.block_private h1 h2 h3
  refine ⟨hs.writable.rowSlots_nodup, fun slot hslot => ?_, fun row hrow own hown slot hslot => ?_⟩
  · obtain ⟨row, hrow, hmem⟩ := List.mem_flatMap.mp hslot
    exact (hpriv row hrow slot hmem).2.2.2
  · have hsub : [row] ⊆ rows := List.cons_subset.mpr ⟨hrow, List.nil_subset _⟩
    have hone := Scheduler.rowSlots_ok hs hsub
    rw [hown] at hone
    obtain rfl : own = _ := Except.ok.inj hone
    have hmem : slot ∈ (s.openPool rows older newer).rowSlots row := by simpa using hslot
    obtain ⟨h1, h2, h3, -⟩ := hpriv row hrow slot hmem
    refine ⟨List.mem_flatMap.mpr ⟨row, hrow, hmem⟩, h1, h2, fun x hx => ?_⟩
    by_cases hl : x ∈ s.running ++ []
    · exact h3 x hl hx
    · have := (hs.kv.idle x hl).1
      simp only [Scheduler.openPool, Scheduler.pool] at this
      simp [Request.tableBlocks, this]

theorem launch_writes_private {b : Batch} {s : Scheduler} (h : Reachable model c ok e)
    (hs : e.scheduler.schedule = (.ok (some b), s)) :
    ∃ s' slots, ModelRunner.reserve s b.rows = (.ok (), s') ∧ ModelRunner.rowSlots s' b.rows = .ok slots ∧
      WritesPrivate s' b.rows slots := by
  have he := h.sound
  obtain ⟨hS, -⟩ := he.schedule
  rw [hs] at hS
  have hpool := (he.toCore.scheduled hS).pool
  have hb : s.BatchFits b := hS.batch b rfl
  obtain ⟨s', hres, hopens, -⟩ := Scheduler.reserve_ok hpool (fun row hrow => (hb.rows row hrow).opens hpool) hb.nodup
    ((hb.rowCosts_le hpool).trans (hS.fits _ rfl))
  have hs' := hopens.sound hpool
  exact ⟨s', _, hres, Scheduler.rowSlots_ok hs' (List.Subset.refl _), writes_private hs'⟩

theorem launch_writes_private_second : ∃ b s, afterFirst.scheduler.schedule = (.ok (some b), s) ∧
    ∃ s' slots, ModelRunner.reserve s b.rows = (.ok (), s') ∧ ModelRunner.rowSlots s' b.rows = .ok slots ∧
      WritesPrivate s' b.rows slots := by
  have h1 : afterFirst.scheduler.schedule.1 = .ok (some ⟨.decode, [⟨0, 2, 1⟩], [], 1⟩) := by decide +kernel
  have hb := schedule_of_fst h1
  exact ⟨_, _, hb, launch_writes_private afterFirst_reachable hb⟩

end Writes

section Capacity

-- The head of the queue fits: its own blocks, with the duplicates its tree lock keeps, and what its next
-- step needs are at most the pool.
def LeadFits (e : Engine) : Prop :=
  ∀ r, e.scheduler.lead = some r →
    e.scheduler.cost r + (e.scheduler.ownBlocks r).length ≤ e.scheduler.kv.allocator.numBlocks

theorem leadFits_iff : e.LeadFits ↔ ¬ e.scheduler.Stuck := by
  simp only [LeadFits, Scheduler.Stuck, not_exists, not_and, not_lt]

theorem schedule_never_raises_iff (h : Reachable model c ok e) :
    (∀ s, e.scheduler.schedule ≠ (.error .loneRequestDoesNotFit, s)) ↔ e.LeadFits := by
  obtain ⟨hS, -⟩ := h.sound.schedule
  rw [leadFits_iff, ← hS.stuck]
  constructor
  · intro hne hres
    exact hne _ (Prod.ext hres rfl)
  · intro hne s hs
    exact hne (by rw [hs])

theorem schedule_never_raises_iff_after_first :
    afterFirst.LeadFits ∧ ∀ s, afterFirst.scheduler.schedule ≠ (.error .loneRequestDoesNotFit, s) := by
  have hfit : afterFirst.LeadFits := by
    intro r hr
    have hl : afterFirst.scheduler.lead = some 0 := by decide +kernel
    obtain rfl : 0 = r := Option.some.inj (hl.symm.trans hr)
    decide +kernel
  exact ⟨hfit, (schedule_never_raises_iff afterFirst_reachable).mpr hfit⟩

-- The same prompt again after the first request is done: its prefill locks the cached copy of a block it
-- has computed once more, and the pool has no third block for its next token.
def twinSubmitted : Engine := ((afterFirst.step (constant 7)).2.addRequest [1, 2] { maxNewTokens := 2 }).2

def afterTwin : Engine := (twinSubmitted.step (constant 7)).2

theorem afterTwin_reachable : Reachable (constant 7) tiny (fun _ => True) afterTwin := by
  have h : Reachable (constant 7) tiny (fun _ => True) twinSubmitted :=
    .add (afterFirst_reachable.next (by decide +kernel)) trivial
  exact h.next (by decide +kernel)

theorem twin_schedule_raises : ¬ ∀ e, Reachable (constant 7) tiny (fun _ => True) e →
    ∀ s, e.scheduler.schedule ≠ (.error .loneRequestDoesNotFit, s) := by
  intro h
  have h1 : afterTwin.scheduler.schedule.1 = .error .loneRequestDoesNotFit := by decide +kernel
  exact h afterTwin afterTwin_reachable _ (schedule_of_fst h1)

end Capacity

end Engine

end MiniServe
