import MiniServe.Engine.ContiguousLaunch

namespace MiniServe

namespace Contiguous

open ModelRunner
open MiniServe.Engine (inflightEntries)

namespace Engine

variable {model : Model} {e e' : Engine} {rows : List Row} {prev : Option Launched} {b : Batch}

section Stores

def overlay {α : Type} (rids : List Rid) (f g : Rid → α) (r : Rid) : α := if r ∈ rids then f r else g r

variable {α : Type} {rids : List Rid} {f f' g : Rid → α} {r : Rid}

theorem overlay_mem (h : r ∈ rids) : overlay rids f g r = f r := if_pos h

theorem overlay_not_mem (h : r ∉ rids) : overlay rids f g r = g r := if_neg h

@[simp] theorem overlay_nil : overlay [] f g = g := by
  funext r
  exact overlay_not_mem List.not_mem_nil

theorem overlay_congr (h : ∀ r ∈ rids, f r = f' r) : overlay rids f g = overlay rids f' g := by
  funext r
  by_cases hr : r ∈ rids
  · rw [overlay_mem hr, overlay_mem hr, h r hr]
  · rw [overlay_not_mem hr, overlay_not_mem hr]

theorem overlay_cons : overlay rids f (Function.update g r (f r)) = overlay (r :: rids) f g := by
  funext x
  by_cases hx : x ∈ rids
  · rw [overlay_mem hx, overlay_mem (List.mem_cons_of_mem _ hx)]
  · rw [overlay_not_mem hx]
    by_cases he : x = r
    · subst he
      rw [Function.update_self, overlay_mem List.mem_cons_self]
    · have hnot : x ∉ r :: rids := fun hm => (List.mem_cons.mp hm).elim he hx
      rw [Function.update_of_ne he, overlay_not_mem hnot]

def allocated (e : Engine) (rids : List Rid) : Engine :=
  { e with caches := overlay rids (fun r => some (.new (e.request r).maxLen)) e.caches }

theorem allocateRows_ok (hn : (rows.map Row.rid).Nodup) (h : ∀ row ∈ rows, e.caches row.rid = none) :
    allocateRows rows e = .ok (e.allocated (rows.map Row.rid)) := by
  induction rows generalizing e with
  | nil => simp [allocateRows, allocated]
  | cons row rows ih =>
    obtain ⟨hnot, hn⟩ := List.nodup_cons.mp hn
    let e1 : Engine := { e with caches := Function.update e.caches row.rid (some (.new (e.request row.rid).maxLen)) }
    have hallocate : e.allocate row.rid = .ok e1 := if_neg (not_not.mpr (h row List.mem_cons_self))
    have hrest := ih (e := e1) hn fun x hx => by
      have hne : x.rid ≠ row.rid := fun he => hnot (he ▸ List.mem_map_of_mem hx)
      exact (Function.update_of_ne hne ..).trans (h x (List.mem_cons_of_mem _ hx))
    have hcaches : overlay (rows.map Row.rid) (fun r => some (.new (e.request r).maxLen)) e1.caches =
        overlay (row.rid :: rows.map Row.rid) (fun r => some (.new (e.request r).maxLen)) e.caches := overlay_cons
    rw [allocateRows, hallocate]
    refine hrest.trans ?_
    rw [allocated, allocated, List.map_cons, ← hcaches]
    rfl

def stored (e : Engine) (rids : List Rid) (cache : Rid → ContiguousKVCache) : Engine :=
  { e with caches := overlay rids (fun r => some (cache r)) e.caches }

theorem storeCaches_eq (cache : Rid → ContiguousKVCache) :
    storeCaches (rows.map fun row => (row, cache row.rid)) e = e.stored (rows.map Row.rid) cache := by
  induction rows generalizing e with
  | nil => simp [storeCaches, stored]
  | cons row rows ih =>
    have hcaches : overlay (rows.map Row.rid) (fun r => some (cache r))
      (Function.update e.caches row.rid (some (cache row.rid))) =
        overlay (row.rid :: rows.map Row.rid) (fun r => some (cache r)) e.caches := overlay_cons
    rw [List.map_cons, storeCaches, ih, stored, stored, hcaches]
    rfl

def settled (e : Engine) (rids : List Rid) : Engine :=
  { e with scheduler := { e.scheduler with reqs := overlay rids (fun r => ran (e.request r)) e.request } }

theorem settleRow_ok {row : Row} (h : (e.request row.rid).state = .prefill ∨ (e.request row.rid).state = .decode) :
    e.settleRow row true = .ok (some (e.request row.rid).outputIds.length,
      { e with scheduler := e.scheduler.set row.rid (ran (e.request row.rid)) }) := by
  rw [settleRow, if_pos rfl]
  rcases h with hst | hst
  · have htrans : Request.transition (e.request row.rid).sampled .decode = .ok (ran (e.request row.rid)) :=
      Request.transition_ok (by rw [show (e.request row.rid).sampled.state = _ from hst]; decide)
    rw [Request.sampled] at htrans
    refine (if_pos hst).trans ?_
    rw [htrans]
  · have hsame : ran (e.request row.rid) = (e.request row.rid).sampled := by
      rw [ran, ← hst]
      rfl
    rw [hsame]
    exact if_neg (by rw [hst]; decide)

theorem settleRows_ok (hn : (rows.map Row.rid).Nodup)
    (h : ∀ row ∈ rows, (e.request row.rid).state = .prefill ∨ (e.request row.rid).state = .decode) :
    settleRows (rows.map fun row => (row, true)) e =
      .ok (rows.map fun row => some (e.request row.rid).outputIds.length, e.settled (rows.map Row.rid)) := by
  induction rows generalizing e with
  | nil =>
    rw [List.map_nil, List.map_nil, List.map_nil, settled, overlay_nil]
    rfl
  | cons row rows ih =>
    obtain ⟨hnot, hn⟩ := List.nodup_cons.mp hn
    let e1 : Engine := { e with scheduler := e.scheduler.set row.rid (ran (e.request row.rid)) }
    have hsame : ∀ r ∈ rows.map Row.rid, e1.request r = e.request r := fun r hr => by
      have hne : r ≠ row.rid := fun he => hnot (he ▸ hr)
      exact Function.update_of_ne hne ..
    have hrows := ih (e := e1) hn fun x hx => by
      rw [hsame _ (List.mem_map_of_mem hx)]
      exact h x (List.mem_cons_of_mem _ hx)
    have hslots : (rows.map fun x => some (e1.request x.rid).outputIds.length) =
        rows.map fun x => some (e.request x.rid).outputIds.length :=
      List.map_congr_left fun x hx => by rw [hsame _ (List.mem_map_of_mem hx)]
    have hreqs : overlay (rows.map Row.rid) (fun r => ran (e1.request r)) e1.request =
        overlay (row.rid :: rows.map Row.rid) (fun r => ran (e.request r)) e.request := by
      rw [overlay_congr fun r hr => congrArg ran (hsame r hr)]
      exact overlay_cons
    rw [hslots, settled, hreqs] at hrows
    rw [List.map_cons, settleRows, settleRow_ok (h row List.mem_cons_self)]
    simp only
    rw [show settleRows _ _ = _ from hrows]
    rfl

end Stores

structure Feeds (e : Engine) (full : Rid → List Token) (row : Row) : Prop where
  pos : 1 ≤ row.len
  reach : row.start + row.len = (full row.rid).length
  seqLen : (e.request row.rid).seqLen = (full row.rid).length
  first : 1 < row.len → row.start = 0
  cache : e.caches row.rid = some ⟨((full row.rid).take row.start).zipIdx, (e.request row.rid).maxLen⟩
  room : (full row.rid).length ≤ (e.request row.rid).maxLen

section Forward

variable {full : Rid → List Token} {row : Row}

def newCells (full : Rid → List Token) (row : Row) : List (Token × Nat) :=
  ((full row.rid).drop row.start).zip (rowPositions row)

def job (e : Engine) (full : Rid → List Token) (row : Row) : ContiguousAttention.Job :=
  (⟨((full row.rid).take row.start).zipIdx, (e.request row.rid).maxLen⟩, newCells full row)

theorem Feeds.drop_length (h : Feeds e full row) : ((full row.rid).drop row.start).length = row.len := by
  have := h.reach
  rw [List.length_drop]
  omega

theorem Feeds.newCells_length (h : Feeds e full row) : (newCells full row).length = row.len := by
  rw [newCells, List.length_zip, h.drop_length, rowPositions, List.length_range', Nat.min_self]

theorem Feeds.cells (h : Feeds e full row) :
    ((full row.rid).take row.start).zipIdx ++ newCells full row = (full row.rid).zipIdx := by
  have hreach := h.reach
  have htake : ((full row.rid).take row.start).length = row.start := by
    rw [List.length_take]
    omega
  conv_rhs => rw [← List.take_append_drop row.start (full row.rid), List.zipIdx_append, Nat.zero_add, htake]
  have hdrop : ((full row.rid).drop row.start).zipIdx row.start = newCells full row := by
    rw [List.zipIdx_eq_zip_range', h.drop_length]
    rfl
  rw [hdrop]

theorem Feeds.fits (h : Feeds e full row) : ContiguousAttention.Fits (e.job full row) := by
  have hreach := h.reach
  have hroom := h.room
  refine ⟨?_, fun hmany => ?_, ?_⟩
  · show 1 ≤ (newCells full row).length
    rw [h.newCells_length]
    exact h.pos
  · have hmany' : 1 < (newCells full row).length := hmany
    rw [h.newCells_length] at hmany'
    simp [job, h.first hmany']
  · show (((full row.rid).take row.start).zipIdx).length + (newCells full row).length ≤ _
    rw [h.newCells_length, List.length_zipIdx, List.length_take]
    show _ ≤ (e.request row.rid).maxLen
    omega

theorem rowCaches_ok (h : ∀ row ∈ rows, Feeds e full row) :
    e.rowCaches rows = .ok ((rows.map (e.job full)).map Prod.fst) := by
  induction rows with
  | nil => rfl
  | cons row rows ih =>
    rw [rowCaches, (h row List.mem_cons_self).cache]
    simp only [ih fun x hx => h x (List.mem_cons_of_mem _ hx)]
    rfl

def fedCache (e : Engine) (full : Rid → List Token) (r : Rid) : ContiguousKVCache :=
  ⟨(full r).zipIdx, (e.request r).maxLen⟩

def tokenOf (model : Model) (e : Engine) (full : Rid → List Token) (r : Rid) : Token :=
  model.next (cellsOf (full r)) (e.request r).params (e.request r).seed (e.request r).seqLen

theorem job_grown (h : Feeds e full row) : ContiguousAttention.grown (e.job full row) = e.fedCache full row.rid := by
  show (⟨((full row.rid).take row.start).zipIdx ++ newCells full row, _⟩ : ContiguousKVCache) = _
  rw [h.cells]
  rfl

theorem fed_length (h : ∀ row ∈ rows, Feeds e full row) :
    (rows.flatMap fun row => (full row.rid).drop row.start).length = (rows.map Row.len).sum := by
  rw [List.length_flatMap]
  exact congrArg List.sum (List.map_congr_left fun row hrow => (h row hrow).drop_length)

-- One pass over the new tokens of rows that all feed: every cache ends with the row's tokens, and its last
-- token sees them.
theorem pass_ok (h : ∀ row ∈ rows, Feeds e full row) :
    ContiguousAttention.forwardWith ((rows.map (e.job full)).map Prod.fst) (rows.map Row.len)
      (rows.flatMap fun row => (full row.rid).drop row.start) (rows.flatMap rowPositions) =
      .ok (rows.map fun row => e.fedCache full row.rid, rows.map fun row => cellsOf (full row.rid)) := by
  have hjobs : ∀ x ∈ rows.map (e.job full), ContiguousAttention.Fits x := by
    intro x hx
    obtain ⟨row, hrow, rfl⟩ := List.mem_map.mp hx
    exact (h row hrow).fits
  have hcells : (rows.flatMap fun row => (full row.rid).drop row.start).zip (rows.flatMap rowPositions) =
      (rows.map (e.job full)).flatMap Prod.snd := by
    rw [zip_flatMap fun row hrow => by rw [(h row hrow).drop_length, rowPositions, List.length_range'], List.flatMap_map]
    rfl
  have hlens : ((rows.map (e.job full)).map fun x => x.2.length) = rows.map Row.len := by
    rw [List.map_map]
    exact List.map_congr_left fun row hrow => (h row hrow).newCells_length
  have hpass := ContiguousAttention.forwardWith_ok hjobs hcells (by rw [hlens, fed_length h])
  have hgrown : (rows.map (e.job full)).map ContiguousAttention.grown = rows.map fun row => e.fedCache full row.rid := by
    rw [List.map_map]
    exact List.map_congr_left fun row hrow => job_grown (h row hrow)
  have hhist : ((rows.map (e.job full)).map fun x => (x.1.cells ++ x.2).map some) =
      rows.map fun row => cellsOf (full row.rid) := by
    rw [List.map_map]
    exact List.map_congr_left fun row hrow => congrArg (List.map some) (h row hrow).cells
  rw [hlens, hgrown, hhist] at hpass
  exact hpass

theorem forward_ok (h : ∀ row ∈ b.rows, Feeds e full row) (hids : ∀ row ∈ b.rows, (e.rowIds row).length = row.len)
    (hn : b.numDecode ≤ b.rows.length) (hlong : ∀ id ∈ b.rows.flatMap e.rowIds, IsLong id)
    (hfill : fillRows b (b.rows.flatMap e.rowIds) prev = .ok (b.rows.flatMap fun row => (full row.rid).drop row.start)) :
    e.forward model b prev = .ok (b.rows.map fun row => e.tokenOf model full row.rid,
      e.stored (b.rows.map Row.rid) (e.fedCache full)) := by
  have htotal : (b.rows.flatMap e.rowIds).length = (b.rows.map Row.len).sum := by
    rw [List.length_flatMap]
    exact congrArg List.sum (List.map_congr_left hids)
  have hnum : b.numDecode ≤ (b.rows.flatMap e.rowIds).length := by
    rw [htotal]
    have hcard := List.card_nsmul_le_sum (b.rows.map Row.len) 1 fun n hn => by
      obtain ⟨row, hrow, rfl⟩ := List.mem_map.mp hn
      exact (h row hrow).pos
    rw [List.length_map, smul_eq_mul, Nat.mul_one] at hcard
    exact hn.trans hcard
  have hrows := fillRows_eq b prev hn hnum
  cases hidx : fillIdx b (b.rows.flatMap e.rowIds) prev with
  | error err =>
    rw [hfill, hidx] at hrows
    simp [Except.map] at hrows
  | ok fill =>
    rw [hfill, hidx] at hrows
    have hset : setAll fill (b.rows.flatMap e.rowIds) = b.rows.flatMap fun row => (full row.rid).drop row.start :=
      (Except.ok.inj hrows).symm
    have hcopy : indexCopy (b.rows.flatMap e.rowIds) fill = some (setAll fill (b.rows.flatMap e.rowIds)) :=
      if_pos fun x hx => (fillIdx_lt hidx x hx).trans_le hnum
    have htokens : List.zipWith (e.sampleRow model) b.rows (b.rows.map fun row => cellsOf (full row.rid)) =
        b.rows.map fun row => e.tokenOf model full row.rid := by
      rw [List.zipWith_map_right, List.zipWith_self]
      rfl
    have hstore : b.rows.zip (b.rows.map fun row => e.fedCache full row.rid) =
        b.rows.map fun row => (row, e.fedCache full row.rid) := List.map_prod_left_eq_zip.symm
    have hraw : ¬ ∃ id ∈ b.rows.flatMap e.rowIds, ¬ IsLong id := by
      rintro ⟨id, hid, hn⟩
      exact hn (hlong id hid)
    simp only [forward, hidx, rowCaches_ok h, if_neg hraw, hcopy, hset]
    rw [pass_ok h]
    simp only [htokens, hstore, storeCaches_eq]

end Forward

section Launch

variable {full : Rid → List Token} {es : List Entry} {rids : List Rid} {e1 e2 : Engine} {r : Rid}

theorem launch_ok (hn : (b.rows.map Row.rid).Nodup)
    (halloc : (if b.phase = .prefill then allocateRows b.rows e1 else .ok e1) = .ok e2)
    (h : ∀ row ∈ b.rows, Feeds e2 full row) (hids : ∀ row ∈ b.rows, (e2.rowIds row).length = row.len)
    (hst : ∀ row ∈ b.rows, (e2.request row.rid).state = .prefill ∨ (e2.request row.rid).state = .decode)
    (hnum : b.numDecode ≤ b.rows.length) (hlong : ∀ id ∈ b.rows.flatMap e2.rowIds, IsLong id)
    (hfill : fillRows b (b.rows.flatMap e2.rowIds) prev =
      .ok (b.rows.flatMap fun row => (full row.rid).drop row.start)) :
    e1.launch model b prev = .ok (⟨b, b.rows.map fun row => e2.tokenOf model full row.rid,
      b.rows.map fun row => some (e2.request row.rid).outputIds.length⟩,
      (e2.stored (b.rows.map Row.rid) (e2.fedCache full)).settled (b.rows.map Row.rid)) := by
  have hdone : b.rows.zip (b.rows.map e2.completes) = b.rows.map fun row => (row, true) := by
    refine List.map_prod_left_eq_zip.symm.trans (List.map_congr_left fun row hrow => ?_)
    have hrow := h row hrow
    rw [completes, hrow.seqLen, hrow.reach, decide_eq_true rfl]
  have hsettle := @settleRows_ok (e2.stored (b.rows.map Row.rid) (e2.fedCache full)) b.rows hn hst
  rw [launch, halloc]
  simp only [forward_ok h hids hnum hlong hfill, hdone]
  rw [hsettle]
  rfl

theorem Sound.outputs_length (h : Sound model e es) (hd : ¬ (e.request r).isDone) :
    (e.outputs es r).length = (e.request r).outputIds.length := by
  have hp := h.pending r hd
  have hlen := congrArg List.length hp.readyIds_append
  rw [List.length_append, List.length_replicate] at hlen
  rw [outputs, List.length_append, inflightTokens_length, hp.length, hlen]

theorem Sound.truth_length (h : Sound model e es) (hd : ¬ (e.request r).isDone) :
    (e.truth es r).length = (e.request r).seqLen := by
  rw [truth, List.length_append, h.outputs_length hd, Request.seqLen]

structure Prepared (e e2 : Engine) (es : List Entry) (b : Batch) (rids : List Rid) (prev : Option Launched) : Prop where
  nodup : rids.Nodup
  runnable : ∀ r ∈ rids, Runnable e es r
  rows : b.rows.map Row.rid = rids
  inside : ∀ r ∈ rids, ∃ st, (st = .prefill ∨ st = .decode) ∧ e2.request r = { e.request r with state := st }
  outside : ∀ r, r ∉ rids → e2.request r = e.request r ∧ e2.caches r = e.caches r
  queued : e2.queued.Perm e.queued
  requests : e2.requests = e.requests
  nextRid : e2.nextRid = e.nextRid
  running : ∀ r, r ∈ e2.scheduler.running ↔ r ∈ e.scheduler.running ∨ r ∈ rids
  waiting : ∀ r ∈ e2.scheduler.waiting, r ∈ e.scheduler.waiting
  feeds : ∀ row ∈ b.rows, Feeds e2 (e.truth es) row
  ids : ∀ row ∈ b.rows, (e2.rowIds row).length = row.len
  numDecode : b.numDecode ≤ b.rows.length
  long : ∀ id ∈ b.rows.flatMap e2.rowIds, IsLong id
  fill : fillRows b (b.rows.flatMap e2.rowIds) prev = .ok (b.rows.flatMap fun row => (e.truth es row.rid).drop row.start)

theorem Prepared.ran (h : Prepared e e2 es b rids prev) :
    Ran e ((e2.stored rids (e2.fedCache (e.truth es))).settled rids) es rids where
  nodup := h.nodup
  runnable := h.runnable
  queued := h.queued
  requests := h.requests
  nextRid := h.nextRid
  running := h.running
  waiting := h.waiting
  inside := fun r hr => by
    obtain ⟨st, -, hst⟩ := h.inside r hr
    constructor
    · show overlay rids (fun r => Engine.ran (e2.request r)) e2.request r = _
      rw [overlay_mem hr, hst]
      rfl
    · show overlay rids (fun r => some (e2.fedCache (e.truth es) r)) e2.caches r = _
      rw [overlay_mem hr, fedCache, hst]
      rfl
  outside := fun r hr => by
    constructor
    · show overlay rids (fun r => Engine.ran (e2.request r)) e2.request r = _
      rw [overlay_not_mem hr]
      exact (h.outside r hr).1
    · show overlay rids (fun r => some (e2.fedCache (e.truth es) r)) e2.caches r = _
      rw [overlay_not_mem hr]
      exact (h.outside r hr).2

theorem Prepared.sample (h : Prepared e e2 es b rids prev) (hs : Sound model e es) {row : Row} (hrow : row ∈ b.rows) :
    e2.tokenOf model (e.truth es) row.rid = e.sample model es row.rid ∧
      (e2.request row.rid).outputIds.length = (e.request row.rid).outputIds.length := by
  have hr : row.rid ∈ rids := h.rows ▸ List.mem_map_of_mem hrow
  obtain ⟨st, -, hst⟩ := h.inside row.rid hr
  have hlen := hs.outputs_length (h.runnable _ hr).going
  constructor
  · rw [tokenOf, hst, Engine.sample, Model.nextAfter, hlen]
    rfl
  · rw [hst]

theorem Prepared.launch (h : Prepared e e2 es b rids prev) (hs : Sound model e es)
    (halloc : (if b.phase = .prefill then allocateRows b.rows e1 else .ok e1) = .ok e2) :
    ∃ L e', e1.launch model b prev = .ok (L, e') ∧ L.batch = b ∧ L.Whole ∧ L.entries = e.entriesOf model es rids ∧
      Ran e e' es rids ∧ e'.inflight = e2.inflight ∧ e'.overlap = e2.overlap := by
  have hstates : ∀ row ∈ b.rows, (e2.request row.rid).state = .prefill ∨ (e2.request row.rid).state = .decode := by
    intro row hrow
    obtain ⟨st, hst, hq⟩ := h.inside row.rid (h.rows ▸ List.mem_map_of_mem hrow)
    rw [hq]
    exact hst
  have hl := @launch_ok model _ _ _ _ _ (h.rows.symm ▸ h.nodup) halloc h.feeds h.ids hstates h.numDecode h.long h.fill
  rw [h.rows] at hl
  refine ⟨_, _, hl, rfl, ⟨by simp, by simp⟩, ?_, h.ran, rfl, rfl⟩
  have hzip : (b.rows.map fun row => e2.tokenOf model (e.truth es) row.rid).zip
      (b.rows.map fun row => some (e2.request row.rid).outputIds.length) =
      b.rows.map fun row => (e.sample model es row.rid, some (e.request row.rid).outputIds.length) := by
    rw [List.zip_map']
    refine List.map_congr_left fun row hrow => ?_
    obtain ⟨h1, h2⟩ := h.sample hs hrow
    rw [h1, h2]
  rw [Launched.entries, hzip, List.zip_map', entriesOf, sampledEntries, ← h.rows, List.map_map]
  rfl

end Launch

end Engine

end Contiguous

end MiniServe
