import MiniServe.Model.Contiguous

namespace MiniServe

namespace Contiguous

-- The scheduler without a pool to budget against: whole prefills, nothing to preempt for.
structure Scheduler where
  maxRunning : Nat
  maxPrefillTokens : Nat
  policy : SchedulePolicy
  reqs : Store
  waiting : List Rid := []
  running : List Rid := []
  stats : Stats := {}
  maxRunning_pos : 1 ≤ maxRunning
  maxPrefillTokens_pos : 1 ≤ maxPrefillTokens

namespace Scheduler

variable (s : Scheduler)

def set (r : Rid) (q : Request) : Scheduler := { s with reqs := Function.update s.reqs r q }

def add (q : Request) : Except Error Scheduler :=
  if q.state ≠ .waiting then .error (.notWaiting q.rid) else .ok { s.set q.rid q with waiting := s.waiting ++ [q.rid] }

def order : List Rid :=
  match s.policy with
  | .fcfs | .cache => s.waiting
  | .sjf => s.waiting.insertionSort fun i j => remainingWork (s.reqs i) ≤ remainingWork (s.reqs j)

def enterPrefill (r : Rid) : Except Error Scheduler :=
  match (s.reqs r).transition .prefill with
  | .error e => .error e
  | .ok q => .ok { s.set r q with
      waiting := s.waiting.erase r
      stats := s.stats.admitted (q.numPreemptions = 0) q.seqLen 0 }

def admitLoop : List Rid → Scheduler → List Rid → Int → Except Error (List Rid × Scheduler)
  | [], s, admitted, _ => .ok (admitted, s)
  | r :: rest, s, admitted, budget =>
    if s.running.length + admitted.length ≥ s.maxRunning then .ok (admitted, s)
    else if (s.reqs r).numPending ≠ 0 then .ok (admitted, s)
    else
      let n : Int := (s.reqs r).seqLen
      if admitted = [] ∨ n ≤ budget then
        match s.enterPrefill r with
        | .error e => .error e
        | .ok s => admitLoop rest s (admitted ++ [r]) (budget - n)
      else .ok (admitted, s)

def admitWaiting : Except Error (List Rid × Scheduler) := admitLoop s.order s [] s.maxPrefillTokens

def wholeRow (r : Rid) : Row := ⟨r, (s.reqs r).numCachedTokens, (s.reqs r).seqLen - (s.reqs r).numCachedTokens⟩

def decodeRow (r : Rid) : Row := ⟨r, (s.reqs r).seqLen - 1, 1⟩

def schedule : Except Error (Option Batch × Scheduler) :=
  match s.admitWaiting with
  | .error e => .error e
  | .ok (admitted, s) =>
    if admitted ≠ [] then
      .ok (some ⟨.prefill, admitted.map s.wholeRow, [], 0⟩, { s with running := s.running ++ admitted })
    else
      let decoding := s.running.filter fun r => (s.reqs r).decodes
      if decoding = [] then .ok (none, s)
      else .ok (some ⟨.decode, decoding.map s.decodeRow, [], decoding.length⟩, s)

def retire (r : Rid) : Except Error Scheduler :=
  if ¬ (s.reqs r).isDone then .error (.notDone r)
  else if r ∈ s.running then .ok { s with running := s.running.erase r }
  else .ok { s with waiting := s.waiting.erase r }

def hasUnfinished : Prop := s.waiting ≠ [] ∨ s.running ≠ []

end Scheduler

inductive RunError where
  | engine (e : Error)
  | attention (e : AttentionError)
  | indexOutOfRange
  | noPool (rid : Rid)
  deriving DecidableEq, Repr

structure EngineConfig where
  maxRunning : Nat
  maxPrefillTokens : Nat
  policy : SchedulePolicy
  overlap : Bool
  seeds : Nat → Nat
  maxRunning_pos : 1 ≤ maxRunning
  maxPrefillTokens_pos : 1 ≤ maxPrefillTokens

-- The engine with one contiguous cache a request, on the reference attention.
structure Engine where
  scheduler : Scheduler
  caches : Rid → Option ContiguousKVCache
  overlap : Bool
  seeds : Nat → Nat
  requests : List Rid := []
  nextRid : Rid := 0
  drawn : Nat := 0
  inflight : Option Launched := none
  launched : Option Batch := none

namespace Engine

def new (c : EngineConfig) : Engine where
  scheduler :=
    { maxRunning := c.maxRunning
      maxPrefillTokens := c.maxPrefillTokens
      policy := c.policy
      reqs := .blank
      maxRunning_pos := c.maxRunning_pos
      maxPrefillTokens_pos := c.maxPrefillTokens_pos }
  caches := fun _ => none
  overlap := c.overlap
  seeds := c.seeds

variable (e : Engine)

def request (r : Rid) : Request := e.scheduler.reqs r

def addRequest (promptIds : List Token) (params : SamplingParams) : Except Error Rid × Engine :=
  let e1 := { e with nextRid := e.nextRid + 1 }
  match Request.new e.nextRid promptIds params with
  | .error err => (.error err, e1)
  | .ok q =>
    let e2 := match params.seed with
      | some _ => e1
      | none => { e1 with drawn := e.drawn + 1 }
    let q := { q with seed := params.seed.getD (e.seeds e.drawn) }
    match e.scheduler.add q with
    | .error err => (.error err, e2)
    | .ok s => (.ok q.rid, { e2 with scheduler := s, requests := e.requests ++ [q.rid] })

def retire (r : Rid) : Except Error Engine :=
  match (e.scheduler.set r (e.request r).dropPending).retire r with
  | .error err => .error err
  | .ok s =>
    if r ∈ e.requests then
      .ok { e with scheduler := s, caches := Function.update e.caches r none, requests := e.requests.erase r }
    else .error (.missingRequest r)

def abort (r : Rid) : Except Error Engine :=
  if r ∈ e.requests then
    match (e.request r).transition .aborted with
    | .error err => .error err
    | .ok q => Engine.retire { e with scheduler := e.scheduler.set r q } r
  else .ok e

def allocate (r : Rid) : Except Error Engine :=
  if e.caches r ≠ none then .error (.alreadyHoldsCache r)
  else .ok { e with caches := Function.update e.caches r (some (.new (e.request r).maxLen)) }

def allocateRows : List Row → Engine → Except Error Engine
  | [], e => .ok e
  | row :: rows, e =>
    match e.allocate row.rid with
    | .error err => .error err
    | .ok e => allocateRows rows e

def rowIds (row : Row) : List Token := (e.request row.rid).tokenSlice row.start row.len

def rowCaches : List Row → Except Error (List ContiguousKVCache)
  | [] => .ok []
  | row :: rows =>
    match e.caches row.rid with
    | none => .error (.noCache row.rid)
    | some c =>
      match rowCaches rows with
      | .error err => .error err
      | .ok cs => .ok (c :: cs)

def storeCaches : List (Row × ContiguousKVCache) → Engine → Engine
  | [], e => e
  | (row, c) :: rest, e => storeCaches rest { e with caches := Function.update e.caches row.rid (some c) }

def sampleRow (model : Model) (row : Row) (h : List (Option (Token × Nat))) : Token :=
  model.next h (e.request row.rid).params (e.request row.rid).seed (e.request row.rid).seqLen

def forward (model : Model) (batch : Batch) (prev : Option Launched) : Except RunError (List Token × Engine) :=
  let ids := batch.rows.flatMap e.rowIds
  match ModelRunner.fillIdx batch ids prev with
  | .error err => .error (.engine err)
  | .ok fill =>
    match e.rowCaches batch.rows with
    | .error err => .error (.engine err)
    | .ok caches =>
      if ∃ id ∈ ids, ¬ IsLong id then .error (.engine .longOverflow)
      else
        match indexCopy ids fill with
        | none => .error .indexOutOfRange
        | some ids =>
          match ContiguousAttention.forwardWith caches (batch.rows.map Row.len) ids
              (batch.rows.flatMap ModelRunner.rowPositions) with
          | .error err => .error (.attention err)
          | .ok (caches, hs) =>
            .ok (List.zipWith (e.sampleRow model) batch.rows hs, storeCaches (batch.rows.zip caches) e)

def completes (row : Row) : Bool := row.start + row.len = (e.request row.rid).seqLen

def settleRow (row : Row) (complete : Bool) : Except RunError (Option Nat × Engine) :=
  let q := e.request row.rid
  if complete then
    let q' := { q with outputIds := q.outputIds ++ [placeholder], numPending := q.numPending + 1 }
    if q.state = .prefill then
      match q'.transition .decode with
      | .error err => .error (.engine err)
      | .ok q' => .ok (some q.outputIds.length, { e with scheduler := e.scheduler.set row.rid q' })
    else .ok (some q.outputIds.length, { e with scheduler := e.scheduler.set row.rid q' })
  else .error (.noPool row.rid)

def settleRows : List (Row × Bool) → Engine → Except RunError (List (Option Nat) × Engine)
  | [], e => .ok ([], e)
  | (row, complete) :: rest, e =>
    match e.settleRow row complete with
    | .error err => .error err
    | .ok (slot, e) =>
      match settleRows rest e with
      | .error err => .error err
      | .ok (slots, e) => .ok (slot :: slots, e)

def launch (model : Model) (batch : Batch) (prev : Option Launched) : Except RunError (Launched × Engine) :=
  match (if batch.phase = .prefill then allocateRows batch.rows e else .ok e) with
  | .error err => .error (.engine err)
  | .ok e =>
    let done := batch.rows.map e.completes
    match e.forward model batch prev with
    | .error err => .error err
    | .ok (tokens, e) =>
      match settleRows (batch.rows.zip done) e with
      | .error err => .error err
      | .ok (slots, e) => .ok (⟨batch, tokens, slots⟩, e)

def processRow (r : Rid) (tok : Token) (slot : Option Nat) : Except Error Engine :=
  match slot with
  | none => .ok e
  | some k =>
    if (e.request r).isDone then .ok e
    else
      let q := { e.request r with
        outputIds := (e.request r).outputIds.set k tok
        numPending := (e.request r).numPending - 1 }
      if k + 1 ≥ q.params.maxNewTokens ∨ tok ∈ q.params.stopTokenIds then
        match q.dropPending.transition .finished with
        | .error err => .error err
        | .ok q => Engine.retire { e with scheduler := e.scheduler.set r q } r
      else .ok { e with scheduler := e.scheduler.set r q }

def processRows : List Entry → Engine → Except Error Engine
  | [], e => .ok e
  | (r, tok, slot) :: rest, e =>
    match e.processRow r tok slot with
    | .error err => .error err
    | .ok e => processRows rest e

def launchBatch (model : Model) (batch : Option Batch) : Except RunError (Option Launched × Engine) :=
  match batch with
  | none => .ok (none, e)
  | some b =>
    match e.launch model b e.inflight with
    | .error err => .error err
    | .ok (L, e) => .ok (some L, e)

def readBack (L : Option Launched) : Except Error (Option Batch × Engine) :=
  match L with
  | none => .ok (none, e)
  | some L =>
    match processRows L.entries e with
    | .error err => .error err
    | .ok e => .ok (some L.batch, e)

def step (model : Model) : Except RunError (Option Batch × Engine) :=
  match e.scheduler.schedule with
  | .error err => .error (.engine err)
  | .ok (batch, s) =>
    match Engine.launchBatch { e with scheduler := s, launched := batch } model batch with
    | .error err => .error err
    | .ok (L, e2) =>
      let (prev, next) := if e.overlap then (e.inflight, L) else (L, none)
      match Engine.readBack { e2 with inflight := next } prev with
      | .error err => .error (.engine err)
      | .ok (out, e3) => .ok (out, e3)

def hasUnfinished : Prop := e.scheduler.hasUnfinished ∨ e.inflight ≠ none

end Engine

end Contiguous

end MiniServe
