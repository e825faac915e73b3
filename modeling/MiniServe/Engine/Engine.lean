import MiniServe.Engine.ModelRunner

namespace MiniServe

structure Engine where
  scheduler : Scheduler
  overlap : Bool
  seeds : Nat → Nat
  device : Device := fun _ => none
  requests : List Rid := []
  nextRid : Rid := 0
  drawn : Nat := 0
  inflight : Option Launched := none
  launched : Option Batch := none

def Request.blank (r : Rid) : Request := { rid := r, promptIds := [], params := { maxNewTokens := 1 } }

structure EngineConfig where
  numBlocks : Nat
  blockSize : Nat
  radix : Bool
  maxRunning : Nat
  maxPrefillTokens : Nat
  chunkedPrefillSize : Nat
  tokensPerStep : Nat
  policy : SchedulePolicy
  overlap : Bool
  seeds : Nat → Nat
  numBlocks_pos : 0 < numBlocks
  blockSize_pos : 0 < blockSize
  maxRunning_pos : 1 ≤ maxRunning
  maxPrefillTokens_pos : 1 ≤ maxPrefillTokens
  tokensPerStep_pos : 1 ≤ tokensPerStep

def EngineConfig.scheduler (c : EngineConfig) : Scheduler where
  maxRunning := c.maxRunning
  maxPrefillTokens := c.maxPrefillTokens
  chunkedPrefillSize := c.chunkedPrefillSize
  tokensPerStep := c.tokensPerStep
  policy := c.policy
  kv := .new (.fresh c.numBlocks c.blockSize c.numBlocks_pos c.blockSize_pos) c.radix
  reqs := .blank
  maxRunning_pos := c.maxRunning_pos
  maxPrefillTokens_pos := c.maxPrefillTokens_pos
  tokensPerStep_pos := c.tokensPerStep_pos

namespace Engine

def new (c : EngineConfig) : Engine where
  scheduler := c.scheduler
  overlap := c.overlap
  seeds := c.seeds

variable (e : Engine)

def request (r : Rid) : Request := e.scheduler.reqs r

def addRequest (promptIds : List Token) (params : SamplingParams) : Except Error Rid × Engine :=
  let e1 := { e with nextRid := e.nextRid + 1 }
  match Request.new e.nextRid promptIds params with
  | .error err => (.error err, e1)
  | .ok q =>
    let e2 := match params.seed with
      | some _ => e1
      | none => { e1 with drawn := e.drawn + 1 }
    let q := { q with seed := params.seed.getD (e.seeds e.drawn) }
    match e.scheduler.add q with
    | .error err => (.error err, e2)
    | .ok s => (.ok q.rid, { e2 with scheduler := s, requests := e.requests ++ [q.rid] })

def release (s : Scheduler) (r : Rid) : Except Error Scheduler :=
  match s.kv.release (s.reqs r) with
  | .error err => .error err
  | .ok (kv, q) => .ok (s.put r (kv, { q with cache := none }))

def retire (r : Rid) : Except Error Engine :=
  match release (e.scheduler.set r (e.request r).dropPending) r with
  | .error err => .error err
  | .ok s =>
    match s.retire r with
    | .error err => .error err
    | .ok s =>
      if r ∈ e.requests then .ok { e with scheduler := s, requests := e.requests.erase r }
      else .error (.missingRequest r)

def abort (r : Rid) : Except Error Engine :=
  if r ∈ e.requests then
    match (e.request r).transition .aborted with
    | .error err => .error err
    | .ok q => Engine.retire { e with scheduler := e.scheduler.set r q } r
  else .ok e

def settleRow (s : Scheduler) (row : Row) (complete : Bool) : Except Error (Option Nat × Scheduler) :=
  let q := s.reqs row.rid
  if complete then
    let q' := { q with outputIds := q.outputIds ++ [placeholder], numPending := q.numPending + 1 }
    if q.state = .prefill then
      match q'.transition .decode with
      | .error err => .error err
      | .ok q' =>
        match s.kv.commit q' with
        | .error err => .error err
        | .ok p => .ok (some q.outputIds.length, s.put row.rid p)
    else .ok (some q.outputIds.length, s.set row.rid q')
  else
    match s.kv.commit q with
    | .error err => .error err
    | .ok p => .ok (none, s.put row.rid p)

def settleRows : List (Row × Bool) → Scheduler → Except Error (List (Option Nat) × Scheduler)
  | [], s => .ok ([], s)
  | (row, complete) :: rest, s =>
    match settleRow s row complete with
    | .error err => .error err
    | .ok (slot, s) =>
      match settleRows rest s with
      | .error err => .error err
      | .ok (slots, s) => .ok (slot :: slots, s)

def completes (s : Scheduler) (row : Row) : Bool := row.start + row.len = (s.reqs row.rid).seqLen

def launch (model : Model) (batch : Batch) (prev : Option Launched) : Except Error (Launched × Engine) :=
  let done := batch.rows.map (completes e.scheduler)
  match ModelRunner.forward model e.scheduler e.device batch prev with
  | .error err => .error err
  | .ok pass =>
    match settleRows (batch.rows.zip done) pass.scheduler with
    | .error err => .error err
    | .ok (slots, s) => .ok (⟨batch, pass.tokens, slots⟩, { e with scheduler := s, device := pass.device })

def processRow (r : Rid) (tok : Token) (slot : Option Nat) : Except Error Engine :=
  match slot with
  | none => .ok e
  | some k =>
    if (e.request r).isDone then .ok e
    else
      let q := { e.request r with
        outputIds := (e.request r).outputIds.set k tok
        numPending := (e.request r).numPending - 1 }
      if k + 1 ≥ q.params.maxNewTokens ∨ tok ∈ q.params.stopTokenIds then
        match q.dropPending.transition .finished with
        | .error err => .error err
        | .ok q => Engine.retire { e with scheduler := e.scheduler.set r q } r
      else .ok { e with scheduler := e.scheduler.set r q }

def processRows : List (Rid × Token × Option Nat) → Engine → Except Error Engine
  | [], e => .ok e
  | (r, tok, slot) :: rest, e =>
    match e.processRow r tok slot with
    | .error err => .error err
    | .ok e => processRows rest e

def process (L : Launched) : Except Error Engine := processRows L.entries e

def launchBatch (model : Model) (batch : Option Batch) : Except Error (Option Launched × Engine) :=
  match batch with
  | none => .ok (none, e)
  | some b =>
    match e.launch model b e.inflight with
    | .error err => .error err
    | .ok (L, e) => .ok (some L, e)

def readBack (L : Option Launched) : Except Error (Option Batch × Engine) :=
  match L with
  | none => .ok (none, e)
  | some L =>
    match e.process L with
    | .error err => .error err
    | .ok e => .ok (some L.batch, e)

def raised (batch : Option Batch) : Engine :=
  match batch with
  | none => e
  | some b => { e with scheduler := ModelRunner.raisedIn e.scheduler b e.inflight }

def step (model : Model) : Except Error (Option Batch) × Engine :=
  match e.scheduler.schedule with
  | (.error err, s) => (.error err, { e with scheduler := s })
  | (.ok batch, s) =>
    let e1 := { e with scheduler := s, launched := batch }
    match e1.launchBatch model batch with
    | .error err => (.error err, e1.raised batch)
    | .ok (L, e2) =>
      let (prev, next) := if e.overlap then (e.inflight, L) else (L, none)
      match Engine.readBack { e2 with inflight := next } prev with
      | .error err => (.error err, e2)
      | .ok (out, e3) => (.ok out, e3)

def hasUnfinished : Prop := e.scheduler.hasUnfinished ∨ e.inflight ≠ none

end Engine

end MiniServe
