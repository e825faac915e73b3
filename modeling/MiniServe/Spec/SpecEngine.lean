import MiniServe.Spec.DraftRunner

namespace MiniServe

-- The target model: for a greedy request the sampler takes what `greedy` chooses.
structure Target extends Model where
  greedy : List (Option (Token × Nat)) → Token
  next_greedy : ∀ h p seed pos, p.isGreedy → next h p seed pos = greedy h
  greedy_nonneg : ∀ h, 0 ≤ greedy h

theorem Target.greedy_long {target : Target} (hm : target.toModel.Long) (h : List (Option (Token × Nat))) :
    IsLong (target.greedy h) := by
  have hg : SamplingParams.isGreedy { maxNewTokens := 1 } := by decide
  rw [← target.next_greedy h _ 0 0 hg]
  exact hm _ _ _ _

section Verify

def agreement : List Token → List Token → Nat
  | p :: proposals, c :: chosen => if c = p then agreement proposals chosen + 1 else 0
  | _, _ => 0

def acceptPrefix (proposals chosen : List Token) : Except Error Nat :=
  if chosen.length ≠ proposals.length + 1 then .error (.verifiedPositions chosen.length proposals.length)
  else .ok (agreement proposals chosen)

def acceptedTokens (proposals chosen : List Token) : Except Error (List Token) :=
  match acceptPrefix proposals chosen with
  | .error e => .error e
  | .ok k => .ok (proposals.take k ++ [chosen.getD k 0])

end Verify

namespace ModelRunner

def passTables (s : Scheduler) (rows : List Row) : List BlockTable :=
  rows.map fun row => (s.reqs row.rid).cache.getD .empty

def chosenRow (model : Target) (s : Scheduler) (d : Device) (row : Row) : List Token :=
  (List.range row.len).map fun j =>
    model.greedy ((List.range (row.start + j + 1)).map fun p =>
      d (((s.reqs row.rid).cache.getD .empty).slotAt s.kv.blockSize p))

structure Verified where
  scheduler : Scheduler
  device : Device
  chosen : List (List Token)

def verify (model : Target) (s : Scheduler) (d : Device) (rows : List Row) (ids : List (List Token)) :
    Except Error Verified :=
  match reserve s rows with
  | (.error e, _) => .error e
  | (.ok (), s) =>
    match rowSlots s rows with
    | .error e => .error e
    | .ok slots =>
      -- the host lists a row's last token and zeros: its proposals are filled in on the device
      if ∃ id ∈ ids.filterMap List.head?, ¬ IsLong id then .error .longOverflow
      else
        let d := write d (slots.zip (ids.flatten.zip (rows.flatMap rowPositions)))
        .ok ⟨s, d, rows.map (chosenRow model s d)⟩

end ModelRunner

structure SpecConfig where
  numBlocks : Nat
  blockSize : Nat
  maxRunning : Nat
  maxPrefillTokens : Nat
  chunkedPrefillSize : Nat
  gamma : Nat
  policy : SchedulePolicy
  seeds : Nat → Nat
  cudaGraph : Bool
  graphMaxBs : Nat
  numBlocks_pos : 0 < numBlocks
  blockSize_pos : 0 < blockSize
  maxRunning_pos : 1 ≤ maxRunning
  maxPrefillTokens_pos : 1 ≤ maxPrefillTokens

def SpecConfig.engine (c : SpecConfig) : EngineConfig where
  numBlocks := c.numBlocks
  blockSize := c.blockSize
  radix := false
  maxRunning := c.maxRunning
  maxPrefillTokens := c.maxPrefillTokens
  chunkedPrefillSize := c.chunkedPrefillSize
  tokensPerStep := c.gamma + 1
  policy := c.policy
  overlap := false
  seeds := c.seeds
  numBlocks_pos := c.numBlocks_pos
  blockSize_pos := c.blockSize_pos
  maxRunning_pos := c.maxRunning_pos
  maxPrefillTokens_pos := c.maxPrefillTokens_pos
  tokensPerStep_pos := Nat.succ_pos c.gamma

-- `packed` records the tables of every pass of the target and is read by nothing.
structure SpecEngine where
  base : Engine
  draft : DraftRunner
  gamma : Nat
  cudaGraph : Bool
  roundGraphs : Bool
  packed : List BlockTable := []

namespace SpecEngine

def firstWidth : Nat := 2

def new (c : SpecConfig) : SpecEngine where
  base := Engine.new c.engine
  draft :=
    { allocator := .fresh c.numBlocks c.blockSize c.numBlocks_pos c.blockSize_pos
      maxPrefillTokens := c.maxPrefillTokens
      firstGraphs := if c.cudaGraph then some c.graphMaxBs else none }
  gamma := c.gamma
  cudaGraph := c.cudaGraph
  roundGraphs := c.cudaGraph

variable (e : SpecEngine)

section Configuration

def setGamma (value : Int) : Except Error SpecEngine :=
  if value < 0 then .error (.negativeGamma value)
  else .ok { e with
    gamma := value.toNat
    base := { e.base with scheduler := { e.base.scheduler with
      tokensPerStep := value.toNat + 1
      tokensPerStep_pos := Nat.succ_pos _ } } }

def setRoundGraphs (value : Bool) : Except Error SpecEngine :=
  if value ∧ e.cudaGraph = false then .error .roundGraphsNotCaptured
  else .ok { e with roundGraphs := value }

def addRequest (promptIds : List Token) (params : SamplingParams) : Except Error Rid × SpecEngine :=
  if params.isGreedy then
    let (res, base) := e.base.addRequest promptIds params
    (res, { e with base := base })
  else (.error .notGreedy, e)

end Configuration

section Draft

def releaseDraft (r : Rid) : Except Error SpecEngine :=
  match e.draft.release r with
  | .error err => .error err
  | .ok draft => .ok { e with draft := draft }

def releaseDrafts : List Rid → SpecEngine → Except Error SpecEngine
  | [], e => .ok e
  | r :: rest, e =>
    match e.releaseDraft r with
    | .error err => .error err
    | .ok e => releaseDrafts rest e

def retire (r : Rid) : Except Error SpecEngine :=
  match e.releaseDraft r with
  | .error err => .error err
  | .ok e =>
    match e.base.retire r with
    | .error err => .error err
    | .ok base => .ok { e with base := base }

def abort (r : Rid) : Except Error SpecEngine :=
  if r ∈ e.base.requests then
    match (e.base.request r).transition .aborted with
    | .error err => .error err
    | .ok q => SpecEngine.retire { e with base := { e.base with scheduler := e.base.scheduler.set r q } } r
  else .ok e

def draftTodo : List Rid → DraftRunner → Except Error (List (Rid × List Token) × DraftRunner)
  | [], d => .ok ([], d)
  | r :: rest, d =>
    match (if (d.tables r).isSome then .ok d else d.admitRid r) with
    | .error err => .error err
    | .ok d =>
      match d.covered r with
      | .error err => .error err
      | .ok n =>
        match draftTodo rest d with
        | .error err => .error err
        | .ok (todo, d) =>
          let q := e.base.request r
          .ok (if n = 0 ∧ 1 < q.seqLen then (r, q.tokenSlice 0 (q.seqLen - 1)) :: todo else todo, d)

def draftPrefill (dm : DraftModel) (reqs : List Rid) : Except Error SpecEngine :=
  match e.draftTodo reqs e.draft with
  | .error err => .error err
  | .ok (todo, d) =>
    match d.prefill dm todo with
    | .error err => .error err
    | .ok d => .ok { e with draft := d }

def coveredAll : List Rid → Except Error (List Nat)
  | [] => .ok []
  | r :: rest =>
    match e.draft.covered r with
    | .error err => .error err
    | .ok n =>
      match coveredAll rest with
      | .error err => .error err
      | .ok ns => .ok (n :: ns)

def rewindAll : List (Rid × Nat) → DraftRunner → Except Error DraftRunner
  | [], d => .ok d
  | (r, n) :: rest, d =>
    match d.rewindTo r n with
    | .error err => .error err
    | .ok d => rewindAll rest d

def firstGraphFits (reqs : List Rid) (starts : List Nat) : Bool :=
  e.roundGraphs && (match e.draft.firstGraphs with
    | none => false
    | some maxBatch => decide (reqs.length ≤ maxBatch)) &&
    (reqs.zip starts).all fun x =>
      decide (firstWidth ≤ (e.base.request x.1).seqLen ∧ (e.base.request x.1).seqLen - firstWidth ≤ x.2)

def firstStepStarts (reqs : List Rid) : Except Error (List Nat × SpecEngine) :=
  match e.coveredAll reqs with
  | .error err => .error err
  | .ok starts =>
    if e.firstGraphFits reqs starts then
      let starts := reqs.map fun r => (e.base.request r).seqLen - firstWidth
      match rewindAll (reqs.zip starts) e.draft with
      | .error err => .error err
      | .ok d => .ok (starts, { e with draft := d })
    else .ok (starts, e)

def feedOf (x : Rid × Nat) : Feed :=
  ⟨x.1, (e.base.request x.1).tokenSlice x.2 ((e.base.request x.1).seqLen - x.2), x.2⟩

end Draft

section Round

def keptTokens (q : Request) (new : List Token) : Nat × Bool :=
  let room := q.params.maxNewTokens - q.outputIds.length
  let keep := min new.length room
  match (new.take keep).findIdx? (fun t => t ∈ q.params.stopTokenIds) with
  | some i => (i + 1, true)
  | none => (keep, false)

def settle (r : Rid) (proposals chosen : List Token) : Except Error SpecEngine :=
  match acceptedTokens proposals chosen with
  | .error err => .error err
  | .ok new =>
    let q := e.base.request r
    let (keep, stop) := keptTokens q new
    let q := { q with outputIds := q.outputIds ++ new.take keep }
    if stop ∨ q.params.maxNewTokens ≤ q.outputIds.length then
      match q.transition .finished with
      | .error err => .error err
      | .ok q => SpecEngine.retire { e with base := { e.base with scheduler := e.base.scheduler.set r q } } r
    else
      match q.cache with
      | none => .error (.noCache r)
      | some t =>
        match t.rewind ((proposals.length : Int) + 1 - keep) with
        | (.error err, _) => .error err
        | (.ok (), t) =>
          match e.draft.rewindTo r (q.seqLen - 1) with
          | .error err => .error err
          | .ok d => .ok { e with
              base := { e.base with scheduler := e.base.scheduler.set r { q with cache := some t } }
              draft := d }

def settleAll : List (Rid × List Token × List Token) → SpecEngine → Except Error SpecEngine
  | [], e => .ok e
  | (r, proposals, chosen) :: rest, e =>
    match e.settle r proposals chosen with
    | .error err => .error err
    | .ok e => settleAll rest e

def verifyRow (r : Rid) : Row := ⟨r, (e.base.request r).seqLen - 1, e.gamma + 1⟩

def proposalsAt (columns : List (List Token)) (i : Nat) : List Token := columns.map fun column => column.getD i 0

def verifyIds (r : Rid) (proposals : List Token) : List Token :=
  (e.base.request r).outputIds.getLast?.getD 0 :: proposals

def misaligned (reqs : List Rid) : Option Rid :=
  reqs.find? fun r => (e.base.request r).cache.map BlockTable.numTokens ≠ some ((e.base.request r).seqLen - 1)

-- The draft's part of a round: a column of proposals a step.
def proposals (dm : DraftModel) (reqs : List Rid) : Except Error (List (List Token) × SpecEngine) :=
  match e.draftPrefill dm reqs with
  | .error err => .error err
  | .ok e =>
    match e.misaligned reqs with
    | some r => .error (.cachedTokensDisagree r (e.base.request r).covered (e.base.request r).seqLen)
    | none =>
      match e.firstStepStarts reqs with
      | .error err => .error err
      | .ok (starts, e) =>
        match e.draft.propose dm ((reqs.zip starts).map e.feedOf) e.gamma with
        | .error err => .error err
        | .ok (columns, d) => .ok (columns, { e with draft := d })

-- The target's part: one pass over all of them, and a verdict a request.
def verdicts (model : Target) (reqs : List Rid) (columns : List (List Token)) : Except Error SpecEngine :=
  let proposals := (List.range reqs.length).map (proposalsAt columns)
  let rows := reqs.map e.verifyRow
  match ModelRunner.verify model e.base.scheduler e.base.device rows
      ((reqs.zip proposals).map fun x => e.verifyIds x.1 x.2) with
  | .error err => .error err
  | .ok v =>
    settleAll (reqs.zip (proposals.zip v.chosen)) { e with
      base := { e.base with scheduler := v.scheduler, device := v.device }
      packed := e.packed ++ ModelRunner.passTables v.scheduler rows }

def round (model : Target) (dm : DraftModel) (reqs : List Rid) : Except Error SpecEngine :=
  match e.proposals dm reqs with
  | .error err => .error err
  | .ok (columns, e) => e.verdicts model reqs columns

end Round

section Loop

def processRow (r : Rid) (tok : Token) (slot : Option Nat) : Except Error SpecEngine :=
  match e.base.processRow r tok slot with
  | .error err => .error err
  | .ok base =>
    if (base.request r).isDone ∧ ¬ (e.base.request r).isDone then SpecEngine.releaseDraft { e with base := base } r
    else .ok { e with base := base }

def processRows : List Entry → SpecEngine → Except Error SpecEngine
  | [], e => .ok e
  | (r, tok, slot) :: rest, e =>
    match e.processRow r tok slot with
    | .error err => .error err
    | .ok e => processRows rest e

def decoding (reqs : List Rid) : List Rid := reqs.filter fun r => (e.base.request r).state = .decode

def plain (model : Target) (dm : DraftModel) (b : Batch) : Except Error SpecEngine :=
  match e.base.launch model.toModel b none with
  | .error err => .error err
  | .ok (L, base) =>
    match processRows L.entries { e with
        base := base
        packed := e.packed ++ ModelRunner.passTables (ModelRunner.reserve e.base.scheduler b.rows).2 b.rows } with
    | .error err => .error err
    | .ok e => if e.gamma = 0 then .ok e else e.draftPrefill dm (e.decoding (b.rows.map Row.rid))

def runBatch (model : Target) (dm : DraftModel) (b : Batch) : Except Error SpecEngine :=
  match releaseDrafts b.preempted e with
  | .error err => .error err
  | .ok e =>
    if e.gamma ≠ 0 ∧ b.phase = .decode then e.round model dm (b.rows.map Row.rid)
    else e.plain model dm b

def step (model : Target) (dm : DraftModel) : Except Error (Option Batch) × SpecEngine :=
  match e.base.scheduler.schedule with
  | (.error err, s) => (.error err, { e with base := { e.base with scheduler := s } })
  | (.ok none, s) => (.ok none, { e with base := { e.base with scheduler := s, launched := none } })
  | (.ok (some b), s) =>
    let e1 := { e with base := { e.base with scheduler := s, launched := some b } }
    match e1.runBatch model dm b with
    | .error err => (.error err, e1)
    | .ok e => (.ok (some b), e)

end Loop

end SpecEngine

end MiniServe
