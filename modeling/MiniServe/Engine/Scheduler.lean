import MiniServe.Engine.Policy

namespace MiniServe

inductive Phase where
  | prefill | decode | mixed
  deriving DecidableEq, Repr

structure Row where
  rid : Rid
  start : Nat
  len : Nat
  deriving DecidableEq, Repr

structure Batch where
  phase : Phase
  rows : List Row
  preempted : List Rid
  numDecode : Nat
  deriving DecidableEq, Repr

structure Stats where
  firstTokens : Nat := 0
  firstCached : Nat := 0
  reTokens : Nat := 0
  reCached : Nat := 0
  deriving DecidableEq, Repr

def Stats.admitted (st : Stats) (first : Bool) (tokens cached : Nat) : Stats :=
  if first then { st with firstTokens := st.firstTokens + tokens, firstCached := st.firstCached + cached }
  else { st with reTokens := st.reTokens + tokens, reCached := st.reCached + cached }

structure Scheduler where
  maxRunning : Nat
  maxPrefillTokens : Nat
  chunkedPrefillSize : Nat
  tokensPerStep : Nat
  policy : SchedulePolicy
  kv : KVCacheManager
  reqs : Rid → Request
  waiting : List Rid := []
  running : List Rid := []
  numPreemptions : Nat := 0
  stats : Stats := {}
  maxRunning_pos : 1 ≤ maxRunning
  maxPrefillTokens_pos : 1 ≤ maxPrefillTokens
  tokensPerStep_pos : 1 ≤ tokensPerStep

def Request.decodes (r : Request) : Prop := r.state = .decode ∧ ¬ r.reachedMaxTokens

instance (r : Request) : Decidable r.decodes := inferInstanceAs (Decidable (_ ∧ _))

def Request.isSpent (r : Request) : Prop := r.state = .decode ∧ r.reachedMaxTokens

instance (r : Request) : Decidable r.isSpent := inferInstanceAs (Decidable (_ ∧ _))

namespace Scheduler

variable (s : Scheduler)

def blocksFor (numTokens : Nat) : Int := ceilDiv numTokens s.kv.blockSize

def set (r : Rid) (q : Request) : Scheduler := { s with reqs := Function.update s.reqs r q }

def put (r : Rid) (p : KVCacheManager × Request) : Scheduler :=
  { s with kv := p.1, reqs := Function.update s.reqs r p.2 }

def add (q : Request) : Except Error Scheduler :=
  let peak := q.maxLen + s.tokensPerStep - 1
  if q.state ≠ .waiting then .error (.notWaiting q.rid)
  else if s.blocksFor peak > s.kv.allocator.numBlocks then
    .error (.needsMoreThanPool q.rid q.maxLen (s.kv.allocator.numBlocks * s.kv.blockSize))
  else .ok { s.set q.rid q with waiting := s.waiting ++ [q.rid] }

def blocksNeeded (r : Rid) : Except Error Int :=
  match (s.reqs r).cache with
  | none => .error (.noCache r)
  | some table => table.blocksNeeded s.kv.blockSize s.tokensPerStep

def prefillNeed (r : Rid) : Except Error Int :=
  match (s.reqs r).cache with
  | none => .error (.noCache r)
  | some table => .ok (s.blocksFor ((s.reqs r).seqLen + 1) - table.numBlocks)

def decodeCharge (r : Rid) : Except Error Int :=
  if (s.reqs r).decodes then s.blocksNeeded r else .ok 0

def charge (r : Rid) : Except Error Int :=
  if (s.reqs r).decodes then s.blocksNeeded r
  else if (s.reqs r).state = .prefill then s.prefillNeed r
  else .ok 0

def total (f : Rid → Except Error Int) : List Rid → Except Error Int
  | [] => .ok 0
  | r :: rest =>
    match f r with
    | .error e => .error e
    | .ok n =>
      match total f rest with
      | .error e => .error e
      | .ok m => .ok (n + m)

def decodeNeed (reqs : List Rid) : Except Error Int := total s.decodeCharge reqs

def outstanding (reqs : List Rid) : Except Error Int := total s.charge reqs

def spent : List Rid := s.running.filter (fun r => (s.reqs r).isSpent)

def order : List Rid := s.policy.order s.reqs s.kv s.waiting

def acquire (r : Rid) : Except Error (Nat × Scheduler) :=
  match s.kv.acquire (s.reqs r) with
  | .error e => .error e
  | .ok (cached, p) => .ok (cached, s.put r p)

def abandon (r : Rid) : Except Error Scheduler :=
  match s.kv.abandon (s.reqs r) with
  | .error e => .error e
  | .ok p => .ok (s.put r p)

def enterPrefill (r : Rid) (cached : Nat) : Except Error Scheduler :=
  match (s.reqs r).transition .prefill with
  | .error e => .error e
  | .ok q => .ok { s.set r q with
      waiting := s.waiting.erase r
      stats := s.stats.admitted (q.numPreemptions = 0) q.seqLen cached }

def preempt (r : Rid) : Except Error Scheduler :=
  match (s.reqs r).transition .waiting with
  | .error e => .error e
  | .ok q =>
    match s.kv.release q with
    | .error e => .error e
    | .ok (kv, q) => .ok { s.put r (kv, { q with numPreemptions := q.numPreemptions + 1 }) with
        running := s.running.erase r
        waiting := r :: s.waiting
        numPreemptions := s.numPreemptions + 1 }

def pickVictim (pool : List Rid) : Except Error Rid :=
  match pool.filter (fun r => s.running.head? ≠ some r) with
  | [] => .error .loneRequestDoesNotFit
  | first :: rest => .ok (s.policy.pickVictim s.reqs first rest)

structure Admission where
  admitted : List Rid
  budget : Int
  reserved : Int

def Admission.enter (m : Admission) (r : Rid) (n need : Int) : Admission :=
  ⟨m.admitted ++ [r], m.budget - n, m.reserved + need⟩

def fits (m : Admission) (r : Rid) (n : Int) : Except Error (Option Int) :=
  if m.admitted = [] ∨ n ≤ m.budget then
    match s.prefillNeed r, s.decodeNeed s.running with
    | .ok need, .ok promised => .ok (if need ≤ s.kv.numAvailable - promised - m.reserved then some need else none)
    | .error e, _ => .error e
    | .ok _, .error e => .error e
  else .ok none

def admitLoop : List Rid → Scheduler → Admission → Except Error (List Rid × Scheduler)
  | [], s, m => .ok (m.admitted, s)
  | r :: rest, s, m =>
    if s.running.length + m.admitted.length ≥ s.maxRunning then .ok (m.admitted, s)
    else if (s.reqs r).numPending ≠ 0 then .ok (m.admitted, s)
    else
      match s.acquire r with
      | .error e => .error e
      | .ok (cached, s1) =>
        let n := ((s1.reqs r).seqLen : Int) - cached
        match s1.fits m r n with
        | .error e => .error e
        | .ok none =>
          match s1.abandon r with
          | .error e => .error e
          | .ok s2 => .ok (m.admitted, s2)
        | .ok (some need) =>
          match s1.enterPrefill r cached with
          | .error e => .error e
          | .ok s2 => admitLoop rest s2 (m.enter r n need)

def admitWaiting : Except Error (List Rid × Scheduler) := admitLoop s.order s ⟨[], s.maxPrefillTokens, 0⟩

structure Room where
  decoding : List Rid
  preempted : List Rid

-- The loops that preempt run at most once for each running request: `fuel` is the number of them.
def makeRoomLoop : Nat → Scheduler → Room → Except Error Room × Scheduler
  | fuel, s, m =>
    match s.decodeNeed m.decoding with
    | .error e => (.error e, s)
    | .ok need =>
      if need ≤ s.kv.numAvailable then (.ok m, s)
      else
        match fuel with
        | 0 => (.error .loneRequestDoesNotFit, s)
        | fuel + 1 =>
          match s.spent.getLast? with
          | some victim =>
            match s.preempt victim with
            | .error e => (.error e, s)
            | .ok s' => makeRoomLoop fuel s' { m with preempted := m.preempted ++ [victim] }
          | none =>
            match s.pickVictim m.decoding with
            | .error e => (.error e, s)
            | .ok victim =>
              match s.preempt victim with
              | .error e => (.error e, s)
              | .ok s' => makeRoomLoop fuel s' ⟨m.decoding.erase victim, m.preempted ++ [victim]⟩

def makeRoom (decoding : List Rid) : Except Error Room × Scheduler :=
  makeRoomLoop s.running.length s ⟨decoding, []⟩

def pickChunked : Except Error Rid :=
  match s.spent.getLast? with
  | some victim => .ok victim
  | none => s.pickVictim s.running

def makeRoomChunkedLoop : Nat → Scheduler → List Rid → Except Error (List Rid) × Scheduler
  | fuel, s, preempted =>
    match s.outstanding s.running with
    | .error e => (.error e, s)
    | .ok need =>
      if need ≤ s.kv.numAvailable then (.ok preempted, s)
      else if s.running.length ≤ 1 then (.error .loneRequestDoesNotFit, s)
      else
        match fuel with
        | 0 => (.error .loneRequestDoesNotFit, s)
        | fuel + 1 =>
          match s.pickChunked with
          | .error e => (.error e, s)
          | .ok victim =>
            match s.preempt victim with
            | .error e => (.error e, s)
            | .ok s' => makeRoomChunkedLoop fuel s' (preempted ++ [victim])

def makeRoomChunked : Except Error (List Rid) × Scheduler := makeRoomChunkedLoop s.running.length s []

def decodeRow (r : Rid) : Row := ⟨r, (s.reqs r).seqLen - 1, 1⟩

def wholeRow (r : Rid) : Row :=
  ⟨r, (s.reqs r).numCachedTokens, (s.reqs r).seqLen - (s.reqs r).numCachedTokens⟩

structure Chunks where
  rows : List Row
  budget : Int

def Chunks.take (c : Chunks) (r : Rid) (start seqLen : Nat) : Chunks :=
  let n := min ((seqLen : Int) - start) c.budget
  ⟨c.rows ++ [⟨r, start, n.toNat⟩], c.budget - n⟩

def chunkRunning : List Rid → Chunks → Except Error Chunks
  | [], c => .ok c
  | r :: rest, c =>
    if (s.reqs r).state = .prefill ∧ 0 < c.budget then
      match (s.reqs r).cache with
      | none => .error (.noCache r)
      | some table => chunkRunning rest (c.take r table.numTokens (s.reqs r).seqLen)
    else chunkRunning rest c

def fitsChunked (r : Rid) : Except Error Bool :=
  match s.prefillNeed r, s.outstanding s.running with
  | .ok need, .ok promised => .ok (decide (need ≤ s.kv.numAvailable - promised))
  | .error e, _ => .error e
  | .ok _, .error e => .error e

def chunkAdmit : List Rid → Scheduler → Chunks → Except Error (Chunks × Scheduler)
  | [], s, c => .ok (c, s)
  | r :: rest, s, c =>
    if c.budget ≤ 0 ∨ s.running.length ≥ s.maxRunning then .ok (c, s)
    else if (s.reqs r).numPending ≠ 0 then .ok (c, s)
    else
      match s.acquire r with
      | .error e => .error e
      | .ok (cached, s1) =>
        match s1.fitsChunked r with
        | .error e => .error e
        | .ok false =>
          match s1.abandon r with
          | .error e => .error e
          | .ok s2 => .ok (c, s2)
        | .ok true =>
          match s1.enterPrefill r cached with
          | .error e => .error e
          | .ok s2 =>
            chunkAdmit rest { s2 with running := s2.running ++ [r] } (c.take r cached (s2.reqs r).seqLen)

def chunkPhase (numDecode numRows : Nat) : Phase :=
  if numDecode = numRows then .decode else if numDecode = 0 then .prefill else .mixed

def scheduleChunked : Except Error (Option Batch) × Scheduler :=
  match s.makeRoomChunked with
  | (.error e, s1) => (.error e, s1)
  | (.ok preempted, s1) =>
    let decoding := s1.running.filter (fun r => (s1.reqs r).decodes)
    let rows := decoding.map s1.decodeRow
    match s1.chunkRunning s1.running ⟨rows, (s1.chunkedPrefillSize : Int) - rows.length⟩ with
    | .error e => (.error e, s1)
    | .ok c =>
      match chunkAdmit (if 0 < c.budget then s1.order else []) s1 c with
      | .error e => (.error e, s1)
      | .ok (c, s2) =>
        if c.rows = [] then (.ok none, s2)
        else (.ok (some ⟨chunkPhase rows.length c.rows.length, c.rows, preempted, rows.length⟩), s2)

def scheduleWhole : Except Error (Option Batch) × Scheduler :=
  match s.admitWaiting with
  | .error e => (.error e, s)
  | .ok (admitted, s1) =>
    if admitted ≠ [] then
      (.ok (some ⟨.prefill, admitted.map s1.wholeRow, [], 0⟩), { s1 with running := s1.running ++ admitted })
    else
      match s1.makeRoom (s1.running.filter (fun r => (s1.reqs r).decodes)) with
      | (.error e, s2) => (.error e, s2)
      | (.ok m, s2) =>
        if m.decoding = [] then (.ok none, s2)
        else (.ok (some ⟨.decode, m.decoding.map s2.decodeRow, m.preempted, m.decoding.length⟩), s2)

def schedule : Except Error (Option Batch) × Scheduler :=
  if s.chunkedPrefillSize = 0 then s.scheduleWhole else s.scheduleChunked

def retire (r : Rid) : Except Error Scheduler :=
  if ¬ (s.reqs r).isDone then .error (.notDone r)
  else if r ∈ s.running then .ok { s with running := s.running.erase r }
  else .ok { s with waiting := s.waiting.erase r }

def hasUnfinished : Prop := s.waiting ≠ [] ∨ s.running ≠ []

end Scheduler

end MiniServe
