import MiniServe.Engine.DecodeGraphs
import MiniServe.Engine.Engine

namespace MiniServe

open PackedTables

-- What a planned FlashInfer wrapper lets each query token of a pass attend to, sequence by sequence.
structure PagedKernel where
  attended : Nat → Nat → List Nat → Buffers → Device → List (List (Option (Token × Nat)))

structure QueryRow where
  pages : List Int
  last : Int
  queries : Nat

namespace QueryRow

variable (numPages bs : Nat) (row : QueryRow)

def kvLen : Nat := ((row.pages.length - 1) * bs + row.last).toNat

def cells (d : Device) (n : Nat) : List (Option (Token × Nat)) :=
  (List.range n).map fun pos => d (row.pages.getD (pos / bs) 0 * bs + (pos % bs : Nat))

def causal (d : Device) : List (List (Option (Token × Nat))) :=
  (List.range row.queries).map fun j => row.cells bs d (row.kvLen bs - row.queries + j + 1)

structure Legal : Prop where
  pages : row.pages ≠ []
  range : ∀ page ∈ row.pages, 0 ≤ page ∧ page < numPages
  last : 1 ≤ row.last ∧ row.last ≤ bs
  queries : 1 ≤ row.queries ∧ row.queries ≤ row.kvLen bs

end QueryRow

-- FlashInfer's contract: pages of the pool, the last one holding 1 to `bs` tokens, causal queries.
def PagedKernel.Documented (K : PagedKernel) : Prop :=
  ∀ (numPages bs : Nat) (rows : List QueryRow) (v : Buffers) (d : Device), (∀ row ∈ rows, row.Legal numPages bs) →
    Packed (rows.map QueryRow.pages) (rows.map QueryRow.last) v →
    K.attended numPages bs (rows.map QueryRow.queries) v d = rows.flatMap (QueryRow.causal bs · d)

inductive PassError where
  | engine (e : Error)
  | decodeRows
  | noGraphs
  | tokenCount (seqLens : List Nat) (tokens : Nat)
  | indexOutOfRange
  | packing (e : PackError)
  | queryOffset
  | graph (e : GraphError)
  | outOfInt64
  deriving DecidableEq, Repr

structure Kernels where
  packed : PackedTables := .new 64 4096
  graphs : Option DecodeGraphs := none
  useCudaGraph : Bool := false

def DecodeGraphs.maxBatch (g : DecodeGraphs) : Nat := g.buckets.getLastD 0

def sizedTables (s : Scheduler) (rows : List Row) : List SizedTable :=
  rows.map fun row => ⟨(s.reqs row.rid).cache.getD .empty, s.kv.blockSize⟩

-- The new tokens of a pass, listed sequence by sequence, and the tables that already cover them.
structure PassInput where
  ids : List Token
  pos : List Nat
  slots : List Int
  tables : List SizedTable
  seqLens : List Nat
  fill : List (Nat × Token)

def PassInput.call (x : PassInput) : DecodeGraphs.Call where
  ids := x.ids
  pos := x.pos.map Int.ofNat
  slots := x.slots
  tables := x.tables
  fill := x.fill

namespace ModelRunner

abbrev Histories := List (List (Option (Token × Nat)))

def holes (n : Nat) (ids : List Token) : List Nat := (List.range n).filter fun i => ids[i]? = some placeholder

def fillIdx (batch : Batch) (ids : List Token) (prev : Option Launched) : Except Error (List (Nat × Token)) :=
  let dst := holes batch.numDecode ids
  if dst.length ≠ ids.count placeholder then .error .placeholderOutsideDecode
  else if dst = [] then .ok []
  else
    match prev with
    | none => .error .placeholderWithoutPrevious
    | some prev => (dst.mapM fun i => prev.lookup ((batch.rows.map Row.rid).getD i 0)).map dst.zip

def gather {α : Type} (l : List α) (indices : List Nat) : Option (List α) := indices.mapM (l[·]?)

def offsets (seqLens : List Nat) : List Nat := seqLens.scanl (· + ·) 0

def lastRows (seqLens : List Nat) : List Nat := (offsets seqLens).tail.map (· - 1)

variable (K : PagedKernel) (numPages bs : Nat)

-- The eager path: plan the pass, fill the placeholders on the device, run it, keep each sequence's last row.
def runEager (prefill : Bool) (x : PassInput) (d : Device) (k : Kernels) :
    Except PassError (Device × Histories) × Kernels :=
  if ¬ prefill ∧ ∃ n ∈ x.seqLens, n ≠ 1 then (.error .decodeRows, k)
  else
    match k.packed.pack x.tables 0 0 1 with
    | (.error e, packed) => (.error (.packing e), { k with packed })
    | (.ok v, packed) =>
      -- the prefill wrapper's query offsets are an int32 array
      if prefill ∧ ∃ o ∈ offsets x.seqLens, ¬ Packing.Fits o then (.error .queryOffset, { k with packed })
      -- the slots at the end of the plan, then the ids
      else if (∃ v ∈ x.slots, ¬ IsLong v) ∨ ∃ v ∈ x.ids, ¬ IsLong v then (.error .outOfInt64, { k with packed })
      else
        match indexCopy x.ids x.fill with
        | none => (.error .indexOutOfRange, { k with packed })
        | some ids =>
          if ∃ v ∈ x.pos.map Int.ofNat, ¬ IsLong v then (.error .outOfInt64, { k with packed })
          else if x.seqLens.sum ≠ ids.length then (.error (.tokenCount x.seqLens ids.length), { k with packed })
          else
            let d := write d (x.slots.zip (ids.zip x.pos))
            match gather (K.attended numPages bs x.seqLens v d) (lastRows x.seqLens) with
            | none => (.error .indexOutOfRange, { k with packed })
            | some hs => (.ok (d, hs), { k with packed })

-- A replayed graph: its kernels read the static buffers, padding rows included.
def runGraph (g : DecodeGraphs) (x : PassInput) (d : Device) (k : Kernels) :
    Except PassError (Device × Histories) × Kernels :=
  match g.run x.call with
  | (.error e, g) => (.error (.graph e), { k with graphs := some g })
  | (.ok r, g) =>
    let d := write d ((r.inputs .slots).zip ((r.inputs .ids).zip ((r.inputs .pos).map Int.toNat)))
    let hs := K.attended numPages bs (List.replicate r.g g.width) ⟨r.indptr, r.pages, r.last⟩ d
    (.ok (d, hs.take (x.tables.length * g.width)), { k with graphs := some g })

def runPass (phase : Phase) (x : PassInput) (d : Device) (k : Kernels) :
    Except PassError (Device × Histories) × Kernels :=
  if phase = .decode ∧ k.useCudaGraph = true then
    match k.graphs with
    | none => (.error .noGraphs, k)
    | some g =>
      if x.tables.length ≤ g.maxBatch then runGraph K numPages bs g x d k
      else runEager K numPages bs (phase ≠ .decode) x d k
  else runEager K numPages bs (phase ≠ .decode) x d k

def sampleFrom (model : Model) (s : Scheduler) (row : Row) (h : List (Option (Token × Nat))) : Token :=
  let r := s.reqs row.rid
  model.next h r.params r.seed r.seqLen

def forwardPaged (model : Model) (s : Scheduler) (d : Device) (batch : Batch) (prev : Option Launched) (k : Kernels) :
    Except PassError Pass × Kernels :=
  let ids := batch.rows.flatMap (rowIds s)
  match fillIdx batch ids prev with
  | .error e => (.error (.engine e), k)
  | .ok fill =>
    if ¬ startsAgree s batch.rows then (.error (.engine .startsDisagree), k)
    else
      match reserve s batch.rows with
      | (.error e, _) => (.error (.engine e), k)
      | (.ok (), s) =>
        match rowSlots s batch.rows with
        | .error e => (.error (.engine e), k)
        | .ok slots =>
          let x : PassInput :=
            { ids, pos := batch.rows.flatMap rowPositions, slots, tables := sizedTables s batch.rows
              seqLens := batch.rows.map Row.len, fill }
          match runPass K (s.kv.allocator.numBlocks + 1) s.kv.blockSize batch.phase x d k with
          | (.error e, k) => (.error e, k)
          | (.ok (d, hs), k) => (.ok ⟨s, d, List.zipWith (sampleFrom model s) batch.rows hs⟩, k)

end ModelRunner

structure PagedEngine where
  engine : Engine
  kernels : Kernels

namespace PagedEngine

variable (K : PagedKernel) (model : Model) (p : PagedEngine)

def raised (batch : Batch) (k : Kernels) : PagedEngine where
  engine := { p.engine with scheduler := ModelRunner.raisedIn p.engine.scheduler batch p.engine.inflight }
  kernels := k

def launch (batch : Batch) : Except PassError Launched × PagedEngine :=
  let e := p.engine
  let done := batch.rows.map (Engine.completes e.scheduler)
  match ModelRunner.forwardPaged K model e.scheduler e.device batch e.inflight p.kernels with
  | (.error err, k) => (.error err, p.raised batch k)
  | (.ok pass, k) =>
    match Engine.settleRows (batch.rows.zip done) pass.scheduler with
    | .error err => (.error (.engine err), p.raised batch k)
    | .ok (slots, s) =>
      (.ok ⟨batch, pass.tokens, slots⟩, ⟨{ e with scheduler := s, device := pass.device }, k⟩)

def launchBatch (batch : Option Batch) : Except PassError (Option Launched) × PagedEngine :=
  match batch with
  | none => (.ok none, p)
  | some b =>
    match p.launch K model b with
    | (.error err, p) => (.error err, p)
    | (.ok L, p) => (.ok (some L), p)

def step : Except PassError (Option Batch) × PagedEngine :=
  let e := p.engine
  match e.scheduler.schedule with
  | (.error err, s) => (.error (.engine err), { p with engine := { e with scheduler := s } })
  | (.ok batch, s) =>
    let p1 : PagedEngine := { p with engine := { e with scheduler := s, launched := batch } }
    match p1.launchBatch K model batch with
    | (.error err, p2) => (.error err, p2)
    | (.ok L, p2) =>
      let (prev, next) := if e.overlap then (e.inflight, L) else (L, none)
      match Engine.readBack { p2.engine with inflight := next } prev with
      | .error err => (.error (.engine err), p2)
      | .ok (out, e3) => (.ok out, { p2 with engine := e3 })

end PagedEngine

end MiniServe
