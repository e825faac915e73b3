import MiniServe.Cache.KVAvailable
import MiniServe.Engine.Engine

namespace MiniServe

open KVCacheManager

abbrev Entry := Rid × Token × Option Nat

def slotsOf (es : List Entry) (r : Rid) : List Nat := es.filterMap fun x => if x.1 = r then x.2.2 else none

namespace Request

def Queued (q : Request) : Prop :=
  q.state = .waiting ∧ q.promptIds ≠ [] ∧ (q.numPending = 0 → q.outputIds.length < q.params.maxNewTokens)

structure Active (q : Request) : Prop where
  prompt : q.promptIds ≠ []
  room : q.numPending = 0 → q.outputIds.length < q.params.maxNewTokens
  phase : (q.state = .prefill ∧ q.covered < q.seqLen ∧ q.numPending = 0) ∨
    (q.state = .decode ∧ q.covered + 1 = q.seqLen ∧ q.outputIds ≠ [])

structure Opened (q : Request) (row : Row) : Prop where
  prompt : q.promptIds ≠ []
  room : q.outputIds.length < q.params.maxNewTokens
  covered : q.covered = row.start + row.len
  pos : 1 ≤ row.len
  phase : (q.state = .prefill ∧ row.start + row.len ≤ q.seqLen ∧ q.numPending = 0) ∨
    (q.state = .decode ∧ row.start + 1 = q.seqLen ∧ q.outputIds ≠ [])

def Pending (q : Request) (slots : List Nat) : Prop :=
  ∃ ready, q.outputIds = ready ++ List.replicate q.numPending placeholder ∧ placeholder ∉ ready ∧
    slots = List.range' ready.length q.numPending

structure Fresh (q : Request) : Prop where
  prompt : q.promptIds ≠ []
  output : q.outputIds = []
  state : q.state = .waiting
  cache : q.cache = none
  cacheNode : q.cacheNode = none
  numPending : q.numPending = 0

def acquired (q : Request) (bs : Nat) (blocks : List Int) (node : Option Nat) : Request :=
  { q with cache := some ⟨blocks, blocks.length * bs⟩, cacheNode := node, numCachedTokens := blocks.length * bs }

def dropped (q : Request) : Request := { q with cache := none, cacheNode := none }

def sampled (q : Request) : Request :=
  { q with outputIds := q.outputIds ++ [placeholder], numPending := q.numPending + 1 }

def filled (q : Request) (k : Nat) (tok : Token) : Request :=
  { q with outputIds := q.outputIds.set k tok, numPending := q.numPending - 1 }

end Request

structure Pool where
  kv : KVCacheManager
  reqs : Store
  live : List Rid
  waiting : List Rid
  opened : List Row
  older : List Entry
  newer : List Entry

namespace Pool

def put (p : Pool) (r : Rid) (kv : KVCacheManager) (q : Request) : Pool :=
  { p with kv := kv, reqs := Function.update p.reqs r q }

structure Sound (p : Pool) : Prop where
  kv : p.kv.Sound p.reqs p.live
  nodup : (p.live ++ p.waiting).Nodup
  queued : ∀ r ∈ p.waiting, (p.reqs r).Queued
  active : ∀ r ∈ p.live, r ∉ p.opened.map Row.rid → (p.reqs r).Active
  opened : ∀ row ∈ p.opened, row.rid ∈ p.live ∧ (p.reqs row.rid).Opened row
  opened_nodup : (p.opened.map Row.rid).Nodup
  gone : ∀ r, r ∉ p.live ++ p.waiting → (p.reqs r).isDone ∨ p.reqs r = Request.blank r
  path : ∀ r ∈ p.live, (p.kv.nodeTokens (p.reqs r).cacheNode).length + (p.reqs r).numPending ≤ (p.reqs r).seqLen
  exact : ∀ r ∈ p.live, (p.reqs r).state = .prefill →
    (p.reqs r).tableBlocks.length * p.kv.blockSize < (p.reqs r).covered + p.kv.blockSize
  fresh : ∀ row ∈ p.opened, (p.kv.nodeTokens (p.reqs row.rid).cacheNode).length ≤ row.start
  pending : ∀ r, ¬ (p.reqs r).isDone → (p.reqs r).Pending (slotsOf (p.older ++ p.newer) r)
  older_once : (p.older.map Prod.fst).Nodup
  newer_once : ((p.newer.map Prod.fst) ++ p.opened.map Row.rid).Nodup
  nonneg : ∀ x ∈ p.older ++ p.newer, 0 ≤ x.2.1

structure Leaves (p : Pool) (r : Rid) (q : Request) (kv' : KVCacheManager) : Prop where
  released : r ∈ p.live → Released p.kv kv' (Function.update p.reqs r q) p.live r q.dropped
  unheld : r ∉ p.live → kv' = p.kv
  covered : r ∈ p.live → p.kv.tree.isSome → (p.reqs r).covered ≤ q.seqLen

def leave (p : Pool) (r : Rid) (kv' : KVCacheManager) (q : Request) (older : List Entry) : Pool :=
  { p.put r kv' q.dropped with live := p.live.erase r, waiting := p.waiting.erase r, older := older }

-- Everything a call on the engine does to the requests and their KV, one constructor an operation;
-- `sample` gives the tokens of the batch the call has run, once it has.
inductive Move (sample : Option (Rid → Token)) : Pool → Pool → Prop
  | submit {p : Pool} {r : Rid} {q : Request} (hb : p.reqs r = Request.blank r) (hr : r ∉ p.live ++ p.waiting)
      (hq : q.Fresh) : Move sample p { p.put r p.kv q with waiting := p.waiting ++ [r] }
  | lookup {p : Pool} {r : Rid} {kv1 kv2 : KVCacheManager} {blocks : List Int} {node : Option Nat}
      (hr : r ∈ p.waiting) (h1 : Acquired p.kv kv1 p.reqs p.live r blocks node)
      (h2 : Forgotten kv1 kv2 (Function.update p.reqs r ((p.reqs r).acquired p.kv.blockSize blocks node)) (r :: p.live) r
        { (p.reqs r).dropped with numCachedTokens := 0 }) :
      Move sample p (p.put r kv2 { (p.reqs r).dropped with numCachedTokens := 0 })
  | enter {p : Pool} {r : Rid} {kv' : KVCacheManager} {blocks : List Int} {node : Option Nat}
      (hr : r ∈ p.waiting) (hn : (p.reqs r).numPending = 0)
      (h : Acquired p.kv kv' p.reqs p.live r blocks node) :
      Move sample p { p.put r kv' { (p.reqs r).acquired p.kv.blockSize blocks node with state := .prefill } with
        live := p.live ++ [r]
        waiting := p.waiting.erase r }
  | preempt {p : Pool} {r : Rid} {kv' : KVCacheManager} (hr : r ∈ p.live)
      (ho : r ∉ p.opened.map Row.rid) (hn : p.newer = [])
      (h : Released p.kv kv' (Function.update p.reqs r { p.reqs r with state := .waiting }) p.live r
        { (p.reqs r).dropped with state := .waiting }) :
      Move sample p { p.put r kv' { (p.reqs r).dropped with
          state := .waiting
          numPreemptions := (p.reqs r).numPreemptions + 1 } with
        live := p.live.erase r
        waiting := r :: p.waiting }
  | evict {p : Pool} {kv' : KVCacheManager} (h : Evicted p.kv kv' p.reqs p.live) : Move sample p { p with kv := kv' }
  | extend {p : Pool} {row : Row} {kv' : KVCacheManager} {tb tb' : BlockTable} (hf : sample = none)
      (hr : row.rid ∈ p.live) (ho : row.rid ∉ p.opened.map Row.rid) (hn : row.rid ∉ p.newer.map Prod.fst)
      (hc : (p.reqs row.rid).cache = some tb) (hstart : tb.numTokens = row.start) (hpos : 1 ≤ row.len)
      (hroom : (p.reqs row.rid).outputIds.length < (p.reqs row.rid).params.maxNewTokens)
      (hpre : (p.reqs row.rid).state = .prefill → row.start + row.len ≤ (p.reqs row.rid).seqLen)
      (h : Extended p.kv kv' p.reqs p.live row.rid tb tb' row.len) :
      Move sample p { p.put row.rid kv' { p.reqs row.rid with cache := some tb' } with opened := p.opened ++ [row] }
  | chunk {p : Pool} {row : Row} {rest : List Row} {kv' : KVCacheManager} {node : Option Nat} {f : Rid → Token}
      (hf : sample = some f) (ho : p.opened = row :: rest) (hpre : (p.reqs row.rid).state = .prefill)
      (hlt : row.start + row.len < (p.reqs row.rid).seqLen) (htok : 0 ≤ f row.rid)
      (h : Committed p.kv kv' p.reqs p.live row.rid node) :
      Move sample p { p.put row.rid kv' { p.reqs row.rid with cacheNode := node } with
        opened := rest
        newer := p.newer ++ [(row.rid, f row.rid, none)] }
  | first {p : Pool} {row : Row} {rest : List Row} {kv' : KVCacheManager} {node : Option Nat} {f : Rid → Token}
      (hf : sample = some f) (ho : p.opened = row :: rest) (hpre : (p.reqs row.rid).state = .prefill)
      (heq : row.start + row.len = (p.reqs row.rid).seqLen) (htok : 0 ≤ f row.rid)
      (h : Committed p.kv kv' (Function.update p.reqs row.rid { (p.reqs row.rid).sampled with state := .decode })
        p.live row.rid node) :
      Move sample p { p.put row.rid kv' { (p.reqs row.rid).sampled with state := .decode, cacheNode := node } with
        opened := rest
        newer := p.newer ++ [(row.rid, f row.rid, some (p.reqs row.rid).outputIds.length)] }
  | again {p : Pool} {row : Row} {rest : List Row} {f : Rid → Token} (hf : sample = some f) (ho : p.opened = row :: rest)
      (hdec : (p.reqs row.rid).state = .decode) (hlen : row.len = 1) (htok : 0 ≤ f row.rid) :
      Move sample p { p.put row.rid p.kv (p.reqs row.rid).sampled with
        opened := rest
        newer := p.newer ++ [(row.rid, f row.rid, some (p.reqs row.rid).outputIds.length)] }
  | skip {p : Pool} {x : Entry} {rest : List Entry} (ho : p.older = x :: rest)
      (h : x.2.2 = none ∨ (p.reqs x.1).isDone) : Move sample p { p with older := rest }
  | fill {p : Pool} {r : Rid} {tok : Token} {k : Nat} {rest : List Entry} (ho : p.older = (r, tok, some k) :: rest)
      (hop : p.opened = []) (hd : ¬ (p.reqs r).isDone) (hr : r ∈ p.live ∨ r ∈ p.waiting)
      (hk : k + 1 < (p.reqs r).params.maxNewTokens) (hs : tok ∉ (p.reqs r).params.stopTokenIds) :
      Move sample p { p.put r p.kv ((p.reqs r).filled k tok) with older := rest }
  | finish {p : Pool} {r : Rid} {tok : Token} {k : Nat} {rest : List Entry} {kv' : KVCacheManager}
      (ho : p.older = (r, tok, some k) :: rest) (hop : p.opened = []) (hd : ¬ (p.reqs r).isDone)
      (hr : r ∈ p.live ∨ r ∈ p.waiting)
      (hk : (p.reqs r).params.maxNewTokens ≤ k + 1 ∨ tok ∈ (p.reqs r).params.stopTokenIds)
      (h : p.Leaves r { ((p.reqs r).filled k tok).dropPending with state := .finished } kv') :
      Move sample p (p.leave r kv' { ((p.reqs r).filled k tok).dropPending with state := .finished } rest)
  | abort {p : Pool} {r : Rid} {kv' : KVCacheManager} (hop : p.opened = []) (hr : r ∈ p.live ∨ r ∈ p.waiting)
      (h : p.Leaves r { (p.reqs r).dropPending with state := .aborted } kv') :
      Move sample p (p.leave r kv' { (p.reqs r).dropPending with state := .aborted } p.older)
  | turn {p : Pool} (ho : p.older = []) (hop : p.opened = []) : Move sample p { p with older := p.newer, newer := [] }

end Pool

end MiniServe
