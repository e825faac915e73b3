import MiniServe.Cache.RadixTree
import MiniServe.Engine.Request

namespace MiniServe

structure KVCacheManager where
  allocator : BlockAllocator
  tree : Option RadixTree

namespace KVCacheManager

def new (allocator : BlockAllocator) (radix : Bool) : KVCacheManager :=
  ⟨allocator, if radix then some (RadixTree.new 0) else none⟩

variable (kv : KVCacheManager)

def blockSize : Nat := kv.allocator.blockSize

def numEvictable : Int :=
  match kv.tree with
  | none => 0
  | some t => t.numEvictable

def numCached : Int :=
  match kv.tree with
  | none => 0
  | some t => t.numCachedBlocks

def numAvailable : Int := kv.allocator.numFree + kv.numEvictable

def numIdleBlocks : Int := kv.allocator.numFree + kv.numCached

def lookup (req : Request) : Except Error (Option Nat × List Int × Option RadixTree) :=
  match kv.tree with
  | none => .ok (none, [], none)
  | some t =>
    match t.matchPrefix kv.blockSize (req.tokens.take (req.seqLen - 1)) with
    | (.error e, _) => .error e
    | (.ok (node, blocks), t') => .ok (some node, blocks, some (t'.lock node))

def acquire (req : Request) : Except Error (Nat × KVCacheManager × Request) :=
  if req.cache.isSome then .error (.alreadyHoldsCache req.rid)
  else
    match kv.lookup req with
    | .error e => .error e
    | .ok (node, blocks, tree) =>
      match BlockTable.new kv.allocator blocks with
      | (.error e, _) => .error e
      | (.ok table, a) =>
        let cached := blocks.length * kv.blockSize
        .ok (cached, ⟨a, tree⟩, { req with cache := some table, cacheNode := node, numCachedTokens := cached })

def cachedPrefixLen (req : Request) : Nat :=
  match kv.tree with
  | none => 0
  | some t => t.prefixLen kv.blockSize (req.tokens.take (req.seqLen - 1)) ((req.seqLen : Int) - 1)

def orderByCachedPrefix {ι : Type} (seq : ι → List Token) (reqs : List ι) : List ι :=
  match kv.tree with
  | none => reqs
  | some t => t.orderByCachedPrefix kv.blockSize seq reqs

def unlockNode (node : Option Nat) : Except Error KVCacheManager :=
  match kv.tree, node with
  | some t, some u =>
    match t.unlock u with
    | (.error e, _) => .error e
    | (.ok (), t') => .ok { kv with tree := some t' }
  | _, _ => .ok kv

def dropTable (table : BlockTable) : Except Error KVCacheManager :=
  match table.release kv.allocator with
  | (.error e, _) => .error e
  | (.ok (), _, a) => .ok { kv with allocator := a }

def abandon (req : Request) : Except Error (KVCacheManager × Request) :=
  match kv.unlockNode req.cacheNode with
  | .error e => .error e
  | .ok kv1 =>
    match req.cache with
    | none => .error (.noCache req.rid)
    | some table =>
      match kv1.dropTable table with
      | .error e => .error e
      | .ok kv2 => .ok (kv2, { req with cache := none, cacheNode := none, numCachedTokens := 0 })

def commit (req : Request) : Except Error (KVCacheManager × Request) :=
  match kv.tree, req.cache with
  | some t, some table =>
    let n := table.numTokens / kv.blockSize
    match t.insert kv.blockSize kv.allocator (req.tokens.take (n * kv.blockSize)) (table.blocks.take n) with
    | (.error e, _) => .error e
    | (.ok node, a, t') =>
      match KVCacheManager.unlockNode ⟨a, some (t'.lock node)⟩ req.cacheNode with
      | .error e => .error e
      | .ok kv' => .ok (kv', { req with cacheNode := some node })
  | _, _ => .ok (kv, req)

def release (req : Request) : Except Error (KVCacheManager × Request) :=
  match req.cache with
  | none => .ok (kv, req)
  | some table =>
    match kv.commit req with
    | .error e => .error e
    | .ok (kv1, req1) =>
      match kv1.unlockNode req1.cacheNode with
      | .error e => .error e
      | .ok kv2 =>
        match kv2.dropTable table with
        | .error e => .error e
        | .ok kv3 => .ok (kv3, { req1 with cache := none, cacheNode := none })

def evictShort (short : Int) : Except Error Unit × KVCacheManager :=
  match kv.tree with
  | none => (.ok (), kv)
  | some t =>
    if 0 < short then
      match t.evict kv.allocator short with
      | (.error e, a, t') => (.error e, ⟨a, some t'⟩)
      | (.ok _, a, t') => (.ok (), ⟨a, some t'⟩)
    else (.ok (), kv)

def reserve (numBlocks : Int) : Except Error Unit × KVCacheManager :=
  match kv.evictShort (numBlocks - kv.allocator.numFree) with
  | (.error e, kv') => (.error e, kv')
  | (.ok (), kv') =>
    if numBlocks > kv'.allocator.numFree then (.error (.needFreeBlocks numBlocks kv'.allocator.numFree), kv')
    else (.ok (), kv')

def clear : Except Error KVCacheManager :=
  match kv.tree with
  | none => .ok kv
  | some t =>
    match t.clear kv.allocator with
    | (.error e, _) => .error e
    | (.ok (), a, t') => .ok ⟨a, some t'⟩

theorem commit_no_cache {kv : KVCacheManager} {req : Request} (h : req.cache = none) :
    kv.commit req = .ok (kv, req) := by
  rw [commit, h]
  cases kv.tree <;> rfl

end KVCacheManager

end MiniServe
