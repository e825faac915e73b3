import MiniServe.Lib.ForestVisit
import MiniServe.Lib.SortedSet
import MiniServe.Cache.RadixTree
import MiniServe.Minicore.BlockAllocator

namespace MiniServe.Minicore

abbrev IndexKey := Nat ×ₗ Nat

structure RadixNode extends MiniServe.RadixNode where
  indexed : Bool
  deriving DecidableEq

namespace RadixNode

variable (on : Bool) (n : RadixNode) (leaf : Bool) (index : List IndexKey)

def indexKey : IndexKey := toLex (n.lastAccess, n.uid)

def evictable : Bool := leaf && n.lock == 0

def unindex : RadixNode × List IndexKey :=
  if n.indexed then ({ n with indexed := false }, SortedSet.erase n.indexKey index) else (n, index)

def reindex : RadixNode × List IndexKey :=
  if ¬ on then (n, index)
  else if n.evictable leaf ∧ ¬ n.indexed then ({ n with indexed := true }, SortedSet.insert n.indexKey index)
  else if ¬ n.evictable leaf ∧ n.indexed then n.unindex index
  else (n, index)

def touch (clock : Nat) : RadixNode × List IndexKey :=
  if n.lastAccess = clock then (n, index)
  else
    let (n, index) := n.unindex index
    RadixNode.reindex on { n with lastAccess := clock } leaf index

def key (bs : Nat) : List Token := n.tokens.take bs

def upper (bs m uid : Nat) : RadixNode where
  tokens := n.tokens.take (m * bs)
  blocks := n.blocks.take m
  lock := n.lock
  lastAccess := n.lastAccess
  uid := uid
  indexed := false

def lower (bs m : Nat) : RadixNode :=
  { n with tokens := n.tokens.drop (m * bs), blocks := n.blocks.drop m }

def lockVisit (s : List IndexKey × Int) : Option (RadixNode × List IndexKey × Int) :=
  let evictable := if n.lock = 0 then s.2 - n.blocks.length else s.2
  let (n, index) := RadixNode.reindex on { n with lock := n.lock + 1 } leaf s.1
  some (n, index, evictable)

def unlockVisit (s : List IndexKey × Int) : Option (RadixNode × List IndexKey × Int) :=
  if n.lock = 0 then none
  else
    let evictable := if n.lock - 1 = 0 then s.2 + n.blocks.length else s.2
    let (n, index) := RadixNode.reindex on { n with lock := n.lock - 1 } leaf s.1
    some (n, index, evictable)

end RadixNode

def sameBlock : Nat → List Token → List Token → Bool
  | 0, _, _ => true
  | bs + 1, c :: cs, t :: ts => c == t && sameBlock bs cs ts
  | _ + 1, _, _ => false

def matchLen (bs : Nat) : List Int → List Token → List Token → Nat
  | [], _, _ => 0
  | _ :: blocks, c, ts =>
    if bs ≤ ts.length ∧ sameBlock bs c ts then matchLen bs blocks (c.drop bs) (ts.drop bs) + 1 else 0

def matchedBlocks (bs : Nat) (child : RadixNode) (ts : List Token) : Nat :=
  matchLen bs child.blocks.tail (child.tokens.drop bs) (ts.drop bs) + 1

structure Walk where
  forest : Forest RadixNode
  node : Option Nat
  matched : Nat
  nextUid : Nat
  index : List IndexKey

def walkBelow (on : Bool) (bs clock uid : Nat) (index : List IndexKey) : Forest RadixNode → List Token → Walk
  | .nil, _ => ⟨.nil, none, 0, uid, index⟩
  | .cons n below rest, ts =>
    if bs ≤ ts.length ∧ n.key bs = ts.take bs then
      let m := matchedBlocks bs n ts
      if m < n.blocks.length then
        -- The upper half has a child, the lower half keeps what the node had.
        let (upper, index) := (n.upper bs m uid).touch on false index clock
        ⟨.cons upper (.cons (n.lower bs m) below .nil) rest, some uid, m, uid + 1, index⟩
      else
        let (n, index) := n.touch on below.isNil index clock
        let w := walkBelow on bs clock uid index below (ts.drop (m * bs))
        ⟨.cons n w.forest rest, some (w.node.getD n.uid), m + w.matched, w.nextUid, w.index⟩
    else
      let w := walkBelow on bs clock uid index rest ts
      ⟨.cons n below w.forest, w.node, w.matched, w.nextUid, w.index⟩

def prefixLenBelow (bs : Nat) : Forest RadixNode → List Token → Nat
  | .nil, _ => 0
  | .cons n below rest, ts =>
    if bs ≤ ts.length ∧ n.key bs = ts.take bs then
      let m := matchedBlocks bs n ts
      if m < n.blocks.length then m * bs else m * bs + prefixLenBelow bs below (ts.drop (m * bs))
    else prefixLenBelow bs rest ts

def popMin : List IndexKey → Option (IndexKey × List IndexKey)
  | [] => none
  | k :: heap =>
    match popMin heap with
    | none => some (k, [])
    | some (l, heap') => if k ≤ l then some (k, heap) else some (l, k :: heap')

-- Two lists read as one sequence but its last token: `head` is cut to the whole, `tail` is not.
def pairTokens (prompt output : List Token) : List Token :=
  let total := prompt.length + output.length
  let limit := if total = 0 then 0 else total - 1
  let head := min prompt.length limit
  (List.range limit).map fun i => if i < head then prompt.getD i 0 else output.getD (i - head) 0

-- Token ids are read as `int32_t`.
def withTokens (ts : List Token) : List Token := ts.map Packing.Cpp.wrap

theorem withTokens_eq {ts : List Token} (h : ∀ x ∈ ts, Packing.Fits x) : withTokens ts = ts :=
  (List.map_congr_left fun x hx => Packing.Cpp.wrap_eq (h x hx)).trans (List.map_id' ts)

def orderByPrefixLens (lens : List Nat) : List Nat :=
  (List.range lens.length).insertionSort fun i j => ¬ lens.getD i 0 < lens.getD j 0

structure RadixTree where
  rootUid : Nat
  forest : Forest RadixNode
  numCachedBlocks : Int
  numEvictable : Int
  clock : Nat
  nextUid : Nat
  indexedEviction : Bool
  index : List IndexKey

namespace RadixTree

def new (indexedEviction : Bool) : RadixTree where
  rootUid := 0
  forest := .nil
  numCachedBlocks := 0
  numEvictable := 0
  clock := 0
  nextUid := 1
  indexedEviction := indexedEviction
  index := []

variable (bs : Nat) (t : RadixTree)

def walk (ts : List Token) : Walk := walkBelow t.indexedEviction bs (t.clock + 1) t.nextUid t.index t.forest ts

def walked (ts : List Token) : RadixTree :=
  let w := t.walk bs ts
  { t with forest := w.forest, clock := t.clock + 1, nextUid := w.nextUid, index := w.index }

def pathBlocks (node : Nat) : List Int :=
  (t.forest.path (fun n => n.uid) node).flatMap fun n => n.blocks

def matchPrefix (ts : List Token) : Except Error (Nat × List Int) × RadixTree :=
  let w := t.walk bs ts
  let t := t.walked bs ts
  let node := w.node.getD t.rootUid
  let out := t.pathBlocks node
  if out.length ≠ w.matched then (.error .pathBlocksDisagree, t) else (.ok (node, out), t)

def prefixLen (ts : List Token) : Nat := prefixLenBelow bs t.forest ts

def prefixLens (seqs : List (List Token)) (limits : List Int) : Except Error (List Nat) :=
  if seqs.length ≠ limits.length then .error .oneLimitPerSequence
  else .ok (List.zipWith (fun s n => t.prefixLen bs (if 0 ≤ n then s.take n.toNat else s)) seqs limits)

def orderByCachedPrefix (reqs : List (List Token × List Token)) : List (List Token × List Token) :=
  let lens := reqs.map fun r => t.prefixLen bs (withTokens (pairTokens r.1 r.2))
  (orderByPrefixLens lens).map fun i => reqs.getD i ([], [])

def visit (u : Nat) (f : RadixNode → Bool → List IndexKey → RadixNode × List IndexKey) : RadixTree :=
  let (forest, index) := t.forest.visit (fun n => n.uid) u f t.index
  { t with forest := forest, index := index }

def unindexAt (u : Nat) : RadixTree := t.visit u fun n _ index => n.unindex index

def reindexAt (u : Nat) : RadixTree := t.visit u (RadixNode.reindex t.indexedEviction)

def attach (node : Nat) (leaf : RadixNode) : RadixTree :=
  { t with forest := if node = t.rootUid then t.forest.append leaf else t.forest.addUnder (fun n => n.uid) node leaf }

def grow (node : Nat) (leaf : RadixNode) : RadixTree :=
  (((t.unindexAt node).attach node leaf).reindexAt node).reindexAt leaf.uid

def insert (a : BlockAllocator) (ts : List Token) (blocks : List Int) : Except Error Nat × BlockAllocator × RadixTree :=
  if ts.length ≠ blocks.length * bs then (.error (.tokensForBlocks ts.length blocks.length bs), a, t)
  else
    let w := t.walk bs ts
    let t := t.walked bs ts
    let node := w.node.getD t.rootUid
    if w.matched = blocks.length then (.ok node, a, t)
    else
      let fresh := blocks.drop w.matched
      match a.incref fresh with
      | (.error e, a) => (.error e, a, t)
      | (.ok (), a) =>
        let leaf : RadixNode := ⟨⟨ts.drop (w.matched * bs), fresh, 0, t.clock, t.nextUid⟩, false⟩
        let t := t.grow node leaf
        (.ok leaf.uid, a, { t with
          numCachedBlocks := t.numCachedBlocks + fresh.length
          numEvictable := t.numEvictable + fresh.length
          nextUid := t.nextUid + 1 })

def lock (node : Nat) : RadixTree :=
  let (_, forest, index, evictable) :=
    t.forest.climbWith (fun n => n.uid) node (RadixNode.lockVisit t.indexedEviction) (t.index, t.numEvictable)
  { t with forest := forest, index := index, numEvictable := evictable }

def unlock (node : Nat) : Except Error Unit × RadixTree :=
  let (climbed, forest, index, evictable) :=
    t.forest.climbWith (fun n => n.uid) node (RadixNode.unlockVisit t.indexedEviction) (t.index, t.numEvictable)
  let t := { t with forest := forest, index := index, numEvictable := evictable }
  if climbed = .refused then (.error .unlockOfUnlocked, t) else (.ok (), t)

def detach (node : RadixNode) : RadixTree :=
  { t with
    forest := t.forest.remove (fun n => n.uid) node.uid
    numCachedBlocks := t.numCachedBlocks - node.blocks.length
    numEvictable := t.numEvictable - node.blocks.length }

def detachLeaf (node : RadixNode) : RadixTree :=
  match t.forest.parent (fun n => n.uid) node.uid with
  | none => t.detach node
  | some (p, _) => (t.detach node).reindexAt p.uid

def removeLeaf (a : BlockAllocator) (node : RadixNode) : Except Error Unit × BlockAllocator × RadixTree :=
  let t := t.unindexAt node.uid
  match a.freeBlocks node.blocks with
  | (.error e, a) => (.error e, a, t)
  | (.ok (), a) => (.ok (), a, t.detachLeaf node)

def nodeAt (u : Nat) : Option RadixNode := t.forest.labels.find? fun n => n.uid = u

def evictIndexed (numBlocks : Int) :
    Nat → BlockAllocator → RadixTree → Int → Except Error Int × BlockAllocator × RadixTree
  | 0, a, t, freed => (.ok freed, a, t)
  | fuel + 1, a, t, freed =>
    if freed < numBlocks then
      match t.index.head?.bind fun k => t.nodeAt (ofLex k).2 with
      | none => (.ok freed, a, t)
      | some node =>
        match t.removeLeaf a node with
        | (.error e, a, t) => (.error e, a, t)
        | (.ok (), a, t) => evictIndexed numBlocks fuel a t (freed + node.blocks.length)
    else (.ok freed, a, t)

def pushParent (node : RadixNode) (heap : List IndexKey) : List IndexKey :=
  match t.forest.parent (fun n => n.uid) node.uid with
  | some (p, below) => if p.evictable (below.remove (fun n => n.uid) node.uid).isNil then p.indexKey :: heap else heap
  | none => heap

def evictScan (numBlocks : Int) :
    Nat → BlockAllocator → RadixTree → List IndexKey → Int → Except Error Int × BlockAllocator × RadixTree
  | 0, a, t, _, freed => (.ok freed, a, t)
  | fuel + 1, a, t, heap, freed =>
    if freed < numBlocks then
      match (popMin heap).bind fun x => (t.nodeAt (ofLex x.1).2).map fun n => (n, x.2) with
      | none => (.ok freed, a, t)
      | some (node, heap) =>
        match t.removeLeaf a node with
        | (.error e, a, t) => (.error e, a, t)
        | (.ok (), a, t') => evictScan numBlocks fuel a t' (t.pushParent node heap) (freed + node.blocks.length)
    else (.ok freed, a, t)

def unlockedLeaves : List IndexKey := (t.forest.leaves.filter fun n => n.lock = 0).map RadixNode.indexKey

def evict (a : BlockAllocator) (numBlocks : Int) : Except Error Int × BlockAllocator × RadixTree :=
  if t.indexedEviction then evictIndexed numBlocks t.forest.labels.length a t 0
  else evictScan numBlocks t.forest.labels.length a t t.unlockedLeaves 0

def clear (a : BlockAllocator) : Except Error Unit × BlockAllocator × RadixTree :=
  if t.numEvictable ≠ t.numCachedBlocks then (.error .clearWithLocks, a, t)
  else
    match t.evict a t.numCachedBlocks with
    | (.error e, a, t) => (.error e, a, t)
    | (.ok _, a, t) => (.ok (), a, t)

def reference : MiniServe.RadixTree where
  rootUid := t.rootUid
  forest := t.forest.map RadixNode.toRadixNode
  numCachedBlocks := t.numCachedBlocks
  numEvictable := t.numEvictable
  clock := t.clock
  nextUid := t.nextUid

end RadixTree

end MiniServe.Minicore
