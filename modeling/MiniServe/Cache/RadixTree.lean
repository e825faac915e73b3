import MiniServe.Lib.Forest
import MiniServe.Cache.BlockTable
import Mathlib.Data.List.Sort

namespace MiniServe

structure RadixNode where
  tokens : List Token
  blocks : List Int
  lock : Nat
  lastAccess : Nat
  uid : Nat
  deriving DecidableEq, Repr

namespace RadixNode

def key (bs : Nat) (n : RadixNode) : List Token := n.tokens.take bs

def upper (bs m uid : Nat) (n : RadixNode) : RadixNode where
  tokens := n.tokens.take (m * bs)
  blocks := n.blocks.take m
  lock := n.lock
  lastAccess := n.lastAccess
  uid := uid

def lower (bs m : Nat) (n : RadixNode) : RadixNode :=
  { n with tokens := n.tokens.drop (m * bs), blocks := n.blocks.drop m }

def touch (clock : Nat) (n : RadixNode) : RadixNode := { n with lastAccess := clock }

def locked (n : RadixNode) : RadixNode := { n with lock := n.lock + 1 }

def unlocked (n : RadixNode) : RadixNode := { n with lock := n.lock - 1 }

def lockVisit (n : RadixNode) : Option (RadixNode × Int) :=
  some (n.locked, if n.lock = 0 then -(n.blocks.length : Int) else 0)

def unlockVisit (n : RadixNode) : Option (RadixNode × Int) :=
  if n.lock = 0 then none
  else some (n.unlocked, if n.lock - 1 = 0 then (n.blocks.length : Int) else 0)

def evictsBefore (n m : RadixNode) : Prop :=
  n.lastAccess < m.lastAccess ∨ n.lastAccess = m.lastAccess ∧ n.uid ≤ m.uid

instance (n m : RadixNode) : Decidable (n.evictsBefore m) := inferInstanceAs (Decidable (_ ∨ _))

end RadixNode

def matchLen (bs : Nat) : List Int → List Token → List Token → Nat
  | [], _, _ => 0
  | _ :: blocks, c, ts =>
    if bs ≤ ts.length ∧ c.take bs = ts.take bs then
      matchLen bs blocks (c.drop bs) (ts.drop bs) + 1
    else 0

def matchedBlocks (bs : Nat) (child : RadixNode) (ts : List Token) : Nat :=
  matchLen bs child.blocks.tail (child.tokens.drop bs) (ts.drop bs) + 1

structure Walk where
  forest : Forest RadixNode
  node : Option Nat
  matched : Nat
  nextUid : Nat

-- One level of the loop of `_walk`: `ts` are the tokens from `pos` on. After a split the loop looks
-- for the next block among the children of the upper half, whose only key differs
-- (`walkBelow_after_split`), so the walk ends there.
def walkBelow (bs clock uid : Nat) : Forest RadixNode → List Token → Walk
  | .nil, _ => ⟨.nil, none, 0, uid⟩
  | .cons n below rest, ts =>
    if bs ≤ ts.length ∧ n.key bs = ts.take bs then
      let m := matchedBlocks bs n ts
      if m < n.blocks.length then
        ⟨.cons ((n.upper bs m uid).touch clock) (.cons (n.lower bs m) below .nil) rest, some uid, m, uid + 1⟩
      else
        let w := walkBelow bs clock uid below (ts.drop (m * bs))
        ⟨.cons (n.touch clock) w.forest rest, some (w.node.getD n.uid), m + w.matched, w.nextUid⟩
    else
      let w := walkBelow bs clock uid rest ts
      ⟨.cons n below w.forest, w.node, w.matched, w.nextUid⟩

def prefixLenBelow (bs : Nat) : Forest RadixNode → List Token → Nat
  | .nil, _ => 0
  | .cons n below rest, ts =>
    if bs ≤ ts.length ∧ n.key bs = ts.take bs then
      let m := matchedBlocks bs n ts
      if m < n.blocks.length then m * bs else m * bs + prefixLenBelow bs below (ts.drop (m * bs))
    else prefixLenBelow bs rest ts

def popMin : List RadixNode → Option (RadixNode × List RadixNode)
  | [] => none
  | n :: heap =>
    match popMin heap with
    | none => some (n, [])
    | some (m, heap') => if n.evictsBefore m then some (n, heap) else some (m, n :: heap')

structure RadixTree where
  rootUid : Nat
  forest : Forest RadixNode
  numCachedBlocks : Int
  numEvictable : Int
  clock : Nat
  nextUid : Nat

namespace RadixTree

def new (uid : Nat) : RadixTree where
  rootUid := uid
  forest := .nil
  numCachedBlocks := 0
  numEvictable := 0
  clock := 0
  nextUid := uid + 1

variable (bs : Nat) (t : RadixTree)

def walk (ts : List Token) : Walk := walkBelow bs (t.clock + 1) t.nextUid t.forest ts

def walked (ts : List Token) : RadixTree :=
  let w := t.walk bs ts
  { t with forest := w.forest, clock := t.clock + 1, nextUid := w.nextUid }

def pathBlocks (node : Nat) : List Int :=
  (t.forest.path RadixNode.uid node).flatMap RadixNode.blocks

def matchPrefix (ts : List Token) : Except Error (Nat × List Int) × RadixTree :=
  let w := t.walk bs ts
  let t' := t.walked bs ts
  let node := w.node.getD t.rootUid
  let out := t'.pathBlocks node
  if out.length = w.matched then (.ok (node, out), t') else (.error .pathBlocksDisagree, t')

def prefixLen (ts : List Token) (n : Int) : Nat := prefixLenBelow bs t.forest (ts.take n.toNat)

def prefixLens (seqs : List (List Token)) (limits : List Int) : Except Error (List Nat) :=
  if seqs.length = limits.length then
    .ok (List.zipWith (fun s n => t.prefixLen bs s (min n s.length)) seqs limits)
  else .error .oneLimitPerSequence

def cachedLen (seq : List Token) : Nat := t.prefixLen bs seq (max ((seq.length : Int) - 1) 0)

def orderByCachedPrefix {ι : Type} (seq : ι → List Token) (reqs : List ι) : List ι :=
  reqs.insertionSort (fun i j => t.cachedLen bs (seq j) ≤ t.cachedLen bs (seq i))

def attach (node : Nat) (leaf : RadixNode) (F : Forest RadixNode) : Forest RadixNode :=
  if node = t.rootUid then F.append leaf else F.addUnder RadixNode.uid node leaf

def insert (a : BlockAllocator) (ts : List Token) (blocks : List Int) :
    Except Error Nat × BlockAllocator × RadixTree :=
  if ts.length ≠ blocks.length * bs then
    (.error (.tokensForBlocks ts.length blocks.length bs), a, t)
  else
    let w := t.walk bs ts
    let t' := t.walked bs ts
    let node := w.node.getD t.rootUid
    if w.matched = blocks.length then (.ok node, a, t')
    else
      let newBlocks := blocks.drop w.matched
      match a.incref newBlocks with
      | (.error e, a') => (.error e, a', t')
      | (.ok (), a') =>
        let leaf : RadixNode := ⟨ts.drop (w.matched * bs), newBlocks, 0, t'.clock, t'.nextUid⟩
        (.ok leaf.uid, a', { t' with
          forest := t'.attach node leaf t'.forest
          numCachedBlocks := t'.numCachedBlocks + newBlocks.length
          numEvictable := t'.numEvictable + newBlocks.length
          nextUid := t'.nextUid + 1 })

def lock (node : Nat) : RadixTree :=
  let (_, forest, d) := t.forest.climb RadixNode.uid node RadixNode.lockVisit
  { t with forest := forest, numEvictable := t.numEvictable + d }

def unlock (node : Nat) : Except Error Unit × RadixTree :=
  match t.forest.climb RadixNode.uid node RadixNode.unlockVisit with
  | (.refused, forest, d) =>
    (.error .unlockOfUnlocked, { t with forest := forest, numEvictable := t.numEvictable + d })
  | (_, forest, d) => (.ok (), { t with forest := forest, numEvictable := t.numEvictable + d })

def detach (node : RadixNode) : RadixTree :=
  { t with
    forest := t.forest.remove RadixNode.uid node.uid
    numCachedBlocks := t.numCachedBlocks - node.blocks.length
    numEvictable := t.numEvictable - node.blocks.length }

def pushParent (node : RadixNode) (heap : List RadixNode) : List RadixNode :=
  match t.forest.parent RadixNode.uid node.uid with
  | some (p, below) =>
    if (below.remove RadixNode.uid node.uid).isNil ∧ p.lock = 0 then p :: heap else heap
  | none => heap

def evictLoop (numBlocks : Int) :
    Nat → BlockAllocator → RadixTree → List RadixNode → Int → Except Error Int × BlockAllocator × RadixTree
  | 0, a, t, _, freed => (.ok freed, a, t)
  | fuel + 1, a, t, heap, freed =>
    if freed < numBlocks then
      match popMin heap with
      | none => (.ok freed, a, t)
      | some (node, heap') =>
        match a.freeBlocks node.blocks with
        | (.error e, a') => (.error e, a', t)
        | (.ok (), a') =>
          evictLoop numBlocks fuel a' (t.detach node) (t.pushParent node heap') (freed + node.blocks.length)
    else (.ok freed, a, t)

def unlockedLeaves : List RadixNode := t.forest.leaves.filter (fun n => n.lock = 0)

def evict (a : BlockAllocator) (numBlocks : Int) : Except Error Int × BlockAllocator × RadixTree :=
  evictLoop numBlocks t.forest.labels.length a t t.unlockedLeaves 0

def clear (a : BlockAllocator) : Except Error Unit × BlockAllocator × RadixTree :=
  if t.numEvictable ≠ t.numCachedBlocks then (.error .clearWithLocks, a, t)
  else
    match t.evict a t.numCachedBlocks with
    | (.error e, a', t') => (.error e, a', t')
    | (.ok _, a', t') => (.ok (), a', t')

end RadixTree

end MiniServe
