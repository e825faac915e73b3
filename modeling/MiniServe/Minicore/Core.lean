import MiniServe.Cache.AllocRun
import MiniServe.Minicore.Evict

namespace MiniServe

-- The public calls on an allocator, the tables made over it, known by the order they were made in, and one tree.
inductive Op where
  | refcount (block : Int)
  | allocate (n : Int)
  | incref (blocks : List Int)
  | free (blocks : List Int)
  | newTable (blocks : List Int)
  | blocksNeeded (i : Nat) (n : Int)
  | appendTokens (i : Nat) (n : Int)
  | slot (i : Nat) (pos : Int)
  | tailSlots (i : Nat) (n : Int)
  | rewind (i : Nat) (n : Int)
  | release (i : Nat)
  | matchPrefix (tokens : List Token)
  | prefixLen (tokens : List Token)
  | prefixLens (seqs : List (List Token)) (limits : List Int)
  | orderByCachedPrefix (reqs : List (List Token × List Token))
  | insert (tokens : List Token) (blocks : List Int)
  | lock (node : Nat)
  | unlock (node : Nat)
  | evict (numBlocks : Int)
  | clear

inductive Reply where
  | error (e : Error)
  | unit
  | num (n : Int)
  | blocks (blocks : List Int)
  | node (node : Nat)
  | found (node : Nat) (blocks : List Int)
  | lens (lens : List Nat)
  | order (reqs : List (List Token × List Token))
  deriving DecidableEq

namespace Reply

def of {α : Type} (f : α → Reply) : Except Error α → Reply
  | .error e => .error e
  | .ok x => f x

end Reply

structure Reference where
  allocator : BlockAllocator
  tables : Nat → BlockTable
  count : Nat
  tree : RadixTree

namespace Reference

def new (numBlocks blockSize : Nat) (hn : 0 < numBlocks) (hb : 0 < blockSize) : Reference where
  allocator := .fresh numBlocks blockSize hn hb
  tables := fun _ => .empty
  count := 0
  tree := .new 0

variable (w : Reference)

def step : Op → Reply × Reference
  | .refcount b => (.of (fun n : Nat => .num n) (w.allocator.refcount b), w)
  | .allocate n =>
    let (r, a) := w.allocator.allocate n
    (.of .blocks r, { w with allocator := a })
  | .incref blocks =>
    let (r, a) := w.allocator.incref blocks
    (.of (fun _ => .unit) r, { w with allocator := a })
  | .free blocks =>
    let (r, a) := w.allocator.freeBlocks blocks
    (.of (fun _ => .unit) r, { w with allocator := a })
  | .newTable blocks =>
    match BlockTable.new w.allocator blocks with
    | (.error e, a) => (.error e, { w with allocator := a })
    | (.ok t, a) =>
      (.unit, { w with allocator := a, tables := Function.update w.tables w.count t, count := w.count + 1 })
  | .blocksNeeded i n => (.of .num ((w.tables i).blocksNeeded w.allocator.blockSize n), w)
  | .appendTokens i n =>
    let (r, t, a) := (w.tables i).appendTokens w.allocator n
    (.of .blocks r, { w with allocator := a, tables := Function.update w.tables i t })
  | .slot i pos => (.of .num ((w.tables i).slot w.allocator.blockSize pos), w)
  | .tailSlots i n => (.of .blocks ((w.tables i).tailSlots w.allocator.blockSize n), w)
  | .rewind i n =>
    let (r, t) := (w.tables i).rewind n
    (.of (fun _ => .unit) r, { w with tables := Function.update w.tables i t })
  | .release i =>
    let (r, t, a) := (w.tables i).release w.allocator
    (.of (fun _ => .unit) r, { w with allocator := a, tables := Function.update w.tables i t })
  | .matchPrefix ts =>
    let (r, t) := w.tree.matchPrefix w.allocator.blockSize ts
    (.of (fun x => .found x.1 x.2) r, { w with tree := t })
  | .prefixLen ts => (.num (w.tree.prefixLen w.allocator.blockSize ts ts.length), w)
  | .prefixLens seqs limits => (.of .lens (w.tree.prefixLens w.allocator.blockSize seqs limits), w)
  | .orderByCachedPrefix reqs =>
    (.order (w.tree.orderByCachedPrefix w.allocator.blockSize (fun r => r.1 ++ r.2) reqs), w)
  | .insert ts blocks =>
    let (r, a, t) := w.tree.insert w.allocator.blockSize w.allocator ts blocks
    (.of .node r, { w with allocator := a, tree := t })
  | .lock node => (.unit, { w with tree := w.tree.lock node })
  | .unlock node =>
    let (r, t) := w.tree.unlock node
    (.of (fun _ => .unit) r, { w with tree := t })
  | .evict n =>
    let (r, a, t) := w.tree.evict w.allocator n
    (.of .num r, { w with allocator := a, tree := t })
  | .clear =>
    let (r, a, t) := w.tree.clear w.allocator
    (.of (fun _ => .unit) r, { w with allocator := a, tree := t })

def run : List Op → Reference → List Reply × Reference
  | [], w => ([], w)
  | op :: ops, w =>
    let (r, w) := w.step op
    let (rs, w) := run ops w
    (r :: rs, w)

end Reference

namespace Op

-- The references the caller has after a call: those it got from `allocate` and `incref` and has not given back.
def owned (own : Int → Nat) : Op → Reply → Int → Nat
  | .allocate _, .blocks out => fun b => own b + out.count b
  | .incref blocks, .unit => fun b => own b + blocks.count b
  | .free blocks, .unit => fun b => own b - blocks.count b
  | _, _ => own

-- Tables exist, limits are not negative and fit a `long`, and `free` is only given references the caller has.
def Proper (w : Reference) (own : Int → Nat) : Op → Prop
  | .free blocks => ∀ b, blocks.count b ≤ own b
  | .blocksNeeded i _ | .appendTokens i _ | .slot i _ | .tailSlots i _ | .rewind i _ | .release i => i < w.count
  | .prefixLens _ limits => ∀ n ∈ limits, 0 ≤ n ∧ IsLong n
  | _ => True

def sizeAndTokens (ts : List Token) : List Int := ts.length :: ts

def heldBy (w : Reference) (blocks : List Int) : List Int :=
  blocks.flatMap fun b => [b, w.allocator.ref b + blocks.count b]

-- The numbers that are 32 bits wide in C++: what a call is given, and what it adds up.
def ints (w : Reference) : Op → List Int
  | .refcount b => [b]
  | .allocate n | .slot _ n | .tailSlots _ n | .rewind _ n | .evict n => [n]
  | .incref blocks => heldBy w blocks
  | .free blocks => blocks
  | .newTable blocks => (blocks.length * w.allocator.blockSize : Int) :: heldBy w blocks
  | .blocksNeeded i n | .appendTokens i n => [n, (w.tables i).numTokens + n + w.allocator.blockSize]
  | .matchPrefix ts | .prefixLen ts => sizeAndTokens ts
  | .prefixLens seqs _ => seqs.flatMap sizeAndTokens
  | .orderByCachedPrefix reqs => reqs.flatMap fun r => sizeAndTokens (r.1 ++ r.2)
  | .insert ts blocks => sizeAndTokens ts ++ heldBy w blocks
  | .lock _ => w.tree.forest.labels.map fun n => n.lock + 1
  | .release _ | .unlock _ | .clear => []

-- The clock and the numbers of the nodes are 64 bits wide.
def NoOverflow (w : Reference) (op : Op) : Prop :=
  (∀ x ∈ op.ints w, Packing.Fits x) ∧ w.tree.clock < 2 ^ 63 ∧ w.tree.nextUid < 2 ^ 63

instance (w : Reference) (op : Op) : Decidable (op.NoOverflow w) := inferInstanceAs (Decidable (_ ∧ _))

def ProperRun : List Op → Reference → (Int → Nat) → Prop
  | [], _, _ => True
  | op :: ops, w, own => op.Proper w own ∧ op.NoOverflow w ∧ ProperRun ops (w.step op).2 (op.owned own (w.step op).1)

structure ProperCalls (ops : List Op) (numBlocks blockSize : Nat) (hn : 0 < numBlocks) (hb : 0 < blockSize) : Prop where
  numBlocks_fits : Packing.Fits numBlocks
  blockSize_fits : Packing.Fits blockSize
  run : ProperRun ops (.new numBlocks blockSize hn hb) fun _ => 0

end Op

namespace Minicore

structure Core where
  allocator : BlockAllocator
  tables : Nat → BlockTable
  count : Nat
  tree : RadixTree

namespace Core

def new (numBlocks blockSize : Nat) (hn : 0 < numBlocks) (hb : 0 < blockSize) (indexedEviction : Bool) : Core where
  allocator := .fresh numBlocks blockSize hn hb
  tables := fun _ => .empty
  count := 0
  tree := .new indexedEviction

variable (c : Core)

def step : Op → Reply × Core
  | .refcount b => (.of (fun n : Nat => .num n) (c.allocator.refcount b), c)
  | .allocate n =>
    let (r, a) := c.allocator.allocate n
    (.of .blocks r, { c with allocator := a })
  | .incref blocks =>
    let (r, a) := c.allocator.incref blocks
    (.of (fun _ => .unit) r, { c with allocator := a })
  | .free blocks =>
    let (r, a) := c.allocator.freeBlocks blocks
    (.of (fun _ => .unit) r, { c with allocator := a })
  | .newTable blocks =>
    match BlockTable.new c.allocator blocks with
    | (.error e, a) => (.error e, { c with allocator := a })
    | (.ok t, a) =>
      (.unit, { c with allocator := a, tables := Function.update c.tables c.count t, count := c.count + 1 })
  | .blocksNeeded i n => (.of .num (BlockTable.blocksNeeded (c.tables i) c.allocator n), c)
  | .appendTokens i n =>
    let (r, t, a) := BlockTable.appendTokens (c.tables i) c.allocator n
    (.of .blocks r, { c with allocator := a, tables := Function.update c.tables i t })
  | .slot i pos => (.of .num (BlockTable.slot (c.tables i) c.allocator pos), c)
  | .tailSlots i n => (.of .blocks (BlockTable.tailSlots (c.tables i) c.allocator n), c)
  | .rewind i n =>
    let (r, t) := BlockTable.rewind (c.tables i) n
    (.of (fun _ => .unit) r, { c with tables := Function.update c.tables i t })
  | .release i =>
    let (r, t, a) := BlockTable.release (c.tables i) c.allocator
    (.of (fun _ => .unit) r, { c with allocator := a, tables := Function.update c.tables i t })
  | .matchPrefix ts =>
    let (r, t) := c.tree.matchPrefix c.allocator.blockSize (withTokens ts)
    (.of (fun x => .found x.1 x.2) r, { c with tree := t })
  | .prefixLen ts => (.num (c.tree.prefixLen c.allocator.blockSize (withTokens ts)), c)
  | .prefixLens seqs limits => (.of .lens (c.tree.prefixLens c.allocator.blockSize (seqs.map withTokens) limits), c)
  | .orderByCachedPrefix reqs => (.order (c.tree.orderByCachedPrefix c.allocator.blockSize reqs), c)
  | .insert ts blocks =>
    let (r, a, t) := c.tree.insert c.allocator.blockSize c.allocator (withTokens ts) blocks
    (.of .node r, { c with allocator := a, tree := t })
  | .lock node => (.unit, { c with tree := c.tree.lock node })
  | .unlock node =>
    let (r, t) := c.tree.unlock node
    (.of (fun _ => .unit) r, { c with tree := t })
  | .evict n =>
    let (r, a, t) := c.tree.evict c.allocator n
    (.of .num r, { c with allocator := a, tree := t })
  | .clear =>
    let (r, a, t) := c.tree.clear c.allocator
    (.of (fun _ => .unit) r, { c with allocator := a, tree := t })

def run : List Op → Core → List Reply × Core
  | [], c => ([], c)
  | op :: ops, c =>
    let (r, c) := c.step op
    let (rs, c) := run ops c
    (r :: rs, c)

def reference : Reference where
  allocator := c.allocator.reference
  tables := fun i => (c.tables i).reference
  count := c.count
  tree := c.tree.reference

end Core

end Minicore

end MiniServe
