import MiniServe.Lib.Holders
import MiniServe.Cache.RadixInsert
import MiniServe.Cache.KVCache

namespace MiniServe

open Forest Holders

abbrev Store := Rid → Request

namespace KVCacheManager

variable (kv : KVCacheManager)

def cachedBlocks : List Int :=
  match kv.tree with
  | none => []
  | some t => treeBlocks t.forest

def cachedCells : List (List Token × Int) :=
  match kv.tree with
  | none => []
  | some t => cells kv.blockSize [] t.forest

def nodeTokens (node : Option Nat) : List Token :=
  match kv.tree, node with
  | some t, some u => pathTokens t.forest u
  | _, _ => []

def nodeBlocks (node : Option Nat) : List Int :=
  match kv.tree, node with
  | some t, some u => pathBlocks t.forest u
  | _, _ => []

def HoldsNode (node : Option Nat) : Prop :=
  match kv.tree with
  | none => node = none
  | some t => ∃ u, node = some u ∧ t.Holds u

structure Held (r : Request) : Prop where
  cache : r.cache ≠ none
  nodup : r.tableBlocks.Nodup
  range : ∀ b ∈ r.tableBlocks, kv.allocator.InRange b
  capacity : r.covered ≤ r.tableBlocks.length * kv.blockSize
  covered : kv.tree.isSome → r.covered ≤ r.seqLen
  node : kv.HoldsNode r.cacheNode
  tokens : kv.nodeTokens r.cacheNode <+: r.tokens
  path_le : (kv.nodeTokens r.cacheNode).length ≤ r.covered
  own : ∀ (i : Nat) b, r.tableBlocks[i]? = some b → b ∈ kv.cachedBlocks → (kv.nodeBlocks r.cacheNode)[i]? = some b

def tableHolders (store : Store) (live : List Rid) (b : Int) : Nat :=
  holders live store (fun r => b ∈ r.tableBlocks)

def nodeHolders (store : Store) (live : List Rid) (u : Nat) : Nat :=
  holders live store (fun r => r.cacheNode = some u)

structure Sound (store : Store) (live : List Rid) : Prop where
  nodup : live.Nodup
  idle : ∀ r, r ∉ live → (store r).cache = none ∧ (store r).cacheNode = none
  allocator : kv.allocator.Sound
  ref : ∀ b, kv.allocator.ref b = tableHolders store live b + kv.cachedBlocks.count b
  range : ∀ b ∈ kv.cachedBlocks, kv.allocator.InRange b
  held : ∀ r ∈ live, kv.Held (store r)
  apart : ∀ r ∈ live, ∀ (i : Nat) b, (store r).tableBlocks[i]? = some b →
    (kv.nodeBlocks (store r).cacheNode).length ≤ i → ∀ q ∈ live, q ≠ r → b ∉ (store q).tableBlocks
  tree : ∀ t, kv.tree = some t → t.Sound kv.blockSize (nodeHolders store live)
  uniform : ∀ t, kv.tree = some t → ∀ n ∈ t.forest.labels, ∀ r ∈ live, ∀ b ∈ n.blocks,
    b ∈ (store r).tableBlocks → n.blocks ⊆ (store r).tableBlocks

variable {kv}

theorem blockSize_pos : 0 < kv.blockSize := kv.allocator.blockSize_pos

theorem new_sound {a : BlockAllocator} (ha : a.Sound) (hr : ∀ b, a.ref b = 0) (radix : Bool) {store : Store}
    (hi : ∀ r, (store r).cache = none ∧ (store r).cacheNode = none) : (new a radix).Sound store [] where
  nodup := List.nodup_nil
  idle := fun r _ => hi r
  allocator := ha
  ref := fun b => by
    cases radix <;> simp [new, hr, tableHolders, holders, cachedBlocks, RadixTree.new, treeBlocks]
  range := fun b hb => by
    cases radix <;> simp [new, cachedBlocks, RadixTree.new, treeBlocks] at hb
  held := by simp
  apart := by simp
  tree := fun t ht => by
    cases radix with
    | false => simp [new] at ht
    | true =>
      have e : RadixTree.new 0 = t := by simpa [new] using ht
      exact e ▸ RadixTree.new_sound 0 _
  uniform := by simp

section Facts

variable {store : Store} {live : List Rid} {t : RadixTree} {r : Rid}

theorem cachedBlocks_some (ht : kv.tree = some t) : kv.cachedBlocks = treeBlocks t.forest := by
  simp [cachedBlocks, ht]

theorem nodeBlocks_some (ht : kv.tree = some t) (u : Nat) : kv.nodeBlocks (some u) = pathBlocks t.forest u := by
  simp [nodeBlocks, ht]

theorem nodeTokens_some (ht : kv.tree = some t) (u : Nat) : kv.nodeTokens (some u) = pathTokens t.forest u := by
  simp [nodeTokens, ht]

theorem holdsNode_some (ht : kv.tree = some t) {node : Option Nat} :
    kv.HoldsNode node ↔ ∃ u, node = some u ∧ t.Holds u := by
  simp [HoldsNode, ht]

theorem Sound.live_node (hs : kv.Sound store live) (ht : kv.tree = some t) (hr : r ∈ live) :
    ∃ u, (store r).cacheNode = some u ∧ t.Holds u ∧ 0 < nodeHolders store live u := by
  obtain ⟨u, hu, hh⟩ := (holdsNode_some ht).mp (hs.held r hr).node
  exact ⟨u, hu, hh, holders_pos hr (by simp [hu])⟩

theorem Sound.no_later_holder (hs : kv.Sound store live) (ht : kv.tree = some t) {u : Nat}
    (hu : t.nextUid ≤ u) : nodeHolders store live u = 0 := by
  rw [nodeHolders, holders_eq_zero]
  intro q hq
  obtain ⟨v, hv, hh, -⟩ := hs.live_node ht hq
  have := (hs.tree t ht).shaped.holds_lt hh
  simp only [hv, Option.some.injEq, decide_eq_false_iff_not]
  omega

theorem Sound.ref_pos (hs : kv.Sound store live) (hr : r ∈ live) {b : Int} (hb : b ∈ (store r).tableBlocks) :
    0 < kv.allocator.ref b := by
  have : 0 < tableHolders store live b := holders_pos hr (by simpa using hb)
  rw [hs.ref]; omega

theorem Sound.ref_pos_cached (hs : kv.Sound store live) {b : Int} (hb : b ∈ kv.cachedBlocks) :
    0 < kv.allocator.ref b := by
  have := List.count_pos_iff.mpr hb
  rw [hs.ref]; omega

theorem Sound.cachedBlocks_nodup (hs : kv.Sound store live) : kv.cachedBlocks.Nodup := by
  cases ht : kv.tree with
  | none => simp [cachedBlocks, ht]
  | some t => rw [cachedBlocks_some ht]; exact (hs.tree t ht).blocks_nodup

theorem Sound.nodeBlocks_nodup (hs : kv.Sound store live) (node : Option Nat) : (kv.nodeBlocks node).Nodup := by
  cases ht : kv.tree with
  | none => simp [nodeBlocks, ht]
  | some t =>
    cases node with
    | none => simp [nodeBlocks, ht]
    | some u =>
      rw [nodeBlocks_some ht]
      exact (hs.tree t ht).blocks_nodup.sublist ((path_sublist u t.forest).flatMap RadixNode.blocks)

theorem nodeBlocks_subset (node : Option Nat) : kv.nodeBlocks node ⊆ kv.cachedBlocks := by
  intro b hb
  cases ht : kv.tree with
  | none => simp [nodeBlocks, ht] at hb
  | some t =>
    cases node with
    | none => simp [nodeBlocks, ht] at hb
    | some u =>
      rw [nodeBlocks_some ht] at hb
      rw [cachedBlocks_some ht]
      exact pathBlocks_subset t.forest u b hb

theorem Sound.nodeTokens_length (hs : kv.Sound store live) (node : Option Nat) :
    (kv.nodeTokens node).length = (kv.nodeBlocks node).length * kv.blockSize := by
  cases ht : kv.tree with
  | none => simp [nodeBlocks, nodeTokens, ht]
  | some t =>
    cases node with
    | none => simp [nodeBlocks, nodeTokens, ht]
    | some u =>
      rw [nodeBlocks_some ht, nodeTokens_some ht]
      exact pathTokens_length (hs.tree t ht).wf u

theorem Sound.perm {live' : List Rid} (hs : kv.Sound store live) (hp : live.Perm live') :
    kv.Sound store live' where
  nodup := hp.nodup_iff.mp hs.nodup
  idle := fun r hr => hs.idle r fun h => hr (hp.mem_iff.mp h)
  allocator := hs.allocator
  ref := fun b => by rw [hs.ref, tableHolders, tableHolders, holders_perm hp]
  range := hs.range
  held := fun r hr => hs.held r (hp.mem_iff.mpr hr)
  apart := fun r hr i b hb hi q hq => hs.apart r (hp.mem_iff.mpr hr) i b hb hi q (hp.mem_iff.mpr hq)
  tree := fun t ht => (hs.tree t ht).congr fun k _ => (holders_perm hp).symm
  uniform := fun t ht n hn r hr => hs.uniform t ht n hn r (hp.mem_iff.mpr hr)

theorem Sound.block_on_path (hs : kv.Sound store live) (ht : kv.tree = some t) {n : RadixNode} {u : Nat} {b : Int}
    (hn : n ∈ t.forest.labels) (hb : b ∈ n.blocks) (hp : b ∈ pathBlocks t.forest u) :
    n ∈ t.forest.path RadixNode.uid u := by
  obtain ⟨m, hm, hbm⟩ := List.mem_flatMap.mp hp
  have e : n = m := eq_of_mem_flatMap (hs.tree t ht).blocks_nodup hn (path_subset u t.forest m hm) hb hbm
  exact e ▸ hm

theorem Sound.lock_pos_of_table (hs : kv.Sound store live) (ht : kv.tree = some t) {n : RadixNode} {b : Int}
    (hr : r ∈ live) (hn : n ∈ t.forest.labels) (hb : b ∈ n.blocks) (hm : b ∈ (store r).tableBlocks) :
    0 < n.lock := by
  obtain ⟨u, hu, -, hpos⟩ := hs.live_node ht hr
  obtain ⟨i, hi⟩ := List.mem_iff_getElem?.mp hm
  have hc : b ∈ kv.cachedBlocks := by
    rw [cachedBlocks_some ht]; exact List.mem_flatMap.mpr ⟨n, hn, hb⟩
  have hp := (hs.held r hr).own i b hi hc
  rw [hu, nodeBlocks_some ht] at hp
  have hpath := hs.block_on_path ht hn hb (List.mem_of_getElem? hp)
  have := carries_path (hs.tree t ht).carries n hpath
  omega

end Facts

end KVCacheManager

end MiniServe
