import MiniServe.Cache.KVOps

namespace MiniServe

open Forest Holders

namespace KVCacheManager

variable {kv kv' : KVCacheManager} {store : Store} {live : List Rid} {r : Rid} {t t' : RadixTree}

theorem Sound.unlocked_ref (hs : kv.Sound store live) (ht : kv.tree = some t) {n : RadixNode}
    (hn : n ∈ t.forest.labels) (h0 : n.lock = 0) {b : Int} (hb : b ∈ n.blocks) : kv.allocator.ref b = 1 := by
  have hz : tableHolders store live b = 0 := by
    rw [tableHolders, holders_eq_zero]
    intro q hq
    simp only [decide_eq_false_iff_not]
    intro hm
    have := hs.lock_pos_of_table ht hq hn hb hm
    omega
  have hc : kv.cachedBlocks.count b = 1 := by
    rw [List.Nodup.count hs.cachedBlocks_nodup, if_pos]
    rw [cachedBlocks_some ht]
    exact List.mem_flatMap.mpr ⟨n, hn, hb⟩
  rw [hs.ref, hz, hc]

theorem Sound.not_leaf (hs : kv.Sound store live) (ht : kv.tree = some t) {n : RadixNode}
    (hn : n ∈ t.unlockedLeaves) (hr : r ∈ live) {u : Nat} (hu : (store r).cacheNode = some u) : u ≠ n.uid := by
  rintro rfl
  obtain ⟨hl, h0⟩ := RadixTree.mem_unlockedLeaves.mp hn
  have := (hs.tree t ht).no_holder hl h0
  have : 0 < nodeHolders store live n.uid := holders_pos hr (by simp [hu])
  omega

theorem Sound.detach {n : RadixNode} (hs : kv.Sound store live) (ht : kv.tree = some t) (hn : n ∈ t.unlockedLeaves) :
    kv.allocator.freeBlocks n.blocks = (.ok (), n.blocks.foldl BlockAllocator.dropRef kv.allocator) ∧
      KVCacheManager.Sound ⟨n.blocks.foldl BlockAllocator.dropRef kv.allocator, some (t.detach n)⟩ store live ∧
      Frame kv ⟨n.blocks.foldl BlockAllocator.dropRef kv.allocator, some (t.detach n)⟩ store live ∧
      (n.blocks.foldl BlockAllocator.dropRef kv.allocator).numFree = kv.allocator.numFree + n.blocks.length := by
  obtain ⟨hl, h0⟩ := RadixTree.mem_unlockedLeaves.mp hn
  have hlab := leaves_subset_labels _ n hl
  have hts := hs.tree t ht
  have hperm := RadixTree.detach_treeBlocks hts.keys_nodup hl
  have hnd : n.blocks.Nodup := (List.nodup_append'.mp (hperm.nodup_iff.mp hts.blocks_nodup)).1
  have hone : ∀ b ∈ n.blocks, kv.allocator.ref b = 1 := fun b hb => hs.unlocked_ref ht hlab h0 hb
  have hcount (b : Int) : n.blocks.count b = if b ∈ n.blocks then 1 else 0 := by rw [List.Nodup.count hnd]
  have hmem : ∀ b ∈ n.blocks, b ∈ kv.cachedBlocks := fun b hb => by
    rw [cachedBlocks_some ht]; exact List.mem_flatMap.mpr ⟨n, hlab, hb⟩
  have hfree : ∀ b ∈ n.blocks, kv.allocator.InRange b ∧ n.blocks.count b ≤ kv.allocator.ref b := fun b hb =>
    ⟨hs.range b (hmem b hb), by rw [hone b hb, hcount, if_pos hb]⟩
  have hsub : ∀ b ∈ treeBlocks (t.detach n).forest, b ∈ kv.cachedBlocks := fun b hb => by
    rw [cachedBlocks_some ht]; exact hperm.mem_iff.mpr (List.mem_append_right _ hb)
  have hf : Frame kv ⟨n.blocks.foldl BlockAllocator.dropRef kv.allocator, some (t.detach n)⟩ store live := by
    refine ⟨by simp, by simp [blockSize], by simp [ht], fun q hq _ => ?_, fun q hq => ?_, fun q hq => ?_⟩
    · obtain ⟨u, hu, hh, -⟩ := hs.live_node ht hq
      exact ⟨u, hu, RadixTree.detach_holds hts.keys_nodup hl (hs.not_leaf ht hn hq hu) hh⟩
    · obtain ⟨u, hu, hh, -⟩ := hs.live_node ht hq
      rw [hu, nodeTokens_some ht]
      exact RadixTree.detach_pathTokens hts.keys_nodup hl (hs.not_leaf ht hn hq hu)
    · obtain ⟨u, hu, hh, -⟩ := hs.live_node ht hq
      rw [hu, nodeBlocks_some ht]
      exact RadixTree.detach_pathBlocks hts.keys_nodup hl (hs.not_leaf ht hn hq hu)
  refine ⟨BlockAllocator.freeBlocks_ok hfree, ?_, hf, BlockAllocator.foldl_dropRef_numFree _ _ hone hnd⟩
  constructor
  · exact hs.nodup
  · exact hs.idle
  · exact BlockAllocator.foldl_dropRef_sound _ _ hs.allocator hfree
  · intro b
    change (n.blocks.foldl BlockAllocator.dropRef kv.allocator).ref b = _ + (treeBlocks (t.detach n).forest).count b
    rw [BlockAllocator.foldl_dropRef_ref, hs.ref, cachedBlocks_some ht, hperm.count_eq, List.count_append]
    omega
  · intro b hb
    have := hs.range b (hsub b hb)
    simpa [BlockAllocator.InRange] using this
  · intro q hq
    have hq' := hs.held q hq
    refine hq'.transfer hf hq rfl fun i b hb hc => ?_
    rw [hf.nodeBlocks q hq]
    exact hq'.own i b hb (hsub b hc)
  · intro q hq i b hb hi
    rw [hf.nodeBlocks q hq] at hi
    exact hs.apart q hq i b hb hi
  · intro t' ht'
    obtain rfl : t.detach n = t' := by simpa using ht'
    rw [hf.blockSize]
    exact hts.detach hl h0
  · intro t' ht' m hm
    obtain rfl : t.detach n = t' := by simpa using ht'
    refine hs.uniform t ht m ?_
    exact (perm_remove hts.keys_nodup hl).mem_iff.mpr (List.mem_cons_of_mem _ hm)

structure Evicted (kv kv' : KVCacheManager) (store : Store) (live : List Rid) : Prop where
  sound : kv'.Sound store live
  frame : Frame kv kv' store live
  cells : kv'.cachedCells ⊆ kv.cachedCells
  available : kv'.numAvailable = kv.numAvailable

theorem Sound.evict (hs : kv.Sound store live) (ht : kv.tree = some t) (n : Int) :
    ∃ k a t', t.evict kv.allocator n = (.ok k, a, t') ∧ Evicted kv ⟨a, some t'⟩ store live ∧
      (a.numFree : Int) = kv.allocator.numFree + k ∧ (n ≤ k ∨ t'.numEvictable = 0) := by
  obtain ⟨k, a, t', he, ⟨hev, hk⟩, hend⟩ := RadixTree.evict_rule (N := n) (a := kv.allocator) (t := t)
    (P := fun k a t => Evicted kv ⟨a, some t⟩ store live ∧ (a.numFree : Int) = kv.allocator.numFree + k)
    (fun h => (h.1.sound.tree _ rfl).keys_nodup)
    (by
      rintro k a t' node ⟨hev, hk⟩ hnode - -
      obtain ⟨hfree, hsound, hf, hnum⟩ := hev.sound.detach rfl hnode
      simp only at hfree hsound hf hnum
      refine ⟨_, hfree, ⟨hsound, hev.frame.trans hf, ?_, ?_⟩, ?_⟩
      · refine List.Subset.trans ?_ hev.cells
        simp only [cachedCells, hf.blockSize]
        exact cells_remove _ _ (leaf_unique (hev.sound.tree t' rfl).keys_nodup
          (RadixTree.mem_unlockedLeaves.mp hnode).1)
      · rw [← hev.available]
        simp only [numAvailable, numEvictable, hnum, RadixTree.detach]
        push_cast
        ring
      · rw [hnum]; push_cast; omega)
    ⟨⟨by cases kv; simp_all, by cases kv; simp_all; exact Frame.refl _ _ _,
      by simp [cachedCells, ht]; exact fun _ h => h,
      by simp [numAvailable, numEvictable, ht]⟩, by simp⟩
  refine ⟨k, a, t', he, hev, hk, hend.imp_right fun hnil => ?_⟩
  have hts := hev.sound.tree t' rfl
  by_contra hne
  have hnn : 0 ≤ t'.numEvictable := by rw [hts.evictable]; omega
  exact RadixTree.exists_unlockedLeaf hts (by omega) hnil

theorem Sound.reserve (hs : kv.Sound store live) (n : Int) :
    ∃ kv', Evicted kv kv' store live ∧
      (n ≤ kv.numAvailable → kv.reserve n = (.ok (), kv') ∧ n ≤ kv'.allocator.numFree) ∧
      (kv.numAvailable < n → kv.reserve n = (.error (.needFreeBlocks n kv'.allocator.numFree), kv')) := by
  have hself : Evicted kv kv store live := ⟨hs, Frame.refl kv store live, fun _ h => h, rfl⟩
  cases ht : kv.tree with
  | none =>
    have hav : kv.numAvailable = kv.allocator.numFree := by simp [numAvailable, numEvictable, ht]
    refine ⟨kv, hself, fun h => ?_, fun h => ?_⟩
    · have : ¬ n > kv.allocator.numFree := by omega
      exact ⟨by simp [KVCacheManager.reserve, evictShort, ht, this], by omega⟩
    · have : n > kv.allocator.numFree := by omega
      simp [KVCacheManager.reserve, evictShort, ht, this]
  | some t =>
    by_cases hshort : 0 < n - kv.allocator.numFree
    · obtain ⟨k, a, t', he, hev, hk, hend⟩ := hs.evict ht (n - kv.allocator.numFree)
      have hshort' : evictShort kv (n - kv.allocator.numFree) = (.ok (), ⟨a, some t'⟩) := by
        simp only [evictShort, ht, if_pos hshort, he]
      have hav := hev.available
      have hav' : numAvailable ⟨a, some t'⟩ = a.numFree + t'.numEvictable := rfl
      have hnn : 0 ≤ t'.numEvictable := by rw [(hev.sound.tree t' rfl).evictable]; omega
      refine ⟨⟨a, some t'⟩, hev, fun h => ?_, fun h => ?_⟩
      · have hle : n ≤ a.numFree := by rcases hend with h1 | h1 <;> omega
        refine ⟨?_, hle⟩
        simp [KVCacheManager.reserve, hshort', not_lt.mpr hle]
      · have hgt : n > a.numFree := by omega
        simp [KVCacheManager.reserve, hshort', hgt]
    · have hnn : 0 ≤ t.numEvictable := by rw [(hs.tree t ht).evictable]; omega
      have hav : kv.numAvailable = kv.allocator.numFree + t.numEvictable := by
        simp [numAvailable, numEvictable, ht]
      have hle : n ≤ kv.allocator.numFree := by omega
      refine ⟨kv, hself, fun _ => ⟨?_, hle⟩, fun h => by omega⟩
      have hnot : ¬ n > kv.allocator.numFree := by omega
      simp only [KVCacheManager.reserve, evictShort, ht, if_neg hshort, if_neg hnot]

end KVCacheManager

end MiniServe
