import MiniServe.Cache.KVReserve

namespace MiniServe

open Forest Holders

namespace KVCacheManager

variable {kv kv' : KVCacheManager} {store : Store} {live : List Rid} {r : Rid} {t t' : RadixTree}

section Extend

structure Extended (kv kv' : KVCacheManager) (store : Store) (live : List Rid) (r : Rid) (tb tb' : BlockTable)
    (n : Nat) : Prop where
  sound : kv'.Sound (Function.update store r { store r with cache := some tb' }) live
  tree : kv'.tree = kv.tree
  numBlocks : kv'.allocator.numBlocks = kv.allocator.numBlocks
  blockSize : kv'.blockSize = kv.blockSize
  numTokens : tb'.numTokens = tb.numTokens + n
  blocks : tb.blocks <+: tb'.blocks
  fresh : ∀ b ∈ tb'.blocks, b ∈ tb.blocks ∨ kv.allocator.ref b = 0
  length : (tb'.blocks.length : Int) = tb.blocks.length + tb.need kv.blockSize n
  free : (kv'.allocator.numFree : Int) = kv.allocator.numFree - tb.need kv.blockSize n

theorem Extended.frame {tb tb' : BlockTable} {n : Nat} (h : Extended kv kv' store live r tb tb' n) :
    Frame kv kv' store live := by
  refine ⟨h.numBlocks, h.blockSize, by rw [h.tree], fun q _ hn => ?_, fun q _ => ?_, fun q _ => ?_⟩
  · simpa [HoldsNode, h.tree] using hn
  · simp [nodeTokens, h.tree]
  · simp [nodeBlocks, h.tree]

theorem Sound.unheld {b : Int} (hs : kv.Sound store live) (h : kv.allocator.ref b = 0) :
    (∀ p ∈ live, b ∉ (store p).tableBlocks) ∧ b ∉ kv.cachedBlocks := by
  rw [hs.ref] at h
  refine ⟨fun p hp => ?_, List.count_eq_zero.mp (by omega)⟩
  simpa using holders_eq_zero.mp (show tableHolders store live b = 0 by omega) p hp

variable {q : Request} {new : List Int} {b : Int}

theorem mem_lengthened (hq : q.tableBlocks = (store r).tableBlocks ++ new) (p : Rid) :
    b ∈ (Function.update store r q p).tableBlocks ↔ b ∈ (store p).tableBlocks ∨ p = r ∧ b ∈ new := by
  by_cases e : p = r
  · subst e; simp [hq]
  · simp [e]

theorem getElem?_lengthened {p : Rid} {i : Nat} (hq : q.tableBlocks = (store r).tableBlocks ++ new)
    (h : (Function.update store r q p).tableBlocks[i]? = some b) :
    (store p).tableBlocks[i]? = some b ∨ p = r ∧ b ∈ new := by
  by_cases e : p = r
  · subst e
    rw [Function.update_self, hq] at h
    by_cases hi : i < (store p).tableBlocks.length
    · exact .inl (by rwa [List.getElem?_append_left hi] at h)
    · rw [List.getElem?_append_right (by omega)] at h
      exact .inr ⟨rfl, List.mem_of_getElem? h⟩
  · exact .inl (by rwa [Function.update_of_ne e] at h)

theorem cacheNode_lengthened (hnode : q.cacheNode = (store r).cacheNode) (p : Rid) :
    (Function.update store r q p).cacheNode = (store p).cacheNode := by
  by_cases e : p = r
  · subst e; simpa using hnode
  · rw [Function.update_of_ne e]

theorem Sound.lengthened_ref (hs : kv.Sound store live) (hr : r ∈ live)
    (hq : q.tableBlocks = (store r).tableBlocks ++ new) (hnew : ∀ b ∈ new, kv.allocator.ref b = 0) (b : Int) :
    (if b ∈ new then 1 else kv.allocator.ref b) =
      tableHolders (Function.update store r q) live b + kv.cachedBlocks.count b := by
  have hupd := holders_update (f := store) (x := q) (p := fun r => b ∈ r.tableBlocks) hs.nodup hr
  simp only [decide_eq_true_eq, hq, List.mem_append] at hupd
  have href := hs.ref b
  unfold tableHolders at href ⊢
  by_cases hb : b ∈ new
  · have hown := (hs.unheld (hnew b hb)).1 r hr
    rw [hnew b hb] at href
    simp only [hb, hown, or_true, if_true, if_false] at hupd ⊢
    omega
  · simp only [hb, or_false, if_false] at hupd ⊢
    omega

theorem Sound.lengthened_apart (hs : kv.Sound store live) (hq : q.tableBlocks = (store r).tableBlocks ++ new)
    (hnode : q.cacheNode = (store r).cacheNode) (hnew : ∀ b ∈ new, kv.allocator.ref b = 0) :
    ∀ p ∈ live, ∀ (i : Nat) b, (Function.update store r q p).tableBlocks[i]? = some b →
      (kv.nodeBlocks (Function.update store r q p).cacheNode).length ≤ i →
      ∀ o ∈ live, o ≠ p → b ∉ (Function.update store r q o).tableBlocks := by
  intro p hp i b hb hi o ho hop
  rw [cacheNode_lengthened hnode] at hi
  rw [mem_lengthened hq, not_or]
  rcases getElem?_lengthened hq hb with hold | ⟨rfl, hm⟩
  · refine ⟨hs.apart p hp i b hold hi o ho hop, fun ⟨_, hm⟩ => ?_⟩
    exact (hs.unheld (hnew b hm)).1 p hp (List.mem_of_getElem? hold)
  · exact ⟨(hs.unheld (hnew b hm)).1 o ho, fun h => hop h.1⟩

theorem Sound.lengthened_uniform (hs : kv.Sound store live) (ht : kv.tree = some t)
    (hq : q.tableBlocks = (store r).tableBlocks ++ new) (hnew : ∀ b ∈ new, kv.allocator.ref b = 0) :
    ∀ n ∈ t.forest.labels, ∀ p ∈ live, ∀ b ∈ n.blocks, b ∈ (Function.update store r q p).tableBlocks →
      n.blocks ⊆ (Function.update store r q p).tableBlocks := by
  intro n hn p hp b hb hm c hc
  rcases (mem_lengthened hq p).mp hm with hm | ⟨-, hm⟩
  · exact (mem_lengthened hq p).mpr (.inl (hs.uniform t ht n hn p hp b hb hm hc))
  · have hcached : b ∈ kv.cachedBlocks := by
      rw [cachedBlocks_some ht]
      exact List.mem_flatMap.mpr ⟨n, hn, hb⟩
    exact absurd hcached (hs.unheld (hnew b hm)).2

theorem Sound.lengthened {a : BlockAllocator} (hs : kv.Sound store live) (hr : r ∈ live)
    (hq : q.tableBlocks = (store r).tableBlocks ++ new) (hnode : q.cacheNode = (store r).cacheNode)
    (hnew : ∀ b ∈ new, kv.allocator.InRange b ∧ kv.allocator.ref b = 0) (hnd : new.Nodup)
    (ha : a.Sound) (hn : a.numBlocks = kv.allocator.numBlocks) (hbs : a.blockSize = kv.allocator.blockSize)
    (href : ∀ b, a.ref b = if b ∈ new then 1 else kv.allocator.ref b)
    (hcache : q.cache ≠ none) (htok : q.tokens = (store r).tokens) (hmore : (store r).covered ≤ q.covered)
    (hcap : q.covered ≤ q.tableBlocks.length * kv.blockSize) (hcov : kv.tree.isSome → q.covered ≤ q.seqLen) :
    KVCacheManager.Sound { kv with allocator := a } (Function.update store r q) live := by
  have hf : Frame kv { kv with allocator := a } store live :=
    ⟨hn, hbs, rfl, fun _ _ h => h, fun _ _ => rfl, fun _ _ => rfl⟩
  have hrange (b : Int) : a.InRange b ↔ kv.allocator.InRange b := by simp [BlockAllocator.InRange, hn]
  have hsize : KVCacheManager.blockSize { kv with allocator := a } = kv.blockSize := hbs
  have hfree : ∀ b ∈ new, kv.allocator.ref b = 0 := fun b hb => (hnew b hb).2
  refine ⟨hs.nodup, fun p hp => ?_, ha, fun b => (href b).trans (hs.lengthened_ref hr hq hfree b),
    fun b hb => (hrange b).mpr (hs.range b hb), fun p hp => ?_, hs.lengthened_apart hq hnode hfree, fun t ht => ?_,
    fun t ht => hs.lengthened_uniform ht hq hfree⟩
  · rw [Function.update_of_ne (show p ≠ r from fun e => hp (e ▸ hr))]
    exact hs.idle p hp
  · have hheld := hs.held p hp
    by_cases e : p = r
    · subst e
      rw [Function.update_self]
      refine ⟨hcache, ?_, fun b hb => (hrange b).mpr ?_, hsize ▸ hcap, hcov, hnode ▸ hheld.node,
        hnode ▸ htok ▸ hheld.tokens, hnode ▸ hheld.path_le.trans hmore, fun i b hb hc => ?_⟩
      · rw [hq, List.nodup_append']
        exact ⟨hheld.nodup, hnd, fun b h1 h2 => (hs.unheld (hfree b h2)).1 p hp h1⟩
      · rcases List.mem_append.mp (hq ▸ hb) with hb | hb
        · exact hheld.range b hb
        · exact (hnew b hb).1
      · rw [hnode]
        rcases getElem?_lengthened (p := p) hq (by rwa [Function.update_self]) with hb | ⟨-, hb⟩
        · exact hheld.own i b hb hc
        · exact absurd hc (hs.unheld (hfree b hb)).2
    · rw [Function.update_of_ne e]
      exact hheld.transfer hf hp rfl hheld.own
  · change t.Sound a.blockSize _
    rw [hbs]
    exact (hs.tree t ht).congr fun u _ => holders_congr fun p _ => by rw [cacheNode_lengthened hnode]

theorem Sound.extend {tb : BlockTable} {n : Nat} (hs : kv.Sound store live) (hr : r ∈ live)
    (hc : (store r).cache = some tb) (hn : kv.tree.isSome → tb.numTokens + n ≤ (store r).seqLen)
    (hneed : tb.need kv.blockSize n ≤ kv.allocator.numFree) :
    ∃ new tb' a', tb.appendTokens kv.allocator n = (.ok new, tb', a') ∧
      Extended kv { kv with allocator := a' } store live r tb tb' n := by
  have htb : (store r).tableBlocks = tb.blocks := by simp [Request.tableBlocks, hc]
  have hcov : (store r).covered = tb.numTokens := by simp [Request.covered, hc]
  have hnn := BlockTable.need_nonneg (t := tb) kv.blockSize n
  refine ⟨_, _, _, BlockTable.appendTokens_ok hneed, ?_⟩
  simp only [show tb.need kv.allocator.blockSize n = tb.need kv.blockSize n from rfl]
  set k := (tb.need kv.blockSize n).toNat with hk
  have hkn : (k : Int) = tb.need kv.blockSize n := Int.toNat_of_nonneg hnn
  have hkf : k ≤ kv.allocator.free.length := by
    have : (kv.allocator.numFree : Int) = kv.allocator.free.length := rfl
    omega
  have hfree : ∀ b ∈ kv.allocator.free.take k, kv.allocator.InRange b ∧ kv.allocator.ref b = 0 := fun b hb =>
    (hs.allocator.mem_free b).mp (List.mem_of_mem_take hb)
  have hcapacity : tb.numTokens + n ≤ (tb.blocks ++ kv.allocator.free.take k).length * kv.blockSize := by
    have h := (@BlockTable.need_le tb kv.blockSize n (tb.need kv.blockSize n) blockSize_pos hnn).mp le_rfl
    rw [List.length_append, List.length_take_of_le hkf]
    zify
    rw [hkn]
    linarith
  refine ⟨?_, rfl, rfl, rfl, rfl, List.prefix_append _ _, fun b hb => ?_, ?_, ?_⟩
  · exact hs.lengthened hr (by rw [htb]; rfl) rfl hfree (hs.allocator.nodup.sublist (List.take_sublist _ _))
      (BlockAllocator.allocate_sound hs.allocator) rfl rfl (fun _ => rfl) (by simp) rfl
      (hcov ▸ Nat.le_add_right _ _) hcapacity hn
  · exact (List.mem_append.mp hb).imp_right fun hb => (hfree b hb).2
  · simp only [List.length_append, List.length_take_of_le hkf]
    push_cast
    rw [hkn]
  · simp only [BlockAllocator.numFree, List.length_drop]
    omega

end Extend

section Law

def heldBlocks (kv : KVCacheManager) (store : Store) (live : List Rid) : Finset Int :=
  live.toFinset.biUnion fun r => ((store r).tableBlocks ++ kv.nodeBlocks (store r).cacheNode).toFinset

theorem mem_heldBlocks {b : Int} : b ∈ kv.heldBlocks store live ↔
    ∃ r ∈ live, b ∈ (store r).tableBlocks ∨ b ∈ kv.nodeBlocks (store r).cacheNode := by
  simp [heldBlocks]

def evictableBlocks (kv : KVCacheManager) : List Int :=
  match kv.tree with
  | none => []
  | some t => (t.forest.labels.filter (fun n => n.lock = 0)).flatMap RadixNode.blocks

theorem Sound.length_evictableBlocks (hs : kv.Sound store live) :
    (kv.evictableBlocks.length : Int) = kv.numEvictable := by
  cases ht : kv.tree with
  | none => simp [evictableBlocks, numEvictable, ht]
  | some t =>
    simp only [evictableBlocks, numEvictable, ht, (hs.tree t ht).evictable, weight, List.length_flatMap]
    congr 1
    induction t.forest.labels with
    | nil => rfl
    | cons n l ih =>
      by_cases h0 : n.lock = 0 <;> simp [evictableLen, h0, ih]

theorem Sound.evictableBlocks_nodup (hs : kv.Sound store live) : kv.evictableBlocks.Nodup := by
  cases ht : kv.tree with
  | none => simp [evictableBlocks, ht]
  | some t =>
    simp only [evictableBlocks, ht]
    exact (hs.tree t ht).blocks_nodup.sublist (List.Sublist.flatMap List.filter_sublist _)

theorem Sound.mem_evictableBlocks (hs : kv.Sound store live) {b : Int} :
    b ∈ kv.evictableBlocks ↔ b ∈ kv.cachedBlocks ∧ b ∉ kv.heldBlocks store live := by
  cases ht : kv.tree with
  | none => simp [evictableBlocks, cachedBlocks, ht]
  | some t =>
    have hts := hs.tree t ht
    simp only [evictableBlocks, cachedBlocks, ht, mem_heldBlocks, treeBlocks, List.mem_flatMap, List.mem_filter,
      decide_eq_true_eq]
    constructor
    · rintro ⟨n, ⟨hn, h0⟩, hb⟩
      refine ⟨⟨n, hn, hb⟩, ?_⟩
      rintro ⟨q, hq, hm | hm⟩
      · have := hs.lock_pos_of_table ht hq hn hb hm; omega
      · obtain ⟨u, hu, -, hpos⟩ := hs.live_node ht hq
        rw [hu, nodeBlocks_some ht] at hm
        have := carries_path hts.carries n (hs.block_on_path ht hn hb hm)
        omega
    · rintro ⟨⟨n, hn, hb⟩, hnot⟩
      refine ⟨n, ⟨hn, ?_⟩, hb⟩
      by_contra h0
      obtain ⟨u, hpos, hpath⟩ := exists_path_of_pos hts.keys_nodup hts.carries hn (Nat.pos_of_ne_zero h0)
      obtain ⟨q, hq, hqu⟩ := List.countP_pos_iff.mp hpos
      refine hnot ⟨q, hq, .inr ?_⟩
      rw [decide_eq_true_eq.mp hqu, nodeBlocks_some ht]
      exact List.mem_flatMap.mpr ⟨n, hpath, hb⟩

theorem Sound.numAvailable (hs : kv.Sound store live) :
    kv.numAvailable = kv.allocator.numBlocks - (kv.heldBlocks store live).card := by
  set ids : Finset Int := Finset.Ico 0 (kv.allocator.numBlocks : Int) with hids
  have hrange (b : Int) : b ∈ ids ↔ kv.allocator.InRange b := by simp [hids, BlockAllocator.InRange]
  have hheld : ∀ b ∈ kv.heldBlocks store live, kv.allocator.InRange b ∧ 0 < kv.allocator.ref b := by
    intro b hb
    obtain ⟨q, hq, hm | hm⟩ := mem_heldBlocks.mp hb
    · exact ⟨(hs.held q hq).range b hm, hs.ref_pos hq hm⟩
    · exact ⟨hs.range b (nodeBlocks_subset _ hm), hs.ref_pos_cached (nodeBlocks_subset _ hm)⟩
  have hd1 : Disjoint kv.allocator.free.toFinset kv.evictableBlocks.toFinset := by
    rw [Finset.disjoint_left]
    intro b h1 h2
    rw [List.mem_toFinset] at h1 h2
    have := hs.ref_pos_cached (hs.mem_evictableBlocks.mp h2).1
    have := ((hs.allocator.mem_free b).mp h1).2
    omega
  have hd2 : Disjoint (kv.allocator.free.toFinset ∪ kv.evictableBlocks.toFinset) (kv.heldBlocks store live) := by
    rw [Finset.disjoint_left]
    intro b h1 h2
    rcases Finset.mem_union.mp h1 with h1 | h1
    · have := ((hs.allocator.mem_free b).mp (List.mem_toFinset.mp h1)).2
      have := (hheld b h2).2
      omega
    · exact (hs.mem_evictableBlocks.mp (List.mem_toFinset.mp h1)).2 h2
  have hunion : ids = (kv.allocator.free.toFinset ∪ kv.evictableBlocks.toFinset) ∪ kv.heldBlocks store live := by
    ext b
    simp only [hrange, Finset.mem_union, List.mem_toFinset]
    constructor
    · intro hb
      by_cases h0 : kv.allocator.ref b = 0
      · exact .inl (.inl ((hs.allocator.mem_free b).mpr ⟨hb, h0⟩))
      · by_cases hh : b ∈ kv.heldBlocks store live
        · exact .inr hh
        · refine .inl (.inr (hs.mem_evictableBlocks.mpr ⟨?_, hh⟩))
          have hz : tableHolders store live b = 0 := by
            rw [tableHolders, holders_eq_zero]
            intro q hq
            simp only [decide_eq_false_iff_not]
            exact fun hm => hh (mem_heldBlocks.mpr ⟨q, hq, .inl hm⟩)
          rw [hs.ref, hz] at h0
          exact List.count_pos_iff.mp (by omega)
    · rintro ((hb | hb) | hb)
      · exact ((hs.allocator.mem_free b).mp hb).1
      · exact hs.range b (hs.mem_evictableBlocks.mp hb).1
      · exact (hheld b hb).1
  have hcard : ids.card = kv.allocator.numBlocks := by simp [hids]
  rw [hunion, Finset.card_union_of_disjoint hd2, Finset.card_union_of_disjoint hd1,
    List.toFinset_card_of_nodup hs.allocator.nodup, List.toFinset_card_of_nodup hs.evictableBlocks_nodup] at hcard
  have hev := hs.length_evictableBlocks
  have : kv.allocator.numFree = kv.allocator.free.length := rfl
  simp only [KVCacheManager.numAvailable]
  omega

end Law

section Idle

theorem Sound.idle_unlocked (hs : kv.Sound store []) (ht : kv.tree = some t) : ∀ n ∈ t.forest.labels, n.lock = 0 := by
  intro n hn
  rw [labels_eq_nodes] at hn
  obtain ⟨x, hx, rfl⟩ := List.mem_map.mp hn
  have hw := (carries_nodes (hs.tree t ht).carries x hx).1
  have hz : nodeHolders store [] = fun _ => 0 := rfl
  rw [hw, hz]
  simp [weight, Function.comp_def]

theorem Sound.idle_evictable (hs : kv.Sound store []) : kv.numEvictable = kv.numCached := by
  cases ht : kv.tree with
  | none => simp [numEvictable, numCached, ht]
  | some t =>
    simp only [numEvictable, numCached, ht, (hs.tree t ht).evictable, (hs.tree t ht).cached]
    congr 1
    refine weight_congr _ fun n hn => ?_
    simp [evictableLen, hs.idle_unlocked ht n hn]

theorem Sound.idle_available (hs : kv.Sound store []) : kv.numAvailable = kv.allocator.numBlocks := by
  rw [hs.numAvailable]
  simp [heldBlocks]

theorem Sound.numIdleBlocks (hs : kv.Sound store []) : kv.numIdleBlocks = kv.allocator.numBlocks := by
  rw [← hs.idle_available, KVCacheManager.numIdleBlocks, KVCacheManager.numAvailable, hs.idle_evictable]

theorem Sound.ref_of_all_free (hs : kv.Sound store []) (hf : (kv.allocator.numFree : Int) = kv.allocator.numBlocks)
    (b : Int) : kv.allocator.ref b = 0 := by
  by_cases hb : kv.allocator.InRange b
  · have hall : kv.allocator.free.toFinset = (Finset.Ico (0 : Int) kv.allocator.numBlocks) := by
      refine Finset.eq_of_subset_of_card_le (fun x hx => ?_) ?_
      · rw [List.mem_toFinset, hs.allocator.mem_free] at hx
        exact Finset.mem_Ico.mpr hx.1
      · rw [List.toFinset_card_of_nodup hs.allocator.nodup, Int.card_Ico]
        have : kv.allocator.free.length = kv.allocator.numFree := rfl
        omega
    have hmem : b ∈ kv.allocator.free := by
      rw [← List.mem_toFinset, hall]
      exact Finset.mem_Ico.mpr hb
    exact ((hs.allocator.mem_free b).mp hmem).2
  · rw [hs.ref]
    have hnot : b ∉ kv.cachedBlocks := fun h => hb (hs.range b h)
    simp [tableHolders, holders, List.count_eq_zero_of_not_mem hnot]

theorem Sound.cleared (hs : kv.Sound store []) :
    ∃ kv', kv.clear = .ok kv' ∧ kv'.Sound store [] ∧ kv'.allocator.numFree = kv.allocator.numBlocks ∧
      ∀ b, kv'.allocator.ref b = 0 := by
  cases ht : kv.tree with
  | none =>
    have hf : (kv.allocator.numFree : Int) = kv.allocator.numBlocks := by
      have := hs.idle_available
      simpa [KVCacheManager.numAvailable, numEvictable, ht] using this
    exact ⟨kv, by simp [KVCacheManager.clear, ht], hs, by omega, hs.ref_of_all_free hf⟩
  | some t =>
    have heq : t.numEvictable = t.numCachedBlocks := by
      have := hs.idle_evictable
      simpa [numEvictable, numCached, ht] using this
    obtain ⟨k, a, t', hev, hE, hfree, hor⟩ := hs.evict ht t.numCachedBlocks
    have hav : (kv.allocator.numFree : Int) + t.numEvictable = kv.allocator.numBlocks := by
      have := hs.idle_available
      simpa [KVCacheManager.numAvailable, numEvictable, ht] using this
    have hav' : (a.numFree : Int) + t'.numEvictable = a.numBlocks := by
      have := hE.sound.idle_available
      simpa [KVCacheManager.numAvailable, numEvictable] using this
    have hnb : a.numBlocks = kv.allocator.numBlocks := hE.frame.numBlocks
    have hpos : 0 ≤ t'.numEvictable := by
      rw [(hE.sound.tree t' rfl).evictable]
      exact Int.natCast_nonneg _
    have hall : (a.numFree : Int) = a.numBlocks := by
      rcases hor with h | h <;> omega
    have hfree' : a.numFree = kv.allocator.numBlocks := by omega
    refine ⟨⟨a, some t'⟩, ?_, hE.sound, hfree', hE.sound.ref_of_all_free hall⟩
    simp [KVCacheManager.clear, ht, RadixTree.clear, heq, hev]

theorem Sound.clear (hs : kv.Sound store []) :
    ∃ kv', kv.clear = .ok kv' ∧ kv'.allocator.numFree = kv.allocator.numBlocks ∧ ∀ b, kv'.allocator.ref b = 0 := by
  obtain ⟨kv', he, -, hfree, href⟩ := hs.cleared
  exact ⟨kv', he, hfree, href⟩

end Idle

end KVCacheManager

end MiniServe
