import MiniServe.Cache.KVSound

namespace MiniServe

open Forest Holders

namespace KVCacheManager

variable {kv kv' : KVCacheManager} {store : Store} {live : List Rid} {r : Rid} {t t' : RadixTree}

structure Frame (kv kv' : KVCacheManager) (store : Store) (live : List Rid) : Prop where
  numBlocks : kv'.allocator.numBlocks = kv.allocator.numBlocks
  blockSize : kv'.blockSize = kv.blockSize
  radix : kv'.tree.isSome = kv.tree.isSome
  nodes : ∀ q ∈ live, kv.HoldsNode (store q).cacheNode → kv'.HoldsNode (store q).cacheNode
  nodeTokens : ∀ q ∈ live, kv'.nodeTokens (store q).cacheNode = kv.nodeTokens (store q).cacheNode
  nodeBlocks : ∀ q ∈ live, kv'.nodeBlocks (store q).cacheNode = kv.nodeBlocks (store q).cacheNode

theorem Frame.refl (kv : KVCacheManager) (store : Store) (live : List Rid) : Frame kv kv store live :=
  ⟨rfl, rfl, rfl, fun _ _ h => h, fun _ _ => rfl, fun _ _ => rfl⟩

theorem Frame.trans {kv'' : KVCacheManager} (h1 : Frame kv kv' store live) (h2 : Frame kv' kv'' store live) :
    Frame kv kv'' store live :=
  ⟨h2.numBlocks.trans h1.numBlocks, h2.blockSize.trans h1.blockSize, h2.radix.trans h1.radix,
    fun q hq h => h2.nodes q hq (h1.nodes q hq h), fun q hq => (h2.nodeTokens q hq).trans (h1.nodeTokens q hq),
    fun q hq => (h2.nodeBlocks q hq).trans (h1.nodeBlocks q hq)⟩

theorem Frame.mono {live' : List Rid} (h : Frame kv kv' store live) (hl : ∀ q ∈ live', q ∈ live) :
    Frame kv kv' store live' :=
  ⟨h.numBlocks, h.blockSize, h.radix, fun q hq => h.nodes q (hl q hq), fun q hq => h.nodeTokens q (hl q hq),
    fun q hq => h.nodeBlocks q (hl q hq)⟩

theorem Frame.congr {store' : Store} (h : Frame kv kv' store live)
    (he : ∀ q ∈ live, (store q).cacheNode = (store' q).cacheNode) : Frame kv kv' store' live :=
  ⟨h.numBlocks, h.blockSize, h.radix, fun q hq => he q hq ▸ h.nodes q hq, fun q hq => he q hq ▸ h.nodeTokens q hq,
    fun q hq => he q hq ▸ h.nodeBlocks q hq⟩

theorem Frame.of_sameShape (ht : kv.tree = some t) (ht' : kv'.tree = some t')
    (hn : kv'.allocator.numBlocks = kv.allocator.numBlocks) (hb : kv'.blockSize = kv.blockSize)
    (hsh : RadixTree.SameShape t t' kv.blockSize) : Frame kv kv' store live := by
  refine ⟨hn, hb, by simp [ht, ht'], fun q _ h => ?_, fun q _ => ?_, fun q _ => ?_⟩
  · obtain ⟨u, hu, hh⟩ := (holdsNode_some ht).mp h
    exact (holdsNode_some ht').mpr ⟨u, hu, hsh.holds.mpr hh⟩
  · cases (store q).cacheNode with
    | none => simp [KVCacheManager.nodeTokens, ht, ht']
    | some u => rw [nodeTokens_some ht, nodeTokens_some ht', hsh.tokens]
  · cases (store q).cacheNode with
    | none => simp [KVCacheManager.nodeBlocks, ht, ht']
    | some u => rw [nodeBlocks_some ht, nodeBlocks_some ht', hsh.blocks]

theorem Frame.of_no_tree (ht : kv.tree = none) (ht' : kv'.tree = none)
    (hn : kv'.allocator.numBlocks = kv.allocator.numBlocks) (hb : kv'.blockSize = kv.blockSize) :
    Frame kv kv' store live := by
  refine ⟨hn, hb, by simp [ht, ht'], fun q _ h => ?_, fun q _ => ?_, fun q _ => ?_⟩
  · simpa [HoldsNode, ht, ht'] using h
  · simp [KVCacheManager.nodeTokens, ht, ht']
  · simp [KVCacheManager.nodeBlocks, ht, ht']

theorem Held.transfer {q : Request} (h : kv.Held q) (hf : Frame kv kv' store live) {p : Rid} (hp : p ∈ live)
    (hq : store p = q) (hown : ∀ (i : Nat) b, q.tableBlocks[i]? = some b → b ∈ kv'.cachedBlocks →
      (kv'.nodeBlocks q.cacheNode)[i]? = some b) : kv'.Held q := by
  have htok := hf.nodeTokens p hp
  have hnode := hf.nodes p hp
  rw [hq] at htok hnode
  refine ⟨h.cache, h.nodup, fun b hb => ?_, hf.blockSize ▸ h.capacity, fun hr => h.covered (hf.radix ▸ hr), hnode h.node,
    htok ▸ h.tokens, htok ▸ h.path_le, hown⟩
  have := h.range b hb
  simpa [BlockAllocator.InRange, hf.numBlocks] using this

-- Of a request the cache reads the table, the node and the tokens. A rewriting of requests that keeps
-- the tables' blocks, the nodes and the tokens under the nodes keeps the cache sound.
theorem Sound.rewrite {store' : Store} (hs : kv.Sound store live)
    (hb : ∀ q, (store' q).tableBlocks = (store q).tableBlocks)
    (hc : ∀ q, (store' q).cache = none ↔ (store q).cache = none)
    (hn : ∀ q, (store' q).cacheNode = (store q).cacheNode)
    (hv : ∀ q ∈ live, (store' q).covered ≤ (store q).tableBlocks.length * kv.blockSize ∧
      (kv.tree.isSome → (store' q).covered ≤ (store' q).seqLen) ∧
      kv.nodeTokens (store q).cacheNode <+: (store' q).tokens ∧
      (kv.nodeTokens (store q).cacheNode).length ≤ (store' q).covered) : kv.Sound store' live := by
  refine ⟨hs.nodup, fun q hq => ?_, hs.allocator, fun b => ?_, hs.range, fun q hq => ?_, ?_, ?_, ?_⟩
  · rw [hc, hn]; exact hs.idle q hq
  · rw [hs.ref]; congr 1; exact (holders_congr fun q _ => by simp [hb]).symm
  · obtain ⟨h1, h2, h3, h4⟩ := hv q hq
    have h := hs.held q hq
    exact ⟨fun hnone => h.cache ((hc q).mp hnone), hb q ▸ h.nodup, hb q ▸ h.range, by rw [hb]; exact h1, h2,
      hn q ▸ h.node, hn q ▸ h3, hn q ▸ h4, by rw [hn, hb]; exact h.own⟩
  · intro q hq i b; rw [hb, hn]
    intro h1 h2 p hp hne; rw [hb]; exact hs.apart q hq i b h1 h2 p hp hne
  · exact fun t ht' => (hs.tree t ht').congr fun u _ => holders_congr fun q _ => by simp [hn]
  · intro t ht' n hn' q hq b; rw [hb]; exact hs.uniform t ht' n hn' q hq b

theorem Sound.rewrite_tokens {store' : Store} (hs : kv.Sound store live)
    (hc : ∀ q, (store' q).cache = (store q).cache) (hn : ∀ q, (store' q).cacheNode = (store q).cacheNode)
    (ht : ∀ q ∈ live, (kv.tree.isSome → (store q).covered ≤ (store' q).seqLen) ∧
      kv.nodeTokens (store q).cacheNode <+: (store' q).tokens) : kv.Sound store' live := by
  have hv (q : Rid) : (store' q).covered = (store q).covered := by simp [Request.covered, hc]
  refine hs.rewrite (fun q => by simp [Request.tableBlocks, hc]) (fun q => by rw [hc]) hn fun q hq => ?_
  rw [hv]
  exact ⟨(hs.held q hq).capacity, (ht q hq).1, (ht q hq).2, (hs.held q hq).path_le⟩

section Acquire

structure Acquired (kv kv' : KVCacheManager) (store : Store) (live : List Rid) (r : Rid) (blocks : List Int)
    (node : Option Nat) : Prop where
  sound : kv'.Sound (Function.update store r { store r with
    cache := some ⟨blocks, blocks.length * kv.blockSize⟩
    cacheNode := node
    numCachedTokens := blocks.length * kv.blockSize }) (r :: live)
  frame : Frame kv kv' store live
  bound : blocks.length * kv.blockSize ≤ (store r).seqLen - 1
  cells : kv'.cachedCells = kv.cachedCells
  found : ∀ (i : Nat) b, blocks[i]? = some b →
    ((store r).tokens.take ((i + 1) * kv.blockSize), b) ∈ kv.cachedCells
  nodeBlocks : kv'.nodeBlocks node = blocks

theorem Sound.enter {blocks : List Int} {node : Option Nat} (hs : kv.Sound store live) (hr : r ∉ live)
    (ha : kv'.allocator = { kv.allocator with ref := fun b => kv.allocator.ref b + blocks.count b })
    (hf : Frame kv kv' store live) (hcb : kv'.cachedBlocks = kv.cachedBlocks) (hnd : blocks.Nodup)
    (hsub : blocks ⊆ kv.cachedBlocks) (hnode : kv'.HoldsNode node) (hnb : kv'.nodeBlocks node = blocks)
    (htok : kv'.nodeTokens node = (store r).tokens.take (blocks.length * kv.blockSize))
    (hle : blocks.length * kv.blockSize ≤ (store r).seqLen)
    (htree : ∀ t, kv'.tree = some t → ∀ h : Nat → Nat, (∀ u, h u = nodeHolders store live u +
      (if node = some u then 1 else 0)) → t.Sound kv.blockSize h)
    (huni : ∀ t, kv'.tree = some t → ∀ n ∈ t.forest.labels, (∀ b ∈ n.blocks, b ∈ blocks → n.blocks ⊆ blocks) ∧
      ∀ q ∈ live, ∀ b ∈ n.blocks, b ∈ (store q).tableBlocks → n.blocks ⊆ (store q).tableBlocks) :
    kv'.Sound (Function.update store r { store r with
      cache := some ⟨blocks, blocks.length * kv.blockSize⟩
      cacheNode := node
      numCachedTokens := blocks.length * kv.blockSize }) (r :: live) := by
  have hupd (x : Request) (q : Rid) (hq : q ∈ live) : Function.update store r x q = store q :=
    Function.update_of_ne (by rintro rfl; exact hr hq) _ _
  have hrange (b : Int) : kv'.allocator.InRange b ↔ kv.allocator.InRange b := by rw [ha]; rfl
  have hbs : kv'.blockSize = kv.blockSize := hf.blockSize
  constructor
  · exact List.nodup_cons.mpr ⟨hr, hs.nodup⟩
  · intro q hq
    simp only [List.mem_cons, not_or] at hq
    rw [Function.update_of_ne hq.1]; exact hs.idle q hq.2
  · rw [ha]
    exact BlockAllocator.incref_sound hs.allocator fun b hb => hs.ref_pos_cached (hsub hb)
  · intro b
    have hc : blocks.count b = if b ∈ blocks then 1 else 0 := by rw [List.Nodup.count hnd]
    rw [tableHolders, holders_cons, holders_update_of_notMem hr, hcb, ha]
    simp only [hs.ref, tableHolders, Function.update_self, Request.tableBlocks, decide_eq_true_eq, hc]
    omega
  · intro b hb; rw [hrange]; exact hs.range b (hcb ▸ hb)
  · intro q hq
    rcases List.mem_cons.mp hq with rfl | hq
    · rw [Function.update_self]
      refine ⟨by simp, hnd, fun b hb => (hrange b).mpr (hs.range b (hsub hb)), ?_, fun _ => hle, hnode, ?_, ?_, ?_⟩
      · simp only [Request.covered, Request.tableBlocks, hbs, le_refl]
      · rw [htok]; exact List.take_prefix _ _
      · rw [htok]; simp only [Request.covered, List.length_take]; omega
      · intro i b hb _; rw [hnb]; exact hb
    · rw [hupd _ q hq]
      have hq' := hs.held q hq
      refine hq'.transfer hf hq rfl fun i b hb hc => ?_
      rw [hf.nodeBlocks q hq]; exact hq'.own i b hb (hcb ▸ hc)
  · intro q hq i b hb hi p hp hpq
    rcases List.mem_cons.mp hq with rfl | hql
    · rw [Function.update_self] at hb hi
      simp only [Request.tableBlocks, hnb] at hb hi
      have := (List.getElem?_eq_some_iff.mp hb).1
      omega
    · rw [hupd _ q hql] at hb hi
      rw [hf.nodeBlocks q hql] at hi
      rcases List.mem_cons.mp hp with rfl | hp
      · rw [Function.update_self]
        intro hm
        have := (hs.held q hql).own i b hb (hsub hm)
        have := (List.getElem?_eq_some_iff.mp this).1
        omega
      · rw [hupd _ p hp]; exact hs.apart q hql i b hb hi p hp hpq
  · intro t ht
    rw [hbs]
    refine htree t ht _ fun u => ?_
    rw [nodeHolders, holders_cons, holders_update_of_notMem hr, Function.update_self]
    simp [nodeHolders]
  · intro t ht n hn q hq b hb hm
    rcases List.mem_cons.mp hq with rfl | hq
    · rw [Function.update_self] at hm ⊢
      exact (huni t ht n hn).1 b hb hm
    · rw [hupd _ q hq] at hm ⊢
      exact (huni t ht n hn).2 q hq b hb hm

theorem Sound.lookup (hs : kv.Sound store live) (hr : r ∉ live) :
    ∃ node blocks tree, kv.lookup (store r) = .ok (node, blocks, tree) ∧
      blocks.Nodup ∧ (∀ b ∈ blocks, kv.allocator.InRange b ∧ 0 < kv.allocator.ref b) ∧
      Acquired kv ⟨{ kv.allocator with ref := fun b => kv.allocator.ref b + blocks.count b }, tree⟩
        store live r blocks node := by
  cases ht : kv.tree with
  | none =>
    refine ⟨none, [], none, by simp [KVCacheManager.lookup, ht], List.nodup_nil, by simp, ?_⟩
    have hf : Frame kv ⟨{ kv.allocator with ref := fun b => kv.allocator.ref b + ([] : List Int).count b }, none⟩
        store live := Frame.of_no_tree ht rfl rfl rfl
    refine ⟨?_, hf, by simp, by simp [cachedCells, ht], by simp, rfl⟩
    exact hs.enter hr rfl hf (by simp [cachedBlocks, ht]) List.nodup_nil (by simp) rfl rfl
      (by simp [KVCacheManager.nodeTokens]) (by simp) (by simp) (by simp)
  | some t =>
    have hts := hs.tree t ht
    set ts := (store r).tokens.take ((store r).seqLen - 1) with hts'
    obtain ⟨hhold, hle, htok, hlen⟩ := hts.shaped.walkNode_spec ts
    have hw := hts.walked ts (hs.no_later_holder ht le_rfl)
    set t1 := t.walked kv.blockSize ts with ht1
    set u := t.walkNode kv.blockSize ts with hu
    have hsh : RadixTree.SameShape t1 (t1.lock u) kv.blockSize := RadixTree.lock_sameShape u
    set blocks := pathBlocks t1.forest u with hblocks
    have hsub : blocks ⊆ kv.cachedBlocks := by
      intro b hb
      rw [cachedBlocks_some ht, ← @RadixTree.walked_treeBlocks kv.blockSize t ts]
      exact pathBlocks_subset t1.forest u b hb
    have hnd : blocks.Nodup :=
      hw.blocks_nodup.sublist ((path_sublist u t1.forest).flatMap RadixNode.blocks)
    have htslen : ts.length = (store r).seqLen - 1 := by simp [hts']
    rw [htslen] at hle
    have htok' : pathTokens t1.forest u = (store r).tokens.take (blocks.length * kv.blockSize) := by
      rw [htok, hlen, hts', List.take_take, Nat.min_eq_left hle]
    refine ⟨some u, blocks, some (t1.lock u), ?_, hnd,
      fun b hb => ⟨hs.range b (hsub hb), hs.ref_pos_cached (hsub hb)⟩, ?_⟩
    · simp only [KVCacheManager.lookup, ht, RadixTree.matchPrefix_ok hts.shaped]
      rfl
    have hf : Frame kv ⟨{ kv.allocator with ref := fun b => kv.allocator.ref b + blocks.count b }, some (t1.lock u)⟩
        store live := by
      refine ⟨rfl, rfl, by simp [ht], fun q hq _ => ?_, fun q hq => ?_, fun q hq => ?_⟩
      · obtain ⟨v, hv, hh, -⟩ := hs.live_node ht hq
        exact ⟨v, hv, hsh.holds.mpr (RadixTree.walked_holds hts.shaped hh)⟩
      · obtain ⟨v, hv, hh, -⟩ := hs.live_node ht hq
        simp only [KVCacheManager.nodeTokens, ht, hv, hsh.tokens]
        exact RadixTree.walked_pathTokens hts.shaped hh
      · obtain ⟨v, hv, hh, -⟩ := hs.live_node ht hq
        simp only [KVCacheManager.nodeBlocks, ht, hv, hsh.blocks]
        exact RadixTree.walked_pathBlocks hts.shaped hh
    have hnb : pathBlocks (t1.lock u).forest u = blocks := hsh.blocks u
    refine ⟨?_, hf, by rw [hlen]; exact hle, ?_, ?_, hnb⟩
    · refine hs.enter hr rfl hf ?_ hnd hsub ⟨u, rfl, hsh.holds.mpr hhold⟩ hnb ?_ (by rw [hlen]; omega) ?_ ?_
      · simp only [cachedBlocks, ht, hsh.treeBlocks]
        exact RadixTree.walked_treeBlocks ts
      · simp only [KVCacheManager.nodeTokens, hsh.tokens]
        exact htok'
      · intro t' ht' h hh
        obtain rfl : t1.lock u = t' := by simpa using ht'
        refine hw.lock (by rw [hh]; simp) fun x hx => ?_
        rw [hh, if_neg (by simpa using Ne.symm hx), Nat.add_zero]
      · intro t' ht' n hn
        obtain rfl : t1.lock u = t' := by simpa using ht'
        obtain ⟨n1, hn1, hb1⟩ := hsh.label_blocks hn
        constructor
        · intro b hb hm c hc
          rw [← hb1] at hb hc
          obtain ⟨m, hm, hbm⟩ := List.mem_flatMap.mp hm
          have e : n1 = m := eq_of_mem_flatMap hw.blocks_nodup hn1 (path_subset u t1.forest m hm) hb hbm
          exact List.mem_flatMap.mpr ⟨n1, e ▸ hm, hc⟩
        · intro q hq b hb hm
          rw [← hb1] at hb ⊢
          obtain ⟨n0, hn0, hsub0, -⟩ := walk_uniform t.forest ts n1 hn1
          exact fun c hc => hs.uniform t ht n0 hn0 q hq b (hsub0 hb) hm (hsub0 hc)
    · have hc : cells kv.blockSize [] (t1.lock u).forest = cells kv.blockSize [] t.forest :=
        hsh.cells.trans (walk_cells t.forest [] ts)
      simp only [cachedCells, ht]
      exact hc
    · intro i b hb
      have := RadixTree.found_of_walk hts.shaped hb
      simp only [cachedCells, ht]
      have hi := (List.getElem?_eq_some_iff.mp hb).1
      have hmin : (i + 1) * kv.blockSize ≤ (store r).seqLen - 1 :=
        (Nat.mul_le_mul_right kv.blockSize (hlen ▸ hi)).trans hle
      rwa [hts', List.take_take, Nat.min_eq_left hmin] at this

theorem Sound.acquire (hs : kv.Sound store live) (hr : r ∉ live) :
    ∃ node blocks kv', kv.acquire (store r) = .ok (blocks.length * kv.blockSize, kv', { store r with
        cache := some ⟨blocks, blocks.length * kv.blockSize⟩
        cacheNode := node
        numCachedTokens := blocks.length * kv.blockSize }) ∧
      Acquired kv kv' store live r blocks node := by
  obtain ⟨node, blocks, tree, hl, hnd, href, hacq⟩ := hs.lookup hr
  refine ⟨node, blocks, _, ?_, hacq⟩
  have hnew := BlockTable.new_ok (a := kv.allocator) hnd href
  simp only [KVCacheManager.acquire, (hs.idle r hr).1, Option.isSome_none, Bool.false_eq_true, if_false, hl, hnew]
  rfl

end Acquire

section Forget

structure Forgotten (kv kv' : KVCacheManager) (store : Store) (live : List Rid) (r : Rid) (q : Request) : Prop where
  sound : kv'.Sound (Function.update store r q) (live.erase r)
  frame : Frame kv kv' store live
  cells : kv'.cachedCells = kv.cachedCells

theorem Sound.unlockNode (hs : kv.Sound store live) (hr : r ∈ live) :
    ∃ tree, kv.unlockNode (store r).cacheNode = .ok { kv with tree := tree } ∧
      tree.isSome = kv.tree.isSome ∧
      ∀ t', tree = some t' → ∃ t, kv.tree = some t ∧ RadixTree.SameShape t t' kv.blockSize ∧
        t'.Sound kv.blockSize (nodeHolders store (live.erase r)) := by
  cases ht : kv.tree with
  | none => exact ⟨none, by cases kv; simp_all [KVCacheManager.unlockNode], by simp, by simp⟩
  | some t =>
    obtain ⟨u, hu, -, -⟩ := hs.live_node ht hr
    have hcount (x : Nat) : nodeHolders store live x =
        nodeHolders store (live.erase r) x + (if (store r).cacheNode = some x then 1 else 0) := by
      simpa [nodeHolders] using holders_erase (f := store) (p := fun r => r.cacheNode = some x) hr
    obtain ⟨t', ht', hst', hsh⟩ := @RadixTree.Sound.unlock _ _ _ (nodeHolders store (live.erase r)) u (hs.tree t ht)
      (by have := hcount u; simp only [hu, if_true] at this; omega)
      (fun x hx => by have := hcount x; rw [hu, if_neg (by simpa using Ne.symm hx)] at this; omega)
    refine ⟨some t', by simp [KVCacheManager.unlockNode, ht, hu, ht'], by simp, ?_⟩
    intro t'' e
    obtain rfl : t' = t'' := by simpa using e
    exact ⟨t, rfl, hsh, hst'⟩

theorem Sound.forget {tb : BlockTable} {q : Request} (hs : kv.Sound store live) (hr : r ∈ live)
    (hc : (store r).cache = some tb) (hqc : q.cache = none) (hqn : q.cacheNode = none) :
    ∃ kv1 kv', kv.unlockNode (store r).cacheNode = .ok kv1 ∧ kv1.dropTable tb = .ok kv' ∧
      Forgotten kv kv' store live r q := by
  obtain ⟨tree, hunlock, hsome, htree⟩ := hs.unlockNode hr
  have htb : (store r).tableBlocks = tb.blocks := by simp [Request.tableBlocks, hc]
  have hnd : tb.blocks.Nodup := htb ▸ (hs.held r hr).nodup
  have hcount (b : Int) : tb.blocks.count b = if b ∈ tb.blocks then 1 else 0 := by rw [List.Nodup.count hnd]
  have hfree : ∀ b ∈ tb.blocks, kv.allocator.InRange b ∧ tb.blocks.count b ≤ kv.allocator.ref b := by
    intro b hb
    refine ⟨(hs.held r hr).range b (htb ▸ hb), ?_⟩
    have := hs.ref_pos hr (htb ▸ hb)
    rw [hcount, if_pos hb]; omega
  refine ⟨{ kv with tree := tree }, ⟨tb.blocks.foldl BlockAllocator.dropRef kv.allocator, tree⟩, hunlock, ?_, ?_⟩
  · simp [dropTable, BlockTable.release_ok hfree]
  have hcb : KVCacheManager.cachedBlocks ⟨tb.blocks.foldl BlockAllocator.dropRef kv.allocator, tree⟩ =
      kv.cachedBlocks := by
    cases tree with
    | none =>
      have : kv.tree = none := by simpa using hsome.symm
      simp [cachedBlocks, this]
    | some t' =>
      obtain ⟨t, ht, hsh, -⟩ := htree t' rfl
      simp [cachedBlocks, ht, hsh.treeBlocks]
  have hf : Frame kv ⟨tb.blocks.foldl BlockAllocator.dropRef kv.allocator, tree⟩ store live := by
    cases tree with
    | none => exact Frame.of_no_tree (by simpa using hsome.symm) rfl (by simp) (by simp [blockSize])
    | some t' =>
      obtain ⟨t, ht, hsh, -⟩ := htree t' rfl
      exact Frame.of_sameShape ht rfl (by simp) (by simp [blockSize]) hsh
  have hne (p : Rid) (hp : p ∈ live.erase r) : p ≠ r := fun e => hs.nodup.not_mem_erase (e ▸ hp)
  have hupd (p : Rid) (hp : p ∈ live.erase r) : Function.update store r q p = store p :=
    Function.update_of_ne (hne p hp) _ _
  have hmem (p : Rid) (hp : p ∈ live.erase r) : p ∈ live := List.mem_of_mem_erase hp
  refine ⟨?_, hf, ?_⟩
  · constructor
    · exact hs.nodup.erase r
    · intro p hp
      by_cases e : p = r
      · subst e; simp [hqc, hqn]
      · rw [Function.update_of_ne e]
        exact hs.idle p fun h => hp ((List.mem_erase_of_ne e).mpr h)
    · exact BlockAllocator.foldl_dropRef_sound _ _ hs.allocator hfree
    · intro b
      rw [BlockAllocator.foldl_dropRef_ref, hs.ref, hcb, tableHolders, tableHolders, holders_erase (f := store) hr,
        holders_update_of_notMem hs.nodup.not_mem_erase, hcount, htb]
      simp only [decide_eq_true_eq]
      omega
    · intro b hb
      have := hs.range b (hcb ▸ hb)
      simpa [BlockAllocator.InRange] using this
    · intro p hp
      have hp' := hs.held p (hmem p hp)
      rw [hupd p hp]
      refine hp'.transfer hf (hmem p hp) rfl fun i b hb hc => ?_
      rw [hf.nodeBlocks p (hmem p hp)]
      exact hp'.own i b hb (hcb ▸ hc)
    · intro p hp i b hb hi o ho hop
      rw [hupd p hp] at hb hi
      rw [hf.nodeBlocks p (hmem p hp)] at hi
      rw [hupd o ho]
      exact hs.apart p (hmem p hp) i b hb hi o (hmem o ho) hop
    · intro t' ht'
      obtain ⟨t, ht, -, hst⟩ := htree t' ht'
      rw [hf.blockSize]
      exact hst.congr fun u _ => holders_update_of_notMem hs.nodup.not_mem_erase
    · intro t' ht' n hn p hp b hb hm
      obtain ⟨t, ht, hsh, -⟩ := htree t' ht'
      obtain ⟨n', hn', hb'⟩ := hsh.label_blocks hn
      rw [hupd p hp] at hm ⊢
      rw [← hb'] at hb ⊢
      exact hs.uniform t ht n' hn' p (hmem p hp) b hb hm
  · cases tree with
    | none =>
      have ht : kv.tree = none := by simpa using hsome.symm
      simp [cachedCells, ht]
    | some t' =>
      obtain ⟨t, ht, hsh, -⟩ := htree t' rfl
      simp only [cachedCells, ht, hf.blockSize]
      exact hsh.cells

theorem Sound.abandon (hs : kv.Sound store live) (hr : r ∈ live) :
    ∃ kv', kv.abandon (store r) = .ok (kv', { store r with cache := none, cacheNode := none, numCachedTokens := 0 }) ∧
      Forgotten kv kv' store live r { store r with cache := none, cacheNode := none, numCachedTokens := 0 } := by
  obtain ⟨tb, hc⟩ := Option.ne_none_iff_exists'.mp (hs.held r hr).cache
  obtain ⟨kv1, kv', h1, h2, hf⟩ := hs.forget
    (q := { store r with cache := none, cacheNode := none, numCachedTokens := 0 }) hr hc rfl rfl
  exact ⟨kv', by simp [KVCacheManager.abandon, h1, hc, h2], hf⟩

end Forget

section Commit

structure Committed (kv kv' : KVCacheManager) (store : Store) (live : List Rid) (r : Rid) (node : Option Nat) :
    Prop where
  sound : kv'.Sound (Function.update store r { store r with cacheNode := node }) live
  frame : Frame kv kv' store live
  nodeBlocks : kv.tree.isSome → (kv'.nodeBlocks node).length = (store r).covered / kv.blockSize
  found : ∀ (i : Nat) b, (kv'.nodeBlocks node)[i]? = some b → (store r).tableBlocks[i]? = some b ∨
    ((store r).tokens.take ((i + 1) * kv.blockSize), b) ∈ kv.cachedCells
  cells : ∀ c ∈ kv'.cachedCells, c ∈ kv.cachedCells ∨ ∃ i b, i < (store r).covered / kv.blockSize ∧
    (store r).tableBlocks[i]? = some b ∧ c = ((store r).tokens.take ((i + 1) * kv.blockSize), b)

variable {a' : BlockAllocator} {node m n : Nat} {ts : List Token} {blocks : List Int}

theorem Sound.moved (hs : kv.Sound store live) (hr : r ∈ live) (ht : kv.tree = some t)
    (hst : t'.Sound kv.blockSize (nodeHolders store live)) (node : Nat) :
    ∃ t'', KVCacheManager.unlockNode ⟨a', some (t'.lock node)⟩ (store r).cacheNode = .ok ⟨a', some t''⟩ ∧
      RadixTree.SameShape t' t'' kv.blockSize ∧ t''.Sound kv.blockSize
        (nodeHolders (Function.update store r { store r with cacheNode := some node }) live) := by
  obtain ⟨u, hu, -, hpos⟩ := hs.live_node ht hr
  have hcount (x : Nat) := holders_update (f := store) (x := { store r with cacheNode := some node })
    (p := fun r => r.cacheNode = some x) hs.nodup hr
  simp only [hu, decide_eq_true_eq, Option.some.injEq] at hcount
  have hlock := @RadixTree.Sound.lock _ _ _ (fun x => nodeHolders store live x + (if node = x then 1 else 0)) node hst
    (by simp) (fun x hx => by simp [Ne.symm hx])
  obtain ⟨t'', hunlock, hst'', hsh⟩ := @RadixTree.Sound.unlock _ _ _
    (nodeHolders (Function.update store r { store r with cacheNode := some node }) live) u hlock
    (by have := hcount u; simp only [if_true] at this; exact this)
    (fun x hx => by have := hcount x; rw [if_neg (Ne.symm hx), Nat.add_zero] at this; exact this)
  exact ⟨t'', by simp [KVCacheManager.unlockNode, hu, hunlock], (RadixTree.lock_sameShape node).trans hsh, hst''⟩

theorem Sound.inserted_frame {t'' : RadixTree} (hs : kv.Sound store live) (ht : kv.tree = some t)
    (hi : RadixTree.Inserted t t' kv.allocator a' kv.blockSize ts blocks node m)
    (hsh : RadixTree.SameShape t' t'' kv.blockSize) : Frame kv ⟨a', some t''⟩ store live := by
  refine ⟨by simp [hi.ref], by simp [blockSize, hi.ref], by simp [ht], fun q hq _ => ?_, fun q hq => ?_, fun q hq => ?_⟩
  · obtain ⟨v, hv, hh, -⟩ := hs.live_node ht hq
    exact ⟨v, hv, hsh.holds.mpr (hi.old_holds v hh)⟩
  · obtain ⟨v, hv, hh, -⟩ := hs.live_node ht hq
    rw [hv, nodeTokens_some ht, ← hi.old_tokens v hh]; exact hsh.tokens v
  · obtain ⟨v, hv, hh, -⟩ := hs.live_node ht hq
    rw [hv, nodeBlocks_some ht, ← hi.old_blocks v hh]; exact hsh.blocks v

theorem mem_inserted (hbl : blocks = (store r).tableBlocks.take n) {b : Int} (hb : b ∈ blocks.drop m) :
    ∃ j : Nat, m ≤ j ∧ j < blocks.length ∧ (store r).tableBlocks[j]? = some b := by
  obtain ⟨i, hib⟩ := List.mem_iff_getElem?.mp hb
  rw [List.getElem?_drop] at hib
  have hlt := (List.getElem?_eq_some_iff.mp hib).1
  refine ⟨m + i, by omega, hlt, ?_⟩
  rwa [hbl, List.getElem?_take_of_lt (by rw [hbl, List.length_take] at hlt; omega)] at hib

theorem Sound.inserted_private (hs : kv.Sound store live) (hr : r ∈ live)
    (hbl : blocks = (store r).tableBlocks.take n) (hm : (kv.nodeBlocks (store r).cacheNode).length ≤ m) :
    ∀ b ∈ blocks.drop m, ∀ q ∈ live, q ≠ r → b ∉ (store q).tableBlocks := by
  intro b hb q hq hqr
  obtain ⟨j, hmj, -, hj⟩ := mem_inserted hbl hb
  exact hs.apart r hr j b hj (hm.trans hmj) q hq hqr

theorem tableBlocks_rooted (q : Rid) :
    (Function.update store r { store r with cacheNode := some node } q).tableBlocks = (store q).tableBlocks := by
  by_cases e : q = r
  · subst e; simp [Request.tableBlocks]
  · rw [Function.update_of_ne e]

variable {t'' : RadixTree}

theorem inserted_cached (ht : kv.tree = some t)
    (hi : RadixTree.Inserted t t' kv.allocator a' kv.blockSize ts blocks node m)
    (hsh : RadixTree.SameShape t' t'' kv.blockSize) :
    (treeBlocks t''.forest).Perm (kv.cachedBlocks ++ blocks.drop m) := by
  rw [hsh.treeBlocks, cachedBlocks_some ht]
  exact hi.treeBlocks

-- A block of the request's own table which the tree caches lies on the path of the node it now holds: on the old part
-- when it was cached before, on the added part otherwise.
theorem Sound.inserted_own (hs : kv.Sound store live) (hr : r ∈ live) (ht : kv.tree = some t)
    (hbl : blocks = (store r).tableBlocks.take n)
    (hi : RadixTree.Inserted t t' kv.allocator a' kv.blockSize ts blocks node m)
    (hpre : kv.nodeTokens (store r).cacheNode <+: ts) (hwf : WF kv.blockSize t'.forest) {i : Nat} {b : Int}
    (hb : (store r).tableBlocks[i]? = some b) (hcached : b ∈ kv.cachedBlocks ++ blocks.drop m) :
    (pathBlocks t'.forest node)[i]? = some b := by
  obtain ⟨u, hu, hh, -⟩ := hs.live_node ht hr
  rw [hu, nodeTokens_some ht] at hpre
  rcases List.mem_append.mp hcached with hold | hadded
  · have hown := (hs.held r hr).own i b hb hold
    rw [hu, nodeBlocks_some ht, ← hi.old_blocks u hh] at hown
    obtain ⟨rest, hrest⟩ : pathBlocks t'.forest u <+: pathBlocks t'.forest node := by
      apply pathBlocks_prefix blockSize_pos hwf
      rw [hi.old_tokens u hh, hi.tokens]
      exact hpre
    rw [← hrest, List.getElem?_append_left (List.getElem?_eq_some_iff.mp hown).1]
    exact hown
  · obtain ⟨j, hmj, hjl, hj⟩ := mem_inserted hbl hadded
    obtain rfl : i = j := by
      have h1 := List.getElem?_eq_some_iff.mp hb
      have h2 := List.getElem?_eq_some_iff.mp hj
      exact (List.Nodup.getElem_inj_iff (hs.held r hr).nodup).mp (h1.2.trans h2.2.symm)
    have hd := congrArg (fun l => l[i - m]?) hi.added
    simp only [List.getElem?_drop] at hd
    rw [show m + (i - m) = i by omega] at hd
    rw [hd, hbl, List.getElem?_take_of_lt (by rw [hbl, List.length_take] at hjl; omega)]
    exact hb

theorem Sound.inserted_uniform (hs : kv.Sound store live) (hr : r ∈ live) (ht : kv.tree = some t)
    (hbl : blocks = (store r).tableBlocks.take n) (hm : (kv.nodeBlocks (store r).cacheNode).length ≤ m)
    (hi : RadixTree.Inserted t t' kv.allocator a' kv.blockSize ts blocks node m) :
    ∀ x ∈ t'.forest.labels, ∀ q ∈ live, ∀ b ∈ x.blocks, b ∈ (store q).tableBlocks →
      x.blocks ⊆ (store q).tableBlocks := by
  intro x hx q hq b hb hmem c hc
  rcases hi.nodes x hx with e | ⟨y, hy, hsub⟩
  · rw [e] at hb hc
    by_cases hqr : q = r
    · subst hqr
      obtain ⟨j, -, -, hj⟩ := mem_inserted hbl hc
      exact List.mem_of_getElem? hj
    · exact absurd hmem (hs.inserted_private hr hbl hm b hb q hq hqr)
  · exact hs.uniform t ht y hy q hq b (hsub hb) hmem (hsub hc)

theorem Sound.inserted {u : Nat} (hs : kv.Sound store live) (hr : r ∈ live) (ht : kv.tree = some t)
    (hu : (store r).cacheNode = some u) (hts : ts = (store r).tokens.take (blocks.length * kv.blockSize))
    (hbl : blocks = (store r).tableBlocks.take ((store r).covered / kv.blockSize))
    (hlen : blocks.length = (store r).covered / kv.blockSize)
    (hi : RadixTree.Inserted t t' kv.allocator a' kv.blockSize ts blocks node m)
    (hm : (pathBlocks t.forest u).length ≤ m) (hpre : pathTokens t.forest u <+: ts)
    (hwf : WF kv.blockSize t'.forest) {t'' : RadixTree} (hsh : RadixTree.SameShape t' t'' kv.blockSize)
    (hst : t''.Sound kv.blockSize
      (nodeHolders (Function.update store r { store r with cacheNode := some node }) live)) :
    KVCacheManager.Sound ⟨a', some t''⟩ (Function.update store r { store r with cacheNode := some node }) live := by
  have hcb := inserted_cached ht hi hsh
  have hm' : (kv.nodeBlocks (store r).cacheNode).length ≤ m := by rwa [hu, nodeBlocks_some ht]
  have hpre' : kv.nodeTokens (store r).cacheNode <+: ts := by rwa [hu, nodeTokens_some ht]
  have hpriv := hs.inserted_private hr hbl hm'
  have hnode : pathBlocks t''.forest node = pathBlocks t'.forest node := hsh.blocks node
  have hother (q : Rid) (hq : q ≠ r) :
      Function.update store r { store r with cacheNode := some node } q = store q := Function.update_of_ne hq _ _
  have hrange (b : Int) : a'.InRange b ↔ kv.allocator.InRange b := by rw [hi.ref]; rfl
  have hf := hs.inserted_frame ht hi hsh
  have hbs := hf.blockSize
  refine ⟨hs.nodup, fun q hq => ?_, ?_, fun b => ?_, fun b hb => (hrange b).mpr ?_, fun q hq => ?_,
    fun q hq i b hb hle p hp hpq => ?_, fun t3 ht3 => ?_, fun t3 ht3 x hx q hq b hb hmem => ?_⟩
  · rw [hother q (fun e => hq (e ▸ hr))]
    exact hs.idle q hq
  · change a'.Sound
    rw [hi.ref]
    refine BlockAllocator.incref_sound hs.allocator fun b hb => ?_
    obtain ⟨j, -, -, hj⟩ := mem_inserted hbl hb
    exact hs.ref_pos hr (List.mem_of_getElem? hj)
  · have hh : tableHolders (Function.update store r { store r with cacheNode := some node }) live b =
        tableHolders store live b := holders_congr fun q _ => by rw [tableBlocks_rooted]
    change a'.ref b = _ + (treeBlocks t''.forest).count b
    rw [hh, hcb.count_eq, List.count_append, hi.ref]
    change kv.allocator.ref b + _ = _
    rw [hs.ref]
    omega
  · rcases List.mem_append.mp (hcb.mem_iff.mp hb) with hb | hb
    · exact hs.range b hb
    · obtain ⟨j, -, -, hj⟩ := mem_inserted hbl hb
      exact (hs.held r hr).range b (List.mem_of_getElem? hj)
  · have hheld := hs.held q hq
    by_cases e : q = r
    · subst e
      have htok : pathTokens t''.forest node = ts := (hsh.tokens node).trans hi.tokens
      rw [Function.update_self]
      refine ⟨hheld.cache, hheld.nodup, fun b hb => (hrange b).mpr (hheld.range b hb), by rw [hbs]; exact hheld.capacity,
        fun _ => hheld.covered (by simp [ht]), ⟨node, rfl, hsh.holds.mpr hi.holds⟩, ?_, ?_, fun i b hb hc => ?_⟩
      · simp only [nodeTokens, htok, hts]
        exact List.take_prefix _ _
      · simp only [nodeTokens, htok, hts, List.length_take]
        refine (Nat.min_le_left _ _).trans ?_
        rw [hlen]
        exact Nat.div_mul_le_self _ _
      · simp only [nodeBlocks, hnode]
        exact hs.inserted_own hr ht hbl hi hpre' hwf hb (hcb.mem_iff.mp hc)
    · rw [hother q e]
      refine hheld.transfer hf hq rfl fun i b hb hc => ?_
      rw [hf.nodeBlocks q hq]
      rcases List.mem_append.mp (hcb.mem_iff.mp hc) with hc | hc
      · exact hheld.own i b hb hc
      · exact absurd (List.mem_of_getElem? hb) (hpriv b hc q hq e)
  · rw [tableBlocks_rooted] at hb ⊢
    refine hs.apart q hq i b hb ?_ p hp hpq
    by_cases e : q = r
    · subst e
      have hmatch := hi.matched_le
      rw [Function.update_self] at hle
      simp only [nodeBlocks, hnode, hi.length] at hle
      omega
    · rw [hother q e, hf.nodeBlocks q hq] at hle
      exact hle
  · obtain rfl : t'' = t3 := by simpa using ht3
    rw [hbs]
    exact hst
  · obtain rfl : t'' = t3 := by simpa using ht3
    obtain ⟨y, hy, he⟩ := hsh.label_blocks hx
    rw [tableBlocks_rooted] at hmem ⊢
    rw [← he] at hb ⊢
    exact hs.inserted_uniform hr ht hbl hm' hi y hy q hq b hb hmem

theorem Sound.path_begins {u : Nat} (hs : kv.Sound store live) (hr : r ∈ live) (ht : kv.tree = some t)
    (hu : (store r).cacheNode = some u) :
    pathTokens t.forest u <+: (store r).tokens.take ((store r).covered / kv.blockSize * kv.blockSize) := by
  have hlen := pathTokens_length (hs.tree t ht).wf u
  have hle := (hs.held r hr).path_le
  have hpre := (hs.held r hr).tokens
  rw [hu, nodeTokens_some ht] at hle hpre
  rw [hlen] at hle
  rw [List.prefix_take_iff]
  exact ⟨hpre, by rw [hlen]; exact Nat.mul_le_mul_right _ ((Nat.le_div_iff_mul_le blockSize_pos).mpr hle)⟩

theorem Sound.uncached_drop (hs : kv.Sound store live) (hr : r ∈ live) (ht : kv.tree = some t)
    (hbl : blocks = (store r).tableBlocks.take n) (hm : (kv.nodeBlocks (store r).cacheNode).length ≤ m) :
    ∀ b ∈ blocks.drop m, b ∉ treeBlocks t.forest := by
  intro b hb hc
  obtain ⟨j, hmj, -, hj⟩ := mem_inserted hbl hb
  have hown := (hs.held r hr).own j b hj (by rw [cachedBlocks_some ht]; exact hc)
  have := (List.getElem?_eq_some_iff.mp hown).1
  omega

-- A block on the path is the request's own, or it was cached before under the same tokens.
theorem inserted_found (hi : RadixTree.Inserted t t' kv.allocator a' kv.blockSize ts blocks node m)
    (hts : ts = (store r).tokens.take (blocks.length * kv.blockSize)) (hbl : blocks = (store r).tableBlocks.take n)
    {i : Nat} {b : Int} (hb : (pathBlocks t'.forest node)[i]? = some b) :
    (store r).tableBlocks[i]? = some b ∨
      ((store r).tokens.take ((i + 1) * kv.blockSize), b) ∈ cells kv.blockSize [] t.forest := by
  have hlt : i < blocks.length := hi.length ▸ (List.getElem?_eq_some_iff.mp hb).1
  by_cases him : i < m
  · have hold := hi.found i b him hb
    rw [hts, List.take_take, Nat.min_eq_left (Nat.mul_le_mul_right _ (by omega))] at hold
    exact .inr hold
  · have hd := congrArg (fun l => l[i - m]?) hi.added
    simp only [List.getElem?_drop] at hd
    rw [show m + (i - m) = i by omega, hb, hbl] at hd
    rw [hbl, List.length_take] at hlt
    rw [← List.getElem?_take_of_lt (show i < n by omega)]
    exact .inl hd.symm

theorem inserted_cells (hi : RadixTree.Inserted t t' kv.allocator a' kv.blockSize ts blocks node m)
    (hts : ts = (store r).tokens.take (blocks.length * kv.blockSize)) (hbl : blocks = (store r).tableBlocks.take n)
    {c : List Token × Int} (hc : c ∈ cells kv.blockSize [] t'.forest) :
    c ∈ cells kv.blockSize [] t.forest ∨ ∃ i b, i < blocks.length ∧
      (store r).tableBlocks[i]? = some b ∧ c = ((store r).tokens.take ((i + 1) * kv.blockSize), b) := by
  rcases List.mem_append.mp (hi.cells.mem_iff.mp hc) with hold | hadded
  · exact .inl hold
  · obtain ⟨k, b⟩ := c
    obtain ⟨i, hib, rfl⟩ := mem_edgeCells.mp hadded
    rw [List.getElem?_drop] at hib
    have hlt := (List.getElem?_eq_some_iff.mp hib).1
    have hle : (m + i + 1) * kv.blockSize ≤ blocks.length * kv.blockSize := Nat.mul_le_mul_right _ hlt
    refine .inr ⟨m + i, b, hlt, ?_, ?_⟩
    · rwa [hbl, List.getElem?_take_of_lt (by rw [hbl, List.length_take] at hlt; omega)] at hib
    · rw [← List.take_add, ← Nat.add_mul, ← Nat.add_assoc, hts, List.take_take, Nat.min_eq_left hle]

theorem Sound.commit (hs : kv.Sound store live) (hr : r ∈ live) :
    ∃ kv' node, kv.commit (store r) = .ok (kv', { store r with cacheNode := node }) ∧
      Committed kv kv' store live r node := by
  obtain ⟨tb, hc⟩ := Option.ne_none_iff_exists'.mp (hs.held r hr).cache
  have htb : (store r).tableBlocks = tb.blocks := by simp [Request.tableBlocks, hc]
  have hcov : (store r).covered = tb.numTokens := by simp [Request.covered, hc]
  have hheld := hs.held r hr
  cases ht : kv.tree with
  | none =>
    refine ⟨kv, (store r).cacheNode, by simp [KVCacheManager.commit, ht], ?_, Frame.refl kv store live,
      by simp [ht], by simp [KVCacheManager.nodeBlocks, ht], fun c h => .inl h⟩
    rw [show ({ store r with cacheNode := (store r).cacheNode } : Request) = store r from rfl,
      Function.update_eq_self]
    exact hs
  | some t =>
    obtain ⟨u, hu, -, -⟩ := hs.live_node ht hr
    set n := tb.numTokens / kv.blockSize with hn
    have hcap := hheld.capacity
    have hseq := hheld.covered (by simp [ht])
    rw [htb, hcov] at hcap
    rw [hcov] at hseq
    have hnb : n * kv.blockSize ≤ tb.numTokens := Nat.div_mul_le_self _ _
    have hnlen : n ≤ tb.blocks.length :=
      (Nat.div_le_div_right hcap).trans (by rw [Nat.mul_div_cancel _ blockSize_pos])
    set blocks := tb.blocks.take n with hbl
    set ts := (store r).tokens.take (n * kv.blockSize) with hts
    have hblen : blocks.length = n := List.length_take_of_le hnlen
    have htslen : ts.length = blocks.length * kv.blockSize := by
      rw [hts, List.length_take, Request.tokens_length, hblen]; omega
    have hts' : ts = (store r).tokens.take (blocks.length * kv.blockSize) := by rw [hblen]
    have htb' : blocks = (store r).tableBlocks.take ((store r).covered / kv.blockSize) := by rw [htb, hcov]
    have hpre : pathTokens t.forest u <+: ts := by
      have := hs.path_begins hr ht hu
      rwa [hcov] at this
    have hmat := RadixTree.le_matched (hs.tree t ht).shaped blockSize_pos hpre
    have hbmem : ∀ b ∈ blocks, kv.allocator.InRange b ∧ 0 < kv.allocator.ref b := fun b hb => by
      have hb' : b ∈ (store r).tableBlocks := htb ▸ List.mem_of_mem_take hb
      exact ⟨hheld.range b hb', hs.ref_pos hr hb'⟩
    obtain ⟨node, a', t', hins, hst', hi⟩ := RadixTree.insert_spec (hs.tree t ht)
      (fun x hx => hs.no_later_holder ht hx) blockSize_pos htslen
      ((htb ▸ hheld.nodup : tb.blocks.Nodup).sublist (List.take_sublist _ _)) hbmem
      (hs.uncached_drop hr ht htb' (by rwa [hu, nodeBlocks_some ht]))
    obtain ⟨t'', hunlock, hsh, hst''⟩ := hs.moved hr ht hst' node
    have hbs : KVCacheManager.blockSize ⟨a', some t''⟩ = kv.blockSize := by simp [blockSize, hi.ref]
    have hsound := hs.inserted hr ht hu hts' htb' (by rw [hblen, hcov]) hi hmat hpre hst'.wf hsh hst''
    refine ⟨⟨a', some t''⟩, some node, ?_, hsound, hs.inserted_frame ht hi hsh, fun _ => ?_, fun i b hb => ?_,
      fun c hcm => ?_⟩
    · simp only [KVCacheManager.commit, ht, hc]
      rw [hins]
      simp only
      rw [hunlock]
    · change (pathBlocks t''.forest node).length = _
      rw [hsh.blocks, hi.length, hblen, hcov]
    · change (pathBlocks t''.forest node)[i]? = some b at hb
      rw [hsh.blocks] at hb
      simpa only [cachedCells, ht] using inserted_found hi hts' htb' hb
    · have hcm' : c ∈ cells kv.blockSize [] t''.forest := hbs ▸ hcm
      rw [hsh.cells] at hcm'
      rw [hcov, ← hn, ← hblen]
      simpa only [cachedCells, ht] using inserted_cells hi hts' htb' hcm'

end Commit

section Release

structure Released (kv kv' : KVCacheManager) (store : Store) (live : List Rid) (r : Rid) (q : Request) : Prop where
  sound : kv'.Sound (Function.update store r q) (live.erase r)
  frame : Frame kv kv' store (live.erase r)
  cells : ∀ c ∈ kv'.cachedCells, c ∈ kv.cachedCells ∨ ∃ i b, i < (store r).covered / kv.blockSize ∧
    (store r).tableBlocks[i]? = some b ∧ c = ((store r).tokens.take ((i + 1) * kv.blockSize), b)

theorem Sound.release (hs : kv.Sound store live) (hr : r ∈ live) :
    ∃ kv', kv.release (store r) = .ok (kv', { store r with cache := none, cacheNode := none }) ∧
      Released kv kv' store live r { store r with cache := none, cacheNode := none } := by
  obtain ⟨tb, hc⟩ := Option.ne_none_iff_exists'.mp (hs.held r hr).cache
  obtain ⟨kv1, node, hcommit, hcm⟩ := hs.commit hr
  obtain ⟨kv2, kv', h1, h2, hf⟩ :=
    @Sound.forget _ _ _ _ tb { store r with cache := none, cacheNode := none } hcm.sound hr
    (by rw [Function.update_self]; exact hc) rfl rfl
  rw [Function.update_self] at h1
  have hsound := hf.sound
  rw [Function.update_idem] at hsound
  refine ⟨kv', ?_, hsound, ?_, ?_⟩
  · simp only [KVCacheManager.release, hc, hcommit]
    rw [h1]
    simp only
    rw [h2]
  · refine (hcm.frame.mono (fun _ h => List.mem_of_mem_erase h)).trans
      ((hf.frame.mono (fun _ h => List.mem_of_mem_erase h)).congr fun q hq => ?_)
    rw [Function.update_of_ne (fun e => hs.nodup.not_mem_erase (e ▸ hq))]
  · intro c h; rw [hf.cells] at h; exact hcm.cells c h

end Release

end KVCacheManager

end MiniServe
