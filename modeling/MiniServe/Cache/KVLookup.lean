import MiniServe.Cache.KVTree
import MiniServe.Cache.RadixMap

namespace MiniServe

open Forest PrefixMap

namespace KVCacheManager

variable {kv : KVCacheManager} {store : Store} {live : List Rid} {q : Request}

def cachedPrefixLens (kv : KVCacheManager) (reqs : List Request) : Except Error (List Nat) :=
  match kv.tree with
  | none => .ok (List.replicate reqs.length 0)
  | some t => t.prefixLens kv.blockSize (reqs.map Request.tokens) (reqs.map fun r => (r.seqLen : Int) - 1)

theorem cachedPrefixLen_eq {t : RadixTree} (ht : kv.tree = some t) (q : Request) :
    kv.cachedPrefixLen q = prefixLenBelow kv.blockSize t.forest (q.tokens.take (q.seqLen - 1)) := by
  have hn : ((q.seqLen : Int) - 1).toNat = q.seqLen - 1 := by omega
  simp only [cachedPrefixLen, ht, RadixTree.prefixLen, hn, List.take_take, Nat.min_self]

theorem acquire_eq {node : Option Nat} {blocks : List Int} {tree : Option RadixTree} (hc : q.cache = none)
    (hl : kv.lookup q = .ok (node, blocks, tree)) (hnd : blocks.Nodup)
    (href : ∀ b ∈ blocks, kv.allocator.InRange b ∧ 0 < kv.allocator.ref b) :
    ∃ kv' q', kv.acquire q = .ok (blocks.length * kv.blockSize, kv', q') := by
  simp only [KVCacheManager.acquire, hc, Option.isSome_none, Bool.false_eq_true, if_false, hl,
    BlockTable.new_ok hnd href]
  exact ⟨_, _, rfl⟩

theorem Sound.acquire_count (hs : kv.Sound store live) (hc : q.cache = none) :
    ∃ kv' q', kv.acquire q = .ok (kv.cachedPrefixLen q, kv', q') := by
  cases ht : kv.tree with
  | none =>
    have hz : kv.cachedPrefixLen q = ([] : List Int).length * kv.blockSize := by simp [cachedPrefixLen, ht]
    rw [hz]
    exact @acquire_eq kv q none [] none hc (by simp [KVCacheManager.lookup, ht]) List.nodup_nil (by simp)
  | some t =>
    have hts := hs.tree t ht
    set ts := q.tokens.take (q.seqLen - 1) with hts'
    obtain ⟨-, -, -, hlen⟩ := hts.shaped.walkNode_spec ts
    set blocks := pathBlocks (t.walked kv.blockSize ts).forest (t.walkNode kv.blockSize ts) with hblocks
    have hall : treeBlocks (t.walked kv.blockSize ts).forest = kv.cachedBlocks := by
      rw [cachedBlocks_some ht, RadixTree.walked_treeBlocks]
    have hnd : blocks.Nodup := by
      have hw : (treeBlocks (t.walked kv.blockSize ts).forest).Nodup := by
        rw [RadixTree.walked_treeBlocks]; exact hts.blocks_nodup
      exact hw.sublist ((path_sublist _ _).flatMap RadixNode.blocks)
    have hsub (b : Int) (hb : b ∈ blocks) : b ∈ kv.cachedBlocks := hall ▸ pathBlocks_subset _ _ b hb
    have hcount : kv.cachedPrefixLen q = blocks.length * kv.blockSize := by
      rw [cachedPrefixLen_eq ht, hlen, prefixLenBelow_eq (t.clock + 1) t.nextUid]
      rfl
    rw [hcount]
    have hl : kv.lookup q = .ok (some (t.walkNode kv.blockSize ts), blocks,
        some ((t.walked kv.blockSize ts).lock (t.walkNode kv.blockSize ts))) := by
      simp only [KVCacheManager.lookup, ht, RadixTree.matchPrefix_ok hts.shaped, ← hts', ← hblocks]
    exact acquire_eq hc hl hnd fun b hb => ⟨hs.range b (hsub b hb), hs.ref_pos_cached (hsub b hb)⟩

theorem cachedPrefixLens_eq (kv : KVCacheManager) (qs : List Request) :
    kv.cachedPrefixLens qs = .ok (qs.map kv.cachedPrefixLen) := by
  unfold cachedPrefixLens
  cases ht : kv.tree with
  | none =>
    simp only [Except.ok.injEq]
    refine (List.eq_replicate_iff.mpr ⟨by simp, fun n hn => ?_⟩).symm
    obtain ⟨q, -, rfl⟩ := List.mem_map.mp hn
    simp [cachedPrefixLen, ht]
  | some t =>
    simp only [RadixTree.prefixLens, List.length_map, if_true, List.zipWith_map, Except.ok.injEq]
    have hone (q : Request) : t.prefixLen kv.blockSize q.tokens (min ((q.seqLen : Int) - 1) q.tokens.length) =
        kv.cachedPrefixLen q := by
      have hn : (min ((q.seqLen : Int) - 1) q.tokens.length).toNat = q.seqLen - 1 := by
        rw [Request.tokens_length]; omega
      rw [cachedPrefixLen_eq ht, RadixTree.prefixLen, hn]
    induction qs with
    | nil => rfl
    | cons q qs ih => rw [List.zipWith_cons_cons, List.map_cons, ih, hone]

theorem orderByCachedPrefix_eq (kv : KVCacheManager) (qs : List Request) :
    kv.orderByCachedPrefix Request.tokens qs = byLargest kv.cachedPrefixLen qs := by
  unfold orderByCachedPrefix
  cases ht : kv.tree with
  | none =>
    have hz (q : Request) : kv.cachedPrefixLen q = 0 := by simp [cachedPrefixLen, ht]
    refine (List.Pairwise.insertionSort_eq (List.pairwise_of_forall fun q q' => ?_)).symm
    rw [hz, hz]
  | some t =>
    have hone (q : Request) : t.cachedLen kv.blockSize q.tokens = kv.cachedPrefixLen q := by
      have hn : (max ((q.tokens.length : Int) - 1) 0).toNat = q.seqLen - 1 := by
        rw [Request.tokens_length]; omega
      rw [cachedPrefixLen_eq ht, RadixTree.cachedLen, RadixTree.prefixLen, hn]
    simp only [RadixTree.orderByCachedPrefix, byLargest, hone]

structure LookupsAgree (kv : KVCacheManager) : Prop where
  acquire : ∀ q : Request, q.cache = none → ∃ kv' q', kv.acquire q = .ok (kv.cachedPrefixLen q, kv', q')
  lens : ∀ qs, kv.cachedPrefixLens qs = .ok (qs.map kv.cachedPrefixLen)
  order_perm : ∀ qs, (kv.orderByCachedPrefix Request.tokens qs).Perm qs
  order_longest : ∀ qs, (kv.orderByCachedPrefix Request.tokens qs).Pairwise
    (fun q q' => kv.cachedPrefixLen q' ≤ kv.cachedPrefixLen q)
  order_stable : ∀ qs n, (kv.orderByCachedPrefix Request.tokens qs).filter (kv.cachedPrefixLen · = n) =
    qs.filter (kv.cachedPrefixLen · = n)

theorem Sound.lookupsAgree (hs : kv.Sound store live) : kv.LookupsAgree where
  acquire := fun _ hc => hs.acquire_count hc
  lens := kv.cachedPrefixLens_eq
  order_perm := fun qs => by rw [orderByCachedPrefix_eq]; exact byLargest_perm _ qs
  order_longest := fun qs => by rw [orderByCachedPrefix_eq]; exact byLargest_sorted _ qs
  order_stable := fun qs n => by rw [orderByCachedPrefix_eq]; exact byLargest_filter _ qs n

end KVCacheManager

theorem radix_refines_prefix_map {bs : Nat} (hbs : 0 < bs) {t : RadixTree} (ht : RadixTree.Reachable bs t)
    {s : KVClient} (hs : s.Reachable) : RadixTree.RefinesPrefixMap bs t ∧ s.kv.LookupsAgree :=
  ⟨(ht.shaped hbs).refinesPrefixMap hbs, KVCacheManager.Sound.lookupsAgree hs.sound⟩

def sharedTree : RadixTree :=
  ((((RadixTree.new 0).insert 2 ⟨4, 2, [], fun _ => 1, Nat.succ_pos (nat_lit 3), Nat.two_pos⟩
    [1, 2, 3, 4] [0, 1]).2.2).matchPrefix 2
    [1, 2, 5]).2

theorem radix_refines_prefix_map_shared :
    sharedTree.prefixMap 2 [1, 2, 3, 4] = some 1 ∧ RadixTree.RefinesPrefixMap 2 sharedTree ∧
      KVClient.cachedPrompt.kv.LookupsAgree :=
  ⟨by decide +kernel, radix_refines_prefix_map (by decide) ((RadixTree.Reachable.new 0).insert _ _ _ |>.matchPrefix _)
    KVClient.cachedPrompt_reachable⟩

end MiniServe
