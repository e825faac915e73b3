import MiniServe.Minicore.TreeRefines

namespace MiniServe.Minicore

open Forest

variable {bs : Nat}

namespace RadixTree

variable {t : RadixTree} {a : BlockAllocator} {m : MiniServe.RadixNode} {u : Nat}

def Covered (a : MiniServe.BlockAllocator) (t : MiniServe.RadixTree) : Prop :=
  ∀ b ∈ treeBlocks t.forest, a.InRange b ∧ (treeBlocks t.forest).count b ≤ a.ref b

structure Ready (bs : Nat) (a : BlockAllocator) (t : RadixTree) : Prop where
  clean : a.Clean
  indexed : Indexed [] t
  shaped : t.reference.Shaped bs
  covered : Covered a.reference t.reference

section Remove

theorem Covered.free {a : MiniServe.BlockAllocator} {t : MiniServe.RadixTree} (h : Covered a t)
    (hn : (keys MiniServe.RadixNode.uid t.forest).Nodup) (hm : m ∈ t.unlockedLeaves) :
    a.freeBlocks m.blocks = (.ok (), m.blocks.foldl MiniServe.BlockAllocator.dropRef a) ∧
      Covered (m.blocks.foldl MiniServe.BlockAllocator.dropRef a) (t.detach m) := by
  have hperm := MiniServe.RadixTree.detach_treeBlocks hn (MiniServe.RadixTree.mem_unlockedLeaves.mp hm).1
  have hcount (b : Int) : (treeBlocks t.forest).count b =
      m.blocks.count b + (treeBlocks (t.detach m).forest).count b := by
    rw [hperm.count_eq, List.count_append]
  have hmem : ∀ b, b ∈ m.blocks ∨ b ∈ treeBlocks (t.detach m).forest → b ∈ treeBlocks t.forest := by
    intro b hb
    rw [hperm.mem_iff, List.mem_append]
    exact hb
  constructor
  · refine MiniServe.BlockAllocator.freeBlocks_ok fun b hb => ?_
    obtain ⟨h1, h2⟩ := h b (hmem b (.inl hb))
    exact ⟨h1, by have := hcount b; omega⟩
  · intro b hb
    obtain ⟨h1, h2⟩ := h b (hmem b (.inr hb))
    refine ⟨?_, ?_⟩
    · rw [MiniServe.BlockAllocator.InRange, MiniServe.BlockAllocator.foldl_dropRef_numBlocks]
      exact h1
    · rw [MiniServe.BlockAllocator.foldl_dropRef_ref]
      have := hcount b
      omega

theorem Tracked.without {on : Bool} {l : List RadixNode} {index : List IndexKey} (h : Tracked on l index)
    (hu : ∀ n ∈ l, n.uid = u → n.indexed = false) : Tracked on (l.filter fun n => n.uid ≠ u) index := by
  refine ⟨h.sorted, fun k => ?_, fun n hn => h.off n (List.mem_of_mem_filter hn),
    h.nodup.sublist (List.filter_sublist.map _)⟩
  rw [h.mem_iff]
  constructor
  · rintro ⟨n, hn, hi, rfl⟩
    refine ⟨n, List.mem_filter.mpr ⟨hn, ?_⟩, hi, rfl⟩
    simp only [decide_eq_true_eq]
    intro e
    simp [hu n hn e] at hi
  · rintro ⟨n, hn, hi, rfl⟩
    exact ⟨n, List.mem_of_mem_filter hn, hi, rfl⟩

theorem visit_unindex_off {F : Forest RadixNode} (hn : (keys (fun n => n.uid) F).Nodup) (index : List IndexKey) :
    ∀ n ∈ (F.visit (fun n => n.uid) u (fun n _ index => n.unindex index) index).1.labels, n.uid = u →
    n.indexed = false := by
  induction F generalizing index with
  | nil => simp [Forest.visit]
  | cons c b r ihb ihr =>
    obtain ⟨hcb, hcr, hb, hr, -⟩ := nodup_keys_cons _ hn
    rw [Forest.visit]
    split
    · next e =>
      intro n hm he
      have hother : ∀ {G : Forest RadixNode}, c.uid ∉ keys (fun n => n.uid) G → n ∈ G.labels → False :=
        fun hG hm => hG ((mem_keys _).mpr ⟨n, hm, by rw [he, e]⟩)
      simp only [labels_cons, List.mem_cons, List.mem_append] at hm
      rcases hm with rfl | hm | hm
      · rw [RadixNode.unindex_fst]
      · exact (hother hcb hm).elim
      · exact (hother hcr hm).elim
    · next e =>
      intro n hm he
      simp only [labels_cons, List.mem_cons, List.mem_append] at hm
      rcases hm with rfl | hm | hm
      · exact absurd he e
      · exact ihb hb index n hm he
      · exact ihr hr _ n hm he

theorem nodeAt_spec (hn : (keys (fun n => n.uid) t.forest).Nodup) (hm : m ∈ t.reference.forest.labels) :
    ∃ n ∈ t.forest.labels, t.nodeAt m.uid = some n ∧ n.toRadixNode = m := by
  rw [reference_forest, labels_map] at hm
  obtain ⟨n, hl, rfl⟩ := List.mem_map.mp hm
  refine ⟨n, hl, ?_, rfl⟩
  obtain ⟨n', hfind⟩ := Option.isSome_iff_exists.mp (List.find?_isSome.mpr ⟨n, hl, by simp⟩ :
    (t.forest.labels.find? fun x => x.uid = n.uid).isSome)
  have huid : n'.uid = n.uid := by simpa using List.find?_some hfind
  rw [nodeAt, hfind, label_unique _ hn (List.mem_of_find?_eq_some hfind) hl huid]

theorem leaf_only (hn : (keys (fun n => n.uid) t.forest).Nodup) (hm : m ∈ t.reference.forest.leaves) :
    ∀ x ∈ t.forest.nodes, x.1.uid = m.uid → x.2 = nil := by
  rw [reference_forest, leaves_map] at hm
  obtain ⟨n, hl, rfl⟩ := List.mem_map.mp hm
  exact leaf_unique hn hl

theorem detach_reference (t : RadixTree) (n : RadixNode) :
    (t.detach n).reference = t.reference.detach n.toRadixNode := by
  have hmap : (t.forest.remove (fun n => n.uid) n.uid).map RadixNode.toRadixNode =
      (t.forest.map RadixNode.toRadixNode).remove MiniServe.RadixNode.uid n.uid :=
        remove_map (fun _ => rfl) n.uid t.forest
  simp only [detach, reference, MiniServe.RadixTree.detach, hmap]

theorem Indexed.detach {n : RadixNode} {K : List Nat} (h : Indexed [n.uid] t)
    (hn : (keys (fun n => n.uid) t.forest).Nodup)
    (hleaf : ∀ x ∈ t.forest.nodes, x.1.uid = n.uid → x.2 = nil)
    (hoff : ∀ x ∈ t.forest.labels, x.uid = n.uid → x.indexed = false)
    (hK : ∀ x, t.forest.parent (fun n => n.uid) n.uid = some x → x.1.uid ∈ K) : Indexed K (t.detach n) := by
  refine ⟨?_, remove_flagged h.flagged hn hK⟩
  have hlabels : (t.forest.remove (fun n => n.uid) n.uid).labels = t.forest.labels.filter fun x => x.uid ≠ n.uid :=
    labels_remove hleaf
  show Tracked t.indexedEviction (t.forest.remove (fun n => n.uid) n.uid).labels t.index
  rw [hlabels]
  exact Tracked.without h.tracked hoff

theorem removeLeaf_refines (h : Ready bs a t) (hm : m ∈ t.reference.unlockedLeaves) :
    ∃ n a' t', t.nodeAt m.uid = some n ∧ n.toRadixNode = m ∧ t.removeLeaf a n = (.ok (), a', t') ∧
      a.reference.freeBlocks m.blocks = (.ok (), a'.reference) ∧ t'.reference = t.reference.detach m ∧
      t'.indexedEviction = t.indexedEviction ∧ Ready bs a' t' := by
  obtain ⟨hleaf, hlock⟩ := MiniServe.RadixTree.mem_unlockedLeaves.mp hm
  have hn : (keys (fun n => n.uid) t.forest).Nodup := by
    rw [keys_reference]
    exact h.shaped.keys_nodup
  obtain ⟨n, hl, hat, rfl⟩ := nodeAt_spec hn (leaves_subset_labels _ _ hleaf)
  obtain ⟨hfree, hcovered⟩ := h.covered.free h.shaped.keys_nodup hm
  have hindexed := h.indexed.unindexAt n.uid
  have href := unindexAt_reference t n.uid
  have hn' : (keys (fun n => n.uid) (t.unindexAt n.uid).forest).Nodup := by
    rw [keys_reference, href]
    exact h.shaped.keys_nodup
  have hleaf' : ∀ x ∈ (t.unindexAt n.uid).forest.nodes, x.1.uid = n.uid → x.2 = nil := by
    rw [← href] at hleaf
    exact leaf_only hn' hleaf
  have hoff : ∀ x ∈ (t.unindexAt n.uid).forest.labels, x.uid = n.uid → x.indexed = false := visit_unindex_off hn t.index
  have hdetach : ((t.unindexAt n.uid).detach n).reference = t.reference.detach n.toRadixNode := by
    rw [detach_reference, href]
  have hshaped := h.shaped.detach hleaf
  obtain ⟨h1, h2, h3⟩ := BlockAllocator.freeBlocks_refines h.clean n.blocks
  have hrun : t.removeLeaf a n = (.ok (), (a.freeBlocks n.blocks).2, (t.unindexAt n.uid).detachLeaf n) := by
    rw [hfree] at h1
    unfold removeLeaf
    generalize a.freeBlocks n.blocks = x at h1 ⊢
    obtain ⟨x1, a'⟩ := x
    simp only at h1
    subst h1
    rfl
  rw [hfree] at h2
  obtain ⟨h4, h5, h6⟩ : ((t.unindexAt n.uid).detachLeaf n).reference = t.reference.detach n.toRadixNode ∧
      ((t.unindexAt n.uid).detachLeaf n).indexedEviction = t.indexedEviction ∧
          Indexed [] ((t.unindexAt n.uid).detachLeaf n) := by
    unfold detachLeaf
    cases hp : (t.unindexAt n.uid).forest.parent (fun n => n.uid) n.uid with
    | none => exact ⟨hdetach, rfl, hindexed.detach hn' hleaf' hoff fun x hx => by simp [hp] at hx⟩
    | some x =>
      obtain ⟨p, below⟩ := x
      refine ⟨(reindexAt_reference _ p.uid).trans hdetach, rfl,
        (hindexed.detach hn' hleaf' hoff fun x hx => ?_).reindexAt⟩
      rw [hp, Option.some.injEq] at hx
      simp [← hx]
  exact ⟨n, _, _, hat, rfl, hrun, hfree.trans (by rw [h2]), h4, h5, h3, h6, h4 ▸ hshaped, by rwa [h2, h4]⟩

end Remove

section Loop

def keyOf (m : MiniServe.RadixNode) : IndexKey := toLex (m.lastAccess, m.uid)

theorem evictsBefore_iff {m m' : MiniServe.RadixNode} : m.evictsBefore m' ↔ keyOf m ≤ keyOf m' := by
  rw [keyOf, keyOf, Prod.Lex.toLex_le_toLex]
  rfl

-- The index is exactly what the walk would collect.
theorem Indexed.mem_index (h : Indexed [] t) (hon : t.indexedEviction = true) (k : IndexKey) :
    k ∈ t.index ↔ ∃ m ∈ t.reference.unlockedLeaves, keyOf m = k := by
  rw [h.tracked.mem_iff]
  constructor
  · rintro ⟨n, hn, hi, rfl⟩
    rw [labels_eq_nodes] at hn
    obtain ⟨x, hx, rfl⟩ := List.mem_map.mp hn
    have hflag := h.flagged x hx (List.not_mem_nil)
    rw [hi, hon, Bool.true_and, RadixNode.evictable, eq_comm, Bool.and_eq_true, isNil_iff, beq_iff_eq] at hflag
    obtain ⟨hnil, hlock⟩ := hflag
    refine ⟨x.1.toRadixNode, MiniServe.RadixTree.mem_unlockedLeaves.mpr ⟨?_, hlock⟩, rfl⟩
    rw [reference_forest, leaves_map]
    exact List.mem_map_of_mem ((mem_leaves_iff _ _).mpr (hnil ▸ hx))
  · rintro ⟨m, hm, rfl⟩
    obtain ⟨hleaf, hlock⟩ := MiniServe.RadixTree.mem_unlockedLeaves.mp hm
    rw [reference_forest, leaves_map] at hleaf
    obtain ⟨n, hn, rfl⟩ := List.mem_map.mp hleaf
    have hflag := h.flagged (n, nil) ((mem_leaves_iff _ _).mp hn) (List.not_mem_nil)
    refine ⟨n, leaves_subset_labels _ _ hn, ?_, rfl⟩
    rw [show n.indexed = _ from hflag, hon, Bool.true_and]
    simpa [RadixNode.evictable, isNil] using hlock

theorem Indexed.head_index (h : Indexed [] t) (hon : t.indexedEviction = true) {heap heap' : List MiniServe.RadixNode}
    (hheap : MiniServe.RadixTree.HeapOk t.reference heap) (hpop : MiniServe.popMin heap = some (m, heap')) :
    t.index.head? = some (keyOf m) := by
  obtain ⟨hperm, hmin⟩ := popMin_spec hpop
  have hm : keyOf m ∈ t.index := (h.mem_index hon _).mpr ⟨m, (hheap.mem_iff m).mp (hperm.mem_iff.mpr (by simp)), rfl⟩
  cases hix : t.index with
  | nil => simp [hix] at hm
  | cons k index =>
    have hsorted := h.tracked.sorted
    rw [hix] at hm hsorted
    obtain ⟨m', hm', rfl⟩ := (h.mem_index hon k).mp (by simp [hix])
    have hle : keyOf m ≤ keyOf m' := by
      rw [← evictsBefore_iff]
      rcases List.mem_cons.mp (hperm.mem_iff.mp ((hheap.mem_iff m').mpr hm')) with rfl | hmem
      · exact .inr ⟨rfl, le_rfl⟩
      · exact hmin m' hmem
    rw [List.head?_cons, le_antisymm (hsorted.head_le _ hm) hle]

theorem evictIndexed_refines (N : Int) (fuel : Nat) {k : Int} {heap : List MiniServe.RadixNode} (h : Ready bs a t)
    (hon : t.indexedEviction = true) (hheap : MiniServe.RadixTree.HeapOk t.reference heap) :
    Agree (t.evictIndexed N fuel a k) (MiniServe.RadixTree.evictLoop N fuel a.reference t.reference heap k) := by
  induction fuel generalizing k a t heap with
  | zero => exact ⟨rfl, rfl, h.clean, rfl, h.indexed⟩
  | succ fuel ih =>
    rw [evictIndexed, MiniServe.RadixTree.evictLoop]
    by_cases hk : k < N
    · rw [if_pos hk, if_pos hk]
      cases hpop : MiniServe.popMin heap with
      | none =>
        have hnil : t.index = [] := by
          rw [List.eq_nil_iff_forall_not_mem]
          intro key hkey
          obtain ⟨m, hm, -⟩ := (h.indexed.mem_index hon key).mp hkey
          have := (hheap.mem_iff m).mpr hm
          simp [popMin_eq_none.mp hpop] at this
        simp only [hnil, List.head?_nil, Option.bind_none]
        exact ⟨rfl, rfl, h.clean, rfl, h.indexed⟩
      | some x =>
        obtain ⟨m, heap'⟩ := x
        have hm : m ∈ t.reference.unlockedLeaves :=
          (hheap.mem_iff m).mp ((popMin_spec hpop).1.mem_iff.mpr (by simp))
        obtain ⟨n, a', t', hat, rfl, hrun, hfree, href, hon', hready⟩ := removeLeaf_refines h hm
        have hhead : (t.index.head?.bind fun k => t.nodeAt (ofLex k).2) = some n := by
          rw [h.indexed.head_index hon hheap hpop]
          exact hat
        have hheap' := hheap.step h.shaped.keys_nodup hpop
        rw [← href] at hheap'
        have hnext := ih (k := k + n.blocks.length) hready (hon'.trans hon) hheap'
        simp only [hhead, hrun, hfree]
        rwa [href] at hnext
    · rw [if_neg hk, if_neg hk]
      exact ⟨rfl, rfl, h.clean, rfl, h.indexed⟩

theorem popMin_map (heap : List MiniServe.RadixNode) :
    popMin (heap.map keyOf) = (MiniServe.popMin heap).map fun x => (keyOf x.1, x.2.map keyOf) := by
  induction heap with
  | nil => rfl
  | cons m heap ih =>
    rw [List.map_cons, popMin, MiniServe.popMin, ih]
    cases MiniServe.popMin heap with
    | none => rfl
    | some x =>
      simp only [Option.map_some, ← evictsBefore_iff]
      by_cases hb : m.evictsBefore x.1
      · simp [hb]
      · simp [hb]

theorem pushParent_map (t : RadixTree) (n : RadixNode) (heap : List MiniServe.RadixNode) :
    t.pushParent n (heap.map keyOf) = (t.reference.pushParent n.toRadixNode heap).map keyOf := by
  have hparent : t.reference.forest.parent MiniServe.RadixNode.uid n.uid =
      (t.forest.parent (fun n => n.uid) n.uid).map fun x => (x.1.toRadixNode, x.2.map RadixNode.toRadixNode) :=
    parent_map (fun _ => rfl) n.uid t.forest
  unfold pushParent MiniServe.RadixTree.pushParent
  rw [hparent]
  cases t.forest.parent (fun n => n.uid) n.uid with
  | none => rfl
  | some x =>
    have hremove : (x.2.map RadixNode.toRadixNode).remove MiniServe.RadixNode.uid n.uid =
        (x.2.remove (fun n => n.uid) n.uid).map RadixNode.toRadixNode := (remove_map (fun _ => rfl) n.uid x.2).symm
    simp only [Option.map_some, hremove, isNil_map, RadixNode.evictable, Bool.and_eq_true, beq_iff_eq]
    split
    · rfl
    · rfl

theorem evictScan_refines (N : Int) (fuel : Nat) {k : Int} {heap : List MiniServe.RadixNode} (h : Ready bs a t)
    (hheap : MiniServe.RadixTree.HeapOk t.reference heap) :
    Agree (t.evictScan N fuel a (heap.map keyOf) k)
    (MiniServe.RadixTree.evictLoop N fuel a.reference t.reference heap k) := by
  induction fuel generalizing k a t heap with
  | zero => exact ⟨rfl, rfl, h.clean, rfl, h.indexed⟩
  | succ fuel ih =>
    rw [evictScan, MiniServe.RadixTree.evictLoop, popMin_map]
    by_cases hk : k < N
    · rw [if_pos hk, if_pos hk]
      cases hpop : MiniServe.popMin heap with
      | none => exact ⟨rfl, rfl, h.clean, rfl, h.indexed⟩
      | some x =>
        obtain ⟨m, heap'⟩ := x
        have hm : m ∈ t.reference.unlockedLeaves :=
          (hheap.mem_iff m).mp ((popMin_spec hpop).1.mem_iff.mpr (by simp))
        obtain ⟨n, a', t', hat, rfl, hrun, hfree, href, -, hready⟩ := removeLeaf_refines h hm
        have hat' : t.nodeAt (ofLex (keyOf n.toRadixNode)).2 = some n := hat
        have hheap' := hheap.step h.shaped.keys_nodup hpop
        rw [← href] at hheap'
        have hnext := ih (k := k + n.blocks.length) hready hheap'
        simp only [Option.map_some, Option.bind_some, hat', hrun, hfree, pushParent_map]
        rwa [href] at hnext
    · rw [if_neg hk, if_neg hk]
      exact ⟨rfl, rfl, h.clean, rfl, h.indexed⟩

theorem evict_refines (h : Ready bs a t) (N : Int) : Agree (t.evict a N) (t.reference.evict a.reference N) := by
  have hheap := MiniServe.RadixTree.heapOk_unlockedLeaves h.shaped.keys_nodup
  have hlen : t.reference.forest.labels.length = t.forest.labels.length := by
    rw [reference_forest, labels_map, List.length_map]
  have hleaves : t.unlockedLeaves = t.reference.unlockedLeaves.map keyOf := by
    rw [unlockedLeaves, MiniServe.RadixTree.unlockedLeaves, reference_forest, leaves_map, List.filter_map, List.map_map]
    rfl
  unfold evict MiniServe.RadixTree.evict
  rw [hlen, hleaves]
  split
  · next hon => exact evictIndexed_refines N _ h hon hheap
  · exact evictScan_refines N _ h hheap

theorem clear_refines (h : Ready bs a t) : Agree (t.clear a) (t.reference.clear a.reference) := by
  have hevict := evict_refines h t.numCachedBlocks
  unfold clear MiniServe.RadixTree.clear
  by_cases hne : t.numEvictable ≠ t.numCachedBlocks
  · have hne' : t.reference.numEvictable ≠ t.reference.numCachedBlocks := hne
    rw [if_pos hne, if_pos hne']
    exact ⟨rfl, rfl, h.clean, rfl, h.indexed⟩
  · have hne' : ¬ t.reference.numEvictable ≠ t.reference.numCachedBlocks := hne
    rw [if_neg hne, if_neg hne', reference_numCachedBlocks]
    obtain ⟨h1, h2, h3, h4, h5⟩ := hevict
    generalize t.evict a t.numCachedBlocks = x at h1 h2 h3 h4 h5 ⊢
    generalize t.reference.evict a.reference t.numCachedBlocks = y at h1 h2 h4 ⊢
    obtain ⟨x1, x2, x3⟩ := x
    obtain ⟨y1, y2, y3⟩ := y
    simp only at h1 h2 h3 h4 h5
    subst h1 h2 h4
    cases x1 with
    | error e => exact ⟨rfl, rfl, h3, rfl, h5⟩
    | ok => exact ⟨rfl, rfl, h3, rfl, h5⟩

end Loop

section IndexedEviction

theorem unlock_indexedEviction (t : RadixTree) (u : Nat) : (t.unlock u).2.indexedEviction = t.indexedEviction := by
  unfold unlock
  dsimp only
  split <;> rfl

theorem insert_indexedEviction (bs : Nat) (t : RadixTree) (a : BlockAllocator) (ts : List Token) (blocks : List Int) :
    (t.insert bs a ts blocks).2.2.indexedEviction = t.indexedEviction := by
  unfold insert
  split
  · rfl
  · dsimp only
    split
    · rfl
    · split <;> rfl

theorem removeLeaf_indexedEviction (t : RadixTree) (a : BlockAllocator) (n : RadixNode) :
    (t.removeLeaf a n).2.2.indexedEviction = t.indexedEviction := by
  unfold removeLeaf detachLeaf
  dsimp only
  split
  · rfl
  · split <;> rfl

theorem evictIndexed_indexedEviction (N : Int) (fuel : Nat) (a : BlockAllocator) (t : RadixTree) (k : Int) :
    (t.evictIndexed N fuel a k).2.2.indexedEviction = t.indexedEviction := by
  induction fuel generalizing a t k with
  | zero => rfl
  | succ fuel ih =>
    rw [evictIndexed]
    split
    · split
      · rfl
      · next n hn =>
        have hremove := removeLeaf_indexedEviction t a n
        generalize t.removeLeaf a n = x at hremove ⊢
        obtain ⟨r, a', t'⟩ := x
        cases r with
        | error e => exact hremove
        | ok => exact (ih a' t' _).trans hremove
    · rfl

theorem evictScan_indexedEviction (N : Int) (fuel : Nat) (a : BlockAllocator) (t : RadixTree)
    (heap : List IndexKey) (k : Int) :
    (t.evictScan N fuel a heap k).2.2.indexedEviction = t.indexedEviction := by
  induction fuel generalizing a t heap k with
  | zero => rfl
  | succ fuel ih =>
    rw [evictScan]
    split
    · split
      · rfl
      · next n heap' hn =>
        have hremove := removeLeaf_indexedEviction t a n
        generalize t.removeLeaf a n = x at hremove ⊢
        obtain ⟨r, a', t'⟩ := x
        cases r with
        | error e => exact hremove
        | ok => exact (ih a' t' _ _).trans hremove
    · rfl

theorem evict_indexedEviction (t : RadixTree) (a : BlockAllocator) (N : Int) :
    (t.evict a N).2.2.indexedEviction = t.indexedEviction := by
  unfold evict
  split
  · exact evictIndexed_indexedEviction N _ a t 0
  · exact evictScan_indexedEviction N _ a t _ 0

theorem clear_indexedEviction (t : RadixTree) (a : BlockAllocator) :
    (t.clear a).2.2.indexedEviction = t.indexedEviction := by
  have hevict := evict_indexedEviction t a t.numCachedBlocks
  unfold clear
  split
  · rfl
  · generalize t.evict a t.numCachedBlocks = x at hevict ⊢
    obtain ⟨r, a', t'⟩ := x
    cases r with
    | error e => exact hevict
    | ok => exact hevict

end IndexedEviction

end RadixTree

end MiniServe.Minicore
