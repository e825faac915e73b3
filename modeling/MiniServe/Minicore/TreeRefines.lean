import MiniServe.Cache.RadixMoves
import MiniServe.Minicore.Upkeep

namespace MiniServe.Minicore

open Forest

variable {on : Bool} {bs clock uid : Nat}

section Lookup

theorem sameBlock_iff {c ts : List Token} (h : bs ≤ ts.length) : sameBlock bs c ts = true ↔ c.take bs = ts.take bs := by
  induction bs generalizing c ts with
  | zero => simp [sameBlock]
  | succ bs ih =>
    cases ts with
    | nil => simp at h
    | cons t ts =>
      cases c with
      | nil => simp [sameBlock]
      | cons c cs =>
        have hlen : bs ≤ ts.length := by simpa using h
        simp [sameBlock, ih hlen]

theorem matchLen_eq (blocks : List Int) (c ts : List Token) :
    matchLen bs blocks c ts = MiniServe.matchLen bs blocks c ts := by
  induction blocks generalizing c ts with
  | nil => rfl
  | cons b blocks ih =>
    rw [matchLen, MiniServe.matchLen, ih]
    by_cases h : bs ≤ ts.length
    · simp only [h, true_and, sameBlock_iff h]
    · simp only [h, false_and]

theorem matchedBlocks_eq (n : RadixNode) (ts : List Token) :
    matchedBlocks bs n ts = MiniServe.matchedBlocks bs n.toRadixNode ts := by
  rw [matchedBlocks, MiniServe.matchedBlocks, matchLen_eq]

structure Walk.Refines (w : Walk) (w' : MiniServe.Walk) : Prop where
  forest : w.forest.map RadixNode.toRadixNode = w'.forest
  node : w.node = w'.node
  matched : w.matched = w'.matched
  nextUid : w.nextUid = w'.nextUid

theorem walkBelow_refines (F : Forest RadixNode) (index : List IndexKey) (ts : List Token) :
    (walkBelow on bs clock uid index F ts).Refines
    (MiniServe.walkBelow bs clock uid (F.map RadixNode.toRadixNode) ts) := by
  induction F generalizing index ts with
  | nil => exact ⟨rfl, rfl, rfl, rfl⟩
  | cons n b r ihb ihr =>
    simp only [walkBelow, Forest.map, MiniServe.walkBelow, ← matchedBlocks_eq]
    by_cases hk : bs ≤ ts.length ∧ n.key bs = ts.take bs
    · have hk' : bs ≤ ts.length ∧ n.toRadixNode.key bs = ts.take bs := hk
      rw [if_pos hk, if_pos hk']
      by_cases hm : matchedBlocks bs n ts < n.blocks.length
      · rw [if_pos hm, if_pos hm]
        exact ⟨by simp [Forest.map, RadixNode.upper, RadixNode.lower, MiniServe.RadixNode.upper,
          MiniServe.RadixNode.lower],
          rfl, rfl, rfl⟩
      · rw [if_neg hm, if_neg hm]
        have htouch := n.touch_toRadixNode on b.isNil index clock
        generalize n.touch on b.isNil index clock = n' at htouch ⊢
        have huid : n'.1.uid = n.uid := by rw [htouch]; rfl
        obtain ⟨h1, h2, h3, h4⟩ := ihb n'.2 (ts.drop (matchedBlocks bs n ts * bs))
        exact ⟨by simp only [Forest.map, htouch, h1], by simp only [h2, huid], by simp only [h3], h4⟩
    · have hk' : ¬ (bs ≤ ts.length ∧ n.toRadixNode.key bs = ts.take bs) := hk
      rw [if_neg hk, if_neg hk']
      obtain ⟨h1, h2, h3, h4⟩ := ihr index ts
      exact ⟨by simp only [Forest.map, h1], h2, h3, h4⟩

theorem prefixLenBelow_eq (F : Forest RadixNode) (ts : List Token) :
    prefixLenBelow bs F ts = MiniServe.prefixLenBelow bs (F.map RadixNode.toRadixNode) ts := by
  induction F generalizing ts with
  | nil => rfl
  | cons n b r ihb ihr =>
    simp only [prefixLenBelow, Forest.map, MiniServe.prefixLenBelow, ← matchedBlocks_eq, ihb, ihr]
    rfl

end Lookup

namespace RadixTree

variable {t : RadixTree} {a : BlockAllocator} {K : List Nat} {u : Nat}

-- With eviction by the index or by the walk: what is marked, and so what the index holds, is what can be evicted,
-- between two steps of one call the nodes named in `K` apart.
structure Indexed (K : List Nat) (t : RadixTree) : Prop where
  tracked : Tracked t.indexedEviction t.forest.labels t.index
  flagged : Flagged t.indexedEviction K t.forest

@[simp] theorem reference_rootUid : t.reference.rootUid = t.rootUid := rfl
@[simp] theorem reference_forest : t.reference.forest = t.forest.map RadixNode.toRadixNode := rfl
@[simp] theorem reference_numCachedBlocks : t.reference.numCachedBlocks = t.numCachedBlocks := rfl
@[simp] theorem reference_clock : t.reference.clock = t.clock := rfl
@[simp] theorem reference_nextUid : t.reference.nextUid = t.nextUid := rfl

theorem new_reference (on : Bool) : (new on).reference = .new 0 := rfl

theorem new_indexed (on : Bool) : Indexed [] (new on) where
  tracked := ⟨List.Pairwise.nil, fun k => by simp [new], fun n hn => by simp [new] at hn, List.nodup_nil⟩
  flagged := fun x hx => by simp [new] at hx

theorem keys_reference (t : RadixTree) :
    keys (fun n : RadixNode => n.uid) t.forest = keys MiniServe.RadixNode.uid t.reference.forest :=
  (keys_map (fun _ => rfl) t.forest).symm

section Walk

theorem walk_refines (bs : Nat) (t : RadixTree) (ts : List Token) : (t.walk bs ts).Refines (t.reference.walk bs ts) :=
  walkBelow_refines t.forest t.index ts

theorem walked_reference (t : RadixTree) (ts : List Token) : (t.walked bs ts).reference = t.reference.walked bs ts := by
  obtain ⟨h1, -, -, h4⟩ := walk_refines bs t ts
  simp only [walked, reference, MiniServe.RadixTree.walked, h1, h4]

theorem Indexed.walked (h : Indexed [] t) (hs : t.reference.Shaped bs) (ts : List Token) :
    Indexed [] (t.walked bs ts) := by
  have hu : t.nextUid ∉ (t.forest.labels ++ []).map fun n : RadixNode => n.uid := by
    rw [List.append_nil]
    intro hm
    have := hs.keys_lt t.nextUid (by rw [← keys_reference]; exact hm)
    simp at this
  have htracked : Tracked t.indexedEviction (t.forest.labels ++ []) t.index := by simpa using h.tracked
  obtain ⟨h1, h2⟩ : Tracked t.indexedEviction ((t.walk bs ts).forest.labels ++ []) (t.walk bs ts).index ∧ _ :=
    walkBelow_upkeep t.forest htracked h.flagged hu
  exact ⟨h1.labels, h2⟩

theorem path_reference (t : RadixTree) (u : Nat) : t.reference.forest.path MiniServe.RadixNode.uid u =
    (t.forest.path (fun n => n.uid) u).map RadixNode.toRadixNode := path_map (fun _ => rfl) u t.forest

theorem pathBlocks_eq (t : RadixTree) (u : Nat) : t.pathBlocks u = t.reference.pathBlocks u := by
  rw [pathBlocks, MiniServe.RadixTree.pathBlocks, path_reference, List.flatMap_map]

theorem matchPrefix_refines (bs : Nat) (t : RadixTree) (ts : List Token) :
    (t.matchPrefix bs ts).1 = (t.reference.matchPrefix bs ts).1 ∧
      (t.matchPrefix bs ts).2.reference = (t.reference.matchPrefix bs ts).2 := by
  obtain ⟨-, h2, h3, -⟩ := walk_refines bs t ts
  unfold matchPrefix MiniServe.RadixTree.matchPrefix
  simp only [pathBlocks_eq, walked_reference, h2, h3]
  split
  · next h =>
    split
    · next h' => exact absurd h' h
    · exact ⟨rfl, walked_reference t ts⟩
  · next h =>
    split
    · exact ⟨rfl, walked_reference t ts⟩
    · next h' => exact absurd h' h

theorem matchPrefix_snd (t : RadixTree) (ts : List Token) : (t.matchPrefix bs ts).2 = t.walked bs ts := by
  unfold matchPrefix
  dsimp only
  split <;> rfl

end Walk

section Insert

variable {f : RadixNode → Bool → List IndexKey → RadixNode × List IndexKey} {leaf : RadixNode}

theorem visit_reference (hf : ∀ n leaf index, (f n leaf index).1.toRadixNode = n.toRadixNode) (t : RadixTree) (u : Nat) :
    (t.visit u f).reference = t.reference := by
  simp only [visit, reference, map_visit hf]

theorem unindexAt_reference (t : RadixTree) (u : Nat) : (t.unindexAt u).reference = t.reference :=
  visit_reference (fun n _ index => n.unindex_toRadixNode index) t u

theorem reindexAt_reference (t : RadixTree) (u : Nat) : (t.reindexAt u).reference = t.reference :=
  visit_reference (RadixNode.reindex_toRadixNode t.indexedEviction) t u

theorem attach_reference (t : RadixTree) (u : Nat) (leaf : RadixNode) : (t.attach u leaf).reference =
    { t.reference with forest := t.reference.attach u leaf.toRadixNode t.reference.forest } := by
  by_cases h : u = t.rootUid
  · have h' : u = t.reference.rootUid := h
    rw [attach, if_pos h, MiniServe.RadixTree.attach, if_pos h', reference_forest, ← append_map]
    rfl
  · have h' : ¬ u = t.reference.rootUid := h
    have hmap : (t.forest.addUnder (fun n => n.uid) u leaf).map RadixNode.toRadixNode =
        (t.forest.map RadixNode.toRadixNode).addUnder MiniServe.RadixNode.uid u leaf.toRadixNode :=
      addUnder_map (fun _ => rfl) u leaf t.forest
    rw [attach, if_neg h, MiniServe.RadixTree.attach, if_neg h', reference_forest, ← hmap]
    rfl

theorem Indexed.weaken (h : Indexed K t) (u : Nat) : Indexed (u :: K) t := ⟨h.tracked, h.flagged.weaken u⟩

theorem Indexed.visited (h : Indexed K t) (hf : ∀ n leaf index l, Tracked t.indexedEviction (n :: l) index →
      Tracked t.indexedEviction ((f n leaf index).1 :: l) (f n leaf index).2) :
    Tracked t.indexedEviction (t.visit u f).forest.labels (t.visit u f).index := by
  have htracked : Tracked t.indexedEviction (t.forest.labels ++ []) t.index := by simpa using h.tracked
  exact (visit_tracked hf t.forest htracked).labels

theorem Indexed.unindexAt (h : Indexed K t) (u : Nat) : Indexed (u :: K) (t.unindexAt u) :=
  ⟨h.visited fun _ _ _ _ h => h.unindex,
    visit_flagged (fun n _ index => by rw [RadixNode.unindex_toRadixNode]) h.flagged t.index⟩

theorem Indexed.reindexAt (h : Indexed (u :: K) t) : Indexed K (t.reindexAt u) := by
  have htracked : Tracked t.indexedEviction (t.forest.labels ++ []) t.index := by simpa using h.tracked
  exact ⟨h.visited fun _ leaf _ _ h => (h.reindex leaf).1, visit_reindex t.forest htracked h.flagged⟩

theorem Indexed.attach (h : Indexed K t) (hs : t.reference.Shaped bs) (hu : t.reference.Holds u) (hK : u ∈ K)
    (hleaf : leaf.uid ∈ K) (hoff : leaf.indexed = false) (hnew : leaf.uid ∉ keys (fun n => n.uid) t.forest) :
    Indexed K (t.attach u leaf) := by
  have hperm : (t.attach u leaf).forest.labels.Perm (leaf :: t.forest.labels) := by
    rcases hu with hu | hu
    · simp only [RadixTree.attach, if_pos (show u = t.rootUid from hu), labels_append]
      exact List.perm_append_comm
    · have hne : u ≠ t.rootUid := by
        rintro rfl
        exact hs.root_not_mem hu
      have hn := hs.keys_nodup
      rw [← keys_reference] at hu hn
      simp only [RadixTree.attach, if_neg hne]
      exact perm_labels_addUnder leaf hn hu
  refine ⟨(h.tracked.cons hoff hnew).perm hperm.symm, ?_⟩
  simp only [RadixTree.attach]
  split
  · exact append_flagged h.flagged hleaf
  · exact addUnder_flagged h.flagged hleaf hK

structure Agree {ρ : Type} (x : Except Error ρ × BlockAllocator × RadixTree)
    (y : Except Error ρ × MiniServe.BlockAllocator × MiniServe.RadixTree) : Prop where
  reply : x.1 = y.1
  allocator : x.2.1.reference = y.2.1
  clean : x.2.1.Clean
  tree : x.2.2.reference = y.2.2
  indexed : Indexed [] x.2.2

theorem grow_reference (t : RadixTree) (u : Nat) (leaf : RadixNode) : (t.grow u leaf).reference =
    { t.reference with forest := t.reference.attach u leaf.toRadixNode t.reference.forest } := by
  rw [grow, reindexAt_reference, reindexAt_reference, attach_reference, unindexAt_reference]

theorem Indexed.grow (h : Indexed [] t) (hs : t.reference.Shaped bs) (hu : t.reference.Holds u)
    (huid : leaf.uid = t.nextUid) (hoff : leaf.indexed = false) : Indexed [] (t.grow u leaf) := by
  have hunindexed := (h.weaken leaf.uid).unindexAt u
  rw [← unindexAt_reference t u] at hs hu
  have hnew : leaf.uid ∉ keys (fun n : RadixNode => n.uid) (t.unindexAt u).forest := by
    intro hm
    rw [keys_reference] at hm
    have hlt := hs.keys_lt _ hm
    have hnext : (t.unindexAt u).reference.nextUid = t.nextUid := rfl
    omega
  exact (hunindexed.attach hs hu (by simp) (by simp) hoff hnew).reindexAt.reindexAt

theorem insert_refines (ha : a.Clean) (h : Indexed [] t) (hs : t.reference.Shaped bs) (ts : List Token)
    (blocks : List Int) :
    Agree (t.insert bs a ts blocks) (t.reference.insert bs a.reference ts blocks) := by
  obtain ⟨-, h2, h3, -⟩ := walk_refines bs t ts
  have hwalked : (t.walked bs ts).reference = t.reference.walked bs ts := walked_reference t ts
  have hi := h.walked hs ts
  have hs' : (t.walked bs ts).reference.Shaped bs := hwalked ▸ hs.walked ts
  have hholds : (t.walked bs ts).reference.Holds ((t.walk bs ts).node.getD t.rootUid) := by
    rw [hwalked, h2]
    exact (hs.walkNode_spec ts).1
  unfold insert MiniServe.RadixTree.insert
  by_cases hlen : ts.length ≠ blocks.length * bs
  · rw [if_pos hlen, if_pos hlen]
    exact ⟨rfl, rfl, ha, rfl, h⟩
  · rw [if_neg hlen, if_neg hlen]
    dsimp only
    rw [← h2, ← h3, ← hwalked]
    by_cases hm : (t.walk bs ts).matched = blocks.length
    · rw [if_pos hm, if_pos hm]
      exact ⟨rfl, rfl, ha, rfl, hi⟩
    · rw [if_neg hm, if_neg hm]
      obtain ⟨hinc1, hinc2, hinc3⟩ := a.incref_refines (blocks.drop (t.walk bs ts).matched)
      generalize a.incref (blocks.drop (t.walk bs ts).matched) = x at hinc1 hinc2 hinc3 ⊢
      generalize a.reference.incref (blocks.drop (t.walk bs ts).matched) = y at hinc1 hinc2 ⊢
      obtain ⟨x1, x2⟩ := x
      obtain ⟨y1, y2⟩ := y
      simp only at hinc1 hinc2 hinc3
      subst hinc1 hinc2
      have hclean : x2.Clean := fun b => by rw [hinc3, ha b]
      cases x1 with
      | error e => exact ⟨rfl, rfl, hclean, rfl, hi⟩
      | ok =>
        let leaf : RadixNode := ⟨⟨ts.drop ((t.walk bs ts).matched * bs), blocks.drop (t.walk bs ts).matched, 0,
          (t.walked bs ts).clock, (t.walked bs ts).nextUid⟩, false⟩
        have hgrow := grow_reference (t.walked bs ts) ((t.walk bs ts).node.getD t.rootUid) leaf
        have hindexed : Indexed [] ((t.walked bs ts).grow ((t.walk bs ts).node.getD t.rootUid) leaf) :=
          hi.grow hs' hholds rfl rfl
        refine ⟨rfl, rfl, hclean, ?_, hindexed.tracked, hindexed.flagged⟩
        exact congrArg (fun r : MiniServe.RadixTree => { r with
          numCachedBlocks := r.numCachedBlocks + (blocks.drop (t.walk bs ts).matched).length
          numEvictable := r.numEvictable + (blocks.drop (t.walk bs ts).matched).length
          nextUid := r.nextUid + 1 }) hgrow

end Insert

section Lock

variable {g : RadixNode → Bool → List IndexKey × Int → Option (RadixNode × List IndexKey × Int)}
  {g' : MiniServe.RadixNode → Option (MiniServe.RadixNode × Int)}

theorem lockVisit_refines (on : Bool) (n : RadixNode) (leaf : Bool) (s : List IndexKey × Int) :
    (n.lockVisit on leaf s).map (fun x => (x.1.toRadixNode, x.2.2)) =
        n.toRadixNode.lockVisit.map fun x => (x.1, s.2 + x.2) := by
  simp only [RadixNode.lockVisit, MiniServe.RadixNode.lockVisit, MiniServe.RadixNode.locked, Option.map_some,
    RadixNode.reindex_toRadixNode, Option.some.injEq, Prod.mk.injEq, true_and]
  split <;> omega

theorem unlockVisit_refines (on : Bool) (n : RadixNode) (leaf : Bool) (s : List IndexKey × Int) :
    (n.unlockVisit on leaf s).map (fun x => (x.1.toRadixNode, x.2.2)) =
      n.toRadixNode.unlockVisit.map fun x => (x.1, s.2 + x.2) := by
  unfold RadixNode.unlockVisit MiniServe.RadixNode.unlockVisit
  split
  · rfl
  · simp only [MiniServe.RadixNode.unlocked, Option.map_some, RadixNode.reindex_toRadixNode, Option.some.injEq,
      Prod.mk.injEq, true_and]
    split <;> omega

def climbed (t : RadixTree) (u : Nat)
    (g : RadixNode → Bool → List IndexKey × Int → Option (RadixNode × List IndexKey × Int)) : RadixTree :=
  { t with
    forest := (t.forest.climbWith (fun n => n.uid) u g (t.index, t.numEvictable)).2.1
    index := (t.forest.climbWith (fun n => n.uid) u g (t.index, t.numEvictable)).2.2.1
    numEvictable := (t.forest.climbWith (fun n => n.uid) u g (t.index, t.numEvictable)).2.2.2 }

theorem climbed_reference (hg : ∀ n leaf s, (g n leaf s).map (fun x => (x.1.toRadixNode, x.2.2)) =
      (g' n.toRadixNode).map fun x => (x.1, s.2 + x.2)) (t : RadixTree) (u : Nat) :
    (t.forest.climbWith (fun n => n.uid) u g (t.index, t.numEvictable)).1 =
        (t.reference.forest.climb MiniServe.RadixNode.uid u g').1 ∧
      (t.climbed u g).reference = { t.reference with
        forest := (t.reference.forest.climb MiniServe.RadixNode.uid u g').2.1
        numEvictable := t.numEvictable + (t.reference.forest.climb MiniServe.RadixNode.uid u g').2.2 } := by
  have hkey : ∀ n : RadixNode, MiniServe.RadixNode.uid n.toRadixNode = n.uid := fun _ => rfl
  obtain ⟨h1, h2, h3⟩ := climbWith_map (k := u) hkey hg t.forest (t.index, t.numEvictable)
  refine ⟨h1, ?_⟩
  simp only [climbed, reference, h2, h3]

theorem Indexed.climbed (h : Indexed [] t) (hg : Relocks t.indexedEviction g) (u : Nat) :
    Indexed [] (t.climbed u g) := by
  have htracked : Tracked t.indexedEviction (t.forest.labels ++ []) t.index := by simpa using h.tracked
  obtain ⟨h1, h2⟩ := climbWith_upkeep (u := u) (s := (t.index, t.numEvictable)) hg t.forest htracked h.flagged
  exact ⟨h1.labels, h2⟩

theorem lock_refines (h : Indexed [] t) (u : Nat) : (t.lock u).reference = t.reference.lock u ∧ Indexed [] (t.lock u) :=
  ⟨(climbed_reference (lockVisit_refines t.indexedEviction) t u).2, h.climbed lockVisit_relocks u⟩

theorem unlock_refines (h : Indexed [] t) (u : Nat) : (t.unlock u).1 = (t.reference.unlock u).1 ∧
    (t.unlock u).2.reference = (t.reference.unlock u).2 ∧ Indexed [] (t.unlock u).2 := by
  obtain ⟨h1, h2⟩ := climbed_reference (unlockVisit_refines t.indexedEviction) t u
  have hindexed := h.climbed unlockVisit_relocks u
  have hunlock : t.unlock u =
      if (t.forest.climbWith (fun n => n.uid) u (RadixNode.unlockVisit t.indexedEviction)
        (t.index, t.numEvictable)).1 = .refused
      then (.error .unlockOfUnlocked, t.climbed u (RadixNode.unlockVisit t.indexedEviction))
      else (.ok (), t.climbed u (RadixNode.unlockVisit t.indexedEviction)) := rfl
  rw [hunlock, h1]
  unfold MiniServe.RadixTree.unlock
  generalize t.reference.forest.climb MiniServe.RadixNode.uid u MiniServe.RadixNode.unlockVisit = y at h2 ⊢
  obtain ⟨c, F, d⟩ := y
  cases c with
  | absent => exact ⟨rfl, h2, hindexed⟩
  | reached => exact ⟨rfl, h2, hindexed⟩
  | refused => exact ⟨rfl, h2, hindexed⟩

end Lock

section Lookup

theorem prefixLen_eq (t : RadixTree) (ts : List Token) : t.prefixLen bs ts = t.reference.prefixLen bs ts ts.length := by
  rw [prefixLen, prefixLenBelow_eq, MiniServe.RadixTree.prefixLen, Int.toNat_natCast, List.take_length]
  rfl

theorem prefixLens_eq (t : RadixTree) (seqs : List (List Token)) (limits : List Int) (h : ∀ n ∈ limits, 0 ≤ n) :
    t.prefixLens bs seqs limits = t.reference.prefixLens bs seqs limits := by
  unfold prefixLens MiniServe.RadixTree.prefixLens
  by_cases hl : seqs.length = limits.length
  · rw [if_neg (not_not.mpr hl), if_pos hl]
    congr 1
    clear hl
    induction seqs generalizing limits with
    | nil => simp
    | cons s seqs ih =>
      cases limits with
      | nil => simp
      | cons n limits =>
        have hn := h n List.mem_cons_self
        have hlen : (min n s.length).toNat = min n.toNat s.length := by omega
        have htake : s.take (min n s.length).toNat = s.take n.toNat := by
          rw [hlen, ← List.take_eq_take_min]
        have hone : t.prefixLen bs (s.take n.toNat) = t.reference.prefixLen bs s (min n s.length) := by
          rw [prefixLen, prefixLenBelow_eq, MiniServe.RadixTree.prefixLen, htake]
          rfl
        simp only [List.zipWith_cons_cons, if_pos hn, hone, ih limits fun m hm => h m (List.mem_cons_of_mem n hm)]
  · rw [if_pos hl, if_neg hl]

theorem pairTokens_eq (prompt output : List Token) :
    pairTokens prompt output = (prompt ++ output).take ((prompt ++ output).length - 1) := by
  have hlimit : (if prompt.length + output.length = 0 then 0 else prompt.length + output.length - 1) =
      prompt.length + output.length - 1 := by
    split <;> omega
  unfold pairTokens
  simp only [List.length_append, hlimit]
  refine List.ext_getElem (by simp) fun i h1 h2 => ?_
  simp only [List.length_map, List.length_range] at h1
  simp only [List.getElem_map, List.getElem_range, List.getElem_take]
  by_cases hi : i < prompt.length
  · rw [if_pos (by omega), List.getElem_append_left hi]
    simp [hi]
  · rw [if_neg (by omega), List.getElem_append_right (by omega)]
    have hmin : min prompt.length (prompt.length + output.length - 1) = prompt.length := by omega
    rw [hmin]
    have hlt : i - prompt.length < output.length := by omega
    simp [hlt]

theorem orderByCachedPrefix_eq (t : RadixTree) {reqs : List (List Token × List Token)}
    (hfit : ∀ r ∈ reqs, ∀ x ∈ r.1 ++ r.2, Packing.Fits x) :
    t.orderByCachedPrefix bs reqs = t.reference.orderByCachedPrefix bs (fun r => r.1 ++ r.2) reqs := by
  have hlen : ∀ r ∈ reqs, t.prefixLen bs (withTokens (pairTokens r.1 r.2)) = t.reference.cachedLen bs (r.1 ++ r.2) := by
    intro r hr
    rw [pairTokens_eq, withTokens_eq fun x hx => hfit r hr x (List.mem_of_mem_take hx), prefixLen, prefixLenBelow_eq,
      MiniServe.RadixTree.cachedLen, MiniServe.RadixTree.prefixLen]
    have hcut : (max (((r.1 ++ r.2).length : Int) - 1) 0).toNat = (r.1 ++ r.2).length - 1 := by omega
    rw [hcut]
    rfl
  have hall : (List.range reqs.length).map (fun i => reqs.getD i ([], [])) = reqs := by
    refine List.ext_getElem (by simp) fun i h1 h2 => ?_
    simp [h2]
  unfold orderByCachedPrefix orderByPrefixLens MiniServe.RadixTree.orderByCachedPrefix
  rw [List.map_congr_left hlen]
  simp only [List.length_map]
  conv_rhs => rw [← hall]
  refine List.map_insertionSort _ _ _ _ fun i hi j hj => ?_
  rw [List.mem_range] at hi hj
  simp [hi, hj]

end Lookup

end RadixTree

end MiniServe.Minicore
