import MiniServe.Cache.KVRun

namespace MiniServe

open Forest Holders

def lockCells (bs : Nat) (p : List Token) : Forest RadixNode → List (List Token × Nat)
  | .nil => []
  | .cons n below rest => (edgeCells bs p n.tokens n.blocks).map (fun c => (c.1, n.lock)) ++
      (lockCells bs (p ++ n.tokens) below ++ lockCells bs p rest)

theorem walk_lockCells {bs clock uid : Nat} (F : Forest RadixNode) (p ts : List Token) :
    lockCells bs p (walkBelow bs clock uid F ts).forest = lockCells bs p F := by
  induction F generalizing p ts with
  | nil => rfl
  | cons n b r ihb ihr =>
    simp only [walkBelow]
    split
    · split
      · simp only [lockCells, RadixNode.touch, RadixNode.upper, RadixNode.lower, List.append_assoc, List.append_nil]
        rw [edgeCells_split (matchedBlocks bs n ts) p n.tokens n.blocks]
        simp
      · simp only [lockCells, RadixNode.touch, ihb]
    · simp only [lockCells, ihr]

theorem RadixTree.unlock_lock (t : RadixTree) (u : Nat) : (t.lock u).unlock u = (.ok (), t) := by
  by_cases hu : u ∈ keys RadixNode.uid t.forest
  · have hforest : (t.lock u).forest = t.forest.mapPath RadixNode.uid u RadixNode.locked := by rw [lock_eq hu]
    have huid (n : RadixNode) : n.locked.uid = n.uid := rfl
    have hk : u ∈ keys RadixNode.uid (t.lock u).forest := by rw [hforest, keys_mapPath huid]; exact hu
    have hpath : (t.lock u).forest.path RadixNode.uid u = (t.forest.path RadixNode.uid u).map RadixNode.locked := by
      rw [hforest, path_mapPath huid]
    have hback : (t.lock u).forest.mapPath RadixNode.uid u RadixNode.unlocked = t.forest := by
      rw [hforest, mapPath_mapPath huid (fun n => by simp [RadixNode.locked, RadixNode.unlocked])]
    have hsum : ((t.forest.path RadixNode.uid u).map (fun n => if n.lock = 0 then -(n.blocks.length : Int) else 0)).sum +
        (((t.forest.path RadixNode.uid u).map RadixNode.locked).map
          (fun n => if n.lock - 1 = 0 then (n.blocks.length : Int) else 0)).sum = 0 := by
      generalize t.forest.path RadixNode.uid u = l
      induction l with
      | nil => rfl
      | cons n l ih =>
        simp only [List.map_cons, List.sum_cons, RadixNode.locked, Nat.add_sub_cancel] at ih ⊢
        split <;> omega
    rw [unlock_eq hk, hpath, hback, lock_eq hu]
    · simp only [add_assoc, hsum, add_zero]
    · intro n hn
      rw [hpath] at hn
      obtain ⟨m, -, rfl⟩ := List.mem_map.mp hn
      simp [RadixNode.locked]
  · rw [lock_eq_absent hu, unlock_eq_absent hu]

namespace KVCacheManager

def lockCells (kv : KVCacheManager) : List (List Token × Nat) :=
  match kv.tree with
  | none => []
  | some t => MiniServe.lockCells kv.blockSize [] t.forest

def setRadix (kv : KVCacheManager) (enabled : Bool) : Except Error KVCacheManager :=
  match kv.clear with
  | .error e => .error e
  | .ok kv' => .ok { kv' with tree := if enabled then some (RadixTree.new 0) else none }

section Reserve

variable {kv : KVCacheManager} {store : Store} {live : List Rid} {t : RadixTree}

theorem Sound.reserve_rule {I : KVCacheManager → Prop} (hs : kv.Sound store live) (hI : I kv)
    (hstep : ∀ {kv t node}, KVCacheManager.Sound kv store live → kv.tree = some t → node ∈ t.unlockedLeaves → I kv →
      I ⟨node.blocks.foldl BlockAllocator.dropRef kv.allocator, some (t.detach node)⟩) (n : Int) :
    I (kv.reserve n).2 := by
  have hshort (k : Int) : I (kv.evictShort k).2 := by
    unfold evictShort
    cases ht : kv.tree with
    | none => exact hI
    | some t =>
      have hkv : kv = ⟨kv.allocator, some t⟩ := by cases kv; simp_all
      obtain ⟨m, a, t', he, ⟨-, hI'⟩, -⟩ := RadixTree.evict_rule (N := k) (a := kv.allocator) (t := t)
        (P := fun _ a t => KVCacheManager.Sound ⟨a, some t⟩ store live ∧ I ⟨a, some t⟩)
        (fun h => (h.1.tree _ rfl).keys_nodup)
        (by
          rintro - a t' node ⟨h1, h2⟩ hnode - -
          obtain ⟨hfree, hsound, -, -⟩ := h1.detach rfl hnode
          exact ⟨_, hfree, hsound, hstep h1 rfl hnode h2⟩)
        ⟨hkv ▸ hs, hkv ▸ hI⟩
      simp only [he]
      split
      · exact hI'
      · exact hI
  have h := hshort (n - kv.allocator.numFree)
  unfold KVCacheManager.reserve
  split
  · next he => rw [he] at h; exact h
  · next he =>
    rw [he] at h
    split <;> exact h

end Reserve

section Abandon

variable {kv : KVCacheManager} {store : Store} {live : List Rid} {r : Rid}

-- `walk` is all that stays of the lookup: the splits and access times of one `_walk`.
structure Undone (kv kv' : KVCacheManager) : Prop where
  refs : ∀ b, kv'.allocator.ref b = kv.allocator.ref b
  free : kv'.allocator.free = kv.allocator.free
  locks : kv'.lockCells = kv.lockCells
  cells : kv'.cachedCells = kv.cachedCells
  numCached : kv'.numCached = kv.numCached
  numEvictable : kv'.numEvictable = kv.numEvictable
  numAvailable : kv'.numAvailable = kv.numAvailable
  walk : ∃ ts, kv'.tree = kv.tree.map (fun t => t.walked kv.blockSize ts)

theorem Undone.of_walked {a : BlockAllocator} (ts : List Token) (hbs : a.blockSize = kv.allocator.blockSize)
    (hfree : a.free = kv.allocator.free) (href : ∀ b, a.ref b = kv.allocator.ref b) :
    Undone kv ⟨a, kv.tree.map (fun t => t.walked kv.blockSize ts)⟩ := by
  have hsize : KVCacheManager.blockSize ⟨a, kv.tree.map (fun t => t.walked kv.blockSize ts)⟩ = kv.blockSize := hbs
  have hev : KVCacheManager.numEvictable ⟨a, kv.tree.map (fun t => t.walked kv.blockSize ts)⟩ = kv.numEvictable := by
    cases ht : kv.tree with
    | none => simp [KVCacheManager.numEvictable, ht]
    | some t => simp [KVCacheManager.numEvictable, ht, RadixTree.walked]
  refine ⟨href, hfree, ?_, ?_, ?_, hev, ?_, ts, rfl⟩
  · cases ht : kv.tree with
    | none => simp [KVCacheManager.lockCells, ht]
    | some t =>
      simp only [KVCacheManager.lockCells, ht, Option.map_some] at hsize ⊢
      rw [hsize]
      exact walk_lockCells t.forest [] ts
  · cases ht : kv.tree with
    | none => simp [cachedCells, ht]
    | some t =>
      simp only [cachedCells, ht, Option.map_some] at hsize ⊢
      rw [hsize]
      exact walk_cells t.forest [] ts
  · cases ht : kv.tree with
    | none => simp [KVCacheManager.numCached, ht]
    | some t => simp [KVCacheManager.numCached, ht, RadixTree.walked]
  · simp only [KVCacheManager.numAvailable, hev, BlockAllocator.numFree, hfree]

theorem Sound.acquire_abandon (hs : kv.Sound store live) (hr : r ∉ live) :
    ∃ k kv1 q kv2, kv.acquire (store r) = .ok (k, kv1, q) ∧
      kv1.abandon q = .ok (kv2, { store r with numCachedTokens := 0 }) ∧ Undone kv kv2 := by
  obtain ⟨hc, hn⟩ := hs.idle r hr
  obtain ⟨node, blocks, tree, hl, hnd, href, -⟩ := hs.lookup hr
  have hnew := BlockTable.new_ok (a := kv.allocator) hnd href
  set a : BlockAllocator := { kv.allocator with ref := fun b => kv.allocator.ref b + blocks.count b } with ha
  have hacq : kv.acquire (store r) = .ok (blocks.length * kv.blockSize, ⟨a, tree⟩, { store r with
      cache := some ⟨blocks, blocks.length * kv.blockSize⟩
      cacheNode := node
      numCachedTokens := blocks.length * kv.blockSize }) := by
    simp only [KVCacheManager.acquire, hc, Option.isSome_none, Bool.false_eq_true, if_false, hl, hnew]
    rfl
  have hunlock : KVCacheManager.unlockNode ⟨a, tree⟩ node =
      .ok ⟨a, kv.tree.map (fun t => t.walked kv.blockSize ((store r).tokens.take ((store r).seqLen - 1)))⟩ := by
    cases ht : kv.tree with
    | none =>
      simp only [KVCacheManager.lookup, ht, Except.ok.injEq, Prod.mk.injEq] at hl
      obtain ⟨rfl, -, rfl⟩ := hl
      rfl
    | some t =>
      simp only [KVCacheManager.lookup, ht, RadixTree.matchPrefix_ok (hs.tree t ht).shaped,
        Except.ok.injEq, Prod.mk.injEq] at hl
      obtain ⟨rfl, -, rfl⟩ := hl
      simp [KVCacheManager.unlockNode, RadixTree.unlock_lock]
  have hdrop : ∀ b ∈ blocks, a.InRange b ∧ blocks.count b < a.ref b := by
    intro b hb
    obtain ⟨h1, h2⟩ := href b hb
    exact ⟨h1, by simp only [ha]; omega⟩
  have hrel := BlockTable.release_ok (t := ⟨blocks, blocks.length * kv.blockSize⟩) (a := a)
    fun b hb => ⟨(hdrop b hb).1, (hdrop b hb).2.le⟩
  refine ⟨_, _, _, _, hacq, ?_, Undone.of_walked (a := blocks.foldl BlockAllocator.dropRef a)
    ((store r).tokens.take ((store r).seqLen - 1)) ?_ ?_ fun b => ?_⟩
  · simp only [KVCacheManager.abandon, hunlock, dropTable, hrel]
    rw [← hc, ← hn]
  · rw [BlockAllocator.foldl_dropRef_blockSize]
  · rw [BlockAllocator.foldl_dropRef_free _ _ fun b hb => (hdrop b hb).2]
  · rw [BlockAllocator.foldl_dropRef_ref]
    simp [ha]

end Abandon

end KVCacheManager

namespace KVClient

def start (a : BlockAllocator) (radix : Bool) (prompt : Rid → List Token) (params : Rid → SamplingParams) :
    KVClient where
  kv := .new a radix
  store := fun r => { rid := r, promptIds := prompt r, params := params r }
  live := []

def ahead (s : KVClient) (r : Rid) (n : Nat) : KVClient :=
  match (s.store r).cache with
  | none => s
  | some tb =>
    match s.kv.reserve (tb.need s.kv.blockSize n) with
    | (.error _, kv) => { s with kv := kv }
    | (.ok (), kv) =>
      match tb.appendTokens kv.allocator n with
      | (_, tb', a) => s.put r s.live ({ kv with allocator := a }, { s.store r with cache := some tb' })

def rewind (s : KVClient) (r : Rid) (n : Nat) : KVClient :=
  match (s.store r).cache with
  | none => s
  | some tb => s.put r s.live (s.kv, { s.store r with cache := some (tb.rewind n).2 })

def setRadix (s : KVClient) (enabled : Bool) : KVClient :=
  match s.kv.setRadix enabled with
  | .ok kv => { s with kv := kv }
  | .error _ => s

-- `ahead` are tokens that do not exist yet (speculation runs without the prefix cache), `rewind` takes
-- back tokens above the locked path, `setRadix` is only called while no request holds a table.
inductive Reachable : KVClient → Prop
  | start {numBlocks blockSize : Nat} (hn : 0 < numBlocks) (hb : 0 < blockSize) (radix : Bool)
      (prompt : Rid → List Token) (params : Rid → SamplingParams) :
      Reachable (start (.fresh numBlocks blockSize hn hb) radix prompt params)
  | step {s : KVClient} (op : KVOp) (h : Reachable s) : Reachable (s.step op)
  | ahead {s : KVClient} (r : Rid) (n : Nat) (ht : s.kv.tree = none) (h : Reachable s) : Reachable (s.ahead r n)
  | rewind {s : KVClient} (r : Rid) (n : Nat)
      (hn : (s.kv.nodeTokens (s.store r).cacheNode).length + n ≤ (s.store r).covered) (h : Reachable s) :
      Reachable (s.rewind r n)
  | setRadix {s : KVClient} (enabled : Bool) (hl : s.live = []) (h : Reachable s) : Reachable (s.setRadix enabled)

variable {s : KVClient}

theorem Sound.ahead (hs : s.Sound) (r : Rid) (n : Nat) (ht : s.kv.tree = none) : (s.ahead r n).Sound := by
  have hs' : s.kv.Sound s.store s.live := hs
  unfold KVClient.ahead
  cases hc : (s.store r).cache with
  | none => exact hs
  | some tb =>
    have hr : r ∈ s.live := hs.mem_iff.mpr (by simp [hc])
    obtain ⟨kv1, hev, hok, hbad⟩ := hs'.reserve (tb.need s.kv.blockSize n)
    have hno : kv1.tree.isSome = false := by rw [hev.frame.radix, ht]; rfl
    rcases le_or_gt (tb.need s.kv.blockSize n) s.kv.numAvailable with hle | hlt
    · obtain ⟨he, hfree⟩ := hok hle
      rw [← hev.frame.blockSize] at hfree
      obtain ⟨new, tb', a', hap, hext⟩ := hev.sound.extend hr hc (by simp [hno]) hfree
      simp only [he, hap]
      exact hext.sound
    · simp only [hbad hlt]
      exact hev.sound

theorem Sound.rewind (hs : s.Sound) (r : Rid) (n : Nat)
    (hn : (s.kv.nodeTokens (s.store r).cacheNode).length + n ≤ (s.store r).covered) : (s.rewind r n).Sound := by
  have hs' : s.kv.Sound s.store s.live := hs
  unfold KVClient.rewind
  cases hc : (s.store r).cache with
  | none => exact hs
  | some tb =>
    have hcov : (s.store r).covered = tb.numTokens := by simp [Request.covered, hc]
    have hle : (0 : Int) ≤ n ∧ (n : Int) ≤ tb.numTokens := by omega
    have hrew : (tb.rewind n).2 = { tb with numTokens := tb.numTokens - n } := by
      simp only [BlockTable.rewind, if_pos hle, Int.toNat_natCast]
    set q' : Request := { s.store r with cache := some { tb with numTokens := tb.numTokens - n } } with hq'
    have hput : s.put r s.live (s.kv, { s.store r with cache := some (tb.rewind n).2 }) =
        ⟨s.kv, Function.update s.store r q', s.live⟩ := by simp only [put, hrew, hq']
    change (s.put r s.live (s.kv, { s.store r with cache := some (tb.rewind n).2 })).Sound
    rw [hput]
    have hother (q : Rid) (hq : q ≠ r) : Function.update s.store r q' q = s.store q := Function.update_of_ne hq _ _
    have hself : Function.update s.store r q' r = q' := Function.update_self _ _ _
    change s.kv.Sound (Function.update s.store r q') s.live
    refine KVCacheManager.Sound.rewrite hs' (fun q => ?_) (fun q => ?_) (fun q => ?_) fun q hq => ?_
    · by_cases e : q = r
      · rw [e, hself]; simp [hq', Request.tableBlocks, hc]
      · rw [hother q e]
    · by_cases e : q = r
      · rw [e, hself]; simp [hq', hc]
      · rw [hother q e]
    · by_cases e : q = r
      · rw [e, hself]
      · rw [hother q e]
    · have h := hs'.held q hq
      by_cases e : q = r
      · rw [e, hself]
        rw [e] at h
        have hcap := h.capacity
        have hseq := h.covered
        have hnew : q'.covered = tb.numTokens - n := rfl
        rw [hcov] at hcap hseq hn
        exact ⟨by omega, fun ht => (Nat.sub_le _ _).trans (hseq ht), h.tokens, by omega⟩
      · rw [hother q e]
        exact ⟨h.capacity, h.covered, h.tokens, h.path_le⟩

theorem Sound.setRadix (hs : s.Sound) (enabled : Bool) (hl : s.live = []) : (s.setRadix enabled).Sound := by
  have hs' : s.kv.Sound s.store [] := hl ▸ (hs : s.kv.Sound s.store s.live)
  obtain ⟨kv', he, hk, -, href⟩ := hs'.cleared
  simp only [KVClient.setRadix, KVCacheManager.setRadix, he, KVClient.Sound, hl]
  exact KVCacheManager.new_sound hk.allocator href enabled fun r => hs'.idle r (by simp)

theorem Reachable.sound (h : s.Reachable) : s.Sound := by
  induction h with
  | start hn hb radix =>
    exact KVCacheManager.new_sound (BlockAllocator.fresh_sound hn hb) (fun _ => rfl) radix fun _ => ⟨rfl, rfl⟩
  | step op _ ih => exact (ih.step_effect op).sound ih
  | ahead r n ht _ ih => exact ih.ahead r n ht
  | rewind r n hn _ ih => exact ih.rewind r n hn
  | setRadix enabled hl _ ih => exact ih.setRadix enabled hl

theorem Reachable.run (h : s.Reachable) (ops : List KVOp) : (s.run ops).Reachable := by
  induction ops generalizing s with
  | nil => exact h
  | cons op ops ih => exact ih (h.step op)

section Reserve

structure Spared (s s' : KVClient) : Prop where
  tables : ∀ r ∈ s.live, (s'.store r).cache = (s.store r).cache
  refs : ∀ r ∈ s.live, ∀ b ∈ (s.store r).tableBlocks, s'.kv.allocator.ref b = s.kv.allocator.ref b
  locked : ∀ t, s.kv.tree = some t → ∃ t', s'.kv.tree = some t' ∧ ∀ n ∈ t.forest.labels, 0 < n.lock →
    n ∈ t'.forest.labels ∧ t'.forest.path RadixNode.uid n.uid = t.forest.path RadixNode.uid n.uid

theorem Spared.refl (s : KVClient) : Spared s s :=
  ⟨fun _ _ => rfl, fun _ _ _ _ => rfl, fun t ht => ⟨t, ht, fun _ hn _ => ⟨hn, rfl⟩⟩⟩

theorem Spared.detach {kv : KVCacheManager} {t : RadixTree} {node : RadixNode} (h : Spared s { s with kv := kv })
    (hs : kv.Sound s.store s.live) (ht : kv.tree = some t) (hnode : node ∈ t.unlockedLeaves) :
    Spared s { s with kv := ⟨node.blocks.foldl BlockAllocator.dropRef kv.allocator, some (t.detach node)⟩ } := by
  obtain ⟨hl, h0⟩ := RadixTree.mem_unlockedLeaves.mp hnode
  have hlab := leaves_subset_labels _ node hl
  have hnd := (hs.tree t ht).keys_nodup
  refine ⟨h.tables, fun r hr b hb => ?_, fun t0 ht0 => ?_⟩
  · have hnot : b ∉ node.blocks := fun hm => by
      have := hs.lock_pos_of_table ht hr hlab hm hb
      omega
    have := h.refs r hr b hb
    simp only [BlockAllocator.foldl_dropRef_ref, List.count_eq_zero_of_not_mem hnot, Nat.sub_zero] at this ⊢
    exact this
  · obtain ⟨t1, ht1, hkeep⟩ := h.locked t0 ht0
    obtain rfl : t = t1 := by simpa [ht] using ht1
    refine ⟨t.detach node, rfl, fun n hn hlock => ?_⟩
    obtain ⟨hm, hp⟩ := hkeep n hn hlock
    have hne : n.uid ≠ node.uid := by
      intro e
      have := label_unique RadixNode.uid hnd hm hlab e
      subst this
      omega
    constructor
    · have := (perm_remove hnd hl).mem_iff.mp hm
      exact (List.mem_cons.mp this).resolve_left fun e => hne (congrArg RadixNode.uid e)
    · rw [← hp]
      exact path_remove (leaf_unique hnd hl) hne

theorem reserve_exact (h : s.Reachable) (n : Int) :
    ((∃ free, (s.kv.reserve n).1 = .error (.needFreeBlocks n free)) ↔ n > s.kv.numAvailable) ∧
    ((s.kv.reserve n).1 = .ok () ↔ n ≤ s.kv.numAvailable) ∧
    (n ≤ s.kv.numAvailable → n ≤ (s.step (.reserve n)).kv.allocator.numFree ∧
      (s.step (.reserve n)).kv.numAvailable = s.kv.numAvailable) ∧
    Spared s (s.step (.reserve n)) := by
  have hs : s.kv.Sound s.store s.live := h.sound
  obtain ⟨kv', hev, hok, hbad⟩ := hs.reserve n
  have hsp : Spared s { s with kv := (s.kv.reserve n).2 } :=
    hs.reserve_rule (I := fun kv => Spared s { s with kv := kv }) (Spared.refl s)
      (fun h1 ht hnode h2 => h2.detach h1 ht hnode) n
  rcases le_or_gt n s.kv.numAvailable with hle | hlt
  · obtain ⟨he, hfree⟩ := hok hle
    refine ⟨?_, ?_, fun _ => ?_, hsp⟩
    · simp [he, hle]
    · simp [he, hle]
    · simp only [step, he]
      exact ⟨hfree, hev.available⟩
  · have he := hbad hlt
    refine ⟨?_, ?_, fun h => by omega, hsp⟩
    · simp [he, hlt]
    · simp [he, hlt]

def cachedPrompt : KVClient :=
  (start (.fresh 3 2 (Nat.succ_pos (nat_lit 2)) Nat.two_pos) true (fun _ => [1, 2, 3])
    (fun _ => { maxNewTokens := 2 })).run
    [.acquire 0, .extend 0 3, .release 0, .acquire 1, .extend 1 1]

theorem cachedPrompt_reachable : cachedPrompt.Reachable :=
  (Reachable.start (by decide) (by decide) true _ _).run _

theorem reserve_exact_cached : cachedPrompt.kv.numAvailable = 1 ∧ (cachedPrompt.kv.reserve 1).1 = .ok () ∧
    Spared cachedPrompt (cachedPrompt.step (.reserve 1)) := by
  have hav : cachedPrompt.kv.numAvailable = 1 := by decide +kernel
  obtain ⟨-, hok, -, hspared⟩ := reserve_exact cachedPrompt_reachable 1
  exact ⟨hav, hok.mpr hav.ge, hspared⟩

end Reserve

section Abandon

theorem abandon_undoes_acquire (h : s.Reachable) (r : Rid) (hc : (s.store r).cache = none) :
    ∃ k kv1 q kv2, s.kv.acquire (s.store r) = .ok (k, kv1, q) ∧
      kv1.abandon q = .ok (kv2, { s.store r with numCachedTokens := 0 }) ∧ KVCacheManager.Undone s.kv kv2 := by
  have hr : r ∉ s.live := fun hr => (h.sound.mem_iff.mp hr) hc
  exact KVCacheManager.Sound.acquire_abandon h.sound hr

def releasedHit : KVClient := cachedPrompt.step (.release 1)

theorem releasedHit_reachable : releasedHit.Reachable := cachedPrompt_reachable.step _

theorem abandon_undoes_acquire_hit : ∃ k kv1 q kv2, releasedHit.kv.acquire (releasedHit.store 1) = .ok (k, kv1, q) ∧
    kv1.abandon q = .ok (kv2, { releasedHit.store 1 with numCachedTokens := 0 }) ∧
    KVCacheManager.Undone releasedHit.kv kv2 :=
  abandon_undoes_acquire releasedHit_reachable 1 (by decide +kernel)

theorem abandon_forgets_cached_count : releasedHit.Reachable ∧ (releasedHit.store 1).cache = none ∧
    ∃ k kv1 q kv2 q', releasedHit.kv.acquire (releasedHit.store 1) = .ok (k, kv1, q) ∧
      kv1.abandon q = .ok (kv2, q') ∧ (releasedHit.store 1).numCachedTokens = 2 ∧ q'.numCachedTokens = 0 := by
  have hc : (releasedHit.store 1).cache = none := by decide +kernel
  have hr : (1 : Rid) ∉ releasedHit.live := fun hr => (releasedHit_reachable.sound.mem_iff.mp hr) hc
  obtain ⟨k, kv1, q, kv2, h1, h2, -⟩ := KVCacheManager.Sound.acquire_abandon releasedHit_reachable.sound hr
  exact ⟨releasedHit_reachable, hc, k, kv1, q, kv2, _, h1, h2, by decide +kernel, rfl⟩

end Abandon

end KVClient

end MiniServe
