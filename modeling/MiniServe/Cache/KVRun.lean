import MiniServe.Cache.KVAvailable

namespace MiniServe

open Forest Holders

inductive KVOp where
  | acquire (r : Rid)
  | abandon (r : Rid)
  | extend (r : Rid) (n : Nat)
  | commit (r : Rid)
  | release (r : Rid)
  | reserve (n : Int)
  | output (r : Rid) (ids : List Token)

structure KVClient where
  kv : KVCacheManager
  store : Store
  live : List Rid

namespace KVClient

def init (a : BlockAllocator) (prompt : Rid → List Token) (params : Rid → SamplingParams) : KVClient where
  kv := .new a true
  store := fun r => { rid := r, promptIds := prompt r, params := params r }
  live := []

def put (s : KVClient) (r : Rid) (live : List Rid) (p : KVCacheManager × Request) : KVClient :=
  ⟨p.1, Function.update s.store r p.2, live⟩

-- `extend` is `blocks_needed`, `reserve` and `append_tokens` on a table whose tokens exist; `output`
-- rewrites the outputs of a request above the tokens its locked path spells. A call that raises
-- leaves what it had changed before it raised.
def step (s : KVClient) : KVOp → KVClient
  | .acquire r =>
    match s.kv.acquire (s.store r) with
    | .ok (_, kv, q) => s.put r (r :: s.live) (kv, q)
    | .error _ => s
  | .abandon r =>
    match s.kv.abandon (s.store r) with
    | .ok p => s.put r (s.live.erase r) p
    | .error _ => s
  | .extend r n =>
    match (s.store r).cache with
    | none => s
    | some tb =>
      if tb.numTokens + n ≤ (s.store r).seqLen then
        match s.kv.reserve (tb.need s.kv.blockSize n) with
        | (.error _, kv) => { s with kv := kv }
        | (.ok (), kv) =>
          match tb.appendTokens kv.allocator n with
          | (_, tb', a) => s.put r s.live ({ kv with allocator := a }, { s.store r with cache := some tb' })
      else s
  | .commit r =>
    match s.kv.commit (s.store r) with
    | .ok p => s.put r s.live p
    | .error _ => s
  | .release r =>
    match s.kv.release (s.store r) with
    | .ok p => s.put r (s.live.erase r) p
    | .error _ => s
  | .reserve n => { s with kv := (s.kv.reserve n).2 }
  | .output r ids =>
    let q := { s.store r with outputIds := ids }
    if q.covered ≤ q.seqLen ∧ s.kv.nodeTokens q.cacheNode <+: q.tokens then s.put r s.live (s.kv, q) else s

def run (s : KVClient) (ops : List KVOp) : KVClient := ops.foldl step s

def Meets (G : KVClient → KVOp → Prop) (s : KVClient) : List KVOp → Prop
  | [] => True
  | op :: ops => G s op ∧ (s.step op).Meets G ops

def Sound (s : KVClient) : Prop := s.kv.Sound s.store s.live

theorem init_sound {n bs : Nat} (hn : 0 < n) (hb : 0 < bs) (prompt : Rid → List Token)
    (params : Rid → SamplingParams) : (init (.fresh n bs hn hb) prompt params).Sound :=
  KVCacheManager.new_sound (BlockAllocator.fresh_sound hn hb) (fun _ => rfl) true fun _ => ⟨rfl, rfl⟩

theorem Sound.cache_of_notMem {s : KVClient} (hs : s.Sound) {r : Rid} (hr : r ∉ s.live) :
    (s.store r).cache = none ∧ (s.store r).cacheNode = none :=
  KVCacheManager.Sound.idle hs r hr

theorem Sound.mem_iff {s : KVClient} (hs : s.Sound) {r : Rid} : r ∈ s.live ↔ (s.store r).cache ≠ none :=
  ⟨fun hr => (KVCacheManager.Sound.held hs r hr).cache, fun hc => by
    by_contra hr; exact hc (hs.cache_of_notMem hr).1⟩

section Effects

variable {s : KVClient} {r : Rid}

-- What each operation does to a sound state, said once; the invariants below follow from it.
inductive Effect (s : KVClient) : KVOp → KVClient → Prop
  | same (op : KVOp) : Effect s op s
  | acquire {r : Rid} {kv' : KVCacheManager} {blocks : List Int} {node : Option Nat} (hr : r ∉ s.live)
      (h : KVCacheManager.Acquired s.kv kv' s.store s.live r blocks node) :
      Effect s (.acquire r) (s.put r (r :: s.live) (kv', { s.store r with
        cache := some ⟨blocks, blocks.length * s.kv.blockSize⟩
        cacheNode := node
        numCachedTokens := blocks.length * s.kv.blockSize }))
  | abandon {r : Rid} {kv' : KVCacheManager} (hr : r ∈ s.live)
      (h : KVCacheManager.Forgotten s.kv kv' s.store s.live r
        { s.store r with cache := none, cacheNode := none, numCachedTokens := 0 }) :
      Effect s (.abandon r) (s.put r (s.live.erase r) (kv',
        { s.store r with cache := none, cacheNode := none, numCachedTokens := 0 }))
  | evict {op : KVOp} {kv' : KVCacheManager} (h : KVCacheManager.Evicted s.kv kv' s.store s.live) :
      Effect s op { s with kv := kv' }
  | extend {r : Rid} {n : Nat} {kv1 kv' : KVCacheManager} {tb tb' : BlockTable} (hr : r ∈ s.live)
      (h : KVCacheManager.Evicted s.kv kv1 s.store s.live)
      (h' : KVCacheManager.Extended kv1 kv' s.store s.live r tb tb' n) (hc : (s.store r).cache = some tb) :
      Effect s (.extend r n) (s.put r s.live (kv', { s.store r with cache := some tb' }))
  | commit {r : Rid} {kv' : KVCacheManager} {node : Option Nat} (hr : r ∈ s.live)
      (h : KVCacheManager.Committed s.kv kv' s.store s.live r node) :
      Effect s (.commit r) (s.put r s.live (kv', { s.store r with cacheNode := node }))
  | release {r : Rid} {kv' : KVCacheManager} (hr : r ∈ s.live)
      (h : KVCacheManager.Released s.kv kv' s.store s.live r { s.store r with cache := none, cacheNode := none }) :
      Effect s (.release r) (s.put r (s.live.erase r) (kv', { s.store r with cache := none, cacheNode := none }))
  | output {r : Rid} {ids : List Token} (hc : (s.store r).covered ≤ Request.seqLen { s.store r with outputIds := ids })
      (ht : s.kv.nodeTokens (s.store r).cacheNode <+: Request.tokens { s.store r with outputIds := ids }) :
      Effect s (.output r ids) (s.put r s.live (s.kv, { s.store r with outputIds := ids }))

theorem put_self (s : KVClient) (r : Rid) : s.put r s.live (s.kv, s.store r) = s := by
  simp [put]

theorem Sound.step_effect (hs : s.Sound) (op : KVOp) : Effect s op (s.step op) := by
  have hs' : s.kv.Sound s.store s.live := hs
  cases op with
  | acquire r =>
    by_cases hr : r ∈ s.live
    · have hc := hs.mem_iff.mp hr
      have : s.step (.acquire r) = s := by
        simp [step, KVCacheManager.acquire, Option.isSome_iff_ne_none.mpr hc]
      rw [this]
      exact .same _
    · obtain ⟨node, blocks, kv', he, h⟩ := hs'.acquire hr
      simp only [step, he]
      exact .acquire hr h
  | abandon r =>
    by_cases hr : r ∈ s.live
    · obtain ⟨kv', he, h⟩ := hs'.abandon hr
      simp only [step, he]
      exact .abandon hr h
    · obtain ⟨h1, h2⟩ := hs.cache_of_notMem hr
      have : s.step (.abandon r) = s := by
        simp [step, KVCacheManager.abandon, h1, h2, KVCacheManager.unlockNode]
      rw [this]
      exact .same _
  | extend r n =>
    simp only [step]
    cases hc : (s.store r).cache with
    | none => exact .same _
    | some tb =>
      have hr : r ∈ s.live := hs.mem_iff.mpr (by simp [hc])
      simp only
      split
      · next hn =>
        obtain ⟨kv1, hev, hok, hbad⟩ := hs'.reserve (tb.need s.kv.blockSize n)
        rcases le_or_gt (tb.need s.kv.blockSize n) s.kv.numAvailable with hle | hlt
        · obtain ⟨he, hfree⟩ := hok hle
          rw [← hev.frame.blockSize] at hfree
          obtain ⟨new, tb', a', hap, hext⟩ := hev.sound.extend hr hc (fun _ => hn) hfree
          simp only [he, hap]
          exact .extend hr hev hext hc
        · simp only [hbad hlt]
          exact .evict hev
      · exact .same _
  | commit r =>
    by_cases hr : r ∈ s.live
    · obtain ⟨kv', node, he, h⟩ := hs'.commit hr
      simp only [step, he]
      exact .commit hr h
    · have : s.step (.commit r) = s := by
        simp only [step, KVCacheManager.commit_no_cache (hs.cache_of_notMem hr).1]
        exact put_self s r
      rw [this]
      exact .same _
  | release r =>
    by_cases hr : r ∈ s.live
    · obtain ⟨kv', he, h⟩ := hs'.release hr
      simp only [step, he]
      exact .release hr h
    · have : s.step (.release r) = s := by
        simp only [step, KVCacheManager.release, (hs.cache_of_notMem hr).1, List.erase_of_not_mem hr]
        exact put_self s r
      rw [this]
      exact .same _
  | reserve n =>
    obtain ⟨kv1, hev, hok, hbad⟩ := hs'.reserve n
    simp only [step]
    rcases le_or_gt n s.kv.numAvailable with hle | hlt
    · rw [(hok hle).1]; exact .evict hev
    · rw [hbad hlt]; exact .evict hev
  | output r ids =>
    simp only [step]
    split
    · next h => exact .output h.1 h.2
    · exact .same _

theorem Effect.sound {s' : KVClient} {op : KVOp} (hs : s.Sound) (h : Effect s op s') : s'.Sound := by
  cases h with
  | same => exact hs
  | acquire _ h => exact h.sound
  | abandon _ h => exact h.sound
  | evict h => exact h.sound
  | extend _ _ h' => exact h'.sound
  | commit _ h => exact h.sound
  | release _ h => exact h.sound
  | @output r ids hc ht =>
    refine KVCacheManager.Sound.rewrite_tokens hs (fun q => ?_) (fun q => ?_) fun q hq => ?_
    · by_cases e : q = r
      · subst e; simp [put]
      · simp [put, e]
    · by_cases e : q = r
      · subst e; simp [put]
      · simp [put, e]
    · by_cases e : q = r
      · subst e; simp only [put, Function.update_self]; exact ⟨fun _ => hc, ht⟩
      · simp only [put, Function.update_of_ne e]
        have := KVCacheManager.Sound.held hs q hq
        exact ⟨this.covered, this.tokens⟩

theorem run_rule {I : KVClient → Prop} {G : KVClient → KVOp → Prop}
    (hstep : ∀ {s s' : KVClient} {op : KVOp}, s.Sound → I s → G s op → Effect s op s' → I s')
    (ops : List KVOp) {s : KVClient} (hs : s.Sound) (hI : I s) (hG : s.Meets G ops) :
    (s.run ops).Sound ∧ I (s.run ops) := by
  induction ops generalizing s with
  | nil => exact ⟨hs, hI⟩
  | cons op ops ih =>
    have he := hs.step_effect op
    exact ih (he.sound hs) (hstep hs hI hG.1 he) hG.2

theorem meets_true (s : KVClient) (ops : List KVOp) : s.Meets (fun _ _ => True) ops := by
  induction ops generalizing s with
  | nil => trivial
  | cons op ops ih => exact ⟨trivial, ih _⟩

end Effects

section Accounting

structure Accounted (s : KVClient) (t : RadixTree) : Prop where
  refcount : ∀ b, s.kv.allocator.ref b = s.live.countP (fun r => b ∈ (s.store r).tableBlocks) +
    (if b ∈ treeBlocks t.forest then 1 else 0)
  free_nodup : s.kv.allocator.free.Nodup
  mem_free : ∀ b, b ∈ s.kv.allocator.free ↔ s.kv.allocator.InRange b ∧ s.kv.allocator.ref b = 0
  cached_once : (treeBlocks t.forest).Nodup
  lock : ∀ x ∈ t.forest.nodes, x.1.lock =
    s.live.countP (fun r => (s.store r).cacheNode ∈ (x.1.uid :: keys RadixNode.uid x.2).map some)
  lock_le : ∀ x ∈ t.forest.nodes, ∀ child ∈ x.2.labels, child.lock ≤ x.1.lock
  numCachedBlocks : t.numCachedBlocks = (t.forest.labels.map (fun n => n.blocks.length)).sum
  numEvictable : t.numEvictable =
    ((t.forest.labels.filter (fun n => n.lock = 0)).map (fun n => n.blocks.length)).sum
  unlocked : ∀ n ∈ t.forest.labels, n.lock = 0 → ∀ b ∈ n.blocks, s.kv.allocator.ref b = 1
  uniform : ∀ n ∈ t.forest.labels, ∀ b ∈ n.blocks, ∀ c ∈ n.blocks, s.kv.allocator.ref b = s.kv.allocator.ref c

variable {s : KVClient} {t : RadixTree}

theorem nodeHolders_subtree {store : Store} {live : List Rid} {ks : List Nat} (hn : ks.Nodup) :
    (ks.map (KVCacheManager.nodeHolders store live)).sum =
      live.countP (fun r => (store r).cacheNode ∈ ks.map some) := by
  induction ks with
  | nil => simp
  | cons k ks ih =>
    obtain ⟨hk, hn'⟩ := List.nodup_cons.mp hn
    rw [List.map_cons, List.sum_cons, ih hn', KVCacheManager.nodeHolders, holders]
    clear ih
    induction live with
    | nil => rfl
    | cons r live ih =>
      simp only [List.countP_cons, List.map_cons, List.mem_cons, decide_eq_true_eq] at ih ⊢
      by_cases e : (store r).cacheNode = some k
      · have : (store r).cacheNode ∉ ks.map some := by rw [e]; simpa using hk
        simp only [e, true_or, if_true] at this ⊢
        simp only [this, if_false]
        omega
      · simp only [e, false_or, if_false]
        omega

theorem Sound.accounted (hs : s.Sound) (ht : s.kv.tree = some t) : Accounted s t := by
  have hs' : s.kv.Sound s.store s.live := hs
  have hts := hs'.tree t ht
  have hcb : s.kv.cachedBlocks = treeBlocks t.forest := KVCacheManager.cachedBlocks_some ht
  have href (b : Int) : s.kv.allocator.ref b = s.live.countP (fun r => b ∈ (s.store r).tableBlocks) +
      (if b ∈ treeBlocks t.forest then 1 else 0) := by
    rw [hs'.ref, hcb, List.Nodup.count hts.blocks_nodup]
    rfl
  constructor
  · exact href
  · exact hs'.allocator.nodup
  · exact hs'.allocator.mem_free
  · exact hts.blocks_nodup
  · intro x hx
    have hnd : (x.1.uid :: keys RadixNode.uid x.2).Nodup := nodup_subtree hts.keys_nodup hx
    rw [← nodeHolders_subtree hnd, (carries_nodes hts.carries x hx).1]
    simp [weight, keys, Function.comp_def]
  · exact fun x hx => carries_below_le hts.carries hx
  · exact hts.cached
  · rw [hts.evictable]
    congr 1
    unfold weight
    induction t.forest.labels with
    | nil => rfl
    | cons n l ih => by_cases h0 : n.lock = 0 <;> simp [evictableLen, h0, ih]
  · exact fun n hn h0 b hb => hs'.unlocked_ref ht hn h0 hb
  · intro n hn b hb c hc
    have hmem (d : Int) (hd : d ∈ n.blocks) : d ∈ treeBlocks t.forest := List.mem_flatMap.mpr ⟨n, hn, hd⟩
    rw [href, href, if_pos (hmem b hb), if_pos (hmem c hc)]
    congr 1
    refine List.countP_congr fun r hr => ?_
    simp only [decide_eq_true_eq]
    exact ⟨fun h => hs'.uniform t ht n hn r hr b hb h hc, fun h => hs'.uniform t ht n hn r hr c hc h hb⟩

theorem Effect.radix {s' : KVClient} {op : KVOp} (h : Effect s op s') :
    s'.kv.tree.isSome = s.kv.tree.isSome := by
  cases h with
  | same => rfl
  | acquire _ h => exact h.frame.radix
  | abandon _ h => exact h.frame.radix
  | evict h => exact h.frame.radix
  | extend _ h h' => exact h'.frame.radix.trans h.frame.radix
  | commit _ h => exact h.frame.radix
  | release _ h => exact h.frame.radix
  | output => rfl

theorem run_accounted {numBlocks blockSize : Nat} (hn : 0 < numBlocks) (hb : 0 < blockSize)
    (prompt : Rid → List Token) (params : Rid → SamplingParams) (ops : List KVOp) :
    ∃ t, ((init (.fresh numBlocks blockSize hn hb) prompt params).run ops).kv.tree = some t ∧
      Accounted ((init (.fresh numBlocks blockSize hn hb) prompt params).run ops) t := by
  obtain ⟨hs, hr⟩ := run_rule (I := fun s => s.kv.tree.isSome = true) (G := fun _ _ => True)
    (fun _ hI _ he => he.radix.trans hI) ops (init_sound hn hb prompt params) rfl (meets_true _ ops)
  obtain ⟨t, ht⟩ := Option.isSome_iff_exists.mp hr
  exact ⟨t, ht, hs.accounted ht⟩

theorem run_accounted_two_blocks : ∃ t, ((init (.fresh 2 2 (by decide) (by decide)) (fun _ => [1, 2, 3])
    (fun _ => { maxNewTokens := 2 })).run
      [.acquire 0, .extend 0 3, .commit 0, .release 0, .acquire 1]).kv.tree = some t ∧
      Accounted ((init (.fresh 2 2 (by decide) (by decide)) (fun _ => [1, 2, 3])
        (fun _ => { maxNewTokens := 2 })).run [.acquire 0, .extend 0 3, .commit 0, .release 0, .acquire 1]) t :=
  run_accounted (by decide) (by decide) _ _ _

end Accounting

section Availability

def heldByTables (s : KVClient) : List Int := (s.live.flatMap (fun r => (s.store r).tableBlocks)).dedup

def Available (s : KVClient) : Prop := s.kv.numAvailable = s.kv.allocator.numBlocks - s.heldByTables.length

instance (s : KVClient) : Decidable s.Available := inferInstanceAs (Decidable (_ = _))

def NoTwin (s : KVClient) : KVOp → Prop
  | .commit r => ∀ c ∈ s.kv.cachedCells, ∀ i < (s.store r).covered / s.kv.blockSize,
      c.1 = (s.store r).tokens.take ((i + 1) * s.kv.blockSize) → (s.store r).tableBlocks[i]? = some c.2
  | _ => True

instance (s : KVClient) (op : KVOp) : Decidable (s.NoTwin op) :=
  match op with
  | .commit r => inferInstanceAs (Decidable (∀ c ∈ s.kv.cachedCells, ∀ i < (s.store r).covered / s.kv.blockSize,
      c.1 = (s.store r).tokens.take ((i + 1) * s.kv.blockSize) → (s.store r).tableBlocks[i]? = some c.2))
  | .acquire _ | .abandon _ | .extend .. | .release _ | .reserve _ | .output .. => .isTrue trivial

instance decidableMeets (G : KVClient → KVOp → Prop) [∀ s op, Decidable (G s op)] :
    (s : KVClient) → (ops : List KVOp) → Decidable (s.Meets G ops)
  | _, [] => .isTrue trivial
  | s, op :: ops =>
    have := decidableMeets G (s.step op) ops
    inferInstanceAs (Decidable (G s op ∧ (s.step op).Meets G ops))

def OwnPaths (s : KVClient) : Prop :=
  ∀ r ∈ s.live, s.kv.nodeBlocks (s.store r).cacheNode ⊆ (s.store r).tableBlocks

variable {s : KVClient}

theorem Sound.available_iff (hs : s.Sound) : s.Available ↔
    ∀ r ∈ s.live, ∀ b ∈ s.kv.nodeBlocks (s.store r).cacheNode, ∃ q ∈ s.live, b ∈ (s.store q).tableBlocks := by
  have hlaw := KVCacheManager.Sound.numAvailable hs
  have hmem (b : Int) : b ∈ (s.live.flatMap (fun r => (s.store r).tableBlocks)).toFinset ↔
      ∃ q ∈ s.live, b ∈ (s.store q).tableBlocks := by simp
  have hsub : (s.live.flatMap (fun r => (s.store r).tableBlocks)).toFinset ⊆ s.kv.heldBlocks s.store s.live := by
    intro b hb
    obtain ⟨q, hq, hm⟩ := (hmem b).mp hb
    exact KVCacheManager.mem_heldBlocks.mpr ⟨q, hq, .inl hm⟩
  have hcard : s.heldByTables.length = (s.live.flatMap (fun r => (s.store r).tableBlocks)).toFinset.card :=
    (List.card_toFinset _).symm
  rw [Available, hlaw, hcard]
  constructor
  · intro h r hr b hb
    have heq := Finset.eq_of_subset_of_card_le hsub (by omega)
    rw [← hmem, heq]
    exact KVCacheManager.mem_heldBlocks.mpr ⟨r, hr, .inr hb⟩
  · intro h
    have heq : s.kv.heldBlocks s.store s.live = (s.live.flatMap (fun r => (s.store r).tableBlocks)).toFinset := by
      refine Finset.Subset.antisymm (fun b hb => ?_) hsub
      rw [hmem]
      obtain ⟨q, hq, hm | hm⟩ := KVCacheManager.mem_heldBlocks.mp hb
      · exact ⟨q, hq, hm⟩
      · exact h q hq b hm
    rw [heq]

theorem OwnPaths.available (hs : s.Sound) (h : s.OwnPaths) : s.Available :=
  hs.available_iff.mpr fun r hr _ hb => ⟨r, hr, h r hr hb⟩

theorem Effect.ownPaths {s' : KVClient} {op : KVOp} (hs : s.Sound) (h : Effect s op s') (ho : s.OwnPaths)
    (hg : s.NoTwin op) : s'.OwnPaths := by
  have hother {r q : Rid} (x : Request) (e : q ≠ r) : Function.update s.store r x q = s.store q :=
    Function.update_of_ne e _ _
  have hkeep {live : List Rid} {kv' : KVCacheManager} {r : Rid} {x : Request}
      (hf : KVCacheManager.Frame s.kv kv' s.store live) (q : Rid) (hq : q ∈ live) (hl : q ∈ s.live) (e : q ≠ r) :
      kv'.nodeBlocks (Function.update s.store r x q).cacheNode ⊆ (Function.update s.store r x q).tableBlocks := by
    rw [hother x e, hf.nodeBlocks q hq]
    exact ho q hl
  cases h with
  | same => exact ho
  | @acquire r kv' blocks node hr h =>
    intro q hq
    by_cases e : q = r
    · subst e
      simp only [put, Function.update_self, h.nodeBlocks]
      exact fun _ hb => hb
    · have hl : q ∈ s.live := (List.mem_cons.mp hq).resolve_left e
      exact hkeep h.frame q hl hl e
  | @abandon r kv' hr h =>
    intro q hq
    have hne : q ≠ r := fun e => (KVCacheManager.Sound.nodup hs).not_mem_erase (e ▸ hq)
    exact hkeep h.frame q (List.mem_of_mem_erase hq) (List.mem_of_mem_erase hq) hne
  | evict h =>
    intro q hq
    have := ho q hq
    rwa [← h.frame.nodeBlocks q hq] at this
  | @extend r n kv1 kv' tb tb' hr h h' hc =>
    intro q hq
    have hf := h.frame.trans h'.frame
    by_cases e : q = r
    · subst e
      have hb := ho q hq
      rw [← hf.nodeBlocks q hq] at hb
      have htb : (s.store q).tableBlocks = tb.blocks := by simp [Request.tableBlocks, hc]
      simp only [put, Function.update_self]
      exact fun b hm => h'.blocks.subset (htb ▸ hb hm)
    · exact hkeep hf q hq hq e
  | @commit r kv' node hr h =>
    intro q hq
    by_cases e : q = r
    · subst e
      simp only [put, Function.update_self]
      intro b hb
      obtain ⟨i, hi⟩ := List.mem_iff_getElem?.mp hb
      rcases h.found i b hi with hm | hm
      · exact List.mem_of_getElem? hm
      · cases ht : s.kv.tree with
        | none => simp [KVCacheManager.cachedCells, ht] at hm
        | some t =>
          have hlt : i < (s.store q).covered / s.kv.blockSize := by
            rw [← h.nodeBlocks (by simp [ht])]
            exact (List.getElem?_eq_some_iff.mp hi).1
          exact List.mem_of_getElem? (hg _ hm i hlt rfl)
    · exact hkeep h.frame q hq hq e
  | @release r kv' hr h =>
    intro q hq
    have hne : q ≠ r := fun e => (KVCacheManager.Sound.nodup hs).not_mem_erase (e ▸ hq)
    exact hkeep h.frame q hq (List.mem_of_mem_erase hq) hne
  | @output r ids hc ht =>
    intro q hq
    by_cases e : q = r
    · subst e
      simp only [put, Function.update_self]
      exact ho q hq
    · exact hkeep (KVCacheManager.Frame.refl s.kv s.store s.live) q hq hq e

theorem run_available {numBlocks blockSize : Nat} (hn : 0 < numBlocks) (hb : 0 < blockSize)
    (prompt : Rid → List Token) (params : Rid → SamplingParams) (ops : List KVOp)
    (hops : (init (.fresh numBlocks blockSize hn hb) prompt params).Meets NoTwin ops) :
    ((init (.fresh numBlocks blockSize hn hb) prompt params).run ops).Available := by
  obtain ⟨hs, ho⟩ := run_rule (I := OwnPaths) (G := NoTwin) (fun hs hI hG he => he.ownPaths hs hI hG) ops
    (init_sound hn hb prompt params) (by simp [OwnPaths, init]) hops
  exact ho.available hs

theorem run_available_shared_prefix : (init (.fresh 4 2 (by decide) (by decide)) (fun _ => [1, 2, 3])
    (fun _ => { maxNewTokens := 2 })).run
      [.acquire 0, .extend 0 3, .commit 0, .acquire 1, .extend 1 1, .commit 1, .release 0] |>.Available :=
  run_available (by decide) (by decide) _ _ _ (by decide)

def twinPrompt : KVClient := init (.fresh 2 2 Nat.two_pos Nat.two_pos) (fun _ => [1, 2]) (fun _ => { maxNewTokens := 2 })

def twinOps : List KVOp :=
  [.acquire 0, .extend 0 2, .commit 0, .release 0, .acquire 1, .extend 1 2, .commit 1]

theorem run_twin_not_available : ¬ (twinPrompt.run twinOps).Available := by
  decide

end Availability

end KVClient

end MiniServe
