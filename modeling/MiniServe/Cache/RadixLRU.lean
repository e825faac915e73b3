import MiniServe.Cache.KVTree

namespace MiniServe

open Forest Holders

variable {bs clock uid : Nat}

theorem walk_falling {F : Forest RadixNode} {ts : List Token} (hc : ∀ n ∈ F.labels, n.lastAccess ≤ clock)
    (hf : Falling RadixNode.lastAccess F) :
    Falling RadixNode.lastAccess (walkBelow bs clock uid F ts).forest ∧
      ∀ n ∈ (walkBelow bs clock uid F ts).forest.labels, n.lastAccess ≤ clock := by
  induction F generalizing ts with
  | nil => exact ⟨trivial, by simp [walkBelow]⟩
  | cons n b r ihb ihr =>
    obtain ⟨h1, h2, h3⟩ := hf
    have hn : n.lastAccess ≤ clock := hc n (by simp)
    have hb : ∀ m ∈ b.labels, m.lastAccess ≤ clock := fun m hm => hc m (by simp [hm])
    have hr : ∀ m ∈ r.labels, m.lastAccess ≤ clock := fun m hm => hc m (by simp [hm])
    simp only [walkBelow]
    split
    · split
      · have htop (k : Nat) : ∀ m ∈ (Forest.cons (n.lower bs k) b .nil).labels, m.lastAccess ≤ clock := by
          intro m hm
          simp only [labels_cons, labels_nil, List.append_nil, List.mem_cons] at hm
          rcases hm with rfl | hm
          · exact hn
          · exact hb m hm
        refine ⟨⟨htop _, ⟨h1, h2, trivial⟩, h3⟩, fun m hm => ?_⟩
        rw [labels_cons] at hm
        rcases List.mem_cons.mp hm with rfl | hm
        · exact le_rfl
        · exact (List.mem_append.mp hm).elim (htop _ m) (hr m)
      · obtain ⟨hf', hc'⟩ := @ihb (ts.drop (matchedBlocks bs n ts * bs)) hb h2
        refine ⟨⟨hc', hf', h3⟩, fun m hm => ?_⟩
        rw [labels_cons] at hm
        rcases List.mem_cons.mp hm with rfl | hm
        · exact le_rfl
        · exact (List.mem_append.mp hm).elim (hc' m) (hr m)
    · obtain ⟨hf', hc'⟩ := @ihr ts hr h3
      refine ⟨⟨h1, h2, hf'⟩, fun m hm => ?_⟩
      rw [labels_cons] at hm
      rcases List.mem_cons.mp hm with rfl | hm
      · exact hn
      · exact (List.mem_append.mp hm).elim (hb m) (hc' m)

theorem walk_touches {F : Forest RadixNode} {ts : List Token} (hn : (keys RadixNode.uid F).Nodup)
    (hlt : ∀ k ∈ keys RadixNode.uid F, k < uid) {u : Nat} (hu : (walkBelow bs clock uid F ts).node = some u) :
    u ∈ keys RadixNode.uid (walkBelow bs clock uid F ts).forest ∧
      ∀ a ∈ (walkBelow bs clock uid F ts).forest.path RadixNode.uid u, a.lastAccess = clock := by
  induction F generalizing ts u with
  | nil => simp [walkBelow] at hu
  | cons n b r ihb ihr =>
    obtain ⟨hnb, hnr, hb, hr, hd⟩ := nodup_keys_cons RadixNode.uid hn
    have hltn : n.uid < uid := hlt _ (by simp)
    have hltb : ∀ k ∈ keys RadixNode.uid b, k < uid := fun k hk => hlt k (by simp [hk])
    have hltr : ∀ k ∈ keys RadixNode.uid r, k < uid := fun k hk => hlt k (by simp [hk])
    simp only [walkBelow] at hu ⊢
    split at hu
    · next hkey =>
      rw [if_pos hkey]
      split at hu
      · next hm =>
        obtain rfl := Option.some.inj hu
        rw [if_pos hm]
        simp [path, RadixNode.touch, RadixNode.upper]
      · next hm =>
        obtain rfl := Option.some.inj hu
        rw [if_neg hm]
        have ih := @ihb (ts.drop (matchedBlocks bs n ts * bs))
        generalize hW : walkBelow bs clock uid b (ts.drop (matchedBlocks bs n ts * bs)) = W at *
        have htouch : (n.touch clock).uid = n.uid := rfl
        cases hnode : W.node with
        | none => simp [path, RadixNode.touch]
        | some v =>
          obtain ⟨hv, hall⟩ := ih hb hltb hnode
          have hne : n.uid ≠ v := by
            intro e
            rw [← hW, ← e, walk_mem_keys hltn] at hv
            exact hnb hv
          simp only [Option.getD_some, keys_cons, path, htouch, if_neg hne, if_pos hv]
          refine ⟨by simp [hv], fun a ha => ?_⟩
          rcases List.mem_cons.mp ha with rfl | ha
          · rfl
          · exact hall a ha
    · next hkey =>
      rw [if_neg hkey]
      have ih := @ihr ts hr hltr u hu
      generalize hW : walkBelow bs clock uid r ts = W at *
      obtain ⟨hv, hall⟩ := ih
      have hne : n.uid ≠ u := by
        intro e
        rw [← hW, ← e, walk_mem_keys hltn] at hv
        exact hnr hv
      have hub : u ∉ keys RadixNode.uid b := by
        intro hub
        rw [← hW, walk_mem_keys (hltb u hub)] at hv
        exact hd u hub hv
      simp only [keys_cons, path, if_neg hne, if_neg hub]
      exact ⟨by simp [hv], hall⟩

namespace RadixTree

variable {t t' : RadixTree} {h : Nat → Nat}

structure Aged (t : RadixTree) : Prop where
  falling : Falling RadixNode.lastAccess t.forest
  le_clock : ∀ n ∈ t.forest.labels, n.lastAccess ≤ t.clock

theorem new_aged (uid : Nat) : (new uid).Aged := ⟨trivial, by simp [new]⟩

theorem Aged.walked (ha : t.Aged) (ts : List Token) : (t.walked bs ts).Aged := by
  obtain ⟨h1, h2⟩ := @walk_falling bs (t.clock + 1) t.nextUid t.forest ts
    (fun n hn => (ha.le_clock n hn).trans (Nat.le_succ _)) ha.falling
  exact ⟨h1, h2⟩

theorem Aged.grown (ha : t.Aged) (hs : t.Shaped bs) (ts : List Token) (blocks : List Int) :
    (t.grown bs ts blocks).Aged := by
  have hw : (t.walked bs ts).Aged := ha.walked ts
  have hperm := @attach_labels bs _ _ (newLeaf bs t ts blocks) (hs.walked ts) (hs.walkNode_spec ts).1
  refine ⟨?_, fun n hn => ?_⟩
  · change Falling _ (attach _ _ _ _)
    unfold attach
    split
    · exact falling_append hw.falling
    · next hne =>
      refine falling_addUnder (hs.walked ts).keys_nodup (fun a hm => ?_) hw.falling
      cases hnode : (t.walk bs ts).node with
      | none => exact absurd (by simp [walkNode, hnode, RadixTree.walked]) hne
      | some u =>
        rw [show t.walkNode bs ts = u by simp [walkNode, hnode]] at hm
        have := (walk_touches hs.keys_nodup hs.keys_lt hnode).2 a hm
        exact this.ge
  · rcases List.mem_cons.mp (hperm.mem_iff.mp hn) with rfl | hn
    · exact le_rfl
    · exact hw.le_clock n hn

theorem Aged.relock (ha : t.Aged) (hr : Relocked t t') : t'.Aged := by
  have hbare (n : RadixNode) : n.bare.lastAccess = n.lastAccess := rfl
  refine ⟨?_, fun n hn => ?_⟩
  · rw [← falling_map hbare, hr.forest, falling_map hbare]
    exact ha.falling
  · have hm : n.bare ∈ (t'.forest.map RadixNode.bare).labels := by
      rw [labels_map]; exact List.mem_map_of_mem hn
    rw [hr.forest, labels_map] at hm
    obtain ⟨m, hm, e⟩ := List.mem_map.mp hm
    have hla : m.lastAccess = n.lastAccess := by rw [← hbare m, e, hbare]
    rw [hr.clock, ← hla]
    exact ha.le_clock m hm

theorem Aged.detach (ha : t.Aged) (node : RadixNode) : (t.detach node).Aged :=
  ⟨falling_remove _ ha.falling, fun n hn => ha.le_clock n (remove_labels_subset _ _ n hn)⟩

theorem Aged.move (hs : t.Shaped bs) (ha : t.Aged) (hm : Move bs t t') : t'.Aged := by
  cases hm with
  | walk ts => exact ha.walked ts
  | grow ts blocks => exact ha.grown hs ts blocks
  | relock hr => exact ha.relock hr
  | detach => exact ha.detach _

theorem Reachable.aged (hbs : 0 < bs) (hr : Reachable bs t) : t.Aged :=
  (hr.rule hbs new_aged fun hs ha hm => ha.move hs hm).2

theorem least_below {node : RadixNode} (hs : t.Sound bs h) (ha : t.Aged)
    (hmin : ∀ n ∈ t.unlockedLeaves, node.evictsBefore n) {x : RadixNode} (hx : x ∈ t.forest.labels) (h0 : x.lock = 0) :
    node.lastAccess ≤ x.lastAccess := by
  rw [labels_eq_nodes] at hx
  obtain ⟨y, hy, rfl⟩ := List.mem_map.mp hx
  obtain ⟨c, hc, hc0, hle⟩ := exists_leaf_below hs.carries hy h0
  have hcx : c.lastAccess ≤ y.1.lastAccess := by
    rcases hle with rfl | hle
    · exact le_rfl
    · exact falling_nodes ha.falling y hy c hle
  have hbefore := hmin c (mem_unlockedLeaves.mpr ⟨hc, hc0⟩)
  unfold RadixNode.evictsBefore at hbefore
  omega

-- `earlier` are the nodes removed before `m`.
structure Turn (t : RadixTree) (earlier : List RadixNode) (m : RadixNode) : Prop where
  unlocked : m.lock = 0
  descendants : ∀ x ∈ t.forest.nodes, x.1 = m → ∀ d ∈ x.2.labels, d ∈ earlier
  first : ∀ x ∈ t.forest.nodes, x.1.lock = 0 → x.1 ∉ earlier → (∀ d ∈ x.2.labels, d ∈ earlier) → m.evictsBefore x.1

structure LeastRecent (n : Int) (t : RadixTree) (a : BlockAllocator) (removed : List RadixNode) (k : Int)
    (a' : BlockAllocator) (t' : RadixTree) : Prop where
  removes : t.forest.labels.Perm (removed ++ t'.forest.labels)
  sorted : removed.Pairwise (fun m m' => m.lastAccess ≤ m'.lastAccess)
  turn : ∀ earlier m later, removed = earlier ++ m :: later → Turn t earlier m
  remaining : ∀ m ∈ removed, ∀ x ∈ t'.forest.labels, x.lock = 0 → m.lastAccess ≤ x.lastAccess
  blocks : k = (removed.map (fun m => m.blocks.length)).sum
  freed : (a'.numFree : Int) = a.numFree + k
  last : ∀ earlier m, removed = earlier ++ [m] → k < n + m.blocks.length

end RadixTree

namespace KVCacheManager

open RadixTree

variable {kv : KVCacheManager} {store : Store} {live : List Rid} {t : RadixTree}

structure Evicting (kv : KVCacheManager) (store : Store) (live : List Rid) (n : Int) (t : RadixTree)
    (l : List RadixNode) (k : Int) (a : BlockAllocator) (t' : RadixTree) : Prop where
  sound : KVCacheManager.Sound ⟨a, some t'⟩ store live
  aged : t'.Aged
  pruned : Pruned t.forest l t'.forest
  evictable : t'.numEvictable = t.numEvictable - k
  recent : LeastRecent n t kv.allocator l k a t'

theorem Evicting.refl (hs : kv.Sound store live) (ht : kv.tree = some t) (ha : t.Aged) (n : Int) :
    Evicting kv store live n t [] 0 kv.allocator t := by
  have hkv : kv = ⟨kv.allocator, some t⟩ := by cases kv; simp_all
  refine ⟨hkv ▸ hs, ha, Pruned.refl _, by simp, ⟨by simp, List.Pairwise.nil, ?_, by simp, by simp, by simp, ?_⟩⟩
  · intro earlier m later e
    exact absurd e (by simp)
  · intro earlier m e
    exact absurd e (by simp)

theorem Evicting.step {n k : Int} {l : List RadixNode} {a a' : BlockAllocator} {t' : RadixTree} {node : RadixNode}
    (hn : (keys RadixNode.uid t.forest).Nodup) (h : Evicting kv store live n t l k a t')
    (hnode : node ∈ t'.unlockedLeaves) (hmin : ∀ m ∈ t'.unlockedLeaves, node.evictsBefore m) (hk : k < n)
    (hfree : a.freeBlocks node.blocks = (.ok (), a')) :
    Evicting kv store live n t (l ++ [node]) (k + node.blocks.length) a' (t'.detach node) := by
  obtain ⟨hl, h0⟩ := mem_unlockedLeaves.mp hnode
  obtain ⟨hfree', hsound, -, hnum⟩ := h.sound.detach rfl hnode
  simp only at hfree' hsound hnum
  have ha' : a' = node.blocks.foldl BlockAllocator.dropRef a := by
    rw [hfree] at hfree'
    exact congrArg Prod.snd hfree'
  subst ha'
  have hts := h.sound.tree t' rfl
  have hlab := leaves_subset_labels _ node hl
  have hpruned := h.pruned.remove hts.keys_nodup hl
  have hold (x : RadixNode) (hx : x ∈ (t'.detach node).forest.labels) : x ∈ t'.forest.labels :=
    remove_labels_subset _ _ x hx
  have hturn : Turn t l node := by
    refine ⟨h0, fun x hx e => ?_, fun x hx hx0 hnot hall => ?_⟩
    · exact ((h.pruned.leaf_iff hn hts.keys_nodup hx).mp (e ▸ hl)).2
    · exact hmin x.1 (mem_unlockedLeaves.mpr ⟨(h.pruned.leaf_iff hn hts.keys_nodup hx).mpr ⟨hnot, hall⟩, hx0⟩)
  refine ⟨hsound, h.aged.detach node, hpruned, ?_, ⟨hpruned.perm, ?_, ?_, ?_, ?_, ?_, ?_⟩⟩
  · have := h.evictable
    simp only [RadixTree.detach]
    omega
  · rw [List.pairwise_append]
    refine ⟨h.recent.sorted, List.pairwise_singleton _ _, fun m hm x hx => ?_⟩
    rw [List.mem_singleton.mp hx]
    exact h.recent.remaining m hm node hlab h0
  · intro earlier m later e
    rcases List.eq_nil_or_concat later with rfl | ⟨later', x, rfl⟩
    · obtain ⟨rfl, he⟩ := List.append_inj' e rfl
      obtain rfl : node = m := by simpa using he
      exact hturn
    · rw [List.concat_eq_append, ← List.cons_append, ← List.append_assoc] at e
      exact h.recent.turn earlier m later' (List.append_inj' e rfl).1
  · intro m hm x hx hx0
    rcases List.mem_append.mp hm with hm | hm
    · exact h.recent.remaining m hm x (hold x hx) hx0
    · rw [List.mem_singleton.mp hm]
      exact least_below hts h.aged hmin (hold x hx) hx0
  · have := h.recent.blocks
    simp only [List.map_append, List.sum_append, List.map_cons, List.map_nil, List.sum_cons, List.sum_nil, Nat.cast_add,
      Nat.add_zero]
    omega
  · have := h.recent.freed
    rw [hnum]
    push_cast
    omega
  · intro earlier m e
    obtain ⟨-, he⟩ := List.append_inj' e rfl
    obtain rfl : node = m := by simpa using he
    omega

theorem Sound.evict_recent (hs : kv.Sound store live) (ht : kv.tree = some t) (ha : t.Aged) (n : Int) :
    ∃ k a t', t.evict kv.allocator n = (.ok k, a, t') ∧
      LeastRecent n t kv.allocator (t.evicted kv.allocator n) k a t' ∧ min n t.numEvictable ≤ k := by
  have hn := (hs.tree t ht).keys_nodup
  obtain ⟨k, r, a, t', he, hev, hend⟩ := evict_trace (N := n) (a := kv.allocator) (t := t)
    (P := Evicting kv store live n t) (fun h => (h.sound.tree _ rfl).keys_nodup)
    (fun h hnode hmin hk hfree => h.step hn hnode hmin hk hfree) (Evicting.refl hs ht ha n)
  rcases hend with ⟨rfl, hend⟩ | ⟨-, -, node, hnode, -, e, a1, herr⟩
  · refine ⟨k, a, t', he, hev.recent, ?_⟩
    rcases hend with hle | hnil
    · exact (min_le_left _ _).trans hle
    · have hts := hev.sound.tree t' rfl
      have hz : ¬ 0 < t'.numEvictable := fun hpos => exists_unlockedLeaf hts hpos hnil
      have := hev.evictable
      exact (min_le_right _ _).trans (by omega)
  · have hfree := (hev.sound.detach rfl hnode).1
    simp only [herr] at hfree
    simp at hfree

end KVCacheManager

namespace KVClient

variable {s : KVClient} {t : RadixTree}

theorem evict_least_recent (h : s.Reachable) (ht : s.kv.tree = some t) (n : Int) :
    (∀ x ∈ t.forest.nodes, ∀ child ∈ x.2.labels, child.lastAccess ≤ x.1.lastAccess) ∧
    ∃ k a t', t.evict s.kv.allocator n = (.ok k, a, t') ∧
      RadixTree.LeastRecent n t s.kv.allocator (t.evicted s.kv.allocator n) k a t' ∧ min n t.numEvictable ≤ k := by
  have ha := (h.tree t ht).aged KVCacheManager.blockSize_pos
  exact ⟨falling_nodes ha.falling, KVCacheManager.Sound.evict_recent h.sound ht ha n⟩

def extendedTwice : KVClient :=
  (start (.fresh 4 1 (Nat.succ_pos (nat_lit 3)) Nat.one_pos) true (fun _ => [1, 2]) (fun _ => { maxNewTokens := 2 })).run
    [.acquire 0, .extend 0 1, .commit 0, .extend 0 1, .release 0]

theorem extendedTwice_reachable : extendedTwice.Reachable :=
  (Reachable.start (by decide) (by decide) true _ _).run _

theorem evict_least_recent_extended : ∃ t, extendedTwice.kv.tree = some t ∧
    ∃ k a t', t.evict extendedTwice.kv.allocator 2 = (.ok k, a, t') ∧
      RadixTree.LeastRecent 2 t extendedTwice.kv.allocator (t.evicted extendedTwice.kv.allocator 2) k a t' ∧
      min 2 t.numEvictable ≤ k := by
  have hsome : extendedTwice.kv.tree.isSome := by decide +kernel
  obtain ⟨t, ht⟩ := Option.isSome_iff_exists.mp hsome
  exact ⟨t, ht, (evict_least_recent extendedTwice_reachable ht 2).2⟩

theorem evict_parent_after_larger_uid : extendedTwice.Reachable ∧ ∃ t, extendedTwice.kv.tree = some t ∧
    ¬ (t.evicted extendedTwice.kv.allocator 2).Pairwise RadixNode.evictsBefore := by
  have hno : extendedTwice.kv.tree.map (fun t => (t.evicted extendedTwice.kv.allocator 2).map
      (fun m => (m.lastAccess, m.uid))) = some [(3, 2), (3, 1)] := by decide +kernel
  obtain ⟨t, ht, he⟩ := Option.map_eq_some_iff.mp hno
  refine ⟨extendedTwice_reachable, t, ht, fun hp => ?_⟩
  have hp' : ((t.evicted extendedTwice.kv.allocator 2).map (fun m => (m.lastAccess, m.uid))).Pairwise
      (fun x y => x.1 < y.1 ∨ x.1 = y.1 ∧ x.2 ≤ y.2) := List.pairwise_map.mpr hp
  rw [he] at hp'
  revert hp'
  decide

end KVClient

end MiniServe
