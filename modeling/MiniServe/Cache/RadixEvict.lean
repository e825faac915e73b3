import MiniServe.Cache.RadixOps

namespace MiniServe

open Forest

variable {bs : Nat}

theorem popMin_eq_none {l : List RadixNode} : popMin l = none ↔ l = [] := by
  cases l with
  | nil => simp [popMin]
  | cons n l =>
    simp only [popMin]
    split
    · simp
    · split <;> simp

theorem RadixNode.evictsBefore_trans {n m k : RadixNode} (h1 : n.evictsBefore m) (h2 : m.evictsBefore k) :
    n.evictsBefore k := by
  unfold evictsBefore at *
  omega

theorem RadixNode.evictsBefore_total {n m : RadixNode} (h : ¬ n.evictsBefore m) : m.evictsBefore n := by
  unfold evictsBefore at *
  omega

theorem popMin_spec {l l' : List RadixNode} {m : RadixNode} (h : popMin l = some (m, l')) :
    l.Perm (m :: l') ∧ ∀ x ∈ l', m.evictsBefore x := by
  induction l generalizing m l' with
  | nil => simp [popMin] at h
  | cons n l ih =>
    simp only [popMin] at h
    split at h
    · next hn =>
      simp only [Option.some.injEq, Prod.mk.injEq] at h
      obtain ⟨rfl, rfl⟩ := h
      simp [popMin_eq_none.mp hn]
    · next k l'' hk =>
      obtain ⟨hp, hmin⟩ := ih hk
      split at h
      · next hb =>
        simp only [Option.some.injEq, Prod.mk.injEq] at h
        obtain ⟨rfl, rfl⟩ := h
        refine ⟨List.Perm.refl _, fun x hx => ?_⟩
        rcases List.mem_cons.mp (hp.mem_iff.mp hx) with rfl | hx
        · exact hb
        · exact RadixNode.evictsBefore_trans hb (hmin x hx)
      · next hb =>
        simp only [Option.some.injEq, Prod.mk.injEq] at h
        obtain ⟨rfl, rfl⟩ := h
        refine ⟨(hp.cons n).trans (List.Perm.swap _ _ _), fun x hx => ?_⟩
        rcases List.mem_cons.mp hx with rfl | hx
        · exact RadixNode.evictsBefore_total hb
        · exact hmin x hx

theorem cells_remove (u : Nat) (p : List Token) {F : Forest RadixNode}
    (hl : ∀ x ∈ F.nodes, x.1.uid = u → x.2 = nil) :
    cells bs p (F.remove RadixNode.uid u) ⊆ cells bs p F := by
  induction F generalizing p with
  | nil => simp [remove]
  | cons n b r ihb ihr =>
    have hb := ihb (p ++ n.tokens) (fun x hx => hl x (by simp [hx]))
    have hr := ihr p (fun x hx => hl x (by simp [hx]))
    rw [remove]
    split
    · intro x hx; simp [cells, hr hx]
    · intro x hx
      simp only [cells, List.mem_append] at hx ⊢
      rcases hx with hx | hx | hx
      · exact .inl hx
      · exact .inr (.inl (hb hx))
      · exact .inr (.inr (hr hx))

theorem remove_tops (u : Nat) (F : Forest RadixNode) :
    ∀ m ∈ (F.remove RadixNode.uid u).tops, m ∈ F.tops := by
  induction F with
  | nil => simp [remove]
  | cons n b r _ ihr =>
    intro m hm
    rw [remove] at hm
    split at hm
    · simp [ihr m hm]
    · rcases List.mem_cons.mp hm with rfl | hm
      · simp
      · simp [ihr m hm]

theorem WF_remove (u : Nat) {F : Forest RadixNode} (hw : WF bs F) : WF bs (F.remove RadixNode.uid u) := by
  induction F with
  | nil => trivial
  | cons n b r ihb ihr =>
    obtain ⟨h1, h2, h3, h4⟩ := hw
    rw [remove]
    split
    · exact ihr h4
    · exact ⟨h1, fun m hm => h2 m (remove_tops u r m hm), ihb h3, ihr h4⟩

namespace RadixTree

variable {t : RadixTree} {h : Nat → Nat}

theorem mem_unlockedLeaves {node : RadixNode} :
    node ∈ t.unlockedLeaves ↔ node ∈ t.forest.leaves ∧ node.lock = 0 := by
  simp [unlockedLeaves]

theorem Sound.no_holder (hs : t.Sound bs h) {node : RadixNode} (hl : node ∈ t.forest.leaves)
    (h0 : node.lock = 0) : h node.uid = 0 := by
  have := (carries_nodes hs.carries _ ((mem_leaves_iff _ _).mp hl)).1
  simp only [weight_nil] at this
  omega

theorem detach_treeBlocks {node : RadixNode} (hn : (keys RadixNode.uid t.forest).Nodup)
    (hl : node ∈ t.forest.leaves) :
    (treeBlocks t.forest).Perm (node.blocks ++ treeBlocks (t.detach node).forest) := by
  simpa [treeBlocks, detach] using (perm_remove hn hl).flatMap_right RadixNode.blocks

theorem Sound.detach (hs : t.Sound bs h) {node : RadixNode} (hl : node ∈ t.forest.leaves)
    (h0 : node.lock = 0) : (t.detach node).Sound bs h := by
  have hleaf := leaf_unique hs.keys_nodup hl
  have hperm := perm_remove hs.keys_nodup hl
  have hw (f : RadixNode → Nat) : weight f t.forest = f node + weight f (t.detach node).forest := by
    simpa [weight, RadixTree.detach] using (hperm.map f).sum_eq
  have hsub : ∀ k ∈ keys RadixNode.uid (t.detach node).forest, k ∈ keys RadixNode.uid t.forest :=
    fun k hk => ((mem_keys_remove hleaf).mp hk).1
  have hb := detach_treeBlocks hs.keys_nodup hl
  refine ⟨WF_remove _ hs.wf, ?_, fun k hk => hs.keys_lt k (hsub k hk), hs.root_lt,
    fun hm => hs.root_not_mem (hsub _ hm), carries_remove (hs.no_holder hl h0) hleaf hs.carries, ?_, ?_, ?_⟩
  · rw [RadixTree.detach, keys_remove hleaf]; exact hs.keys_nodup.filter _
  · have := hw (fun n => n.blocks.length)
    have hc := hs.cached
    simp only [RadixTree.detach] at this ⊢
    omega
  · have := hw evictableLen
    have hc := hs.evictable
    simp only [RadixTree.detach, evictableLen, h0, if_true] at this ⊢
    rw [hc]
    omega
  · have := hb.nodup_iff.mp hs.blocks_nodup
    exact (List.nodup_append'.mp this).2.1

theorem detach_pathTokens {node : RadixNode} (hn : (keys RadixNode.uid t.forest).Nodup)
    (hl : node ∈ t.forest.leaves) {u : Nat} (hu : u ≠ node.uid) :
    pathTokens (t.detach node).forest u = pathTokens t.forest u := by
  simp only [pathTokens, RadixTree.detach, path_remove (leaf_unique hn hl) hu]

theorem detach_pathBlocks {node : RadixNode} (hn : (keys RadixNode.uid t.forest).Nodup)
    (hl : node ∈ t.forest.leaves) {u : Nat} (hu : u ≠ node.uid) :
    MiniServe.pathBlocks (t.detach node).forest u = MiniServe.pathBlocks t.forest u := by
  simp only [MiniServe.pathBlocks, RadixTree.detach, path_remove (leaf_unique hn hl) hu]

theorem detach_holds {node : RadixNode} (hn : (keys RadixNode.uid t.forest).Nodup)
    (hl : node ∈ t.forest.leaves) {u : Nat} (hu : u ≠ node.uid) (hh : t.Holds u) :
    (t.detach node).Holds u := by
  rcases hh with rfl | hh
  · exact .inl rfl
  · exact .inr ((mem_keys_remove (leaf_unique hn hl)).mpr ⟨hh, hu⟩)

theorem exists_unlockedLeaf (hs : t.Sound bs h) (he : 0 < t.numEvictable) : t.unlockedLeaves ≠ [] := by
  have hw : 0 < weight evictableLen t.forest := by have := hs.evictable; omega
  have hex : ∃ n ∈ t.forest.labels, n.lock = 0 := by
    by_contra hno
    push Not at hno
    rw [weight_congr (g := fun _ => 0) t.forest (fun n hn => by simp [evictableLen, hno n hn])] at hw
    simp [weight] at hw
  obtain ⟨n, hn, h0⟩ := hex
  obtain ⟨l, hl, hl0⟩ := exists_leaf_of_zero hs.carries hn h0
  exact List.ne_nil_of_mem (mem_unlockedLeaves.mpr ⟨hl, hl0⟩)

structure HeapOk (t : RadixTree) (heap : List RadixNode) : Prop where
  nodup : heap.Nodup
  mem_iff : ∀ n, n ∈ heap ↔ n ∈ t.unlockedLeaves

theorem heapOk_unlockedLeaves (hn : (keys RadixNode.uid t.forest).Nodup) : HeapOk t t.unlockedLeaves :=
  ⟨(nodup_leaves hn).filter _, fun _ => Iff.rfl⟩

theorem HeapOk.step {heap heap' : List RadixNode} {node : RadixNode} (hk : HeapOk t heap)
    (hn : (keys RadixNode.uid t.forest).Nodup) (hp : popMin heap = some (node, heap')) :
    HeapOk (t.detach node) (t.pushParent node heap') := by
  obtain ⟨hperm, -⟩ := popMin_spec hp
  have hnode : node ∈ t.unlockedLeaves := (hk.mem_iff node).mp (hperm.mem_iff.mpr (by simp))
  have hl := (mem_unlockedLeaves.mp hnode).1
  have hleaf := leaf_unique hn hl
  have hnd := List.nodup_cons.mp (hperm.nodup_iff.mp hk.nodup)
  have huid : node.uid ∈ keys RadixNode.uid t.forest :=
    (mem_keys _).mpr ⟨node, leaves_subset_labels _ node hl, rfl⟩
  have hrest : ∀ n, n ∈ heap' ↔ n ∈ t.unlockedLeaves ∧ n.uid ≠ node.uid := by
    intro n
    constructor
    · intro hm
      have hm' := (hk.mem_iff n).mp (hperm.mem_iff.mpr (by simp [hm]))
      refine ⟨hm', fun e => hnd.1 ?_⟩
      have := label_unique RadixNode.uid hn (leaves_subset_labels _ n (mem_unlockedLeaves.mp hm').1)
        (leaves_subset_labels _ node hl) e
      exact this ▸ hm
    · rintro ⟨hm, hne⟩
      rcases List.mem_cons.mp (hperm.mem_iff.mp ((hk.mem_iff n).mpr hm)) with rfl | hm
      · exact absurd rfl hne
      · exact hm
  have hleaves := @mem_leaves_remove _ _ _ RadixNode.uid _ _ hn huid hleaf
  unfold RadixTree.pushParent
  cases hpar : t.forest.parent RadixNode.uid node.uid with
  | none =>
    refine ⟨hnd.2, fun n => ?_⟩
    rw [hrest, mem_unlockedLeaves, mem_unlockedLeaves]
    have := hleaves n
    simp only [hpar, reduceCtorEq, false_and, exists_false, or_false] at this
    simp only [RadixTree.detach, this]
    tauto
  | some pb =>
    obtain ⟨p, below⟩ := pb
    obtain ⟨hmem, htop⟩ := parent_mem hpar
    have hpl : p ∉ t.forest.leaves := by
      intro hpl
      have := leaf_unique hn hpl (p, below) hmem rfl
      simp only at this
      subst this
      simp at htop
    have hph : p ∉ heap' := fun hm => hpl (mem_unlockedLeaves.mp ((hrest p).mp hm).1).1
    simp only
    split
    · next hc =>
      refine ⟨List.nodup_cons.mpr ⟨hph, hnd.2⟩, fun n => ?_⟩
      rw [List.mem_cons, hrest, mem_unlockedLeaves, mem_unlockedLeaves]
      simp only [RadixTree.detach, hleaves n, hpar, Option.some.injEq, Prod.mk.injEq]
      constructor
      · rintro (rfl | ⟨⟨h1, h2⟩, h3⟩)
        · exact ⟨.inr ⟨below, ⟨rfl, rfl⟩, hc.1⟩, hc.2⟩
        · exact ⟨.inl ⟨h1, h3⟩, h2⟩
      · rintro ⟨⟨h1, h3⟩ | ⟨_, ⟨rfl, _⟩, _⟩, h2⟩
        · exact .inr ⟨⟨h1, h2⟩, h3⟩
        · exact .inl rfl
    · next hc =>
      refine ⟨hnd.2, fun n => ?_⟩
      rw [hrest, mem_unlockedLeaves, mem_unlockedLeaves]
      simp only [RadixTree.detach, hleaves n, hpar, Option.some.injEq, Prod.mk.injEq]
      constructor
      · rintro ⟨⟨h1, h2⟩, h3⟩
        exact ⟨.inl ⟨h1, h3⟩, h2⟩
      · rintro ⟨⟨h1, h3⟩ | ⟨_, ⟨rfl, rfl⟩, h4⟩, h2⟩
        · exact ⟨⟨h1, h2⟩, h3⟩
        · exact absurd ⟨h4, h2⟩ hc

def evictedNodes (numBlocks : Int) :
    Nat → BlockAllocator → RadixTree → List RadixNode → Int → List RadixNode
  | 0, _, _, _, _ => []
  | fuel + 1, a, t, heap, freed =>
    if freed < numBlocks then
      match popMin heap with
      | none => []
      | some (node, heap') =>
        match a.freeBlocks node.blocks with
        | (.error _, _) => []
        | (.ok (), a') =>
          node :: evictedNodes numBlocks fuel a' (t.detach node) (t.pushParent node heap') (freed + node.blocks.length)
    else []

def evicted (t : RadixTree) (a : BlockAllocator) (numBlocks : Int) : List RadixNode :=
  evictedNodes numBlocks t.forest.labels.length a t t.unlockedLeaves 0

def Stuck (a : BlockAllocator) (t : RadixTree) : Prop :=
  ∃ node ∈ t.unlockedLeaves, (∀ n ∈ t.unlockedLeaves, node.evictsBefore n) ∧
    ∃ e a', a.freeBlocks node.blocks = (.error e, a')

-- What every single eviction of an unlocked leaf keeps, the whole call keeps, for the list of the
-- nodes removed so far; it stops only when enough blocks are freed, no unlocked leaf is left, or the
-- allocator refuses a block.
theorem evictLoop_trace {P : List RadixNode → Int → BlockAllocator → RadixTree → Prop} {N : Int}
    (hkeys : ∀ {l k a t}, P l k a t → (keys RadixNode.uid t.forest).Nodup)
    (hstep : ∀ {l k a t node a'}, P l k a t → node ∈ t.unlockedLeaves →
      (∀ n ∈ t.unlockedLeaves, node.evictsBefore n) → k < N → a.freeBlocks node.blocks = (.ok (), a') →
      P (l ++ [node]) (k + node.blocks.length) a' (t.detach node))
    (fuel : Nat) {l : List RadixNode} {k : Int} {a : BlockAllocator} {t : RadixTree} {heap : List RadixNode}
    (hP : P l k a t) (hh : HeapOk t heap) (hf : t.forest.labels.length ≤ fuel) :
    ∃ n r a' t', evictLoop N fuel a t heap k = (r, a', t') ∧ P (l ++ evictedNodes N fuel a t heap k) n a' t' ∧
      (r = .ok n ∧ (N ≤ n ∨ t'.unlockedLeaves = []) ∨ (∃ e, r = .error e) ∧ n < N ∧ Stuck a' t') := by
  induction fuel generalizing l k a t heap with
  | zero =>
    refine ⟨k, _, a, t, rfl, by simpa [evictedNodes] using hP, .inl ⟨rfl, .inr ?_⟩⟩
    have hnil : t.forest.labels = [] := List.length_eq_zero_iff.mp (by omega)
    rw [List.eq_nil_iff_forall_not_mem]
    intro n hn
    have := leaves_subset_labels _ n (mem_unlockedLeaves.mp hn).1
    simp [hnil] at this
  | succ fuel ih =>
    rw [evictLoop, evictedNodes]
    by_cases hk : k < N
    · rw [if_pos hk, if_pos hk]
      cases hpop : popMin heap with
      | none =>
        refine ⟨k, _, a, t, rfl, by simpa using hP, .inl ⟨rfl, .inr ?_⟩⟩
        rw [List.eq_nil_iff_forall_not_mem]
        intro n hn
        have := (hh.mem_iff n).mpr hn
        simp [popMin_eq_none.mp hpop] at this
      | some nh =>
        obtain ⟨node, heap'⟩ := nh
        obtain ⟨hperm, hmin⟩ := popMin_spec hpop
        have hnode : node ∈ t.unlockedLeaves := (hh.mem_iff node).mp (hperm.mem_iff.mpr (by simp))
        have hfirst : ∀ n ∈ t.unlockedLeaves, node.evictsBefore n := by
          intro n hn
          rcases List.mem_cons.mp (hperm.mem_iff.mp ((hh.mem_iff n).mpr hn)) with rfl | hm
          · exact .inr ⟨rfl, le_rfl⟩
          · exact hmin n hm
        rcases hfree : a.freeBlocks node.blocks with ⟨⟨e⟩ | ⟨⟨⟩⟩, a'⟩
        · have ha : a' = a := by
            unfold BlockAllocator.freeBlocks at hfree
            split at hfree <;> simp_all
          subst ha
          simp only [hfree]
          exact ⟨k, _, a', t, rfl, by simpa using hP, .inr ⟨⟨e, rfl⟩, hk, node, hnode, hfirst, e, a', hfree⟩⟩
        · have hP' := hstep hP hnode hfirst hk hfree
          have hlen := (perm_remove (hkeys hP) (mem_unlockedLeaves.mp hnode).1).length_eq
          simp only [List.length_cons] at hlen
          obtain ⟨n, r, a'', t', he, hend⟩ := ih hP' (hh.step (hkeys hP) hpop) (by simp only [RadixTree.detach]; omega)
          rw [List.append_assoc, List.singleton_append] at hend
          simp only [hfree]
          exact ⟨n, r, a'', t', he, hend⟩
    · rw [if_neg hk, if_neg hk]
      exact ⟨k, _, a, t, rfl, by simpa using hP, .inl ⟨rfl, .inl (by omega)⟩⟩

theorem evict_trace {P : List RadixNode → Int → BlockAllocator → RadixTree → Prop} {N : Int}
    (hkeys : ∀ {l k a t}, P l k a t → (keys RadixNode.uid t.forest).Nodup)
    (hstep : ∀ {l k a t node a'}, P l k a t → node ∈ t.unlockedLeaves →
      (∀ n ∈ t.unlockedLeaves, node.evictsBefore n) → k < N → a.freeBlocks node.blocks = (.ok (), a') →
      P (l ++ [node]) (k + node.blocks.length) a' (t.detach node))
    {a : BlockAllocator} {t : RadixTree} (hP : P [] 0 a t) :
    ∃ n r a' t', t.evict a N = (r, a', t') ∧ P (t.evicted a N) n a' t' ∧
      (r = .ok n ∧ (N ≤ n ∨ t'.unlockedLeaves = []) ∨ (∃ e, r = .error e) ∧ n < N ∧ Stuck a' t') :=
  evictLoop_trace (P := P) (l := []) hkeys hstep _ hP (heapOk_unlockedLeaves (hkeys hP)) le_rfl

theorem evict_rule {P : Int → BlockAllocator → RadixTree → Prop} {N : Int}
    (hkeys : ∀ {k a t}, P k a t → (keys RadixNode.uid t.forest).Nodup)
    (hstep : ∀ {k a t node}, P k a t → node ∈ t.unlockedLeaves →
      (∀ n ∈ t.unlockedLeaves, node.evictsBefore n) → k < N →
      ∃ a', a.freeBlocks node.blocks = (.ok (), a') ∧ P (k + node.blocks.length) a' (t.detach node))
    {a : BlockAllocator} {t : RadixTree} (hP : P 0 a t) :
    ∃ n a' t', t.evict a N = (.ok n, a', t') ∧ P n a' t' ∧ (N ≤ n ∨ t'.unlockedLeaves = []) := by
  obtain ⟨n, r, a', t', he, hP', ⟨rfl, hend⟩ | ⟨-, hlt, node, hnode, hfirst, e, a'', herr⟩⟩ :=
    evict_trace (N := N) (P := fun _ => P) hkeys
      (fun hP hnode hfirst hlt hfree => by
        obtain ⟨a1, h1, h2⟩ := hstep hP hnode hfirst hlt
        rw [hfree] at h1
        obtain ⟨-, rfl⟩ := Prod.mk.inj h1
        exact h2) hP
  · exact ⟨n, a', t', he, hP', hend⟩
  · obtain ⟨a1, h1, -⟩ := hstep hP' hnode hfirst hlt
    simp [herr] at h1

end RadixTree

end MiniServe
