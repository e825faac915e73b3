import MiniServe.Minicore.Core

namespace MiniServe

open Forest AllocClient

namespace Reference

variable {w : Reference} {bs : Nat} {own own' : Int → Nat} {a : BlockAllocator} {t : RadixTree} {freed : List Int}

-- The caller and the tree as one client of the allocator.
def client (w : Reference) (own : Int → Nat) (freed : List Int) : AllocClient where
  allocator := w.allocator
  tables := w.tables
  count := w.count
  own := fun b => own b + (treeBlocks w.tree.forest).count b
  freed := freed

structure Accounted (bs : Nat) (w : Reference) (own : Int → Nat) : Prop where
  pos : 0 < bs
  blockSize : w.allocator.blockSize = bs
  shaped : w.tree.Shaped bs
  counted : ∃ freed, Stack (w.client own freed) ∧ Held (w.client own freed)

theorem new_accounted {numBlocks : Nat} (hn : 0 < numBlocks) (hb : 0 < bs) :
    Accounted bs (new numBlocks bs hn hb) fun _ => 0 where
  pos := hb
  blockSize := rfl
  shaped := RadixTree.new_shaped 0
  counted := ⟨_, new_stack numBlocks bs hn hb, new_held numBlocks bs hn hb⟩

theorem Accounted.covered (h : Accounted bs w own) : Minicore.RadixTree.Covered w.allocator w.tree := by
  obtain ⟨freed, hs, hh⟩ := h.counted
  intro b hb
  have href : w.allocator.ref b = own b + (treeBlocks w.tree.forest).count b + _ := hh.ref b
  have hpos := List.count_pos_iff.mpr hb
  refine ⟨hs.used b (show 0 < w.allocator.ref b by omega), by omega⟩

theorem call_blockSize {ok : AllocClient → List Int → Prop} {c c' : AllocClient} (h : Call ok c c') :
    c'.allocator.blockSize = c.allocator.blockSize := by
  cases h with
  | allocate h =>
    obtain ⟨k, -, -, -, rfl⟩ := allocate_eq h
    rfl
  | incref h =>
    obtain ⟨-, rfl⟩ := incref_eq h
    rfl
  | free _ h =>
    obtain ⟨-, rfl⟩ := freeBlocks_eq h
    exact BlockAllocator.foldl_dropRef_blockSize _ _
  | newTable h =>
    obtain ⟨-, h, -⟩ := new_eq h
    obtain ⟨-, rfl⟩ := incref_eq h
    rfl
  | appendTokens _ h =>
    obtain ⟨m, -, h, -⟩ := appendTokens_eq h
    obtain ⟨k, -, -, -, rfl⟩ := allocate_eq h
    rfl
  | rewind => rfl
  | release _ h =>
    obtain ⟨h, -⟩ := release_eq h
    obtain ⟨-, rfl⟩ := freeBlocks_eq h
    exact BlockAllocator.foldl_dropRef_blockSize _ _

theorem calls_blockSize {ok : AllocClient → List Int → Prop} {c c' : AllocClient} (h : Calls ok c c') :
    c'.allocator.blockSize = c.allocator.blockSize := by
  induction h with
  | refl => rfl
  | tail _ hc ih => exact (call_blockSize hc).trans ih

-- A call is accounted for when, to the allocator, it is a run of this client.
theorem Accounted.moved {w' : Reference} (h : Accounted bs w own) (hshaped : w'.tree.Shaped bs)
    (hcalls : ∀ freed, ∃ freed', Calls Obtained (w.client own freed) (w'.client own' freed')) :
        Accounted bs w' own' := by
  obtain ⟨freed, hs, hh⟩ := h.counted
  obtain ⟨freed', hc⟩ := hcalls freed
  exact ⟨h.pos, (calls_blockSize hc).trans h.blockSize, hshaped, freed', hc.stack hs, hc.held hs hh⟩

theorem client_congr {w' : Reference} (ha : w'.allocator = w.allocator) (ht : w'.tables = w.tables)
    (hc : w'.count = w.count)
    (hown : ∀ b, own' b + (treeBlocks w'.tree.forest).count b = own b + (treeBlocks w.tree.forest).count b) :
    w'.client own' freed = w.client own freed := by
  simp only [client, ha, ht, hc, hown]

theorem relocked_treeBlocks {t' : RadixTree} (h : RadixTree.Relocked t t') :
    treeBlocks t'.forest = treeBlocks t.forest := by
  have hbare : ∀ F : Forest RadixNode, treeBlocks (F.map RadixNode.bare) = treeBlocks F := by
    intro F
    rw [treeBlocks, treeBlocks, labels_map, List.flatMap_map]
    rfl
  rw [← hbare t'.forest, h.forest, hbare]

section Allocator

variable {n : Int} {out blocks : List Int} {i : Nat} {table : BlockTable}

theorem Accounted.allocate (h : Accounted bs w own) (ha : w.allocator.allocate n = (.ok out, a)) :
    Accounted bs { w with allocator := a } fun b => own b + out.count b := by
  refine h.moved h.shaped fun freed => ⟨freed, .single ?_⟩
  have hc : Call Obtained (w.client own freed) _ := .allocate ha
  simpa only [client, Nat.add_right_comm] using hc

theorem Accounted.incref (h : Accounted bs w own) (ha : w.allocator.incref blocks = (.ok (), a)) :
    Accounted bs { w with allocator := a } fun b => own b + blocks.count b := by
  refine h.moved h.shaped fun freed => ⟨freed, .single ?_⟩
  have hc : Call Obtained (w.client own freed) _ := .incref ha
  simpa only [client, Nat.add_right_comm] using hc

theorem Accounted.free (h : Accounted bs w own) (ha : w.allocator.freeBlocks blocks = (.ok (), a))
    (hown : ∀ b, blocks.count b ≤ own b) : Accounted bs { w with allocator := a } fun b => own b - blocks.count b := by
  refine h.moved h.shaped fun freed => ⟨lastDrops w.allocator blocks ++ freed, .single ?_⟩
  have hobtained : Obtained (w.client own freed) blocks := fun b => (hown b).trans (Nat.le_add_right _ _)
  have hc := Call.free (c := w.client own freed) hobtained ha
  have hsub : (fun b => own b + (treeBlocks w.tree.forest).count b - blocks.count b) =
      fun b => own b - blocks.count b + (treeBlocks w.tree.forest).count b := by
    funext b
    have := hown b
    omega
  simp only [client, hsub] at hc ⊢
  exact hc

theorem Accounted.newTable (h : Accounted bs w own) (ha : BlockTable.new w.allocator blocks = (.ok table, a)) :
    Accounted bs
      { w with allocator := a, tables := Function.update w.tables w.count table, count := w.count + 1 } own := by
  refine h.moved h.shaped fun freed => ⟨freed, .single ?_⟩
  exact Call.newTable (c := w.client own freed) ha

theorem Accounted.appendTokens (h : Accounted bs w own) (hi : i < w.count)
    (ha : (w.tables i).appendTokens w.allocator n = (.ok out, table, a)) :
    Accounted bs { w with allocator := a, tables := Function.update w.tables i table } own := by
  refine h.moved h.shaped fun freed => ⟨freed, .single ?_⟩
  exact Call.appendTokens (c := w.client own freed) hi ha

theorem Accounted.rewind (h : Accounted bs w own) (hi : i < w.count) (ha : (w.tables i).rewind n = (.ok (), table)) :
    Accounted bs { w with tables := Function.update w.tables i table } own := by
  refine h.moved h.shaped fun freed => ⟨freed, .single ?_⟩
  exact Call.rewind (c := w.client own freed) hi ha

theorem Accounted.release (h : Accounted bs w own) (hi : i < w.count)
    (ha : (w.tables i).release w.allocator = (.ok (), table, a)) :
    Accounted bs { w with allocator := a, tables := Function.update w.tables i table } own := by
  refine h.moved h.shaped fun freed => ⟨lastDrops w.allocator (w.tables i).blocks ++ freed, .single ?_⟩
  exact Call.release (c := w.client own freed) hi ha

end Allocator

section Tree

theorem Accounted.retree (h : Accounted bs w own) (hs : t.Shaped bs)
    (hb : treeBlocks t.forest = treeBlocks w.tree.forest) :
    Accounted bs { w with tree := t } own :=
  h.moved hs fun freed => by
    have he : Reference.client { w with tree := t } own freed = w.client own freed :=
      client_congr rfl rfl rfl fun b => by rw [hb]
    exact ⟨freed, he ▸ .refl⟩

theorem Accounted.insert (h : Accounted bs w own) (ts : List Token) (blocks : List Int) :
    Accounted bs { w with
      allocator := (w.tree.insert bs w.allocator ts blocks).2.1
      tree := (w.tree.insert bs w.allocator ts blocks).2.2 } own := by
  have hcase := RadixTree.insert_case h.pos h.shaped w.allocator ts blocks
  generalize w.tree.insert bs w.allocator ts blocks = x at hcase ⊢
  have hwalked := h.retree (h.shaped.walked ts) (RadixTree.walked_treeBlocks ts)
  cases hcase with
  | mismatch => exact h
  | cached => exact hwalked
  | refused => exact hwalked
  | @grown a hlen hm ha =>
    refine h.moved (h.shaped.grown h.pos hlen hm) fun freed => ⟨freed, .single ?_⟩
    have hlabels : (w.tree.grown bs ts blocks).forest.labels.Perm
        (RadixTree.newLeaf bs w.tree ts blocks :: (w.tree.walked bs ts).forest.labels) :=
      RadixTree.attach_labels (h.shaped.walked ts) (h.shaped.walkNode_spec ts).1
    have hperm : (treeBlocks (w.tree.grown bs ts blocks).forest).Perm
        (blocks.drop (w.tree.walk bs ts).matched ++ treeBlocks w.tree.forest) := by
      have hw : treeBlocks (w.tree.walked bs ts).forest = treeBlocks w.tree.forest := RadixTree.walked_treeBlocks ts
      rw [← hw]
      exact hlabels.flatMap_right RadixNode.blocks
    have hc : Call Obtained (w.client own freed) _ := .incref ha
    have hgrown : (fun b => own b + (treeBlocks (w.tree.grown bs ts blocks).forest).count b) =
        fun b => own b + (treeBlocks w.tree.forest).count b + (blocks.drop (w.tree.walk bs ts).matched).count b := by
      funext b
      rw [hperm.count_eq, List.count_append]
      omega
    simp only [client, hgrown] at hc ⊢
    exact hc

theorem Accounted.evict (h : Accounted bs w own) (n : Int) :
    Accounted bs
      { w with allocator := (w.tree.evict w.allocator n).2.1, tree := (w.tree.evict w.allocator n).2.2 } own := by
  obtain ⟨k, a, t, he, hP, -⟩ := RadixTree.evict_rule (N := n) (a := w.allocator) (t := w.tree)
    (P := fun _ a t => Accounted bs { w with allocator := a, tree := t } own)
    (fun hP => hP.shaped.keys_nodup)
    (fun {k a t node} hP hnode _ _ => by
      obtain ⟨hfree, -⟩ := hP.covered.free hP.shaped.keys_nodup hnode
      refine ⟨_, hfree, ?_⟩
      have hleaf := (RadixTree.mem_unlockedLeaves.mp hnode).1
      have hperm := RadixTree.detach_treeBlocks hP.shaped.keys_nodup hleaf
      refine hP.moved (hP.shaped.detach hleaf) fun freed => ⟨lastDrops a node.blocks ++ freed, .single ?_⟩
      have hcount (b : Int) : (treeBlocks t.forest).count b =
          node.blocks.count b + (treeBlocks (t.detach node).forest).count b := by
        rw [hperm.count_eq, List.count_append]
      have hobtained : Obtained (Reference.client { w with allocator := a, tree := t } own freed) node.blocks := by
        intro b
        have := hcount b
        simp only [client]
        omega
      have hc := Call.free hobtained hfree
      have hdetached : (fun b => own b + (treeBlocks (t.detach node).forest).count b) =
          fun b => own b + (treeBlocks t.forest).count b - node.blocks.count b := by
        funext b
        have := hcount b
        omega
      simp only [client, hdetached] at hc ⊢
      exact hc) h
  rw [he]
  exact hP

theorem Accounted.clear (h : Accounted bs w own) :
    Accounted bs { w with allocator := (w.tree.clear w.allocator).2.1, tree := (w.tree.clear w.allocator).2.2 } own := by
  have hevict := h.evict w.tree.numCachedBlocks
  unfold RadixTree.clear
  by_cases hne : w.tree.numEvictable ≠ w.tree.numCachedBlocks
  · rw [if_pos hne]
    exact h
  · rw [if_neg hne]
    generalize w.tree.evict w.allocator w.tree.numCachedBlocks = x at hevict ⊢
    obtain ⟨r, a, t⟩ := x
    cases r with
    | error e => exact hevict
    | ok => exact hevict

end Tree

theorem Accounted.step (h : Accounted bs w own) (op : Op) (hop : op.Proper w own) :
    Accounted bs (w.step op).2 (op.owned own (w.step op).1) := by
  have hbs := h.blockSize
  cases op with
  | allocate n =>
    rcases hr : w.allocator.allocate n with ⟨⟨e⟩ | ⟨out⟩, a⟩
    · obtain rfl := allocate_unchanged hr
      simpa [Reference.step, hr, Reply.of, Op.owned] using h
    · simpa [Reference.step, hr, Reply.of, Op.owned] using h.allocate hr
  | incref blocks =>
    rcases hr : w.allocator.incref blocks with ⟨⟨e⟩ | ⟨⟨⟩⟩, a⟩
    · obtain rfl := incref_unchanged hr
      simpa [Reference.step, hr, Reply.of, Op.owned] using h
    · simpa [Reference.step, hr, Reply.of, Op.owned] using h.incref hr
  | free blocks =>
    rcases hr : w.allocator.freeBlocks blocks with ⟨⟨e⟩ | ⟨⟨⟩⟩, a⟩
    · obtain rfl := freeBlocks_unchanged hr
      simpa [Reference.step, hr, Reply.of, Op.owned] using h
    · simpa [Reference.step, hr, Reply.of, Op.owned] using h.free hr hop
  | newTable blocks =>
    rcases hr : BlockTable.new w.allocator blocks with ⟨⟨e⟩ | ⟨t⟩, a⟩
    · obtain rfl := (unchanged w.allocator).newTable _ _ _ hr
      simpa [Reference.step, hr, Op.owned] using h
    · simpa [Reference.step, hr, Op.owned] using h.newTable hr
  | appendTokens i n =>
    rcases hr : (w.tables i).appendTokens w.allocator n with ⟨⟨e⟩ | ⟨out⟩, t, a⟩
    · obtain ⟨rfl, rfl⟩ := (unchanged w.allocator).appendTokens _ _ _ _ _ hr
      simpa [Reference.step, hr, Reply.of, Op.owned] using h
    · simpa [Reference.step, hr, Reply.of, Op.owned] using h.appendTokens hop hr
  | rewind i n =>
    rcases hr : (w.tables i).rewind n with ⟨⟨e⟩ | ⟨⟨⟩⟩, t⟩
    · obtain rfl := (unchanged w.allocator).rewind _ _ _ _ hr
      simpa [Reference.step, hr, Reply.of, Op.owned] using h
    · simpa [Reference.step, hr, Reply.of, Op.owned] using h.rewind hop hr
  | release i =>
    rcases hr : (w.tables i).release w.allocator with ⟨⟨e⟩ | ⟨⟨⟩⟩, t, a⟩
    · obtain ⟨rfl, rfl⟩ := (unchanged w.allocator).release _ _ _ _ hr
      simpa [Reference.step, hr, Reply.of, Op.owned] using h
    · simpa [Reference.step, hr, Reply.of, Op.owned] using h.release hop hr
  | matchPrefix ts =>
    have hwalked := h.retree (h.shaped.walked ts) (RadixTree.walked_treeBlocks ts)
    simp only [Reference.step, hbs, RadixTree.matchPrefix_snd]
    exact hwalked
  | insert ts blocks =>
    simp only [Reference.step, hbs]
    exact h.insert ts blocks
  | lock u =>
    have hrelocked := RadixTree.lock_relocked w.tree u
    exact h.retree (hrelocked.shaped h.shaped) (relocked_treeBlocks hrelocked)
  | unlock u =>
    have hrelocked := RadixTree.unlock_relocked w.tree u
    exact h.retree (hrelocked.shaped h.shaped) (relocked_treeBlocks hrelocked)
  | evict n => exact h.evict n
  | clear => exact h.clear
  | refcount b => exact h
  | blocksNeeded i n => exact h
  | slot i pos => exact h
  | tailSlots i n => exact h
  | prefixLen ts => exact h
  | prefixLens seqs limits => exact h
  | orderByCachedPrefix reqs => exact h

end Reference

end MiniServe
