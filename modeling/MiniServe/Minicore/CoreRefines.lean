import MiniServe.Minicore.Accounts

namespace MiniServe.Minicore

open Forest

namespace Core

variable {c : Core} {bs : Nat} {own : Int → Nat}

-- What a call leaves of the C++ state between calls: the scratch of `free` cleared, the index up to date, no count of
-- tokens below zero, and the references of the state it stands for accounted for.
structure Kept (bs : Nat) (c : Core) (own : Int → Nat) : Prop where
  clean : c.allocator.Clean
  indexed : RadixTree.Indexed [] c.tree
  nonneg : ∀ i, 0 ≤ (c.tables i).numTokens
  accounted : Reference.Accounted bs c.reference own

theorem Kept.ready (h : Kept bs c own) : RadixTree.Ready bs c.allocator c.tree :=
  ⟨h.clean, h.indexed, h.accounted.shaped, h.accounted.covered⟩

structure StepRefines (x : Reply × Core) (y : Reply × Reference) : Prop where
  reply : x.1 = y.1
  state : x.2.reference = y.2
  clean : x.2.allocator.Clean
  indexed : RadixTree.Indexed [] x.2.tree
  nonneg : ∀ i, 0 ≤ (x.2.tables i).numTokens

theorem reference_update (tables : Nat → BlockTable) (i : Nat) (t : BlockTable) :
    (fun j => (Function.update tables i t j).reference) =
        Function.update (fun j => (tables j).reference) i t.reference := by
  funext j
  exact Function.apply_update (fun _ => BlockTable.reference) tables i t j

theorem nonneg_update {tables : Nat → BlockTable} (h : ∀ i, 0 ≤ (tables i).numTokens) (i : Nat) {t : BlockTable}
    (ht : 0 ≤ t.numTokens) (j : Nat) : 0 ≤ (Function.update tables i t j).numTokens := by
  rw [Function.update_apply]
  split
  · exact ht
  · exact h j

theorem reference_numTokens (h : ∀ i, 0 ≤ (c.tables i).numTokens) (i : Nat) :
    ((c.reference.tables i).numTokens : Int) = (c.tables i).numTokens :=
  Int.toNat_of_nonneg (h i)

theorem sum_fits (h : ∀ i, 0 ≤ (c.tables i).numTokens) {i : Nat} {n : Int}
    (hfit : ∀ x ∈ Op.ints c.reference (.appendTokens i n), Packing.Fits x) :
    Packing.Fits ((c.tables i).numTokens + n + c.allocator.blockSize - 1) := by
  have hn : Packing.Fits n := hfit _ List.mem_cons_self
  have hsum : Packing.Fits ((c.reference.tables i).numTokens + n + c.allocator.blockSize) :=
    hfit _ (List.mem_cons_of_mem _ List.mem_cons_self)
  rw [reference_numTokens h] at hsum
  have hi := h i
  have hbs := c.allocator.blockSize_pos
  unfold Packing.Fits at hn hsum ⊢
  omega

theorem withTokens_sized {ts : List Token} (h : ∀ x ∈ Op.sizeAndTokens ts, Packing.Fits x) : withTokens ts = ts :=
  withTokens_eq fun x hx => h x (List.mem_cons_of_mem _ hx)

theorem step_refines (h : Kept bs c own) (op : Op) (hop : op.Proper c.reference own) (hfit : op.NoOverflow c.reference) :
    StepRefines (c.step op) (c.reference.step op) := by
  have hbs : c.allocator.blockSize = bs := h.accounted.blockSize
  have hready := h.ready
  have hints := hfit.1
  have keep : ∀ {r : Reply} {a : BlockAllocator}, a.Clean →
      StepRefines (r, { c with allocator := a }) (r, { c.reference with allocator := a.reference }) :=
    fun hc => ⟨rfl, rfl, hc, h.indexed, h.nonneg⟩
  have table : ∀ {r : Reply} {a : BlockAllocator} {i count : Nat} {t : BlockTable}, a.Clean → 0 ≤ t.numTokens →
      StepRefines (r, { c with allocator := a, tables := Function.update c.tables i t, count := count })
        (r, { c.reference with
          allocator := a.reference, tables := Function.update c.reference.tables i t.reference, count := count }) :=
    fun hc ht => ⟨rfl, by simp only [reference, reference_update], hc, h.indexed, nonneg_update h.nonneg _ ht⟩
  have tree : ∀ {r : Reply} {t : RadixTree}, RadixTree.Indexed [] t →
      StepRefines (r, { c with tree := t }) (r, { c.reference with tree := t.reference }) :=
    fun ht => ⟨rfl, rfl, h.clean, ht, h.nonneg⟩
  have both : ∀ {ρ : Type} {f : ρ → Reply} {x : Except Error ρ × BlockAllocator × RadixTree}
      {y : Except Error ρ × MiniServe.BlockAllocator × MiniServe.RadixTree}, RadixTree.Agree x y →
      StepRefines (.of f x.1, { c with allocator := x.2.1, tree := x.2.2 })
        (.of f y.1, { c.reference with allocator := y.2.1, tree := y.2.2 }) := by
    intro ρ f x y hxy
    rw [← hxy.reply, ← hxy.allocator, ← hxy.tree]
    exact ⟨rfl, rfl, hxy.clean, hxy.indexed, h.nonneg⟩
  have same : ∀ {r r' : Reply}, r = r' → StepRefines (r, c) (r', c.reference) :=
    fun hr => ⟨hr, rfl, h.clean, h.indexed, h.nonneg⟩
  cases op with
  | allocate n =>
    obtain ⟨h1, h2, h3⟩ := c.allocator.allocate_refines n
    have hclean : (c.allocator.allocate n).2.Clean := fun b => by rw [h3, h.clean b]
    simp only [step, Reference.step, reference, ← h1, ← h2]
    exact keep hclean
  | incref blocks =>
    obtain ⟨h1, h2, h3⟩ := c.allocator.incref_refines blocks
    have hclean : (c.allocator.incref blocks).2.Clean := fun b => by rw [h3, h.clean b]
    simp only [step, Reference.step, reference, ← h1, ← h2]
    exact keep hclean
  | free blocks =>
    obtain ⟨h1, h2, h3⟩ := BlockAllocator.freeBlocks_refines h.clean blocks
    simp only [step, Reference.step, reference, ← h1, ← h2]
    exact keep h3
  | newTable blocks =>
    obtain ⟨h1, h2, h3, h4⟩ := BlockTable.new_refines h.clean (hints _ List.mem_cons_self)
    simp only [step, Reference.step, reference]
    generalize BlockTable.new c.allocator blocks = x at h1 h2 h3 h4 ⊢
    generalize MiniServe.BlockTable.new c.allocator.reference blocks = y at h1 h2 ⊢
    obtain ⟨x1, a⟩ := x
    obtain ⟨y1, b⟩ := y
    simp only at h1 h2 h3 h4
    subst h1 h2
    cases x1 with
    | error e => exact keep h3
    | ok t => exact table h3 (h4 t rfl)
  | appendTokens i n =>
    have hsum := sum_fits h.nonneg hints
    obtain ⟨h1, h2, h3, h4, h5⟩ := BlockTable.appendTokens_refines h.clean (h.nonneg i) hsum
    simp only [step, Reference.step, reference, ← h1, ← h2, ← h4]
    exact table h5 h3
  | rewind i n =>
    obtain ⟨h1, h2, h3⟩ := BlockTable.rewind_refines (h.nonneg i) n
    simp only [step, Reference.step, reference, ← h1, ← h2]
    exact table h.clean h3
  | release i =>
    obtain ⟨h1, h2, h3, h4, h5⟩ := BlockTable.release_refines h.clean (h.nonneg i)
    simp only [step, Reference.step, reference, ← h1, ← h2, ← h4]
    exact table h5 h3
  | matchPrefix ts =>
    obtain ⟨h1, h2⟩ := RadixTree.matchPrefix_refines c.allocator.blockSize c.tree ts
    have hindexed : RadixTree.Indexed [] (c.tree.matchPrefix c.allocator.blockSize ts).2 := by
      rw [RadixTree.matchPrefix_snd, hbs]
      exact h.indexed.walked h.accounted.shaped ts
    simp only [step, Reference.step, reference, BlockAllocator.reference_blockSize, withTokens_sized hints, ← h1, ← h2]
    exact tree hindexed
  | insert ts blocks =>
    have hagree := RadixTree.insert_refines h.clean h.indexed h.accounted.shaped ts blocks
    have htokens : withTokens ts = ts := withTokens_sized fun x hx => hints x (List.mem_append_left _ hx)
    rw [← hbs] at hagree
    simp only [step, htokens]
    exact both hagree
  | lock u =>
    obtain ⟨h1, h2⟩ := RadixTree.lock_refines h.indexed u
    simp only [step, Reference.step, reference, ← h1]
    exact tree h2
  | unlock u =>
    obtain ⟨h1, h2, h3⟩ := RadixTree.unlock_refines h.indexed u
    simp only [step, Reference.step, reference, ← h1, ← h2]
    exact tree h3
  | evict n => exact both (RadixTree.evict_refines hready n)
  | clear => exact both (RadixTree.clear_refines hready)
  | refcount b => exact same (congrArg _ (BlockAllocator.refcount_eq b))
  | blocksNeeded i n =>
    have hsum := sum_fits h.nonneg hints
    exact same (congrArg _ (BlockTable.blocksNeeded_eq (h.nonneg i) hsum))
  | slot i pos => exact same (congrArg _ (BlockTable.slot_eq (h.nonneg i) _ pos))
  | tailSlots i n => exact same (congrArg _ (BlockTable.tailSlots_eq (h.nonneg i) _ n))
  | prefixLen ts =>
    simp only [step, withTokens_sized hints]
    exact same (congrArg (fun n : Nat => Reply.num n) (RadixTree.prefixLen_eq c.tree ts))
  | prefixLens seqs limits =>
    have hseqs : seqs.map withTokens = seqs := (List.map_congr_left fun ts hts =>
      withTokens_sized fun x hx => hints x (List.mem_flatMap.mpr ⟨ts, hts, hx⟩)).trans (List.map_id' seqs)
    simp only [step, hseqs]
    exact same (congrArg _ (RadixTree.prefixLens_eq c.tree seqs limits fun n hn => (hop n hn).1))
  | orderByCachedPrefix reqs =>
    have htokens : ∀ r ∈ reqs, ∀ x ∈ r.1 ++ r.2, Packing.Fits x := fun r hr x hx =>
      hints x (List.mem_flatMap.mpr ⟨r, hr, List.mem_cons_of_mem _ hx⟩)
    exact same (congrArg _ (RadixTree.orderByCachedPrefix_eq c.tree htokens))

theorem Kept.step (h : Kept bs c own) (op : Op) (hop : op.Proper c.reference own) (hfit : op.NoOverflow c.reference) :
    Kept bs (c.step op).2 (op.owned own (c.step op).1) := by
  obtain ⟨h1, h2, h3, h4, h5⟩ := step_refines h op hop hfit
  refine ⟨h3, h4, h5, ?_⟩
  rw [h1, h2]
  exact h.accounted.step op hop

theorem run_refines (ops : List Op) (h : Kept bs c own) (hrun : Op.ProperRun ops c.reference own) :
    (run ops c).1 = (Reference.run ops c.reference).1 ∧ (run ops c).2.reference = (Reference.run ops c.reference).2 ∧
      ∃ own', Kept bs (run ops c).2 own' := by
  induction ops generalizing c own with
  | nil => exact ⟨rfl, rfl, own, h⟩
  | cons op ops ih =>
    obtain ⟨hop, hfit, hops⟩ := hrun
    have hstep := step_refines h op hop hfit
    rw [← hstep.reply, ← hstep.state] at hops
    obtain ⟨h1, h2, h3⟩ := ih (h.step op hop hfit) hops
    simp only [run, Reference.run, ← hstep.reply, ← hstep.state]
    exact ⟨by rw [h1], h2, h3⟩

theorem new_reference (on : Bool) {numBlocks blockSize : Nat} (hn : 0 < numBlocks) (hb : 0 < blockSize) :
    (new numBlocks blockSize hn hb on).reference = .new numBlocks blockSize hn hb := by
  simp only [reference, new, BlockAllocator.fresh_reference, RadixTree.new_reference, Reference.new]
  rfl

theorem new_kept (on : Bool) {numBlocks blockSize : Nat} (hn : 0 < numBlocks) (hb : 0 < blockSize) :
    Kept blockSize (new numBlocks blockSize hn hb on) fun _ => 0 := by
  have href := new_reference on hn hb
  exact ⟨fun b => rfl, RadixTree.new_indexed on, fun i => le_rfl, href ▸ Reference.new_accounted hn hb⟩

theorem step_indexedEviction (c : Core) (op : Op) : (c.step op).2.tree.indexedEviction = c.tree.indexedEviction := by
  cases op with
  | newTable blocks =>
    simp only [step]
    split <;> rfl
  | matchPrefix ts =>
    simp only [step, RadixTree.matchPrefix_snd]
    rfl
  | insert ts blocks => exact RadixTree.insert_indexedEviction ..
  | unlock u => exact RadixTree.unlock_indexedEviction ..
  | evict n => exact RadixTree.evict_indexedEviction ..
  | clear => exact RadixTree.clear_indexedEviction ..
  | _ => rfl

theorem run_indexedEviction (ops : List Op) (c : Core) :
    (run ops c).2.tree.indexedEviction = c.tree.indexedEviction := by
  induction ops generalizing c with
  | nil => rfl
  | cons op ops ih => exact (ih (c.step op).2).trans (step_indexedEviction c op)

-- As long as nothing overflows, whichever way it evicts, the C++ core answers as the reference does and stands
-- for the state the reference is in,
-- and its index holds exactly the unlocked leaves, in the order they are evicted in.
theorem core_refines_reference (on : Bool) {numBlocks blockSize : Nat} (hn : 0 < numBlocks)
    (hb : 0 < blockSize) (ops : List Op)
    (hops : Op.ProperCalls ops numBlocks blockSize hn hb) :
    (run ops (new numBlocks blockSize hn hb on)).1 = (Reference.run ops (.new numBlocks blockSize hn hb)).1 ∧
      (run ops (new numBlocks blockSize hn hb on)).2.reference = (Reference.run ops (.new numBlocks blockSize hn hb)).2 ∧
      SortedSet.Sorted (run ops (new numBlocks blockSize hn hb on)).2.tree.index ∧
      ∀ k, k ∈ (run ops (new numBlocks blockSize hn hb on)).2.tree.index ↔ on = true ∧
        ∃ m ∈ (Reference.run ops (.new numBlocks blockSize hn hb)).2.tree.unlockedLeaves, RadixTree.keyOf m = k := by
  have hkept := new_kept on hn hb
  have href := new_reference on hn hb
  obtain ⟨h1, h2, own, h3⟩ := run_refines ops hkept (href ▸ hops.run)
  rw [href] at h1 h2
  have hon : (run ops (new numBlocks blockSize hn hb on)).2.tree.indexedEviction = on := run_indexedEviction ops _
  refine ⟨h1, h2, h3.indexed.tracked.sorted, fun k => ?_⟩
  rw [← h2]
  cases on with
  | true => exact (h3.indexed.mem_index hon k).trans (by simp [reference])
  | false =>
    rw [h3.indexed.tracked.mem_iff]
    constructor
    · rintro ⟨n, hn, hi, -⟩
      have := h3.indexed.tracked.off n hn hi
      rw [hon] at this
      exact absurd this (by simp)
    · rintro ⟨h, -⟩
      exact absurd h (by simp)

def splitOps : List Op :=
  [.newTable [], .appendTokens 0 4, .insert [1, 2, 3, 4] [0, 1], .release 0, .matchPrefix [1, 2, 5, 6], .allocate 1,
    .evict 1, .free [2], .clear]

theorem core_refines_reference_split : (run splitOps (new 4 2 (by decide) (by decide) true)).1 =
    [.unit, .blocks [0, 1], .node 1, .unit, .found 2 [0], .blocks [2], .num 1, .unit, .unit] := by
  have hops : Op.ProperCalls splitOps 4 2 (by decide) (by decide) := by
    refine ⟨by decide, by decide, trivial, by decide, Nat.one_pos, by decide, trivial, by decide +kernel, Nat.one_pos,
      by decide, trivial, by decide +kernel, trivial, by decide, trivial,
        by decide, fun _ => Nat.le_add_left _ _, by decide,
      trivial, by decide, trivial⟩
  exact (core_refines_reference true _ _ splitOps hops).1.trans (by decide)

end Core

end MiniServe.Minicore
