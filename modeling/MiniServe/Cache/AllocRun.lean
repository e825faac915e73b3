import MiniServe.Lib.Holders
import MiniServe.Cache.BlockTable

namespace MiniServe

open Holders

-- A caller of an allocator and the tables built on it. `own` counts the references the caller got from `allocate`
-- and `incref` and has not given back, `freed` lists the blocks in the order they were freed, the latest first.
structure AllocClient where
  allocator : BlockAllocator
  tables : Nat → BlockTable := fun _ => .empty
  count : Nat := 0
  own : Int → Nat := fun _ => 0
  freed : List Int

namespace AllocClient

def new (a : BlockAllocator) : AllocClient where
  allocator := a
  freed := (List.range a.numBlocks).map Int.ofNat

variable (c : AllocClient)

def withTable (i : Nat) (t : BlockTable) (a : BlockAllocator) : AllocClient :=
  { c with allocator := a, tables := Function.update c.tables i t }

def lastDrops (a : BlockAllocator) : List Int → List Int
  | [] => []
  | b :: blocks => lastDrops (a.dropRef b) blocks ++ if a.ref b - 1 = 0 then [b] else []

def holdersOf (b : Int) : Nat := holders (List.range c.count) c.tables fun t => b ∈ t.blocks

inductive Call (ok : AllocClient → List Int → Prop) : AllocClient → AllocClient → Prop
  | allocate {c : AllocClient} {n : Int} {out : List Int} {a : BlockAllocator}
      (h : c.allocator.allocate n = (.ok out, a)) :
      Call ok c { c with allocator := a, own := fun b => c.own b + out.count b }
  | incref {c : AllocClient} {blocks : List Int} {a : BlockAllocator} (h : c.allocator.incref blocks = (.ok (), a)) :
      Call ok c { c with allocator := a, own := fun b => c.own b + blocks.count b }
  | free {c : AllocClient} {blocks : List Int} {a : BlockAllocator} (hok : ok c blocks)
      (h : c.allocator.freeBlocks blocks = (.ok (), a)) :
      Call ok c { c with
        allocator := a
        own := fun b => c.own b - blocks.count b
        freed := lastDrops c.allocator blocks ++ c.freed }
  | newTable {c : AllocClient} {blocks : List Int} {t : BlockTable} {a : BlockAllocator}
      (h : BlockTable.new c.allocator blocks = (.ok t, a)) :
      Call ok c { c.withTable c.count t a with count := c.count + 1 }
  | appendTokens {c : AllocClient} {i : Nat} {n : Int} {out : List Int} {t : BlockTable} {a : BlockAllocator}
      (hi : i < c.count) (h : (c.tables i).appendTokens c.allocator n = (.ok out, t, a)) : Call ok c (c.withTable i t a)
  | rewind {c : AllocClient} {i : Nat} {n : Int} {t : BlockTable} (hi : i < c.count)
      (h : (c.tables i).rewind n = (.ok (), t)) : Call ok c (c.withTable i t c.allocator)
  | release {c : AllocClient} {i : Nat} {t : BlockTable} {a : BlockAllocator} (hi : i < c.count)
      (h : (c.tables i).release c.allocator = (.ok (), t, a)) :
      Call ok c { c.withTable i t a with freed := lastDrops c.allocator (c.tables i).blocks ++ c.freed }

def Calls (ok : AllocClient → List Int → Prop) : AllocClient → AllocClient → Prop := Relation.ReflTransGen (Call ok)

section Documented

variable {a a' : BlockAllocator} {n : Int} {blocks : List Int} {t : BlockTable}

structure Documented (a : BlockAllocator) : Prop where
  allocate : ∀ n, (∃ err, (a.allocate n).1 = .error err) ↔ n < 0 ∨ a.numFree < n
  incref : ∀ blocks, (∃ err, (a.incref blocks).1 = .error err) ↔ ∃ b ∈ blocks, ¬ a.InRange b ∨ b ∈ a.free
  free : ∀ blocks, (∃ err, (a.freeBlocks blocks).1 = .error err) ↔
    ∃ b ∈ blocks, ¬ a.InRange b ∨ a.ref b < blocks.count b
  newTable : ∀ blocks, (∃ err, (BlockTable.new a blocks).1 = .error err) ↔
    ¬ blocks.Nodup ∨ ∃ b ∈ blocks, ¬ a.InRange b ∨ b ∈ a.free
  appendTokens : ∀ (t : BlockTable) n, (∃ err, (t.appendTokens a n).1 = .error err) ↔
    n < 0 ∨ a.numFree < t.need a.blockSize n
  rewind : ∀ (t : BlockTable) n, (∃ err, (t.rewind n).1 = .error err) ↔ n < 0 ∨ t.numTokens < n
  release : ∀ t : BlockTable, (∃ err, (t.release a).1 = .error err) ↔
    ∃ b ∈ t.blocks, ¬ a.InRange b ∨ a.ref b < t.blocks.count b

structure Unchanged (a : BlockAllocator) : Prop where
  allocate : ∀ n err a', a.allocate n = (.error err, a') → a' = a
  incref : ∀ blocks err a', a.incref blocks = (.error err, a') → a' = a
  free : ∀ blocks err a', a.freeBlocks blocks = (.error err, a') → a' = a
  newTable : ∀ blocks err a', BlockTable.new a blocks = (.error err, a') → a' = a
  appendTokens : ∀ (t : BlockTable) n err t' a', t.appendTokens a n = (.error err, t', a') → t' = t ∧ a' = a
  rewind : ∀ (t : BlockTable) n err t', t.rewind n = (.error err, t') → t' = t
  release : ∀ (t : BlockTable) err t' a', t.release a = (.error err, t', a') → t' = t ∧ a' = a

theorem exists_error {α : Type} {x : Except Error α} {P : Prop} (h1 : P → ∃ err, x = .error err)
    (h2 : ¬ P → ∃ y, x = .ok y) : (∃ err, x = .error err) ↔ P := by
  refine ⟨fun ⟨err, herr⟩ => by_contra fun hp => ?_, h1⟩
  obtain ⟨y, hy⟩ := h2 hp
  rw [hy] at herr
  simp at herr

theorem mem_free_or_notInRange (ha : a.Sound) (b : Int) :
    (¬ a.InRange b ∨ b ∈ a.free) ↔ ¬ (a.InRange b ∧ 0 < a.ref b) := by
  rw [ha.mem_free]
  by_cases hr : a.InRange b
  · simp [hr]
  · simp [hr]

theorem incref_raises (ha : a.Sound) (blocks : List Int) :
    (∃ err, (a.incref blocks).1 = .error err) ↔ ∃ b ∈ blocks, ¬ a.InRange b ∨ b ∈ a.free := by
  refine exists_error (fun ⟨b, hb, h⟩ => ?_) fun h => ?_
  · have hsome : (blocks.findSome? a.increfError).isSome := by
      rw [List.findSome?_isSome_iff]
      refine ⟨b, hb, ?_⟩
      rw [Option.isSome_iff_ne_none, Ne, BlockAllocator.increfError_eq_none]
      exact (mem_free_or_notInRange ha b).mp h
    obtain ⟨err, herr⟩ := Option.isSome_iff_exists.mp hsome
    exact ⟨err, by simp [BlockAllocator.incref, herr]⟩
  · have hall : ∀ b ∈ blocks, a.InRange b ∧ 0 < a.ref b := fun b hb =>
      not_not.mp ((mem_free_or_notInRange ha b).not.mp fun hf => h ⟨b, hb, hf⟩)
    exact ⟨(), by rw [BlockAllocator.incref_ok hall]⟩

theorem freeBlocks_raises (a : BlockAllocator) (blocks : List Int) :
    (∃ err, (a.freeBlocks blocks).1 = .error err) ↔ ∃ b ∈ blocks, ¬ a.InRange b ∨ a.ref b < blocks.count b := by
  refine exists_error (fun ⟨b, hb, h⟩ => ?_) fun h => ?_
  · obtain ⟨err, herr⟩ := Option.ne_none_iff_exists'.mp (fun hn : a.freeError blocks = none => by
      obtain ⟨h1, h2⟩ := BlockAllocator.freeError_eq_none.mp hn b hb
      rcases h with h | h
      · exact h h1
      · omega)
    exact ⟨err, by simp [BlockAllocator.freeBlocks, herr]⟩
  · have hall : ∀ b ∈ blocks, a.InRange b ∧ blocks.count b ≤ a.ref b := fun b hb => by
      by_contra hc
      exact h ⟨b, hb, by rw [not_and_or, not_le] at hc; exact hc⟩
    exact ⟨(), by rw [BlockAllocator.freeBlocks_ok hall]⟩

theorem documented (ha : a.Sound) : Documented a where
  allocate := fun n => by
    refine exists_error (fun h => ?_) fun h => ?_
    · by_cases hn : n < 0
      · exact ⟨.cannotAllocate n, by simp [BlockAllocator.allocate, hn]⟩
      · exact ⟨_, by simp [BlockAllocator.allocate, hn, h.resolve_left hn]; rfl⟩
    · rw [not_or, not_lt, not_lt] at h
      obtain ⟨k, rfl⟩ := Int.eq_ofNat_of_zero_le h.1
      exact ⟨_, by rw [BlockAllocator.allocate_ok (by omega)]⟩
  incref := incref_raises ha
  free := freeBlocks_raises a
  newTable := fun blocks => by
    by_cases hn : blocks.Nodup
    · rw [← incref_raises ha]
      simp only [hn, not_true_eq_false, false_or, BlockTable.new, if_true]
      cases h : a.incref blocks with
      | mk res a' => cases res <;> simp
    · simp [BlockTable.new, hn]
  appendTokens := fun t n => by
    refine exists_error (fun h => ?_) fun h => ?_
    · by_cases hn : n < 0
      · exact ⟨_, by simp [BlockTable.appendTokens, BlockTable.blocksNeeded, hn]; rfl⟩
      · have hk : ¬ t.need a.blockSize n < 0 := not_lt.mpr (BlockTable.need_nonneg _ _)
        exact ⟨_, by simp [BlockTable.appendTokens, BlockTable.blocksNeeded, hn, BlockAllocator.allocate, hk,
          h.resolve_left hn]; rfl⟩
    · rw [not_or, not_lt, not_lt] at h
      obtain ⟨k, rfl⟩ := Int.eq_ofNat_of_zero_le h.1
      exact ⟨_, by rw [BlockTable.appendTokens_ok h.2]⟩
  rewind := fun t n => by
    simp only [BlockTable.rewind]
    split
    · next h => simp; omega
    · next h => simp; omega
  release := fun t => by
    rw [← freeBlocks_raises]
    simp only [BlockTable.release]
    cases h : a.freeBlocks t.blocks with
    | mk res a' => cases res <;> simp

theorem incref_unchanged {err : Error} (h : a.incref blocks = (.error err, a')) : a' = a := by
  unfold BlockAllocator.incref at h
  split at h
  · exact (Prod.mk.inj h).2.symm
  · simp at h

theorem allocate_unchanged {err : Error} (h : a.allocate n = (.error err, a')) : a' = a := by
  unfold BlockAllocator.allocate at h
  split at h
  · exact (Prod.mk.inj h).2.symm
  · split at h
    · exact (Prod.mk.inj h).2.symm
    · simp at h

theorem freeBlocks_unchanged {err : Error} (h : a.freeBlocks blocks = (.error err, a')) : a' = a := by
  unfold BlockAllocator.freeBlocks at h
  split at h
  · exact (Prod.mk.inj h).2.symm
  · simp at h

theorem unchanged (a : BlockAllocator) : Unchanged a where
  allocate := fun _ _ _ => allocate_unchanged
  incref := fun _ _ _ => incref_unchanged
  free := fun _ _ _ => freeBlocks_unchanged
  newTable := fun blocks err a' h => by
    unfold BlockTable.new at h
    split at h
    · split at h
      · next h1 =>
        rw [← (Prod.mk.inj h).2]
        exact incref_unchanged h1
      · simp at h
    · exact (Prod.mk.inj h).2.symm
  appendTokens := fun t n err t' a' h => by
    unfold BlockTable.appendTokens at h
    split at h
    · obtain ⟨-, h2⟩ := Prod.mk.inj h
      obtain ⟨rfl, rfl⟩ := Prod.mk.inj h2
      exact ⟨rfl, rfl⟩
    · split at h
      · next h1 =>
        obtain ⟨-, h2⟩ := Prod.mk.inj h
        obtain ⟨rfl, rfl⟩ := Prod.mk.inj h2
        exact ⟨rfl, allocate_unchanged h1⟩
      · simp at h
  rewind := fun t n err t' h => by
    unfold BlockTable.rewind at h
    split at h
    · simp at h
    · exact (Prod.mk.inj h).2.symm
  release := fun t err t' a' h => by
    unfold BlockTable.release at h
    split at h
    · next h1 =>
      obtain ⟨-, h2⟩ := Prod.mk.inj h
      obtain ⟨rfl, rfl⟩ := Prod.mk.inj h2
      exact ⟨rfl, freeBlocks_unchanged h1⟩
    · simp at h

end Documented

section Effects

variable {a a' : BlockAllocator} {n : Int} {blocks out : List Int} {t t' : BlockTable}

theorem allocate_eq (h : a.allocate n = (.ok out, a')) : ∃ k : Nat, n = k ∧ k ≤ a.numFree ∧ out = a.free.take k ∧
    a' = { a with free := a.free.drop k, ref := fun b => if b ∈ a.free.take k then 1 else a.ref b } := by
  have hn : ¬ (n < 0 ∨ a.numFree < n) := by
    rintro (hn | hn)
    · simp [BlockAllocator.allocate, hn] at h
    · have h0 : ¬ n < 0 := by omega
      simp [BlockAllocator.allocate, hn, h0] at h
  rw [not_or, not_lt, not_lt] at hn
  obtain ⟨k, rfl⟩ := Int.eq_ofNat_of_zero_le hn.1
  rw [BlockAllocator.allocate_ok (by omega)] at h
  obtain ⟨h1, rfl⟩ := Prod.mk.inj h
  exact ⟨k, rfl, by omega, (Except.ok.inj h1).symm, rfl⟩

theorem incref_eq (h : a.incref blocks = (.ok (), a')) : (∀ b ∈ blocks, a.InRange b ∧ 0 < a.ref b) ∧
    a' = { a with ref := fun b => a.ref b + blocks.count b } := by
  unfold BlockAllocator.incref at h
  split at h
  · simp at h
  · next hn =>
    exact ⟨fun b hb => BlockAllocator.increfError_eq_none.mp (List.findSome?_eq_none_iff.mp hn b hb),
      (Prod.mk.inj h).2.symm⟩

theorem freeBlocks_eq (h : a.freeBlocks blocks = (.ok (), a')) : (∀ b ∈ blocks, a.InRange b ∧ blocks.count b ≤ a.ref b) ∧
    a' = blocks.foldl BlockAllocator.dropRef a := by
  unfold BlockAllocator.freeBlocks at h
  split at h
  · simp at h
  · next hn => exact ⟨BlockAllocator.freeError_eq_none.mp hn, (Prod.mk.inj h).2.symm⟩

theorem new_eq (h : BlockTable.new a blocks = (.ok t, a')) : blocks.Nodup ∧
    a.incref blocks = (.ok (), a') ∧ t = ⟨blocks, blocks.length * a.blockSize⟩ := by
  unfold BlockTable.new at h
  split at h
  · next hn =>
    split at h
    · simp at h
    · next h1 =>
      obtain ⟨h2, rfl⟩ := Prod.mk.inj h
      exact ⟨hn, h1, (Except.ok.inj h2).symm⟩
  · simp at h

theorem appendTokens_eq (h : t.appendTokens a n = (.ok out, t', a')) : ∃ m : Nat, n = m ∧
    a.allocate (t.need a.blockSize n) = (.ok out, a') ∧ t' = ⟨t.blocks ++ out, t.numTokens + m⟩ := by
  unfold BlockTable.appendTokens BlockTable.blocksNeeded at h
  by_cases hn : n < 0
  · simp [hn] at h
  · obtain ⟨m, rfl⟩ := Int.eq_ofNat_of_zero_le (not_lt.mp hn)
    simp only [hn, if_false] at h
    split at h
    · simp at h
    · next h1 =>
      obtain ⟨h2, h3⟩ := Prod.mk.inj h
      obtain ⟨h4, rfl⟩ := Prod.mk.inj h3
      obtain rfl := Except.ok.inj h2
      exact ⟨m, rfl, h1, h4.symm⟩

theorem rewind_eq (h : t.rewind n = (.ok (), t')) : t'.blocks = t.blocks ∧ t'.numTokens ≤ t.numTokens := by
  unfold BlockTable.rewind at h
  split at h
  · obtain ⟨-, rfl⟩ := Prod.mk.inj h
    exact ⟨rfl, Nat.sub_le _ _⟩
  · simp at h

theorem release_eq (h : t.release a = (.ok (), t', a')) : a.freeBlocks t.blocks = (.ok (), a') ∧ t' = .empty := by
  unfold BlockTable.release at h
  split at h
  · simp at h
  · next h1 =>
    obtain ⟨-, h2⟩ := Prod.mk.inj h
    obtain ⟨rfl, rfl⟩ := Prod.mk.inj h2
    exact ⟨h1, rfl⟩

theorem foldl_dropRef_free (blocks : List Int) (a : BlockAllocator) :
    (blocks.foldl BlockAllocator.dropRef a).free = lastDrops a blocks ++ a.free := by
  induction blocks generalizing a with
  | nil => rfl
  | cons b blocks ih =>
    rw [List.foldl_cons, ih, lastDrops, List.append_assoc]
    congr 1
    simp only [BlockAllocator.dropRef]
    split <;> rfl

end Effects

section Stack

-- The free stack: exactly the blocks nobody holds, those freed last on top.
structure Stack (c : AllocClient) : Prop where
  sound : c.allocator.Sound
  used : ∀ b, 0 < c.allocator.ref b → c.allocator.InRange b
  logged : ∀ b ∈ c.allocator.free, b ∈ c.freed
  recent : c.allocator.free.Pairwise fun x y => c.freed.idxOf x < c.freed.idxOf y

variable {c c' : AllocClient} {a : BlockAllocator} {ok : AllocClient → List Int → Prop}

theorem pairwise_idxOf {l : List Int} (hl : l.Nodup) : l.Pairwise fun x y => l.idxOf x < l.idxOf y := by
  rw [List.pairwise_iff_getElem]
  intro i j hi hj hij
  rw [hl.idxOf_getElem i hi, hl.idxOf_getElem j hj]
  exact hij

theorem new_stack (n bs : Nat) (hn : 0 < n) (hb : 0 < bs) : Stack (new (.fresh n bs hn hb)) := by
  have hs := BlockAllocator.fresh_sound hn hb
  refine ⟨hs, fun b hb => by simp [new, BlockAllocator.fresh] at hb, fun b hb => hb, ?_⟩
  exact pairwise_idxOf hs.nodup

theorem Stack.allocate {n : Int} {out : List Int} (h : Stack c) (ha : c.allocator.allocate n = (.ok out, a)) :
    a.Sound ∧ (∀ b, 0 < a.ref b → a.InRange b) ∧ (∀ b ∈ a.free, b ∈ c.freed) ∧
      a.free.Pairwise fun x y => c.freed.idxOf x < c.freed.idxOf y := by
  obtain ⟨k, -, -, -, rfl⟩ := allocate_eq ha
  refine ⟨BlockAllocator.allocate_sound h.sound, fun b hb => ?_, fun b hb => h.logged b (List.mem_of_mem_drop hb),
    h.recent.sublist (List.drop_sublist _ _)⟩
  simp only at hb
  split at hb
  · next hm => exact ((h.sound.mem_free b).mp (List.mem_of_mem_take hm)).1
  · exact h.used b hb

theorem Stack.incref {blocks : List Int} (h : Stack c) (ha : c.allocator.incref blocks = (.ok (), a)) :
    a.Sound ∧ (∀ b, 0 < a.ref b → a.InRange b) ∧ a.free = c.allocator.free := by
  obtain ⟨hall, rfl⟩ := incref_eq ha
  refine ⟨BlockAllocator.incref_sound h.sound fun b hb => (hall b hb).2, fun b hb => ?_, rfl⟩
  by_cases hm : b ∈ blocks
  · exact (hall b hm).1
  · simp only [List.count_eq_zero_of_not_mem hm, Nat.add_zero] at hb
    exact h.used b hb

theorem Stack.free {blocks : List Int} (h : Stack c) (ha : c.allocator.freeBlocks blocks = (.ok (), a)) :
    a.Sound ∧ (∀ b, 0 < a.ref b → a.InRange b) ∧ (∀ b ∈ a.free, b ∈ lastDrops c.allocator blocks ++ c.freed) ∧
      a.free.Pairwise fun x y => (lastDrops c.allocator blocks ++ c.freed).idxOf x <
        (lastDrops c.allocator blocks ++ c.freed).idxOf y := by
  obtain ⟨hall, rfl⟩ := freeBlocks_eq ha
  have hs := BlockAllocator.foldl_dropRef_sound blocks c.allocator h.sound hall
  have hfree := foldl_dropRef_free blocks c.allocator
  have hnd := hs.nodup
  rw [hfree] at hnd
  obtain ⟨hD, -, hdisj⟩ := List.nodup_append'.mp hnd
  -- A block on the old stack was freed before all of those, and stands as deep as it did.
  have hold : ∀ x ∈ c.allocator.free, (lastDrops c.allocator blocks ++ c.freed).idxOf x =
      (lastDrops c.allocator blocks).length + c.freed.idxOf x := fun x hx =>
    List.idxOf_append_of_notMem fun hm => hdisj hm hx
  have hnew : ∀ x ∈ lastDrops c.allocator blocks, (lastDrops c.allocator blocks ++ c.freed).idxOf x =
      (lastDrops c.allocator blocks).idxOf x := fun x hx => List.idxOf_append_of_mem hx
  refine ⟨hs, fun b hb => ?_, fun b hb => ?_, ?_⟩
  · rw [BlockAllocator.foldl_dropRef_ref] at hb
    have := h.used b (by omega)
    simpa [BlockAllocator.InRange] using this
  · rw [hfree] at hb
    rcases List.mem_append.mp hb with hb | hb
    · exact List.mem_append_left _ hb
    · exact List.mem_append_right _ (h.logged b hb)
  · rw [hfree, List.pairwise_append]
    refine ⟨(pairwise_idxOf hD).imp_of_mem fun hx hy hlt => ?_,
      h.recent.imp_of_mem fun hx hy hlt => ?_, fun x hx y hy => ?_⟩
    · rw [hnew _ hx, hnew _ hy]
      exact hlt
    · rw [hold _ hx, hold _ hy]
      omega
    · rw [hnew _ hx, hold _ hy]
      have := List.idxOf_lt_length_of_mem hx
      omega

theorem Call.stack (h : Call ok c c') (hs : Stack c) : Stack c' := by
  cases h with
  | allocate h =>
    obtain ⟨h1, h2, h3, h4⟩ := hs.allocate h
    exact ⟨h1, h2, h3, h4⟩
  | incref h =>
    obtain ⟨h1, h2, h3⟩ := hs.incref h
    exact ⟨h1, h2, h3 ▸ hs.logged, h3 ▸ hs.recent⟩
  | free _ h =>
    obtain ⟨h1, h2, h3, h4⟩ := hs.free h
    exact ⟨h1, h2, h3, h4⟩
  | newTable h =>
    obtain ⟨h1, h2, h3⟩ := hs.incref (new_eq h).2.1
    exact ⟨h1, h2, h3 ▸ hs.logged, h3 ▸ hs.recent⟩
  | appendTokens _ h =>
    obtain ⟨m, -, h0, -⟩ := appendTokens_eq h
    obtain ⟨h1, h2, h3, h4⟩ := hs.allocate h0
    exact ⟨h1, h2, h3, h4⟩
  | rewind _ h => exact ⟨hs.sound, hs.used, hs.logged, hs.recent⟩
  | release _ h =>
    obtain ⟨h1, h2, h3, h4⟩ := hs.free (release_eq h).1
    exact ⟨h1, h2, h3, h4⟩

end Stack

section Held

def Obtained (c : AllocClient) (blocks : List Int) : Prop := ∀ b, blocks.count b ≤ c.own b

structure Held (c : AllocClient) : Prop where
  ref : ∀ b, c.allocator.ref b = c.own b + c.holdersOf b
  nodup : ∀ i, (c.tables i).blocks.Nodup
  capacity : ∀ i, (c.tables i).numTokens ≤ (c.tables i).blocks.length * c.allocator.blockSize
  later : ∀ i, c.count ≤ i → c.tables i = .empty

variable {c c' : AllocClient} {a : BlockAllocator} {i : Nat} {t : BlockTable}

theorem new_held (n bs : Nat) (hn : 0 < n) (hb : 0 < bs) : Held (new (.fresh n bs hn hb)) :=
  ⟨fun b => by simp [new, BlockAllocator.fresh, holdersOf, holders], fun i => List.nodup_nil, fun i => Nat.zero_le _,
    fun i _ => rfl⟩

theorem holdersOf_withTable (hi : i < c.count) (b : Int) :
    (c.withTable i t a).holdersOf b + (if b ∈ (c.tables i).blocks then 1 else 0) =
      c.holdersOf b + if b ∈ t.blocks then 1 else 0 := by
  have := holders_update (f := c.tables) (x := t) (p := fun t => b ∈ t.blocks) List.nodup_range (List.mem_range.mpr hi)
  simpa [holdersOf, withTable] using this

theorem holdersOf_newTable (b : Int) : holdersOf { c.withTable c.count t a with count := c.count + 1 } b =
    c.holdersOf b + if b ∈ t.blocks then 1 else 0 := by
  have hnot : c.count ∉ List.range c.count := by simp
  simp only [holdersOf, withTable, List.range_succ]
  rw [holders_perm List.perm_append_comm, List.singleton_append, holders_cons, holders_update_of_notMem hnot,
    Function.update_self]
  simp

theorem Held.replaced (h : Held c) (hi : i < c.count) (hbs : a.blockSize = c.allocator.blockSize)
    (href : ∀ b, a.ref b + (if b ∈ (c.tables i).blocks then 1 else 0) =
      c.allocator.ref b + if b ∈ t.blocks then 1 else 0)
    (hnd : t.blocks.Nodup) (hcap : t.numTokens ≤ t.blocks.length * c.allocator.blockSize) :
        Held (c.withTable i t a) := by
  refine ⟨fun b => ?_, fun j => ?_, fun j => ?_, fun j hj => ?_⟩
  · have h1 := holdersOf_withTable (t := t) (a := a) hi b
    have h2 := href b
    have h3 := h.ref b
    show a.ref b = c.own b + (c.withTable i t a).holdersOf b
    omega
  · by_cases e : j = i
    · subst e
      simpa [withTable] using hnd
    · simpa [withTable, Function.update_of_ne e] using h.nodup j
  · by_cases e : j = i
    · subst e
      simpa [withTable, hbs] using hcap
    · simpa [withTable, Function.update_of_ne e, hbs] using h.capacity j
  · have e : j ≠ i := by
      rintro rfl
      exact absurd hi (not_lt.mpr hj)
    show Function.update c.tables i t j = .empty
    rw [Function.update_of_ne e]
    exact h.later j hj

theorem Held.notMem_of_free (h : Held c) (hs : Stack c) {b : Int} (hb : b ∈ c.allocator.free) (hi : i < c.count) :
    b ∉ (c.tables i).blocks := by
  intro hm
  have h0 := ((hs.sound.mem_free b).mp hb).2
  have hpos : 0 < c.holdersOf b := holders_pos (List.mem_range.mpr hi) (by simpa using hm)
  have := h.ref b
  omega

theorem Held.appended {n : Int} {out : List Int} (h : Held c) (hs : Stack c) (hi : i < c.count)
    (ha : (c.tables i).appendTokens c.allocator n = (.ok out, t, a)) : Held (c.withTable i t a) := by
  obtain ⟨m, rfl, hal, rfl⟩ := appendTokens_eq ha
  obtain ⟨k, hk, hle, rfl, rfl⟩ := allocate_eq hal
  have hfree : ∀ b ∈ c.allocator.free.take k, b ∉ (c.tables i).blocks := fun b hb =>
    h.notMem_of_free hs (List.mem_of_mem_take hb) hi
  refine h.replaced hi rfl (fun b => ?_) ?_ ?_
  · by_cases hm : b ∈ c.allocator.free.take k
    · have h0 := ((hs.sound.mem_free b).mp (List.mem_of_mem_take hm)).2
      simp [hm, hfree b hm, h0]
    · simp [hm]
  · refine List.nodup_append'.mpr ⟨h.nodup i, hs.sound.nodup.sublist (List.take_sublist _ _), fun b hb hb' => ?_⟩
    exact hfree b hb' hb
  · have hneed := (BlockTable.need_le (t := c.tables i) (n := m) c.allocator.blockSize_pos
      (BlockTable.need_nonneg _ _)).mp (le_refl _)
    rw [hk] at hneed
    have hlen : (c.allocator.free.take k).length = k := by
      rw [List.length_take]
      exact Nat.min_eq_left hle
    simp only [List.length_append, hlen]
    have : ((c.tables i).numTokens : Int) + m ≤ ((c.tables i).blocks.length + k : Nat) * c.allocator.blockSize := by
      push_cast
      linarith
    exact_mod_cast this

theorem Held.released (h : Held c) (hi : i < c.count) (ha : (c.tables i).release c.allocator = (.ok (), t, a)) :
    Held (c.withTable i t a) := by
  obtain ⟨hfr, rfl⟩ := release_eq ha
  obtain ⟨hall, rfl⟩ := freeBlocks_eq hfr
  refine h.replaced hi (by simp) (fun b => ?_) List.nodup_nil (Nat.zero_le _)
  rw [BlockAllocator.foldl_dropRef_ref]
  by_cases hm : b ∈ (c.tables i).blocks
  · have h1 := (h.nodup i).count (a := b)
    rw [if_pos hm] at h1
    have h2 := (hall b hm).2
    simp only [hm, if_true, BlockTable.empty, List.not_mem_nil, if_false]
    omega
  · simp [hm, List.count_eq_zero_of_not_mem hm, BlockTable.empty]

theorem Call.held (h : Call Obtained c c') (hs : Stack c) (hh : Held c) : Held c' := by
  cases h with
  | allocate h =>
    obtain ⟨k, -, hle, rfl, rfl⟩ := allocate_eq h
    refine ⟨fun b => ?_, hh.nodup, hh.capacity, hh.later⟩
    have href := hh.ref b
    have hcount := (hs.sound.nodup.sublist (List.take_sublist k _)).count (a := b)
    show (if b ∈ c.allocator.free.take k then 1 else c.allocator.ref b) =
      c.own b + (c.allocator.free.take k).count b + c.holdersOf b
    by_cases hm : b ∈ c.allocator.free.take k
    · have h0 := ((hs.sound.mem_free b).mp (List.mem_of_mem_take hm)).2
      rw [if_pos hm] at hcount ⊢
      omega
    · rw [if_neg hm] at hcount ⊢
      omega
  | incref h =>
    obtain ⟨-, rfl⟩ := incref_eq h
    refine ⟨fun b => ?_, hh.nodup, hh.capacity, hh.later⟩
    have href := hh.ref b
    show c.allocator.ref b + _ = c.own b + _ + c.holdersOf b
    omega
  | @free blocks a hok h =>
    obtain ⟨-, rfl⟩ := freeBlocks_eq h
    refine ⟨fun b => ?_, hh.nodup, fun i => ?_, hh.later⟩
    · have href := hh.ref b
      have hle := hok b
      show (blocks.foldl BlockAllocator.dropRef c.allocator).ref b = c.own b - blocks.count b + c.holdersOf b
      rw [BlockAllocator.foldl_dropRef_ref]
      omega
    · simpa using hh.capacity i
  | newTable h =>
    obtain ⟨hnd, hinc, rfl⟩ := new_eq h
    obtain ⟨-, rfl⟩ := incref_eq hinc
    refine ⟨fun b => ?_, fun j => ?_, fun j => ?_, fun j hj => ?_⟩
    · have href := hh.ref b
      rw [holdersOf_newTable]
      have hcount := hnd.count (a := b)
      show c.allocator.ref b + _ = c.own b + (c.holdersOf b + _)
      simp only
      omega
    · by_cases e : j = c.count
      · subst e
        simpa [withTable] using hnd
      · simpa [withTable, Function.update_of_ne e] using hh.nodup j
    · by_cases e : j = c.count
      · subst e
        simp [withTable]
      · simpa [withTable, Function.update_of_ne e] using hh.capacity j
    · have hlt : c.count < j := hj
      show Function.update c.tables c.count _ j = .empty
      rw [Function.update_of_ne (by omega)]
      exact hh.later j (by omega)
  | appendTokens hi h => exact hh.appended hs hi h
  | @rewind i n t hi h =>
    obtain ⟨h1, h2⟩ := rewind_eq h
    refine hh.replaced hi rfl (fun b => by rw [h1]) (h1 ▸ hh.nodup i) ?_
    rw [h1]
    exact h2.trans (hh.capacity i)
  | release hi h =>
    have := hh.released hi h
    exact ⟨this.ref, this.nodup, this.capacity, this.later⟩

theorem Held.release_ok (h : Held c) (hs : Stack c) (hi : i < c.count) :
    ∃ a, (c.tables i).release c.allocator = (.ok (), .empty, a) := by
  refine ⟨_, BlockTable.release_ok fun b hb => ?_⟩
  have hcount := (h.nodup i).count (a := b)
  rw [if_pos hb] at hcount
  have hpos : 0 < c.holdersOf b := holders_pos (List.mem_range.mpr hi) (by simpa using hb)
  have href := h.ref b
  exact ⟨hs.used b (by omega), by omega⟩

end Held

section Contract

variable {ok : AllocClient → List Int → Prop} {c : AllocClient} {numBlocks blockSize : Int} {a : BlockAllocator}

theorem Calls.stack {c c' : AllocClient} (h : Calls ok c c') (hs : Stack c) : Stack c' := by
  induction h with
  | refl => exact hs
  | tail _ hc ih => exact hc.stack ih

theorem Calls.held {c c' : AllocClient} (h : Calls Obtained c c') (hs : Stack c) (hh : Held c) : Held c' := by
  induction h with
  | refl => exact hh
  | tail h hc ih => exact hc.held (Calls.stack h hs) ih

theorem new_eq_fresh (h : BlockAllocator.new numBlocks blockSize = .ok a) :
    ∃ n bs hn hb, a = .fresh n bs hn hb ∧ (n : Int) = numBlocks ∧ (bs : Int) = blockSize := by
  unfold BlockAllocator.new at h
  split at h
  · next hp =>
    exact ⟨_, _, hp.1, hp.2, (Except.ok.inj h).symm, Int.toNat_of_nonneg (by omega), Int.toNat_of_nonneg (by omega)⟩
  · simp at h

theorem Calls.anyFree {c c' : AllocClient} (h : Calls ok c c') : Calls (fun _ _ => True) c c' := by
  induction h with
  | refl => exact .refl
  | tail _ hc ih =>
    refine ih.tail ?_
    cases hc with
    | allocate h => exact .allocate h
    | incref h => exact .incref h
    | free _ h => exact .free trivial h
    | newTable h => exact .newTable h
    | appendTokens hi h => exact .appendTokens hi h
    | rewind hi h => exact .rewind hi h
    | release hi h => exact .release hi h

-- Two tables start with block 0, which the caller has taken two references to and given one back.
theorem shared_reached : ∃ c, Calls Obtained (new (.fresh 3 2 (by decide) (by decide))) c ∧
    c.count = 2 ∧ (c.tables 0).blocks = [0, 1] ∧ (c.tables 1).blocks = [0, 2] ∧ c.allocator.ref 0 = 3 := by
  have h0 : Calls Obtained (new (.fresh 3 2 (by decide) (by decide))) _ := .single (@Call.newTable _ _ [] _ _ rfl)
  have h1 : Calls Obtained _ _ := h0.tail (.appendTokens (i := 0) (n := 3) (by decide) rfl)
  have h2 : Calls Obtained _ _ := h1.tail (@Call.newTable _ _ [0] _ _ rfl)
  have h3 : Calls Obtained _ _ := h2.tail (.appendTokens (i := 1) (n := 2) (by decide) rfl)
  have h4 : Calls Obtained _ _ := h3.tail (@Call.incref _ _ [0, 0] _ rfl)
  have hown : ∀ b : Int, [0].count b ≤ 0 + [0, 0].count b := fun b => by
    rw [Nat.zero_add]
    exact List.Sublist.count_le b (by simp)
  exact ⟨_, h4.tail (@Call.free _ _ [0] _ hown rfl), rfl, by decide, by decide, by decide⟩

theorem allocator_contract (h : BlockAllocator.new numBlocks blockSize = .ok a) :
    (∀ n : Nat, (n : Int) ≤ numBlocks → (a.allocate n).1 = .ok ((List.range n).map Int.ofNat)) ∧
    (∀ c, Calls (fun _ _ => True) (new a) c → Documented c.allocator ∧ Unchanged c.allocator ∧ Stack c ∧
      ∀ n out a', c.allocator.allocate n = (.ok out, a') → c.allocator.free = out ++ a'.free) ∧
    ∀ c, Calls Obtained (new a) c → Held c ∧ ∀ i < c.count, ∃ a',
        (c.tables i).release c.allocator = (.ok (), .empty, a') := by
  obtain ⟨n, bs, hn, hb, rfl, hnb, -⟩ := new_eq_fresh h
  refine ⟨fun k hk => ?_, fun c hc => ?_, fun c hc => ?_⟩
  · have hfree : (BlockAllocator.fresh n bs hn hb).numFree = n := by
      simp [BlockAllocator.numFree, BlockAllocator.fresh]
    rw [BlockAllocator.allocate_ok (by omega)]
    simp only [BlockAllocator.fresh, ← List.map_take, List.take_range]
    rw [Nat.min_eq_left (by omega)]
  · have hs := hc.stack (new_stack n bs hn hb)
    refine ⟨documented hs.sound, unchanged _, hs, fun n out a' ha => ?_⟩
    obtain ⟨k, -, -, rfl, rfl⟩ := allocate_eq ha
    exact (List.take_append_drop k _).symm
  · have hs := hc.stack (new_stack n bs hn hb)
    have hh := hc.held (new_stack n bs hn hb) (new_held n bs hn hb)
    exact ⟨hh, fun i hi => hh.release_ok hs hi⟩

theorem allocator_contract_shared : ∃ a, BlockAllocator.new 3 2 = .ok a ∧ (a.allocate 2).1 = .ok [0, 1] ∧
    ∃ c, (c.tables 0).blocks = [0, 1] ∧ (c.tables 1).blocks = [0, 2] ∧ c.allocator.ref 0 = 3 ∧
      (∃ err, c.allocator.freeBlocks [0, 0, 0, 0] = (.error err, c.allocator)) ∧ Stack c ∧ Held c ∧
        ∀ i < 2, ∃ a', (c.tables i).release c.allocator = (.ok (), .empty, a') := by
  obtain ⟨halloc, hany, hown⟩ := allocator_contract
    (rfl : BlockAllocator.new 3 2 = .ok (.fresh 3 2 (by decide) (by decide)))
  obtain ⟨c, hc, hcount, hfirst, hsecond, href⟩ := shared_reached
  obtain ⟨hdoc, hsame, hstack, -⟩ := hany c hc.anyFree
  obtain ⟨hheld, hrelease⟩ := hown c hc
  obtain ⟨err, herr⟩ := (hdoc.free [0, 0, 0, 0]).mpr ⟨0, by decide, .inr (href ▸ by decide)⟩
  refine ⟨_, rfl, halloc 2 (by decide), c, hfirst, hsecond, href, ⟨err, Prod.ext herr ?_⟩, hstack, hheld,
    fun i hi => hrelease i (hcount ▸ hi)⟩
  exact hsame.free _ err _ (Prod.ext herr rfl)

end Contract

end AllocClient

end MiniServe
