import MiniServe.Cache.AllocRun
import MiniServe.Engine.Forward
import MiniServe.Engine.Trim
import MiniServe.Spec.DraftRunner

namespace MiniServe

open KVCacheManager

namespace DraftRunner

variable {d d' : DraftRunner} {live : List Rid} {r r' : Rid} {t : BlockTable}

section View

-- The draft's pool is a pool without a prefix cache; `live` are the requests that hold a table.
def kv (d : DraftRunner) : KVCacheManager := ⟨d.allocator, none⟩

def store (d : DraftRunner) : Store := fun r => { Request.blank r with cache := d.tables r }

def Sound (d : DraftRunner) (live : List Rid) : Prop := d.kv.Sound d.store live

def len (d : DraftRunner) (r : Rid) : Nat := (d.tableOf r).blocks.length

theorem tableBlocks_store (r : Rid) : (d.store r).tableBlocks = (d.tableOf r).blocks := by
  simp only [Request.tableBlocks, store, tableOf]
  cases d.tables r <;> rfl

theorem covered_store (r : Rid) : (d.store r).covered = (d.tableOf r).numTokens := by
  simp only [Request.covered, store, tableOf]
  cases d.tables r <;> rfl

theorem put_store (t : BlockTable) (a : BlockAllocator) :
    (d.put r (some t) a).store = Function.update d.store r { d.store r with cache := some t } := by
  funext x
  by_cases e : x = r
  · subst e
    simp [store, put]
  · simp [store, put, e]

theorem put_none_store (a : BlockAllocator) :
    (d.put r none a).store = Function.update d.store r { d.store r with cache := none, cacheNode := none } := by
  funext x
  by_cases e : x = r
  · subst e
    simp [store, put]
    rfl
  · simp [store, put, e]

theorem nodeBlocks_kv (node : Option Nat) : d.kv.nodeBlocks node = [] := by simp [nodeBlocks, kv]

theorem Sound.tables_eq (h : d.Sound live) (hr : r ∈ live) : d.tables r = some (d.tableOf r) := by
  obtain ⟨t, ht⟩ := Option.ne_none_iff_exists'.mp (h.held r hr).cache
  have ht : d.tables r = some t := ht
  simp [tableOf, ht]

theorem Sound.tables_none (h : d.Sound live) (hr : r ∉ live) : d.tables r = none := (h.idle r hr).1

theorem Sound.mem_iff (h : d.Sound live) : r ∈ live ↔ d.tables r ≠ none := by
  refine ⟨fun hr => by simp [h.tables_eq hr], fun hr => ?_⟩
  by_contra hn
  exact hr (h.tables_none hn)

theorem Sound.capacity (h : d.Sound live) (hr : r ∈ live) :
    (d.tableOf r).numTokens ≤ (d.tableOf r).blocks.length * d.allocator.blockSize := by
  have := (h.held r hr).capacity
  rw [covered_store, tableBlocks_store] at this
  exact this

theorem Sound.numFree (h : d.Sound live) : d.allocator.numBlocks ≤ d.allocator.numFree + (live.map d.len).sum := by
  have hav : d.kv.numAvailable = _ := KVCacheManager.Sound.numAvailable h
  have hfree : d.kv.numAvailable = d.allocator.numFree := by simp [KVCacheManager.numAvailable, numEvictable, kv]
  have hcard : (d.kv.heldBlocks d.store live).card ≤ (live.map d.len).sum := by
    unfold heldBlocks
    refine Finset.card_biUnion_le.trans ?_
    rw [← List.sum_toFinset _ h.nodup]
    refine Finset.sum_le_sum fun r _ => ?_
    rw [nodeBlocks_kv, List.append_nil, tableBlocks_store]
    exact List.toFinset_card_le _
  rw [hfree] at hav
  have : d.kv.allocator.numBlocks = d.allocator.numBlocks := rfl
  omega

end View

section Tables

structure Sized (d d' : DraftRunner) : Prop where
  numBlocks : d'.allocator.numBlocks = d.allocator.numBlocks
  blockSize : d'.allocator.blockSize = d.allocator.blockSize
  maxPrefillTokens : d'.maxPrefillTokens = d.maxPrefillTokens
  firstGraphs : d'.firstGraphs = d.firstGraphs

theorem Sized.refl (d : DraftRunner) : Sized d d := ⟨rfl, rfl, rfl, rfl⟩

theorem Sized.trans {d'' : DraftRunner} (h1 : Sized d d') (h2 : Sized d' d'') : Sized d d'' :=
  ⟨h2.numBlocks.trans h1.numBlocks, h2.blockSize.trans h1.blockSize, h2.maxPrefillTokens.trans h1.maxPrefillTokens,
    h2.firstGraphs.trans h1.firstGraphs⟩

theorem tableOf_eq (h : d.tables r = some t) : d.tableOf r = t := by simp [tableOf, h]

@[simp] theorem put_tables_self (t : Option BlockTable) (a : BlockAllocator) :
    (d.put r t a).tables r = t := by simp [put]

theorem put_tables_ne (t : Option BlockTable) (a : BlockAllocator) (h : r' ≠ r) :
    (d.put r t a).tables r' = d.tables r' := by
  simp [put, h]

theorem Sound.admit (h : d.Sound live) (hr : r ∉ live) : (d.put r (some .empty) d.allocator).Sound (r :: live) := by
  have h' := KVCacheManager.Sound.enter h hr rfl (KVCacheManager.Frame.refl d.kv d.store live) rfl List.nodup_nil
    (List.nil_subset _) (rfl : d.kv.HoldsNode none) (nodeBlocks_kv none) (by simp [nodeTokens, kv]) (by simp)
    (fun t ht => by simp [kv] at ht) (fun t ht => by simp [kv] at ht)
  unfold Sound
  rw [put_store]
  simp only [List.length_nil, Nat.zero_mul] at h'
  exact h'

theorem Sound.release (h : d.Sound live) (hr : r ∈ live) (ht : d.tables r = some t) :
    ∃ a, t.release d.allocator = (.ok (), .empty, a) ∧ (d.put r none a).Sound (live.erase r) ∧
      a.numBlocks = d.allocator.numBlocks ∧ a.blockSize = d.allocator.blockSize := by
  have hc : (d.store r).cache = some t := ht
  obtain ⟨kv1, kv', h1, h2, hf⟩ := KVCacheManager.Sound.forget
    (q := { d.store r with cache := none, cacheNode := none }) h hr hc rfl rfl
  have h1 : d.kv.unlockNode none = .ok kv1 := h1
  obtain rfl : d.kv = kv1 := by simpa [KVCacheManager.unlockNode, kv] using h1
  unfold KVCacheManager.dropTable at h2
  split at h2
  · simp at h2
  · next t' a hrel =>
    obtain rfl := Except.ok.inj h2
    obtain ⟨-, rfl⟩ := AllocClient.release_eq hrel
    refine ⟨a, hrel, ?_, hf.frame.numBlocks, hf.frame.blockSize⟩
    unfold Sound
    rw [put_none_store]
    exact hf.sound

theorem Sound.rewind {n : Nat} (h : d.Sound live) (ht : d.tables r = some t) (hn : n ≤ t.numTokens) :
    (d.put r (some { t with numTokens := n }) d.allocator).Sound live := by
  have hc : (d.store r).cache = some t := ht
  unfold Sound
  rw [put_store]
  have hkv : ∀ (t : Option BlockTable), (d.put r t d.allocator).kv = d.kv := fun _ => rfl
  rw [hkv]
  refine KVCacheManager.Sound.rewrite h (fun q => ?_) (fun q => ?_) (fun q => ?_) fun q hq => ?_
  · by_cases e : q = r
    · subst e; simp [Request.tableBlocks, hc]
    · simp [e]
  · by_cases e : q = r
    · subst e; simp [hc]
    · simp [e]
  · by_cases e : q = r
    · subst e; simp
    · simp [e]
  · have hcap := (h.held q hq).capacity
    refine ⟨?_, fun hsome => by simp [kv] at hsome, by simp [nodeTokens, kv], by simp [nodeTokens, kv]⟩
    by_cases e : q = r
    · subst e
      simp only [Function.update_self, Request.covered]
      simp only [Request.covered, hc] at hcap
      omega
    · simpa [e] using hcap

end Tables

section Capped

variable {all : List Rid} {cap : Rid → Nat}

structure Capped (d : DraftRunner) (all : List Rid) (cap : Rid → Nat) : Prop where
  sound : ∃ live, d.Sound live
  mem : ∀ r t, d.tables r = some t → r ∈ all
  nodup : all.Nodup
  len_le : ∀ r t, d.tables r = some t → t.blocks.length ≤ cap r
  fits : (all.map cap).sum ≤ d.allocator.numBlocks

theorem Capped.room (h : d.Capped all cap) (ht : d.tables r = some t) :
    cap r ≤ t.blocks.length + d.allocator.numFree := by
  obtain ⟨live, hs⟩ := h.sound
  have hr : r ∈ live := hs.mem_iff.mpr (by simp [ht])
  have hlen : ∀ x ∈ live, d.len x ≤ cap x := fun x hx => h.len_le x _ (hs.tables_eq hx)
  obtain ⟨l, hperm, hsub⟩ := List.subperm_of_subset hs.nodup fun x hx => h.mem x _ (hs.tables_eq hx)
  have hall : (live.map cap).sum ≤ (all.map cap).sum := by
    rw [← (hperm.map cap).sum_eq]
    exact (hsub.map cap).sum_le_sum fun _ _ => Nat.zero_le _
  have hhead := List.perm_cons_erase hr
  have hcap := (hhead.map cap).sum_eq
  have hused := (hhead.map d.len).sum_eq
  rw [List.map_cons, List.sum_cons] at hcap hused
  have hrest : ((live.erase r).map d.len).sum ≤ ((live.erase r).map cap).sum :=
    List.sum_le_sum fun x hx => hlen x (List.mem_of_mem_erase hx)
  have hself : d.len r = t.blocks.length := congrArg (fun t => t.blocks.length) (tableOf_eq ht)
  have := hs.numFree
  have := h.fits
  omega

theorem Capped.capacity (h : d.Capped all cap) (ht : d.tables r = some t) :
    t.numTokens ≤ t.blocks.length * d.allocator.blockSize := by
  obtain ⟨live, hs⟩ := h.sound
  have := hs.capacity (hs.mem_iff.mpr (by rw [ht]; simp) : r ∈ live)
  rwa [tableOf_eq ht] at this

theorem Capped.put (h : d.Capped all cap) {a : BlockAllocator} {t' : Option BlockTable}
    (hs : ∃ live, (d.put r t' a).Sound live) (hr : r ∈ all) (hn : a.numBlocks = d.allocator.numBlocks)
    (hlen : ∀ t, t' = some t → t.blocks.length ≤ cap r) : (d.put r t' a).Capped all cap := by
  refine ⟨hs, fun x t ht => ?_, h.nodup, fun x t ht => ?_, hn ▸ h.fits⟩
  · by_cases e : x = r
    · exact e ▸ hr
    · rw [put_tables_ne _ _ e] at ht
      exact h.mem x t ht
  · by_cases e : x = r
    · subst e
      rw [put_tables_self] at ht
      exact hlen t ht
    · rw [put_tables_ne _ _ e] at ht
      exact h.len_le x t ht

theorem Capped.admit (h : d.Capped all cap) (hr : r ∈ all) (ht : d.tables r = none) :
    (d.put r (some .empty) d.allocator).Capped all cap := by
  obtain ⟨live, hs⟩ := h.sound
  refine h.put ⟨_, hs.admit fun hm => hs.mem_iff.mp hm ht⟩ hr rfl fun t ht => ?_
  obtain rfl := Option.some.inj ht
  exact Nat.zero_le _

theorem Capped.append {n : Nat} (h : d.Capped all cap) (ht : d.tables r = some t)
    (hn : t.numTokens + n ≤ cap r * d.allocator.blockSize) :
    ∃ new t' a', t.appendTokens d.allocator n = (.ok new, t', a') ∧ (d.put r (some t') a').Capped all cap ∧
      t.Grown d.allocator.blockSize n t' ∧ Sized d (d.put r (some t') a') := by
  obtain ⟨live, hs⟩ := h.sound
  have hr : r ∈ live := hs.mem_iff.mpr (by simp [ht])
  have hc : (d.store r).cache = some t := ht
  have hle := h.len_le r t ht
  have hneed : t.need d.allocator.blockSize n ≤ (cap r : Int) - t.blocks.length := by
    refine (BlockTable.need_le d.allocator.blockSize_pos (by omega)).mpr ?_
    rw [sub_add_cancel]
    exact_mod_cast hn
  have hroom := h.room ht
  have hfree : t.need d.kv.blockSize n ≤ d.kv.allocator.numFree := by
    show t.need d.allocator.blockSize n ≤ d.allocator.numFree
    omega
  have hnone : d.kv.tree.isSome → t.numTokens + n ≤ (d.store r).seqLen := fun hsome => by simp [kv] at hsome
  obtain ⟨new, t', a', happ, hext⟩ := KVCacheManager.Sound.extend hs hr hc hnone hfree
  have hgrown := BlockTable.appendTokens_grown happ
  refine ⟨new, t', a', happ, h.put ⟨live, ?_⟩ (h.mem r t ht) hext.numBlocks fun x hx => ?_, hgrown,
    hext.numBlocks, hext.blockSize, rfl, rfl⟩
  · unfold Sound
    rw [put_store]
    exact hext.sound
  · obtain rfl := Option.some.inj hx
    have : (t'.blocks.length : Int) = t.blocks.length + t.need d.allocator.blockSize n := hgrown.length
    omega

theorem put_same {t' : Option BlockTable} (ht : d.tables r = t') : d.put r t' d.allocator = d := by
  rw [put, ← ht, Function.update_eq_self]

theorem Capped.release (h : d.Capped all cap) (r : Rid) :
    ∃ a, d.release r = .ok (d.put r none a) ∧ (d.put r none a).Capped all cap ∧ Sized d (d.put r none a) := by
  cases ht : d.tables r with
  | none =>
    refine ⟨d.allocator, ?_, ?_, rfl, rfl, rfl, rfl⟩ <;> rw [put_same ht]
    · simp [DraftRunner.release, ht]
    · exact h
  | some t =>
    obtain ⟨live, hs⟩ := h.sound
    obtain ⟨a, hrel, hs', hn, hb⟩ := hs.release (hs.mem_iff.mpr (by simp [ht])) ht
    refine ⟨a, by simp [DraftRunner.release, ht, hrel], h.put ⟨_, hs'⟩ (h.mem r t ht) hn (by simp), hn, hb, rfl, rfl⟩

theorem Capped.rewindTo (h : d.Capped all cap) (ht : d.tables r = some t) (n : Nat) :
    d.rewindTo r n = .ok (d.put r (some { t with numTokens := min t.numTokens n }) d.allocator) ∧
      (d.put r (some { t with numTokens := min t.numTokens n }) d.allocator).Capped all cap := by
  obtain ⟨live, hs⟩ := h.sound
  refine ⟨?_, h.put ⟨live, hs.rewind ht (Nat.min_le_left _ _)⟩ (h.mem r t ht) rfl fun t' ht' => ?_⟩
  · have htab : d.table r = .ok t := by simp [table, ht]
    unfold DraftRunner.rewindTo
    rw [htab]
    simp only
    split
    · next hlt =>
      have hn : 0 ≤ (t.numTokens : Int) - n ∧ (t.numTokens : Int) - n ≤ t.numTokens := by omega
      have hmin : t.numTokens - ((t.numTokens : Int) - n).toNat = min t.numTokens n := by omega
      simp only [BlockTable.rewind, hn, and_self, if_true, hmin]
    · next hle =>
      rw [Nat.min_eq_left (not_lt.mp hle)]
      exact congrArg Except.ok (put_same ht).symm
  · obtain rfl := Option.some.inj ht'
    exact h.len_le r t ht

end Capped

end DraftRunner

end MiniServe
