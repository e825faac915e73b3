import MiniServe.Cache.Errors
import Mathlib.Data.List.Count
import Mathlib.Data.List.Nodup
import Mathlib.Data.List.Range
import Mathlib.Order.Interval.Finset.Basic
import Mathlib.Tactic

namespace MiniServe

structure BlockAllocator where
  numBlocks : Nat
  blockSize : Nat
  free : List Int
  ref : Int → Nat
  numBlocks_pos : 0 < numBlocks
  blockSize_pos : 0 < blockSize

namespace BlockAllocator

def fresh (numBlocks blockSize : Nat) (hn : 0 < numBlocks) (hb : 0 < blockSize) : BlockAllocator where
  numBlocks := numBlocks
  blockSize := blockSize
  free := (List.range numBlocks).map Int.ofNat
  ref := fun _ => 0
  numBlocks_pos := hn
  blockSize_pos := hb

def new (numBlocks blockSize : Int) : Except Error BlockAllocator :=
  if h : 0 < numBlocks.toNat ∧ 0 < blockSize.toNat then
    .ok (fresh numBlocks.toNat blockSize.toNat h.1 h.2)
  else .error (.sizesNotPositive numBlocks blockSize)

variable (a : BlockAllocator)

def numFree : Nat := a.free.length

def InRange (b : Int) : Prop := 0 ≤ b ∧ b < a.numBlocks

instance (b : Int) : Decidable (a.InRange b) := inferInstanceAs (Decidable (_ ∧ _))

def idError (b : Int) : Option Error :=
  if a.InRange b then none else some (.blockOutOfRange b a.numBlocks)

def refcount (b : Int) : Except Error Nat :=
  match a.idError b with
  | some e => .error e
  | none => .ok (a.ref b)

def allocate (n : Int) : Except Error (List Int) × BlockAllocator :=
  if n < 0 then (.error (.cannotAllocate n), a)
  else if n > a.numFree then (.error (.requestedBlocks n a.numFree), a)
  else
    let out := a.free.take n.toNat
    (.ok out, { a with free := a.free.drop n.toNat, ref := fun b => if b ∈ out then 1 else a.ref b })

def increfError (b : Int) : Option Error :=
  (a.idError b).or (if a.ref b = 0 then some (.increfOfFree b) else none)

def incref (blocks : List Int) : Except Error Unit × BlockAllocator :=
  match blocks.findSome? a.increfError with
  | some e => (.error e, a)
  | none => (.ok (), { a with ref := fun b => a.ref b + blocks.count b })

def dropRef (b : Int) : BlockAllocator :=
  let left := a.ref b - 1
  { a with
    ref := fun c => if c = b then left else a.ref c
    free := if left = 0 then b :: a.free else a.free }

def overFreed (blocks : List Int) (b : Int) : Option Error :=
  if a.ref b < blocks.count b then some (.freeOfBlock b (blocks.count b) (a.ref b)) else none

def freeError (blocks : List Int) : Option Error :=
  (blocks.findSome? a.idError).or (blocks.findSome? (a.overFreed blocks))

def freeBlocks (blocks : List Int) : Except Error Unit × BlockAllocator :=
  match a.freeError blocks with
  | some e => (.error e, a)
  | none => (.ok (), blocks.foldl dropRef a)

structure Sound : Prop where
  nodup : a.free.Nodup
  mem_free : ∀ b, b ∈ a.free ↔ a.InRange b ∧ a.ref b = 0

variable {a}

@[simp] theorem fresh_numBlocks {n s : Nat} (hn : 0 < n) (hs : 0 < s) : (fresh n s hn hs).numBlocks = n := rfl
@[simp] theorem fresh_blockSize {n s : Nat} (hn : 0 < n) (hs : 0 < s) : (fresh n s hn hs).blockSize = s := rfl

theorem fresh_sound {n s : Nat} (hn : 0 < n) (hs : 0 < s) : (fresh n s hn hs).Sound := by
  constructor
  · exact List.nodup_range.map (fun _ _ h => by simpa using h)
  · intro b
    simp only [fresh, List.mem_map, List.mem_range, InRange, and_true]
    constructor
    · rintro ⟨i, hi, rfl⟩; simpa using hi
    · rintro ⟨h0, h1⟩; exact ⟨b.toNat, by omega, by simpa using h0⟩

theorem idError_eq_none {b : Int} : a.idError b = none ↔ a.InRange b := by
  unfold idError; split <;> simp_all

theorem increfError_eq_none {b : Int} : a.increfError b = none ↔ a.InRange b ∧ 0 < a.ref b := by
  unfold increfError
  rw [Option.or_eq_none_iff, idError_eq_none]
  split
  · simp_all
  · simp_all; omega

theorem allocate_ok {n : Nat} (h : n ≤ a.numFree) :
    a.allocate n = (.ok (a.free.take n), { a with
      free := a.free.drop n
      ref := fun b => if b ∈ a.free.take n then 1 else a.ref b }) := by
  have h1 : ¬ (n : Int) < 0 := by omega
  have h2 : ¬ (n : Int) > a.numFree := by omega
  simp [allocate, h1, h2]

theorem incref_ok {blocks : List Int} (h : ∀ b ∈ blocks, a.InRange b ∧ 0 < a.ref b) :
    a.incref blocks = (.ok (), { a with ref := fun b => a.ref b + blocks.count b }) := by
  have hn : blocks.findSome? a.increfError = none :=
    List.findSome?_eq_none_iff.mpr fun b hb => increfError_eq_none.mpr (h b hb)
  simp [incref, hn]

theorem freeError_eq_none {blocks : List Int} :
    a.freeError blocks = none ↔ ∀ b ∈ blocks, a.InRange b ∧ blocks.count b ≤ a.ref b := by
  simp only [freeError, Option.or_eq_none_iff, List.findSome?_eq_none_iff, idError_eq_none,
    overFreed, ite_eq_right_iff, reduceCtorEq, imp_false, not_lt]
  exact ⟨fun h b hb => ⟨h.1 b hb, h.2 b hb⟩, fun h => ⟨fun b hb => (h b hb).1, fun b hb => (h b hb).2⟩⟩

@[simp] theorem dropRef_numBlocks (b : Int) : (a.dropRef b).numBlocks = a.numBlocks := rfl
@[simp] theorem dropRef_blockSize (b : Int) : (a.dropRef b).blockSize = a.blockSize := rfl

@[simp] theorem foldl_dropRef_numBlocks (blocks : List Int) (a : BlockAllocator) :
    (blocks.foldl dropRef a).numBlocks = a.numBlocks := by
  induction blocks generalizing a with
  | nil => rfl
  | cons b l ih => rw [List.foldl_cons, ih, dropRef_numBlocks]

@[simp] theorem foldl_dropRef_blockSize (blocks : List Int) (a : BlockAllocator) :
    (blocks.foldl dropRef a).blockSize = a.blockSize := by
  induction blocks generalizing a with
  | nil => rfl
  | cons b l ih => rw [List.foldl_cons, ih, dropRef_blockSize]

theorem foldl_dropRef_ref (blocks : List Int) (a : BlockAllocator) (c : Int) :
    (blocks.foldl dropRef a).ref c = a.ref c - blocks.count c := by
  induction blocks generalizing a with
  | nil => simp
  | cons b l ih =>
    rw [List.foldl_cons, ih]
    by_cases e : c = b
    · subst e; simp [dropRef]; omega
    · simp [dropRef, e, Ne.symm e]

theorem dropRef_sound {b : Int} (h : a.Sound) (hb : a.InRange b) (hr : 0 < a.ref b) :
    (a.dropRef b).Sound := by
  have hn : b ∉ a.free := fun hm => by have := (h.mem_free b).mp hm; omega
  constructor
  · simp only [dropRef]
    split
    · exact List.nodup_cons.mpr ⟨hn, h.nodup⟩
    · exact h.nodup
  · intro c
    have hc := h.mem_free c
    have hrng : (a.dropRef b).InRange c ↔ a.InRange c := Iff.rfl
    rw [hrng]
    by_cases e : c = b
    · subst e
      simp only [dropRef, if_true]
      split <;> simp_all
    · simp only [dropRef, if_neg e]
      split <;> simp [e, hc]

theorem foldl_dropRef_sound (blocks : List Int) (a : BlockAllocator) (h : a.Sound)
    (hv : ∀ b ∈ blocks, a.InRange b ∧ blocks.count b ≤ a.ref b) : (blocks.foldl dropRef a).Sound := by
  induction blocks generalizing a with
  | nil => exact h
  | cons b l ih =>
    obtain ⟨hb, hc⟩ := hv b (by simp)
    simp only [List.count_cons_self] at hc
    refine ih _ (dropRef_sound h hb (by omega)) fun c hcl => ?_
    obtain ⟨h1, h2⟩ := hv c (by simp [hcl])
    refine ⟨h1, ?_⟩
    by_cases e : c = b
    · subst e; simp [dropRef]; omega
    · simp [dropRef, e, Ne.symm e] at h2 ⊢; omega

theorem foldl_dropRef_numFree (blocks : List Int) (a : BlockAllocator)
    (hv : ∀ b ∈ blocks, a.ref b = 1) (hn : blocks.Nodup) :
    (blocks.foldl dropRef a).numFree = a.numFree + blocks.length := by
  induction blocks generalizing a with
  | nil => rfl
  | cons b l ih =>
    obtain ⟨hbl, hnl⟩ := List.nodup_cons.mp hn
    rw [List.foldl_cons, ih]
    · simp [dropRef, numFree, hv b (by simp)]; omega
    · intro c hc
      have e : c ≠ b := fun e => hbl (e ▸ hc)
      simp [dropRef, e, hv c (by simp [hc])]
    · exact hnl

theorem foldl_dropRef_free (blocks : List Int) (a : BlockAllocator) (h : ∀ b ∈ blocks, blocks.count b < a.ref b) :
    (blocks.foldl dropRef a).free = a.free := by
  induction blocks generalizing a with
  | nil => rfl
  | cons b l ih =>
    have hb := h b (by simp)
    simp only [List.count_cons_self] at hb
    have hkeep : (a.dropRef b).free = a.free := by
      have : ¬ a.ref b - 1 = 0 := by omega
      simp [dropRef, this]
    rw [List.foldl_cons, ih, hkeep]
    intro c hc
    have hcl := h c (by simp [hc])
    by_cases e : c = b
    · subst e; simp [dropRef]; omega
    · simp [dropRef, e, Ne.symm e] at hcl ⊢; omega

theorem freeBlocks_ok {blocks : List Int} (h : ∀ b ∈ blocks, a.InRange b ∧ blocks.count b ≤ a.ref b) :
    a.freeBlocks blocks = (.ok (), blocks.foldl dropRef a) := by
  simp [freeBlocks, freeError_eq_none.mpr h]

theorem allocate_sound {n : Nat} (h : a.Sound) :
    BlockAllocator.Sound { a with
      free := a.free.drop n
      ref := fun b => if b ∈ a.free.take n then 1 else a.ref b } := by
  have hsplit : a.free = a.free.take n ++ a.free.drop n := (List.take_append_drop n a.free).symm
  have hnd := h.nodup
  rw [hsplit, List.nodup_append'] at hnd
  constructor
  · exact hnd.2.1
  · intro b
    have hb := h.mem_free b
    have hrng : InRange { a with
        free := a.free.drop n
        ref := fun b => if b ∈ a.free.take n then 1 else a.ref b } b ↔ a.InRange b := Iff.rfl
    rw [hrng]
    by_cases ht : b ∈ a.free.take n
    · have : b ∉ a.free.drop n := fun hd => hnd.2.2 ht hd
      simp [ht, this]
    · have : b ∈ a.free.drop n ↔ b ∈ a.free := by
        constructor
        · exact fun hd => List.mem_of_mem_drop hd
        · intro hm; rw [hsplit] at hm; exact (List.mem_append.mp hm).resolve_left ht
      simp [ht, this, hb]

theorem incref_sound {blocks : List Int} (h : a.Sound) (hv : ∀ b ∈ blocks, 0 < a.ref b) :
    BlockAllocator.Sound { a with ref := fun b => a.ref b + blocks.count b } := by
  refine ⟨h.nodup, fun b => ?_⟩
  have hb := h.mem_free b
  have hrng : InRange { a with ref := fun b => a.ref b + blocks.count b } b ↔ a.InRange b := Iff.rfl
  rw [hrng]
  by_cases hm : b ∈ blocks
  · have := hv b hm
    simp only [hb]; constructor <;> rintro ⟨_, h2⟩ <;> omega
  · simp [hb, List.count_eq_zero_of_not_mem hm]

end BlockAllocator

end MiniServe
