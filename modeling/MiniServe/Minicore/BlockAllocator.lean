import MiniServe.Cache.Packing

namespace MiniServe.Minicore

-- `free` is the vector `free_`, its last element the top of the stack; `drops` is the scratch of `free`.
structure BlockAllocator where
  numBlocks : Nat
  blockSize : Nat
  free : List Int
  ref : Int → Nat
  drops : Int → Nat
  numBlocks_pos : 0 < numBlocks
  blockSize_pos : 0 < blockSize

namespace BlockAllocator

def fresh (numBlocks blockSize : Nat) (hn : 0 < numBlocks) (hb : 0 < blockSize) : BlockAllocator where
  numBlocks := numBlocks
  blockSize := blockSize
  free := (List.range numBlocks).map fun i : Nat => (numBlocks : Int) - 1 - (i : Int)
  ref := fun _ => 0
  drops := fun _ => 0
  numBlocks_pos := hn
  blockSize_pos := hb

variable (a : BlockAllocator)

def numFree : Nat := a.free.length

def checkId (b : Int) : Option Error :=
  if b < 0 ∨ a.numBlocks ≤ b then some (.blockOutOfRange b a.numBlocks) else none

def refcount (b : Int) : Except Error Nat :=
  match a.checkId b with
  | some e => .error e
  | none => .ok (a.ref b)

def popInto : Nat → List Int → BlockAllocator → List Int × BlockAllocator
  | 0, out, a => (out, a)
  | n + 1, out, a =>
    let b := a.free.getLastD 0
    popInto n (out ++ [b]) { a with free := a.free.dropLast, ref := Function.update a.ref b 1 }

def allocateInto (n : Int) (out : List Int) : Except Error (List Int) × BlockAllocator :=
  if n < 0 then (.error (.cannotAllocate n), a)
  else if n > a.numFree then (.error (.requestedBlocks n a.numFree), a)
  else
    let (out, a) := popInto n.toNat out a
    (.ok out, a)

def allocate (n : Int) : Except Error (List Int) × BlockAllocator := a.allocateInto n []

def increfCheck : List Int → Option Error
  | [] => none
  | b :: blocks =>
    match a.checkId b with
    | some e => some e
    | none => if a.ref b = 0 then some (.increfOfFree b) else increfCheck blocks

def incref (blocks : List Int) : Except Error Unit × BlockAllocator :=
  match a.increfCheck blocks with
  | some e => (.error e, a)
  | none => (.ok (), { a with ref := blocks.foldl (fun ref b => Function.update ref b (ref b + 1)) a.ref })

def checkIds : List Int → Option Error
  | [] => none
  | b :: blocks =>
    match a.checkId b with
    | some e => some e
    | none => checkIds blocks

def offender (drops : Int → Nat) : List Int → Option (Int × Nat)
  | [] => none
  | b :: blocks => if 0 < drops b ∧ a.ref b < drops b then some (b, drops b) else offender drops blocks

def dropRef (b : Int) : BlockAllocator :=
  let left := a.ref b - 1
  { a with
    ref := Function.update a.ref b left
    free := if left = 0 then a.free ++ [b] else a.free }

def freeBlocks (blocks : List Int) : Except Error Unit × BlockAllocator :=
  match a.checkIds blocks with
  | some e => (.error e, a)
  | none =>
    let counted := blocks.foldl (fun drops b => Function.update drops b (drops b + 1)) a.drops
    let a := { a with drops := blocks.foldl (fun drops b => Function.update drops b 0) counted }
    match a.offender counted blocks with
    | some (b, releases) => (.error (.freeOfBlock b releases (a.ref b)), a)
    | none => (.ok (), blocks.foldl dropRef a)

def reference : MiniServe.BlockAllocator where
  numBlocks := a.numBlocks
  blockSize := a.blockSize
  free := a.free.reverse
  ref := a.ref
  numBlocks_pos := a.numBlocks_pos
  blockSize_pos := a.blockSize_pos

def Clean : Prop := ∀ b, a.drops b = 0

@[simp] theorem reference_free : a.reference.free = a.free.reverse := rfl
@[simp] theorem reference_ref : a.reference.ref = a.ref := rfl
@[simp] theorem reference_blockSize : a.reference.blockSize = a.blockSize := rfl

variable {a}

theorem fresh_reference (numBlocks blockSize : Nat) (hn : 0 < numBlocks) (hb : 0 < blockSize) :
    (fresh numBlocks blockSize hn hb).reference = .fresh numBlocks blockSize hn hb := by
  simp only [reference, fresh, MiniServe.BlockAllocator.fresh, MiniServe.BlockAllocator.mk.injEq, true_and, and_true]
  refine List.ext_getElem (by simp) fun i h1 h2 => ?_
  have hi : i < numBlocks := by simpa using h1
  simp only [List.getElem_reverse, List.getElem_map, List.length_map, List.length_range, List.getElem_range,
    Int.ofNat_eq_natCast]
  omega

theorem checkId_eq (b : Int) : a.checkId b = a.reference.idError b := by
  unfold checkId MiniServe.BlockAllocator.idError
  by_cases h : b < 0 ∨ (a.numBlocks : Int) ≤ b
  · have hr : ¬ a.reference.InRange b := fun hr => by
      obtain ⟨h0, h1⟩ := hr
      have h1 : b < a.numBlocks := h1
      omega
    rw [if_pos h, if_neg hr]
    rfl
  · have hr : a.reference.InRange b := ⟨by omega, show b < (a.numBlocks : Int) by omega⟩
    rw [if_neg h, if_pos hr]

theorem refcount_eq (b : Int) : a.refcount b = a.reference.refcount b := by
  rw [refcount, MiniServe.BlockAllocator.refcount, checkId_eq]
  rfl

section Allocate

theorem popInto_drops (k : Nat) (out : List Int) (a : BlockAllocator) : (popInto k out a).2.drops = a.drops := by
  induction k generalizing out a with
  | zero => rfl
  | succ k ih => exact ih _ _

theorem popInto_eq {k : Nat} (h : k ≤ a.numFree) (out : List Int) :
    (popInto k out a).1 = out ++ a.reference.free.take k ∧
      (popInto k out a).2.reference = { a.reference with
        free := a.reference.free.drop k
        ref := fun b => if b ∈ a.reference.free.take k then 1 else a.reference.ref b } := by
  induction k generalizing out a with
  | zero => simp [popInto, reference]
  | succ k ih =>
    have hne : a.free ≠ [] := fun hn => by simp [numFree, hn] at h
    obtain ⟨l, b, hl⟩ : ∃ l b, a.free = l ++ [b] := ⟨_, _, (List.dropLast_append_getLast hne).symm⟩
    have hlast : a.free.getLastD 0 = b := by rw [hl, List.getLastD_concat]
    have hdrop : a.free.dropLast = l := by rw [hl, List.dropLast_concat]
    have hfree : a.reference.free = b :: l.reverse := by simp [reference, hl]
    have hlen : k ≤ l.length := by
      rw [numFree, hl, List.length_append, List.length_singleton] at h
      omega
    obtain ⟨h1, h2⟩ := ih (a := { a with free := l, ref := Function.update a.ref b 1 }) hlen (out ++ [b])
    simp only [popInto, hlast, hdrop]
    constructor
    · rw [h1, hfree, List.take_succ_cons]
      simp [reference]
    · rw [h2, hfree]
      simp only [reference, List.take_succ_cons, List.drop_succ_cons,
        MiniServe.BlockAllocator.mk.injEq, true_and]
      funext x
      by_cases hx : x ∈ l.reverse.take k
      · simp [hx]
      · by_cases hb : x = b
        · simp [hb]
        · simp [hx, hb]

theorem allocateInto_refines (n : Int) (out : List Int) :
    (a.allocateInto n out).1 = (a.reference.allocate n).1.map (out ++ ·) ∧
      (a.allocateInto n out).2.reference = (a.reference.allocate n).2 ∧ (a.allocateInto n out).2.drops = a.drops := by
  have hfree : a.reference.numFree = a.numFree := by simp [MiniServe.BlockAllocator.numFree, reference, numFree]
  unfold allocateInto MiniServe.BlockAllocator.allocate
  by_cases hn : n < 0
  · simp [hn, Except.map]
  · by_cases hlt : n > a.numFree
    · simp [hn, hfree, hlt, Except.map]
    · obtain ⟨h1, h2⟩ := popInto_eq (a := a) (k := n.toNat) (by omega) out
      simp only [hn, hfree, hlt, if_false]
      exact ⟨congrArg Except.ok h1, h2, popInto_drops _ _ _⟩

theorem allocate_refines (n : Int) :
    (a.allocate n).1 = (a.reference.allocate n).1 ∧ (a.allocate n).2.reference = (a.reference.allocate n).2 ∧
      (a.allocate n).2.drops = a.drops := by
  obtain ⟨h1, h2, h3⟩ := a.allocateInto_refines n []
  refine ⟨h1.trans ?_, h2, h3⟩
  cases (a.reference.allocate n).1 <;> rfl

end Allocate

section Incref

theorem increfCheck_eq (blocks : List Int) : a.increfCheck blocks = blocks.findSome? a.reference.increfError := by
  induction blocks with
  | nil => rfl
  | cons b blocks ih =>
    rw [increfCheck, List.findSome?_cons, MiniServe.BlockAllocator.increfError, checkId_eq, ih]
    cases h : a.reference.idError b with
    | some e => rfl
    | none =>
      by_cases h0 : a.ref b = 0
      · simp [h0, reference]
      · simp [h0, reference]

theorem foldl_count (blocks : List Int) (f : Int → Nat) :
    blocks.foldl (fun f b => Function.update f b (f b + 1)) f = fun b => f b + blocks.count b := by
  induction blocks generalizing f with
  | nil => rfl
  | cons b blocks ih =>
    rw [List.foldl_cons, ih]
    funext x
    by_cases hx : x = b
    · subst hx
      simp
      omega
    · simp [hx, Ne.symm hx]

theorem incref_refines (blocks : List Int) :
    (a.incref blocks).1 = (a.reference.incref blocks).1 ∧ (a.incref blocks).2.reference = (a.reference.incref blocks).2 ∧
      (a.incref blocks).2.drops = a.drops := by
  rw [incref, MiniServe.BlockAllocator.incref, increfCheck_eq]
  cases blocks.findSome? a.reference.increfError with
  | some e => exact ⟨rfl, rfl, rfl⟩
  | none => exact ⟨rfl, by simp only [reference, foldl_count], rfl⟩

end Incref

section Free

theorem checkIds_eq (blocks : List Int) : a.checkIds blocks = blocks.findSome? a.reference.idError := by
  induction blocks with
  | nil => rfl
  | cons b blocks ih =>
    rw [checkIds, List.findSome?_cons, checkId_eq, ih]
    cases a.reference.idError b <;> rfl

theorem foldl_reset (blocks : List Int) (f : Int → Nat) (b : Int) :
    blocks.foldl (fun f b => Function.update f b 0) f b = if b ∈ blocks then 0 else f b := by
  induction blocks generalizing f with
  | nil => rfl
  | cons c blocks ih =>
    rw [List.foldl_cons, ih]
    by_cases hb : b ∈ blocks
    · simp [hb]
    · by_cases hc : b = c
      · subst hc
        simp
      · simp [hb, hc]

theorem offender_eq (all blocks : List Int) (hsub : blocks ⊆ all) :
    a.offender (fun b => all.count b) blocks =
      (blocks.find? fun b => a.ref b < all.count b).map fun b => (b, all.count b) := by
  induction blocks with
  | nil => rfl
  | cons b blocks ih =>
    rw [List.cons_subset] at hsub
    have hpos : 0 < all.count b := List.count_pos_iff.mpr hsub.1
    rw [offender, ih hsub.2, List.find?_cons]
    by_cases hlt : a.ref b < all.count b
    · simp [hlt, hpos]
    · simp [hlt]

theorem findSome_overFreed (a : MiniServe.BlockAllocator) (all blocks : List Int) :
    blocks.findSome? (a.overFreed all) =
      (blocks.find? fun b => a.ref b < all.count b).map fun b => .freeOfBlock b (all.count b) (a.ref b) := by
  induction blocks with
  | nil => rfl
  | cons b blocks ih =>
    rw [List.findSome?_cons, List.find?_cons, MiniServe.BlockAllocator.overFreed, ih]
    by_cases hlt : a.ref b < all.count b <;> simp [hlt]

theorem foldl_dropRef_reference (blocks : List Int) (a : BlockAllocator) :
    (blocks.foldl dropRef a).reference = blocks.foldl MiniServe.BlockAllocator.dropRef a.reference ∧
      (blocks.foldl dropRef a).drops = a.drops := by
  induction blocks generalizing a with
  | nil => exact ⟨rfl, rfl⟩
  | cons b blocks ih =>
    rw [List.foldl_cons, List.foldl_cons]
    obtain ⟨h1, h2⟩ := ih (a.dropRef b)
    refine ⟨h1.trans ?_, h2⟩
    have hdrop : (a.dropRef b).reference = a.reference.dropRef b := by
      simp only [reference, dropRef, MiniServe.BlockAllocator.dropRef, MiniServe.BlockAllocator.mk.injEq, true_and]
      constructor
      · by_cases h0 : a.ref b - 1 = 0 <;> simp [h0]
      · funext c
        by_cases hc : c = b <;> simp [hc]
    rw [hdrop]

theorem freeBlocks_refines (h : a.Clean) (blocks : List Int) :
    (a.freeBlocks blocks).1 = (a.reference.freeBlocks blocks).1 ∧
      (a.freeBlocks blocks).2.reference = (a.reference.freeBlocks blocks).2 ∧ (a.freeBlocks blocks).2.Clean := by
  have hcount : blocks.foldl (fun drops b => Function.update drops b (drops b + 1)) a.drops =
      fun b => blocks.count b := by
    rw [foldl_count]
    funext b
    rw [h b, Nat.zero_add]
  have hreset : blocks.foldl (fun drops b => Function.update drops b 0) (fun b => blocks.count b) = fun _ => 0 := by
    funext b
    rw [foldl_reset]
    split
    · rfl
    · next hb => exact List.count_eq_zero_of_not_mem hb
  unfold freeBlocks MiniServe.BlockAllocator.freeBlocks MiniServe.BlockAllocator.freeError
  rw [checkIds_eq]
  cases hid : blocks.findSome? a.reference.idError with
  | some e => exact ⟨rfl, rfl, h⟩
  | none =>
    simp only [Option.none_or]
    have hoff : ∀ drops, BlockAllocator.offender { a with drops := drops } (fun b => blocks.count b) blocks =
        a.offender (fun b => blocks.count b) blocks := fun drops => by
      rw [offender_eq blocks blocks (List.Subset.refl _), offender_eq blocks blocks (List.Subset.refl _)]
    rw [findSome_overFreed, hcount, hreset, hoff, offender_eq blocks blocks (List.Subset.refl _), reference_ref]
    cases blocks.find? fun b => decide (a.ref b < blocks.count b) with
    | some b => exact ⟨rfl, rfl, fun _ => rfl⟩
    | none =>
      obtain ⟨h1, h2⟩ := foldl_dropRef_reference blocks { a with drops := fun _ => 0 }
      exact ⟨rfl, h1, fun b => congrFun h2 b⟩

end Free

end BlockAllocator

-- `num_tokens_` is an `int`, and so is every sum over it.
structure BlockTable where
  blocks : List Int
  numTokens : Int
  deriving DecidableEq

namespace BlockTable

open Packing (Fits)
open Packing.Cpp (wrap wrap_eq)

variable (t : BlockTable) (a : BlockAllocator)

def empty : BlockTable := ⟨[], 0⟩

def reference : MiniServe.BlockTable := ⟨t.blocks, t.numTokens.toNat⟩

def allNew : List Int → List Int → Bool
  | _, [] => true
  | seen, b :: blocks => if b ∈ seen then false else allNew (b :: seen) blocks

def new (a : BlockAllocator) (prefixBlocks : List Int) : Except Error BlockTable × BlockAllocator :=
  if allNew [] prefixBlocks then
    match a.incref prefixBlocks with
    | (.error e, a) => (.error e, a)
    | (.ok (), a) => (.ok ⟨prefixBlocks, wrap (prefixBlocks.length * a.blockSize)⟩, a)
  else (.error (.duplicateInPrefix prefixBlocks), a)

def blocksNeeded (n : Int) : Except Error Int :=
  if n < 0 then .error (.cannotAppend n)
  else
    let need := (wrap (t.numTokens + n + a.blockSize - 1)).tdiv a.blockSize - t.blocks.length
    .ok (if 0 < need then need else 0)

def appendTokens (n : Int) : Except Error (List Int) × BlockTable × BlockAllocator :=
  match blocksNeeded t a n with
  | .error e => (.error e, t, a)
  | .ok need =>
    match a.allocateInto need t.blocks with
    | (.error e, a) => (.error e, t, a)
    | (.ok blocks, a) => (.ok (blocks.drop t.blocks.length), ⟨blocks, wrap (t.numTokens + n)⟩, a)

def slotAt (bs : Nat) (pos : Int) : Int := t.blocks.getD (pos.tdiv bs).toNat 0 * bs + pos.tmod bs

def slot (pos : Int) : Except Error Int :=
  if pos < 0 ∨ t.numTokens ≤ pos then .error (.positionOutOfRange pos t.numTokens)
  else .ok (slotAt t a.blockSize pos)

def rewind (n : Int) : Except Error Unit × BlockTable :=
  if n < 0 ∨ t.numTokens < n then (.error (.cannotRewind n t.numTokens), t)
  else (.ok (), { t with numTokens := t.numTokens - n })

def slotsFrom (bs : Nat) : Nat → Int → List Int
  | 0, _ => []
  | left + 1, pos => slotAt t bs pos :: slotsFrom bs left (pos + 1)

def tailSlots (n : Int) : Except Error (List Int) :=
  if n < 0 ∨ t.numTokens < n then .error (.tailOutOfRange n t.numTokens)
  else .ok (slotsFrom t a.blockSize n.toNat (t.numTokens - n))

def release : Except Error Unit × BlockTable × BlockAllocator :=
  match a.freeBlocks t.blocks with
  | (.error e, a) => (.error e, t, a)
  | (.ok (), a) => (.ok (), .empty, a)

variable {t a} {n : Int}

theorem allNew_eq (seen blocks : List Int) : allNew seen blocks = true ↔ blocks.Nodup ∧ ∀ b ∈ blocks, b ∉ seen := by
  induction blocks generalizing seen with
  | nil => simp [allNew]
  | cons b blocks ih =>
    rw [allNew]
    split
    · next hb => simp [hb]
    · next hb =>
      rw [ih]
      simp only [List.nodup_cons, List.mem_cons, not_or, forall_eq_or_imp]
      constructor
      · rintro ⟨h1, h2⟩
        exact ⟨⟨fun hm => (h2 b hm).1 rfl, h1⟩, hb, fun c hc => (h2 c hc).2⟩
      · rintro ⟨⟨h1, h2⟩, -, h3⟩
        refine ⟨h2, fun c hc => ⟨?_, h3 c hc⟩⟩
        rintro rfl
        exact h1 hc

theorem wrap_size {blocks : List Int} {bs : Nat} (h : Fits (blocks.length * bs)) :
    wrap (blocks.length * bs) = (blocks.length * bs : Nat) := by
  rw [wrap_eq h, Nat.cast_mul]

theorem new_refines (h : a.Clean) {blocks : List Int} (hlen : Fits (blocks.length * a.blockSize)) :
    (new a blocks).1.map reference = (MiniServe.BlockTable.new a.reference blocks).1 ∧
      (new a blocks).2.reference = (MiniServe.BlockTable.new a.reference blocks).2 ∧ (new a blocks).2.Clean ∧
      ∀ t, (new a blocks).1 = .ok t → 0 ≤ t.numTokens := by
  unfold new MiniServe.BlockTable.new
  have hnew : allNew [] blocks = true ↔ blocks.Nodup := by simp [allNew_eq]
  by_cases hn : blocks.Nodup
  · obtain ⟨h1, h2, h3⟩ := a.incref_refines blocks
    rw [if_pos (hnew.mpr hn), if_pos hn]
    have hbs : (a.incref blocks).2.blockSize = a.blockSize := by
      unfold BlockAllocator.incref
      split <;> rfl
    cases hinc : a.incref blocks with
    | mk res a' =>
      cases href : a.reference.incref blocks with
      | mk res' r' =>
        rw [hinc, href] at h1 h2
        rw [hinc] at h3 hbs
        simp only at h1 h2 h3 hbs
        subst h1 h2
        have hclean : a'.Clean := fun b => by rw [h3, h b]
        cases res with
        | error e => exact ⟨rfl, rfl, hclean, fun t ht => nomatch ht⟩
        | ok =>
          simp only [hbs, wrap_size hlen]
          refine ⟨?_, trivial, hclean, fun t ht => ?_⟩
          · simp only [Except.map, reference, Int.toNat_natCast, BlockAllocator.reference_blockSize]
          · obtain rfl := Except.ok.inj ht
            exact Int.natCast_nonneg _
  · have : ¬ allNew [] blocks = true := hnew.not.mpr hn
    rw [if_neg this, if_neg hn]
    exact ⟨rfl, rfl, h, fun t ht => nomatch ht⟩

theorem blocksNeeded_eq (ht : 0 ≤ t.numTokens) (hfit : Fits (t.numTokens + n + a.blockSize - 1)) :
    blocksNeeded t a n = t.reference.blocksNeeded a.blockSize n := by
  unfold blocksNeeded MiniServe.BlockTable.blocksNeeded
  rw [wrap_eq hfit]
  split
  · rfl
  · next hn =>
    have hbs : (0 : Int) < a.blockSize := by
      have := a.blockSize_pos
      omega
    have hdiv : (t.numTokens + n + a.blockSize - 1).tdiv a.blockSize = ceilDiv (t.numTokens + n) a.blockSize := by
      rw [Int.tdiv_eq_ediv_of_nonneg (by omega)]
      refine le_antisymm ?_ ?_
      · refine Int.le_of_lt_add_one ((Int.ediv_lt_iff_lt_mul hbs).mpr ?_)
        have := (ceilDiv_le (n := t.numTokens + n) hbs).mp le_rfl
        rw [add_mul, one_mul]
        omega
      · refine (ceilDiv_le hbs).mpr ?_
        have := Int.lt_ediv_add_one_mul_self (t.numTokens + n + a.blockSize - 1 : Int) hbs
        rw [add_mul, one_mul] at this
        omega
    simp only [MiniServe.BlockTable.need, reference, Int.toNat_of_nonneg ht, hdiv]
    congr 1
    split <;> omega

-- Past 32 bits the sum wraps around, and no block is needed where the reference needs more than there are.
example : blocksNeeded .empty (.fresh 2 2 (by decide) (by decide)) (2 ^ 31 - 1) = .ok 0 ∧
    MiniServe.BlockTable.empty.blocksNeeded 2 (2 ^ 31 - 1) = .ok (2 ^ 30) := by decide

structure AppendRefines (x : Except Error (List Int) × BlockTable × BlockAllocator)
    (y : Except Error (List Int) × MiniServe.BlockTable × MiniServe.BlockAllocator) : Prop where
  reply : x.1 = y.1
  table : x.2.1.reference = y.2.1
  nonneg : 0 ≤ x.2.1.numTokens
  allocator : x.2.2.reference = y.2.2
  clean : x.2.2.Clean

theorem appendTokens_refines (h : a.Clean) (ht : 0 ≤ t.numTokens) (hfit : Fits (t.numTokens + n + a.blockSize - 1)) :
    AppendRefines (appendTokens t a n) (t.reference.appendTokens a.reference n) := by
  have hbs : a.reference.blockSize = a.blockSize := rfl
  unfold appendTokens MiniServe.BlockTable.appendTokens
  rw [blocksNeeded_eq ht hfit, hbs]
  cases hneed : t.reference.blocksNeeded a.blockSize n with
  | error e => exact ⟨rfl, rfl, ht, rfl, h⟩
  | ok need =>
    have hn : 0 ≤ n := by
      by_contra hneg
      rw [MiniServe.BlockTable.blocksNeeded, if_pos (by omega)] at hneed
      cases hneed
    have hwrap : wrap (t.numTokens + n) = t.numTokens + n := by
      have hpos := a.blockSize_pos
      exact wrap_eq ⟨by omega, by have := hfit.2; omega⟩
    obtain ⟨h1, h2, h3⟩ := a.allocateInto_refines need t.blocks
    have hblocks : t.reference.blocks = t.blocks := rfl
    simp only [hblocks, hwrap]
    generalize a.allocateInto need t.blocks = x at h1 h2 h3 ⊢
    generalize a.reference.allocate need = y at h1 h2 ⊢
    obtain ⟨x1, x2⟩ := x
    obtain ⟨y1, y2⟩ := y
    simp only at h1 h2 h3
    have hclean : x2.Clean := fun b => by rw [h3, h b]
    subst h1 h2
    cases y1 with
    | error e => exact ⟨rfl, rfl, ht, rfl, hclean⟩
    | ok out =>
      refine ⟨by simp [Except.map], ?_, add_nonneg ht hn, rfl, hclean⟩
      exact congrArg _ (Int.toNat_add ht hn)

theorem slotAt_eq (t : BlockTable) (bs pos : Nat) : slotAt t bs pos = t.reference.slotAt bs pos := by
  rw [slotAt, MiniServe.BlockTable.slotAt, Int.tdiv_eq_ediv_of_nonneg (Int.natCast_nonneg pos),
    Int.tmod_eq_emod_of_nonneg (Int.natCast_nonneg pos)]
  rfl

theorem slot_eq (ht : 0 ≤ t.numTokens) (a : BlockAllocator) (pos : Int) :
    slot t a pos = t.reference.slot a.blockSize pos := by
  have hnum : (t.reference.numTokens : Int) = t.numTokens := Int.toNat_of_nonneg ht
  unfold slot MiniServe.BlockTable.slot
  rw [hnum]
  by_cases h : pos < 0 ∨ t.numTokens ≤ pos
  · rw [if_pos h, if_neg (by omega)]
  · obtain ⟨k, rfl⟩ := Int.eq_ofNat_of_zero_le (show 0 ≤ pos by omega)
    rw [if_neg h, if_pos (by omega), slotAt_eq]
    rfl

theorem rewind_refines (ht : 0 ≤ t.numTokens) (n : Int) :
    (rewind t n).1 = (t.reference.rewind n).1 ∧ (rewind t n).2.reference = (t.reference.rewind n).2 ∧
      0 ≤ (rewind t n).2.numTokens := by
  have hnum : (t.reference.numTokens : Int) = t.numTokens := Int.toNat_of_nonneg ht
  unfold rewind MiniServe.BlockTable.rewind
  rw [hnum]
  by_cases h : n < 0 ∨ t.numTokens < n
  · rw [if_pos h, if_neg (by omega)]
    exact ⟨rfl, rfl, ht⟩
  · rw [if_neg h, if_pos (by omega)]
    refine ⟨rfl, ?_, by simp only; omega⟩
    simp only [reference, MiniServe.BlockTable.mk.injEq, true_and]
    omega

theorem slotsFrom_eq (t : BlockTable) (bs left pos : Nat) :
    slotsFrom t bs left pos = (List.range' pos left).map (t.reference.slotAt bs) := by
  induction left generalizing pos with
  | zero => rfl
  | succ left ih =>
    rw [slotsFrom, slotAt_eq, List.range'_succ, List.map_cons, ← ih]
    rfl

theorem tailSlots_eq (ht : 0 ≤ t.numTokens) (a : BlockAllocator) (n : Int) :
    tailSlots t a n = t.reference.tailSlots a.blockSize n := by
  have hnum : (t.reference.numTokens : Int) = t.numTokens := Int.toNat_of_nonneg ht
  unfold tailSlots MiniServe.BlockTable.tailSlots
  rw [hnum]
  by_cases h : n < 0 ∨ t.numTokens < n
  · rw [if_pos h, if_neg (by omega)]
  · obtain ⟨k, rfl⟩ := Int.eq_ofNat_of_zero_le (show 0 ≤ n by omega)
    have hstart : t.numTokens - (k : Int) = (t.reference.numTokens - k : Nat) := by omega
    rw [if_neg h, if_pos (by omega), hstart, Int.toNat_natCast, slotsFrom_eq]
    rfl

theorem release_refines (h : a.Clean) (ht : 0 ≤ t.numTokens) :
    (release t a).1 = (t.reference.release a.reference).1 ∧
      (release t a).2.1.reference = (t.reference.release a.reference).2.1 ∧ 0 ≤ (release t a).2.1.numTokens ∧
      (release t a).2.2.reference = (t.reference.release a.reference).2.2 ∧ (release t a).2.2.Clean := by
  unfold release MiniServe.BlockTable.release
  obtain ⟨h1, h2, h3⟩ := BlockAllocator.freeBlocks_refines h t.blocks
  have hblocks : t.reference.blocks = t.blocks := rfl
  rw [hblocks]
  generalize a.freeBlocks t.blocks = x at h1 h2 h3 ⊢
  generalize a.reference.freeBlocks t.blocks = y at h1 h2 ⊢
  obtain ⟨x1, x2⟩ := x
  obtain ⟨y1, y2⟩ := y
  simp only at h1 h2 h3
  subst h1 h2
  cases x1 with
  | error e => exact ⟨rfl, rfl, ht, rfl, h3⟩
  | ok => exact ⟨rfl, rfl, le_rfl, rfl, h3⟩

end BlockTable

end MiniServe.Minicore
