import Mathlib.Data.List.Basic
import Mathlib.Data.List.Sort
import Mathlib.Tactic

namespace PrefixMap

variable {α β : Type}

def Closed (bs : Nat) (M : List α → Option β) : Prop :=
  ∀ k, (M k).isSome → ∀ j, 0 < j → j * bs ≤ k.length → (M (k.take (j * bs))).isSome

structure Longest (bs : Nat) (M : List α → Option β) (ts : List α) (m : Nat) : Prop where
  le : m * bs ≤ ts.length
  cached : ∀ j, 0 < j → j ≤ m → (M (ts.take (j * bs))).isSome
  stops : (m + 1) * bs ≤ ts.length → M (ts.take ((m + 1) * bs)) = none

def fill [DecidableEq α] (bs : Nat) (M : List α → Option β) (ts : List α) (blocks : List β) (k : List α) : Option β :=
  (M k).or (if k ≠ [] ∧ bs ∣ k.length ∧ k <+: ts then blocks[k.length / bs - 1]? else none)

variable {bs m n : Nat} {M : List α → Option β} {ts : List α}

theorem Longest.le_of (h : Longest bs M ts m) (hn : Longest bs M ts n) : n ≤ m := by
  by_contra hlt
  have hle : (m + 1) * bs ≤ n * bs := Nat.mul_le_mul_right bs (by omega)
  have h1 := hn.cached (m + 1) (Nat.succ_pos m) (by omega)
  rw [h.stops (hle.trans hn.le)] at h1
  simp at h1

theorem Longest.unique (h : Longest bs M ts m) (hn : Longest bs M ts n) : n = m :=
  Nat.le_antisymm (h.le_of hn) (hn.le_of h)

theorem fill_of_some [DecidableEq α] {blocks : List β} {k : List α} {b : β} (h : M k = some b) :
    fill bs M ts blocks k = some b := by
  simp [fill, h]

theorem fill_eq_some [DecidableEq α] (hbs : 0 < bs) {blocks : List β} {k : List α} {b : β}
    (hlen : ts.length = blocks.length * bs) (h : M k = none) :
    fill bs M ts blocks k = some b ↔ ∃ i, blocks[i]? = some b ∧ k = ts.take ((i + 1) * bs) := by
  rw [fill, h, Option.none_or]
  constructor
  · intro hb
    split at hb
    · next hc =>
      obtain ⟨hne, ⟨q, hq⟩, hpre⟩ := hc
      have hpos : 0 < k.length := List.length_pos_iff.mpr hne
      have hq0 : 0 < q := Nat.pos_of_ne_zero fun e => by rw [e, Nat.mul_zero] at hq; omega
      have hdiv : k.length / bs = q := by rw [hq]; exact Nat.mul_div_cancel_left q hbs
      refine ⟨q - 1, hdiv ▸ hb, ?_⟩
      rw [Nat.sub_add_cancel hq0, Nat.mul_comm, ← hq]
      exact List.prefix_iff_eq_take.mp hpre
    · exact absurd hb (by simp)
  · rintro ⟨i, hi, rfl⟩
    have hlt := (List.getElem?_eq_some_iff.mp hi).1
    have hle : (i + 1) * bs ≤ ts.length := by rw [hlen]; exact Nat.mul_le_mul_right bs hlt
    have hl : (ts.take ((i + 1) * bs)).length = (i + 1) * bs := by simp [hle]
    have hpos : 0 < (i + 1) * bs := Nat.mul_pos (Nat.succ_pos i) hbs
    rw [if_pos, hl, Nat.mul_div_cancel _ hbs, Nat.add_sub_cancel, hi]
    refine ⟨fun e => ?_, ?_, List.take_prefix _ _⟩
    · rw [e] at hl
      simp only [List.length_nil] at hl
      omega
    · rw [hl]; exact Nat.dvd_mul_left bs (i + 1)

end PrefixMap

section Stable

variable {ι : Type} (f : ι → Nat)

def byLargest (l : List ι) : List ι := l.insertionSort (fun i j => f j ≤ f i)

theorem byLargest_sorted (l : List ι) : (byLargest f l).Pairwise (fun i j => f j ≤ f i) := by
  have : IsTrans ι (fun i j => f j ≤ f i) := ⟨fun _ _ _ h1 h2 => h2.trans h1⟩
  have : Std.Total (fun i j => f j ≤ f i) := ⟨fun i j => le_total (f j) (f i)⟩
  exact List.pairwise_insertionSort _ l

theorem byLargest_perm (l : List ι) : (byLargest f l).Perm l := List.perm_insertionSort _ l

theorem byLargest_filter (l : List ι) (n : Nat) :
    (byLargest f l).filter (f · = n) = l.filter (f · = n) := by
  have : IsTrans ι (fun i j => f j ≤ f i) := ⟨fun _ _ _ h1 h2 => h2.trans h1⟩
  have : Std.Total (fun i j => f j ≤ f i) := ⟨fun i j => le_total (f j) (f i)⟩
  have hsub : (l.filter (f · = n)).Sublist (byLargest f l) := by
    refine List.sublist_insertionSort ?_ List.filter_sublist
    rw [List.pairwise_iff_forall_sublist]
    intro i j hij
    have hi : f i = n := by simpa using List.of_mem_filter (hij.subset (List.mem_cons_self))
    have hj : f j = n := by simpa using List.of_mem_filter (hij.subset (by simp : j ∈ [i, j]))
    omega
  have h := hsub.filter (f · = n)
  rw [List.filter_filter] at h
  simp only [Bool.and_self] at h
  exact (h.eq_of_length ((byLargest_perm f l).filter _).length_eq.symm).symm

end Stable
