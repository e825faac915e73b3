import Mathlib.Data.List.Sort
import Mathlib.Data.Prod.Lex

namespace SortedSet

variable {α : Type} [LinearOrder α] {x y : α} {l : List α}

def Sorted (l : List α) : Prop := l.Pairwise (· < ·)

def insert (x : α) (l : List α) : List α := if x ∈ l then l else l.orderedInsert (· ≤ ·) x

def erase (x : α) (l : List α) : List α := l.erase x

theorem Sorted.nodup (h : Sorted l) : l.Nodup := List.Pairwise.imp (fun h => h.ne) h

theorem mem_insert : y ∈ insert x l ↔ y = x ∨ y ∈ l := by
  unfold insert
  split
  · next hx => exact ⟨.inr, fun h => h.elim (fun e => e ▸ hx) id⟩
  · exact List.mem_orderedInsert _

theorem Sorted.insert (h : Sorted l) (x : α) : Sorted (insert x l) := by
  unfold SortedSet.insert
  split
  · exact h
  · next hx =>
    induction l with
    | nil => simp [Sorted]
    | cons y l ih =>
      obtain ⟨hy, hl⟩ := List.pairwise_cons.mp h
      rw [List.mem_cons, not_or] at hx
      rw [List.orderedInsert_cons]
      split
      · next hle =>
        have hlt : x < y := lt_of_le_of_ne hle hx.1
        refine List.pairwise_cons.mpr ⟨fun z hz => ?_, h⟩
        rcases List.mem_cons.mp hz with rfl | hz
        · exact hlt
        · exact hlt.trans (hy z hz)
      · next hle =>
        refine List.pairwise_cons.mpr ⟨fun z hz => ?_, ih hl hx.2⟩
        rcases (List.mem_orderedInsert _).mp hz with rfl | hz
        · exact lt_of_not_ge hle
        · exact hy z hz

theorem Sorted.erase (h : Sorted l) (x : α) : Sorted (erase x l) := List.Pairwise.sublist List.erase_sublist h

theorem Sorted.mem_erase (h : Sorted l) : y ∈ SortedSet.erase x l ↔ y ∈ l ∧ y ≠ x := by
  rw [SortedSet.erase, h.nodup.mem_erase_iff]
  exact and_comm

theorem Sorted.head_le (h : Sorted (x :: l)) : ∀ y ∈ x :: l, x ≤ y := by
  intro y hy
  rcases List.mem_cons.mp hy with rfl | hy
  · exact le_rfl
  · exact ((List.pairwise_cons.mp h).1 y hy).le

end SortedSet
