import Mathlib.Data.List.Basic
import Mathlib.Tactic

namespace Generate

variable {α : Type} (next : List α → α)

def stream : Nat → List α
  | 0 => []
  | n + 1 => stream n ++ [next (stream n)]

def cutAt (stops : List α) [DecidableEq α] : List α → List α
  | [] => []
  | a :: l => if a ∈ stops then [a] else a :: cutAt stops l

variable {next}

@[simp] theorem stream_length (n : Nat) : (stream next n).length = n := by
  induction n with
  | zero => rfl
  | succ n ih => simp [stream, ih]

theorem mem_stream {n : Nat} {a : α} (h : a ∈ stream next n) : ∃ l, a = next l := by
  induction n with
  | zero => simp [stream] at h
  | succ n ih =>
    rcases List.mem_append.mp h with h | h
    · exact ih h
    · exact ⟨_, List.mem_singleton.mp h⟩

theorem stream_begins {n m : Nat} (h : n ≤ m) : stream next n <+: stream next m := by
  induction m, h using Nat.le_induction with
  | base => exact List.prefix_refl _
  | succ m _ ih => exact ih.trans (List.prefix_append _ _)

theorem stream_take {n m : Nat} (h : n ≤ m) : (stream next m).take n = stream next n := by
  have := List.prefix_iff_eq_take.mp (@stream_begins _ next _ _ h)
  rw [stream_length] at this
  exact this.symm

-- A guess at the tokens to come, checked against what the generation gives after each of them.
theorem stream_agreed {out guess : List α} {k m : Nat} (hout : out = stream next m) (hk : k ≤ guess.length)
    (h : ∀ j < k, guess[j]? = some (next (out ++ guess.take j))) : out ++ guess.take k = stream next (m + k) := by
  induction k with
  | zero => simpa using hout
  | succ k ih =>
    have ih := ih (Nat.le_of_succ_le hk) fun j hj => h j (Nat.lt_succ_of_lt hj)
    have hlast := h k (Nat.lt_succ_self k)
    rw [List.take_add_one, hlast, ← List.append_assoc, ih]
    rfl

variable [DecidableEq α] {stops : List α} {l l' : List α} {a : α}

theorem cutAt_append (h : ∀ a ∈ l, a ∉ stops) : cutAt stops (l ++ l') = l ++ cutAt stops l' := by
  induction l with
  | nil => rfl
  | cons a l ih =>
    have ha := h a List.mem_cons_self
    have ih := ih fun b hb => h b (List.mem_cons_of_mem _ hb)
    simp [cutAt, ha, ih]

theorem cutAt_stop (h : ∀ a ∈ l, a ∉ stops) (ha : a ∈ stops) : cutAt stops (l ++ a :: l') = l ++ [a] := by
  rw [cutAt_append h]
  simp [cutAt, ha]

theorem cutAt_last (h : ∀ a ∈ l, a ∉ stops) : cutAt stops (l ++ [a]) = l ++ [a] := by
  rw [cutAt_append h]
  simp [cutAt]

theorem cutAt_stream {m : Nat} (hl : l ++ [a] = stream next (l.length + 1)) (hm : l.length < m)
    (h : ∀ a ∈ l, a ∉ stops) (hend : m ≤ l.length + 1 ∨ a ∈ stops) : l ++ [a] = cutAt stops (stream next m) := by
  rcases hend with he | ha
  · have : m = l.length + 1 := by omega
    rw [this, ← hl, cutAt_last h]
  · obtain ⟨rest, hrest⟩ := @stream_begins _ next _ _ hm
    rw [← hrest, ← hl, List.append_assoc, List.singleton_append, cutAt_stop h ha]

theorem prefix_cutAt {m : Nat} (hl : l <+: stream next m) (h : ∀ a ∈ l, a ∉ stops) :
    l <+: cutAt stops (stream next m) := by
  obtain ⟨rest, hrest⟩ := hl
  rw [← hrest, cutAt_append h]
  exact List.prefix_append _ _

end Generate
