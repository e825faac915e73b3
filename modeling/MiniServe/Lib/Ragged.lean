import Mathlib.Tactic

namespace Ragged

variable {α : Type}

-- Where each row starts in the concatenation of the rows, and where the last one ends.
def offsets : Nat → List (List α) → List Nat
  | o, [] => [o]
  | o, row :: rows => o :: offsets (o + row.length) rows

def slice (flat : List α) (start stop : Nat) : List α := (flat.take stop).drop start

def rowAt (starts : List Nat) (flat : List α) (i : Nat) : List α := slice flat (starts.getD i 0) (starts.getD (i + 1) 0)

variable {o i j : Nat} {rows : List (List α)} {row : List α}

theorem offsets_length : (offsets o rows).length = rows.length + 1 := by
  induction rows generalizing o with
  | nil => rfl
  | cons row rows ih => simp [offsets, ih]

theorem offsets_get (h : i ≤ rows.length) : (offsets o rows)[i]? = some (o + (rows.take i).flatten.length) := by
  induction rows generalizing o i with
  | nil =>
    obtain rfl : i = 0 := by simpa using h
    simp [offsets]
  | cons row rows ih =>
    cases i with
    | zero => simp [offsets]
    | succ i =>
      have hi : i ≤ rows.length := by simpa using h
      simp [offsets, ih hi, Nat.add_assoc]

theorem offsets_getD (h : i ≤ rows.length) : (offsets o rows).getD i 0 = o + (rows.take i).flatten.length := by
  rw [List.getD_eq_getElem?_getD, offsets_get h, Option.getD_some]

theorem offsets_mono (hij : i ≤ j) (hj : j ≤ rows.length) : (offsets o rows).getD i 0 ≤ (offsets o rows).getD j 0 := by
  rw [offsets_getD (hij.trans hj), offsets_getD hj]
  have hprefix : (rows.take i).flatten <+: (rows.take j).flatten := (List.take_prefix_take_left hij).flatten
  have := hprefix.length_le
  omega

theorem rowAt_offsets (h : rows[i]? = some row) : rowAt (offsets 0 rows) rows.flatten i = row := by
  obtain ⟨hi, hrow⟩ := List.getElem?_eq_some_iff.mp h
  rw [rowAt, slice, offsets_getD hi.le, offsets_getD hi, Nat.zero_add, Nat.zero_add]
  have hsplit : rows.flatten = (rows.take i).flatten ++ (row ++ (rows.drop (i + 1)).flatten) := by
    have h1 : rows = rows.take i ++ row :: rows.drop (i + 1) := by
      rw [← hrow, List.getElem_cons_drop, List.take_append_drop]
    conv_lhs => rw [h1]
    simp
  have hnext : (rows.take (i + 1)).flatten = (rows.take i).flatten ++ row := by
    rw [List.take_add_one, h]
    simp
  rw [hnext, hsplit, ← List.append_assoc, List.take_left, List.drop_left]

end Ragged
