import Mathlib.Data.List.Basic
import Mathlib.Tactic

namespace Transcript

variable {α ρ : Type}

-- One message of a stream: what is new, why it is the last one if it is, and how much was sent with it.
structure Entry (α ρ : Type) where
  ids : List α
  reason : Option ρ
  count : Nat
  deriving DecidableEq

def tokens (T : List (Entry α ρ)) : List α := T.flatMap Entry.ids

def Open (T : List (Entry α ρ)) : Prop := ∀ x ∈ T, x.reason = none

structure WellFormed (T : List (Entry α ρ)) : Prop where
  counts : ∀ (i : Nat) x, T[i]? = some x → x.count = (tokens (T.take (i + 1))).length
  once : ∀ (i : Nat) x, T[i]? = some x → x.reason ≠ none → i + 1 = T.length

variable {T T' : List (Entry α ρ)} {x : Entry α ρ}

@[simp] theorem tokens_nil : tokens ([] : List (Entry α ρ)) = [] := rfl

@[simp] theorem tokens_append : tokens (T ++ T') = tokens T ++ tokens T' := List.flatMap_append

@[simp] theorem tokens_singleton : tokens [x] = x.ids := by simp [tokens]

theorem WellFormed.nil : WellFormed ([] : List (Entry α ρ)) := ⟨by simp, by simp⟩

theorem WellFormed.begins (h : WellFormed T) (hp : T' <+: T) : WellFormed T' := by
  obtain ⟨rest, rfl⟩ := hp
  have hat : ∀ (i : Nat) x, T'[i]? = some x → i < T'.length ∧ (T' ++ rest)[i]? = some x := by
    intro i x hx
    have hi : i < T'.length := (List.getElem?_eq_some_iff.mp hx).1
    exact ⟨hi, by rw [List.getElem?_append_left hi]; exact hx⟩
  refine ⟨fun i x hx => ?_, fun i x hx hr => ?_⟩
  · obtain ⟨hi, hx'⟩ := hat i x hx
    rw [h.counts i x hx', List.take_append_of_le_length hi]
  · obtain ⟨hi, hx'⟩ := hat i x hx
    have := h.once i x hx' hr
    rw [List.length_append] at this
    omega

theorem WellFormed.tell (h : WellFormed T) (ho : Open T) (hx : x.count = (tokens T).length + x.ids.length) :
    WellFormed (T ++ [x]) := by
  refine ⟨fun i y hy => ?_, fun i y hy hr => ?_⟩
  · rcases Nat.lt_or_ge i T.length with hi | hi
    · rw [List.getElem?_append_left hi] at hy
      rw [h.counts i y hy, List.take_append_of_le_length hi]
    · obtain ⟨hlt, -⟩ := List.getElem?_eq_some_iff.mp hy
      rw [List.length_append, List.length_singleton] at hlt
      obtain rfl : i = T.length := by omega
      rw [List.getElem?_concat_length] at hy
      obtain rfl := Option.some.inj hy
      rw [List.take_of_length_le (by simp), tokens_append, tokens_singleton, List.length_append, hx]
  · rcases Nat.lt_or_ge i T.length with hi | hi
    · rw [List.getElem?_append_left hi] at hy
      exact absurd (ho y (List.mem_of_getElem? hy)) hr
    · obtain ⟨hlt, -⟩ := List.getElem?_eq_some_iff.mp hy
      rw [List.length_append, List.length_singleton] at hlt ⊢
      omega

theorem WellFormed.ended_eq (h : WellFormed T) (hp : T' <+: T) (hx : x ∈ T') (hr : x.reason ≠ none) : T' = T := by
  obtain ⟨i, hi⟩ := List.getElem?_of_mem hx
  obtain ⟨rest, rfl⟩ := hp
  have hlt : i < T'.length := (List.getElem?_eq_some_iff.mp hi).1
  have := h.once i x (by rw [List.getElem?_append_left hlt]; exact hi) hr
  rw [List.length_append] at this
  have hz : rest = [] := List.length_eq_zero_iff.mp (by omega)
  rw [hz, List.append_nil]

end Transcript
