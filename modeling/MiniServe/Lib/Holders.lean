import Mathlib.Data.List.Count
import Mathlib.Data.List.Nodup
import Mathlib.Tactic

namespace Holders

variable {ι α : Type}

def holders (l : List ι) (f : ι → α) (p : α → Bool) : Nat := l.countP (fun i => p (f i))

variable {l : List ι} {f : ι → α} {p : α → Bool} {i : ι} {x : α}

theorem holders_congr {g : ι → α} (h : ∀ j ∈ l, p (g j) = p (f j)) : holders l g p = holders l f p :=
  List.countP_congr fun j hj => by simp [h j hj]

theorem holders_update_of_notMem [DecidableEq ι] (hi : i ∉ l) : holders l (Function.update f i x) p = holders l f p :=
  holders_congr fun j hj => by rw [Function.update_of_ne]; rintro rfl; exact hi hj

theorem holders_erase [DecidableEq ι] (hi : i ∈ l) :
    holders l f p = holders (l.erase i) f p + (if p (f i) then 1 else 0) := by
  have := (List.perm_cons_erase hi).countP_eq (fun i => p (f i))
  simpa [holders, List.countP_cons] using this

theorem holders_cons : holders (i :: l) f p = holders l f p + (if p (f i) then 1 else 0) := by
  simp [holders, List.countP_cons]

theorem holders_update [DecidableEq ι] (hn : l.Nodup) (hi : i ∈ l) :
    holders l (Function.update f i x) p + (if p (f i) then 1 else 0) =
      holders l f p + (if p x then 1 else 0) := by
  rw [holders_erase (f := Function.update f i x) hi, holders_erase (f := f) hi,
    holders_update_of_notMem hn.not_mem_erase, Function.update_self]
  omega

theorem holders_perm {l' : List ι} (h : l.Perm l') : holders l f p = holders l' f p := h.countP_eq _

theorem holders_pos (hi : i ∈ l) (hp : p (f i) = true) : 0 < holders l f p :=
  List.countP_pos_iff.mpr ⟨i, hi, hp⟩

theorem holders_eq_zero : holders l f p = 0 ↔ ∀ j ∈ l, p (f j) = false := by
  simp [holders, List.countP_eq_zero]

theorem eq_of_mem_flatMap {γ : Type} {xs : List α} {f : α → List γ} (h : (xs.flatMap f).Nodup) {a c : α}
    {x : γ} (ha : a ∈ xs) (hc : c ∈ xs) (hxa : x ∈ f a) (hxc : x ∈ f c) : a = c := by
  by_contra hne
  have hp := (List.nodup_flatMap.mp h).2
  have hsymm : Std.Symm (Function.onFun List.Disjoint f) := ⟨fun _ _ hd => List.disjoint_symm hd⟩
  exact hp.forall ha hc hne hxa hxc

end Holders
