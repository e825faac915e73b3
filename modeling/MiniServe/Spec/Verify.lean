import MiniServe.Lib.Generate
import MiniServe.Spec.SpecEngine

namespace MiniServe

open Generate

variable {proposals chosen new : List Token} {next : List Token → Token} {out : List Token} {m : Nat}

theorem agreement_le : agreement proposals chosen ≤ proposals.length := by
  induction proposals generalizing chosen with
  | nil => simp [agreement]
  | cons p proposals ih =>
    cases chosen with
    | nil => simp [agreement]
    | cons c chosen =>
      simp only [agreement, List.length_cons]
      split
      · exact Nat.succ_le_succ ih
      · exact Nat.zero_le _

theorem agreement_agrees {j : Nat} (h : j < agreement proposals chosen) : proposals[j]? = chosen[j]? := by
  induction proposals generalizing chosen j with
  | nil => simp [agreement] at h
  | cons p proposals ih =>
    cases chosen with
    | nil => simp [agreement] at h
    | cons c chosen =>
      simp only [agreement] at h
      split at h
      · next hp =>
        cases j with
        | zero => simp [hp]
        | succ j => simpa using ih (Nat.lt_of_succ_lt_succ h)
      · simp at h

def Chooses (next : List Token → Token) (out proposals chosen : List Token) : Prop :=
  chosen = (List.range (proposals.length + 1)).map fun j => next (out ++ proposals.take j)

theorem Chooses.at {j : Nat} (h : Chooses next out proposals chosen) (hj : j ≤ proposals.length) :
    chosen[j]? = some (next (out ++ proposals.take j)) := by
  rw [h, List.getElem?_map, List.getElem?_range (by omega)]
  rfl

-- The tokens of a round: the agreeing proposals and one more, the ones that plain decoding gives.
structure RoundTokens (next : List Token → Token) (out proposals new : List Token) : Prop where
  pos : 1 ≤ new.length
  le : new.length ≤ proposals.length + 1
  stream : ∀ m, out = stream next m → out ++ new = Generate.stream next (m + new.length)
  proposed : ∀ j, j + 1 < new.length → new[j]? = proposals[j]?

theorem acceptedTokens_ok (h : Chooses next out proposals chosen) :
    ∃ new, acceptedTokens proposals chosen = .ok new ∧ RoundTokens next out proposals new := by
  let k := agreement proposals chosen
  have hk : k ≤ proposals.length := agreement_le
  have hlen : chosen.length = proposals.length + 1 := by
    rw [show chosen = _ from h]
    simp
  have hat : chosen[k]? = some (next (out ++ proposals.take k)) := h.at hk
  have htake : (proposals.take k).length = k := by simp [hk]
  refine ⟨proposals.take k ++ [next (out ++ proposals.take k)], ?_,
    by simp, by simp [hk], fun m hm => ?_, fun j hj => ?_⟩
  · simp only [acceptedTokens, acceptPrefix, hlen, ne_eq, not_true_eq_false, if_false]
    rw [List.getD_eq_getElem?_getD, show chosen[agreement proposals chosen]? = _ from hat]
    rfl
  · have hagree : out ++ proposals.take k = stream next (m + k) :=
      stream_agreed hm hk fun j hj => (agreement_agrees hj).trans (h.at (by omega))
    rw [← List.append_assoc, hagree, List.length_append, htake]
    rfl
  · rw [List.length_append, htake, List.length_singleton] at hj
    rw [List.getElem?_append_left (by omega), List.getElem?_take_of_lt (by omega)]

theorem RoundTokens.take {k : Nat} (h : RoundTokens next out proposals new) (hk : 1 ≤ k) (hle : k ≤ new.length) :
    RoundTokens next out proposals (new.take k) := by
  have hlen : (new.take k).length = k := by simp [hle]
  refine ⟨by omega, by have := h.le; omega, fun m hm => ?_, fun j hj => ?_⟩
  · have hall := h.stream m hm
    have : (out ++ new).take (m + k) = out ++ new.take k := by
      have : out.length = m := by rw [hm, stream_length]
      rw [List.take_append, this, List.take_of_length_le (by omega), Nat.add_sub_cancel_left]
    rw [← this, hall, stream_take (by omega), hlen]
  · rw [List.getElem?_take_of_lt (by omega)]
    exact h.proposed j (by omega)

namespace SpecEngine

variable {q : Request}

structure Keeps (q : Request) (new : List Token) (keep : Nat) (stop : Bool) : Prop where
  pos : 1 ≤ keep
  le : keep ≤ new.length
  room : q.outputIds.length + keep ≤ q.params.maxNewTokens
  stopped : stop = true → ∃ pre tok, new.take keep = pre ++ [tok] ∧ tok ∈ q.params.stopTokenIds ∧
    ∀ t ∈ pre, t ∉ q.params.stopTokenIds
  clean : stop = false → ∀ t ∈ new.take keep, t ∉ q.params.stopTokenIds

theorem keptTokens_keeps (hnew : 1 ≤ new.length) (hroom : q.outputIds.length < q.params.maxNewTokens) :
    Keeps q new (keptTokens q new).1 (keptTokens q new).2 := by
  let keep := min new.length (q.params.maxNewTokens - q.outputIds.length)
  have hlen : (new.take keep).length = keep := by simp [keep]
  unfold keptTokens
  simp only
  split
  · next i hi =>
    rw [List.findIdx?_eq_some_iff_getElem] at hi
    obtain ⟨hlt, hstop, hbefore⟩ := hi
    have hik : i < keep := hlen ▸ hlt
    have htake : new.take (i + 1) = new.take i ++ [(new.take keep)[i]] := by
      rw [List.take_add_one, List.getElem_take, List.getElem?_eq_getElem (by omega)]
      rfl
    refine ⟨Nat.succ_pos i, by omega, by omega, fun _ => ⟨_, _, htake, by simpa using hstop, fun t ht => ?_⟩, by simp⟩
    obtain ⟨j, hj, rfl⟩ := List.getElem_of_mem ht
    rw [List.length_take] at hj
    have := hbefore j (by omega)
    rw [List.getElem_take] at this
    rw [List.getElem_take]
    simpa using this
  · next hnone =>
    rw [List.findIdx?_eq_none_iff] at hnone
    exact ⟨by omega, by omega, by omega, by simp, fun _ t ht => by simpa using hnone t ht⟩

theorem Keeps.take_length {keep : Nat} {stop : Bool} (h : Keeps q new keep stop) : (new.take keep).length = keep := by
  simp [h.le]

theorem Keeps.goes {keep : Nat} {stop : Bool} (h : Keeps q new keep stop)
    (hend : ¬ (stop = true ∨ q.params.maxNewTokens ≤ q.outputIds.length + keep)) :
    q.outputIds.length + (new.take keep).length < q.params.maxNewTokens ∧
      ∀ tok ∈ new.take keep, tok ∉ q.params.stopTokenIds := by
  rw [not_or, Bool.not_eq_true, not_le, ← h.take_length] at hend
  exact ⟨hend.2, h.clean hend.1⟩

theorem Keeps.ends {keep : Nat} {stop : Bool} (h : Keeps q new keep stop)
    (hend : stop = true ∨ q.params.maxNewTokens ≤ q.outputIds.length + keep) :
    ∃ pre tok, new.take keep = pre ++ [tok] ∧ (∀ t ∈ pre, t ∉ q.params.stopTokenIds) ∧
      q.outputIds.length + pre.length < q.params.maxNewTokens ∧
      (q.params.maxNewTokens ≤ q.outputIds.length + pre.length + 1 ∨ tok ∈ q.params.stopTokenIds) := by
  have hlen := h.take_length
  have hroom := h.room
  cases hstop : stop with
  | true =>
    obtain ⟨pre, tok, hnew, htok, hpre⟩ := h.stopped hstop
    rw [hnew, List.length_append, List.length_singleton] at hlen
    exact ⟨pre, tok, hnew, hpre, by omega, .inr htok⟩
  | false =>
    have hmax : q.params.maxNewTokens ≤ q.outputIds.length + keep := by
      rw [hstop] at hend
      simpa using hend
    have hne : new.take keep ≠ [] := fun hnil => by
      rw [hnil] at hlen
      have := h.pos
      simp at hlen
      omega
    have hsplit := (List.dropLast_append_getLast hne).symm
    have hpre : (new.take keep).dropLast.length + 1 = keep := by
      rw [List.length_dropLast, hlen]
      have := h.pos
      omega
    exact ⟨_, _, hsplit, fun t ht => h.clean hstop t (List.mem_of_mem_dropLast ht), by omega, .inl (by omega)⟩

end SpecEngine

end MiniServe
