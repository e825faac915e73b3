import MiniServe.Engine.Pool

namespace MiniServe

open KVCacheManager

section Slots

variable {es : List Entry} {x : Entry} {r : Rid}

theorem slotsOf_append (es es' : List Entry) (r : Rid) : slotsOf (es ++ es') r = slotsOf es r ++ slotsOf es' r :=
  List.filterMap_append

theorem slotsOf_cons_ne (h : x.1 ≠ r) : slotsOf (x :: es) r = slotsOf es r := by
  simp [slotsOf, h]

theorem slotsOf_cons_none (h : x.2.2 = none) : slotsOf (x :: es) r = slotsOf es r := by
  simp [slotsOf, h]

theorem slotsOf_cons_some (tok : Token) (k : Nat) : slotsOf ((r, tok, some k) :: es) r = k :: slotsOf es r := by
  simp [slotsOf]

theorem slotsOf_concat_ne (h : x.1 ≠ r) : slotsOf (es ++ [x]) r = slotsOf es r := by
  rw [slotsOf_append, slotsOf_cons_ne h]; simp [slotsOf]

theorem slotsOf_length (hn : (es.map Prod.fst).Nodup) (r : Rid) : (slotsOf es r).length ≤ 1 := by
  induction es with
  | nil => simp [slotsOf]
  | cons x es ih =>
    obtain ⟨hx, hn⟩ := List.nodup_cons.mp hn
    by_cases e : x.1 = r
    · have hz : slotsOf es r = [] := by
        rw [slotsOf, List.filterMap_eq_nil_iff]
        intro y hy
        have : y.1 ≠ r := fun h => hx (by rw [e, ← h]; exact List.mem_map_of_mem hy)
        simp [this]
      cases hs : x.2.2 with
      | none => rw [slotsOf_cons_none hs]; exact ih hn
      | some k =>
        have : x = (r, x.2.1, some k) := by rw [← e, ← hs]
        rw [this, slotsOf_cons_some, hz]; simp
    · rw [slotsOf_cons_ne e]; exact ih hn

end Slots

namespace Request

variable {q : Request}

theorem Pending.sampled {slots : List Nat} (h : q.Pending slots) :
    q.sampled.Pending (slots ++ [q.outputIds.length]) := by
  obtain ⟨ready, ho, hp, hs⟩ := h
  refine ⟨ready, ?_, hp, ?_⟩
  · simp only [Request.sampled]
    rw [List.replicate_succ', ← List.append_assoc, ← ho]
  · simp only [Request.sampled]
    rw [hs, List.range'_concat]
    simp [ho]

theorem Pending.filled {slots : List Nat} {k : Nat} {tok : Token} (h : q.Pending (k :: slots)) (htok : 0 ≤ tok) :
    (q.filled k tok).Pending slots := by
  obtain ⟨ready, ho, hp, hs⟩ := h
  cases hn : q.numPending with
  | zero => simp [hn] at hs
  | succ n =>
    rw [hn, List.range'_succ] at hs
    obtain ⟨rfl, hs⟩ := List.cons_eq_cons.mp hs
    refine ⟨ready ++ [tok], ?_, ?_, ?_⟩
    · simp only [Request.filled, hn, Nat.add_sub_cancel]
      rw [ho, hn, List.replicate_succ]
      simp
    · simp only [List.mem_append, List.mem_singleton, not_or]
      exact ⟨hp, fun e => absurd (e ▸ htok : (0 : Int) ≤ placeholder) (by decide)⟩
    · simpa [Request.filled, hn] using hs

theorem Pending.head {slots : List Nat} {k : Nat} (h : q.Pending (k :: slots)) :
    k + q.numPending = q.outputIds.length ∧ 0 < q.numPending := by
  obtain ⟨ready, ho, -, hs⟩ := h
  cases hn : q.numPending with
  | zero => simp [hn] at hs
  | succ n =>
    rw [hn, List.range'_succ] at hs
    obtain ⟨rfl, -⟩ := List.cons_eq_cons.mp hs
    have := congrArg List.length ho
    simp [hn] at this
    omega

theorem Pending.length {slots : List Nat} (h : q.Pending slots) : slots.length = q.numPending := by
  obtain ⟨ready, -, -, hs⟩ := h
  simp [hs]

theorem Pending.le {slots : List Nat} (h : q.Pending slots) : q.numPending ≤ q.outputIds.length := by
  obtain ⟨ready, ho, -, -⟩ := h
  simp [ho]

theorem seqLen_sampled : q.sampled.seqLen = q.seqLen + 1 := by simp [seqLen, Request.sampled]; omega

theorem tokens_sampled : q.sampled.tokens = q.tokens ++ [placeholder] := by simp [tokens, Request.sampled]

theorem seqLen_filled (k : Nat) (tok : Token) : (q.filled k tok).seqLen = q.seqLen := by
  simp [seqLen, Request.filled]

theorem tokens_filled (k : Nat) (tok : Token) :
    (q.filled k tok).tokens = q.tokens.set (q.promptIds.length + k) tok := by
  simp [tokens, Request.filled]

theorem prefix_filled {l : List Token} {k : Nat} {tok : Token} (h : l <+: q.tokens)
    (hl : l.length ≤ q.promptIds.length + k) : l <+: (q.filled k tok).tokens := by
  rw [tokens_filled]
  obtain ⟨rest, hr⟩ := h
  rw [← hr, List.set_append_right _ _ hl]
  exact List.prefix_append _ _

theorem tokens_dropPending : q.dropPending.tokens = q.tokens.take (q.seqLen - q.numPending) ∨
    q.outputIds.length < q.numPending := by
  rcases Nat.lt_or_ge q.outputIds.length q.numPending with h | h
  · exact .inr h
  · left
    simp only [tokens, dropPending_promptIds, dropPending_outputIds, seqLen, List.take_append]
    rw [List.take_of_length_le (l := q.promptIds) (by omega)]
    congr 2
    omega

theorem seqLen_dropPending (h : q.numPending ≤ q.outputIds.length) :
    q.dropPending.seqLen + q.numPending = q.seqLen := by
  simp only [seqLen, dropPending_promptIds, dropPending_outputIds, List.length_take]
  omega

theorem prefix_dropPending {l : List Token} (h : l <+: q.tokens) (hl : l.length + q.numPending ≤ q.seqLen)
    (hn : q.numPending ≤ q.outputIds.length) : l <+: q.dropPending.tokens := by
  rw [tokens_dropPending.resolve_right (by omega), List.prefix_take_iff]
  exact ⟨h, by omega⟩

end Request

end MiniServe
