import MiniServe.Engine.SchedulerOps

namespace MiniServe

open KVCacheManager

namespace Scheduler

variable {s s' s0 : Scheduler} {older : List Entry} {r v : Rid}

-- The first running request that still has work to do: the one no victim choice ever takes.
def lead (s : Scheduler) : Option Rid := s.running.find? (fun r => ¬ (s.reqs r).isSpent)

def Stuck (s : Scheduler) : Prop :=
  ∃ r, s.lead = some r ∧ (s.kv.allocator.numBlocks : Int) < s.cost r + (s.ownBlocks r).length

theorem lead_mem (h : s.lead = some r) : r ∈ s.running := List.mem_of_find?_eq_some h

theorem lead_not_spent (h : s.lead = some r) : ¬ (s.reqs r).isSpent := by
  simpa using List.find?_some h

theorem mem_spent : v ∈ s.spent ↔ v ∈ s.running ∧ (s.reqs v).isSpent := by simp [spent]

theorem running_nodup (hs : (s.pool [] older).Sound) : s.running.Nodup := by
  simpa [pool] using hs.kv.nodup

structure Cleared (s0 s : Scheduler) (older : List Entry) : Prop where
  step : Step s0 s [] [] older
  sublist : s.running.Sublist s0.running
  kept : Kept s0 s s.running
  lead : s.lead = s0.lead

theorem Cleared.refl (s : Scheduler) (older : List Entry) : Cleared s s older :=
  ⟨Step.refl s [] older, List.Sublist.refl _, Kept.refl s _, rfl⟩

theorem Cleared.stuck_iff (h : Cleared s0 s older) : s.Stuck ↔ s0.Stuck := by
  unfold Stuck
  rw [h.lead, h.step.same.numBlocks]
  refine exists_congr fun r => and_congr_right fun hr => ?_
  have hm : r ∈ s.running := lead_mem (h.lead.trans hr)
  rw [h.kept.cost h.step.same hm, h.kept.ownBlocks hm]

theorem not_stuck_of_fits (hs : (s.pool [] older).Sound) (h : s.costs s.running ≤ s.kv.numAvailable) : ¬ s.Stuck := by
  rintro ⟨r, hr, hlt⟩
  have hm : r ∈ s.running ++ [] := by simpa using lead_mem hr
  have h1 := available_le hs hm
  have h2 : s.cost r ≤ s.costs s.running := cost_le_costs hs (by simp) (lead_mem hr)
  omega

theorem stuck_of_lone (hs : (s.pool [] older).Sound) (hr : s.running = [r])
    (h : s.kv.numAvailable < s.costs s.running) : s.Stuck := by
  have hc : s.kv.numAvailable < s.cost r := by simpa [costs, hr] using h
  have hsp : ¬ (s.reqs r).isSpent := by
    intro hsp
    have := available_nonneg hs
    rw [cost_spent hsp] at hc
    omega
  have := available_lone hs hr
  exact ⟨r, by simp [lead, hr, hsp], by omega⟩

theorem find?_erase_ne {p : Rid → Bool} {l : List Rid} (hl : l.Nodup) (hv : l.find? p ≠ some v) :
    (l.erase v).find? p = l.find? p := by
  induction l with
  | nil => rfl
  | cons x l ih =>
    obtain ⟨hx, hl⟩ := List.nodup_cons.mp hl
    by_cases e : x = v
    · subst e
      have hp : p x = false := by
        by_contra hp
        exact hv (by simp [Bool.eq_true_of_not_eq_false hp])
      simp [List.erase_cons_head, hp]
    · rw [List.erase_cons_tail (by simpa using e)]
      cases hp : p x with
      | true => simp [hp]
      | false =>
        rw [List.find?_cons_of_neg (by simp [hp]), List.find?_cons_of_neg (by simp [hp])]
        refine ih hl fun h => hv ?_
        rw [List.find?_cons_of_neg (by simp [hp])]
        exact h

theorem Cleared.preempt (h : Cleared s0 s older) (hs : (s.pool [] older).Sound) (hv : v ∈ s.running)
    (hlead : s.lead ≠ some v) :
    ∃ s', s.preempt v = .ok s' ∧ Cleared s0 s' older ∧ s'.running = s.running.erase v ∧
      ∀ x ∈ s'.running, s'.reqs x = s.reqs x := by
  obtain ⟨kv', h1, h2, h3⟩ := preempt_ok hs hv
  refine ⟨_, h1, ⟨h.step.trans h2, List.erase_sublist.trans h.sublist, ?_, ?_⟩, rfl, h3.reqs⟩
  · exact (h.kept.mono List.erase_subset).trans h3
  · rw [← h.lead]
    have hnd := running_nodup hs
    have hcongr : (s.preempted v kv').lead = (s.running.erase v).find? (fun r => ¬ (s.reqs r).isSpent) := by
      refine List.find?_congr fun x hx => ?_
      rw [h3.reqs x hx]
    rw [hcongr]
    exact find?_erase_ne hnd hlead

theorem pickChunked_cases (hs : (s.pool [] older).Sound) (hneed : s.kv.numAvailable < s.costs s.running) :
    (s.running.length ≤ 1 ∧ s.Stuck ∧ s.pickChunked = .error .loneRequestDoesNotFit) ∨
      (1 < s.running.length ∧ ∃ v ∈ s.running, s.lead ≠ some v ∧ s.pickChunked = .ok v) := by
  have h0 := available_nonneg hs
  have hnd := running_nodup hs
  cases hrun : s.running with
  | nil => simp [hrun, costs] at hneed; omega
  | cons x rest =>
    cases rest with
    | nil =>
      left
      have hst := stuck_of_lone hs hrun hneed
      obtain ⟨r, hr, -⟩ := hst
      have hx : ¬ (s.reqs x).isSpent := by
        have hm := lead_mem hr
        have hsp := lead_not_spent hr
        rw [hrun, List.mem_singleton] at hm
        exact hm ▸ hsp
      refine ⟨by simp, stuck_of_lone hs hrun hneed, ?_⟩
      simp [pickChunked, spent, hrun, hx, pickVictim]
    | cons y rest =>
      right
      refine ⟨by simp, ?_⟩
      cases hsp : s.spent.getLast? with
      | some v =>
        obtain ⟨hm, hv⟩ := mem_spent.mp (List.mem_of_getLast? hsp)
        exact ⟨v, hrun ▸ hm, fun h => lead_not_spent h hv, by simp [pickChunked, hsp]⟩
      | none =>
        have hnil : s.spent = [] := List.getLast?_eq_none_iff.mp hsp
        have hx : ¬ (s.reqs x).isSpent := by
          intro h
          have : x ∈ s.spent := mem_spent.mpr ⟨by simp [hrun], h⟩
          simp [hnil] at this
        have hlead : s.lead = some x := by simp [lead, hrun, hx]
        have hxy : y ≠ x := by
          rintro rfl
          simp [hrun] at hnd
        have hf : s.running.filter (fun r => s.running.head? ≠ some r) = (y :: rest).filter (fun r => x ≠ r) := by
          simp [hrun]
        cases hc : (y :: rest).filter (fun r => decide (x ≠ r)) with
        | nil =>
          have : y ∈ (y :: rest).filter (fun r => decide (x ≠ r)) := by simp [hxy.symm]
          rw [hc] at this
          exact absurd this List.not_mem_nil
        | cons z zs =>
          have hm : s.policy.pickVictim s.reqs z zs ∈ z :: zs := SchedulePolicy.pickVictim_mem s.policy z zs
          rw [← hc, List.mem_filter] at hm
          refine ⟨_, List.mem_cons_of_mem _ hm.1, fun h => ?_, ?_⟩
          · rw [hlead] at h
            simpa using absurd (Option.some.inj h) (by simpa using hm.2)
          · simp only [pickChunked, hsp, pickVictim]
            rw [hf, hc]

theorem makeRoomChunkedLoop_spec {fuel : Nat} (hs : (s0.pool [] older).Sound) (h : Cleared s0 s older)
    (hf : s.running.length ≤ fuel) (preempted : List Rid) :
    ∃ s', Cleared s0 s' older ∧
      ((∃ p, makeRoomChunkedLoop fuel s preempted = (.ok p, s') ∧ s'.costs s'.running ≤ s'.kv.numAvailable) ∨
        (makeRoomChunkedLoop fuel s preempted = (.error .loneRequestDoesNotFit, s') ∧ s'.Stuck)) := by
  induction fuel generalizing s preempted with
  | zero =>
    have hs' := h.step.sound hs
    have hnil : s.running = [] := List.length_eq_zero_iff.mp (Nat.le_zero.mp hf)
    have hle : s.costs s.running ≤ s.kv.numAvailable := by
      rw [hnil, costs_nil]; exact available_nonneg hs'
    refine ⟨s, h, .inl ⟨preempted, ?_, hle⟩⟩
    rw [makeRoomChunkedLoop, outstanding_ok hs' (by simp)]
    simp [hle]
  | succ fuel ih =>
    have hs' := h.step.sound hs
    by_cases hle : s.costs s.running ≤ s.kv.numAvailable
    · refine ⟨s, h, .inl ⟨preempted, ?_, hle⟩⟩
      rw [makeRoomChunkedLoop, outstanding_ok hs' (by simp)]
      simp [hle]
    · rcases pickChunked_cases hs' (not_le.mp hle) with ⟨h1, h2, h3⟩ | ⟨h1, v, hv, hlead, h3⟩
      · refine ⟨s, h, .inr ⟨?_, h2⟩⟩
        rw [makeRoomChunkedLoop, outstanding_ok hs' (by simp)]
        simp [hle, h1]
      · obtain ⟨s1, hp, hc, hrun, -⟩ := h.preempt hs' hv hlead
        have hlen : s1.running.length ≤ fuel := by
          rw [hrun, List.length_erase_of_mem hv]; omega
        obtain ⟨s', hc', hres⟩ := ih hc hlen (preempted ++ [v])
        refine ⟨s', hc', ?_⟩
        have e : makeRoomChunkedLoop (fuel + 1) s preempted = makeRoomChunkedLoop fuel s1 (preempted ++ [v]) := by
          rw [makeRoomChunkedLoop, outstanding_ok hs' (by simp)]
          simp [hle, not_le.mpr h1, h3, hp]
        rw [e]
        exact hres

theorem makeRoomChunked_spec (hs : (s.pool [] older).Sound) :
    ∃ s', Cleared s s' older ∧
      ((∃ p, s.makeRoomChunked = (.ok p, s') ∧ s'.costs s'.running ≤ s'.kv.numAvailable) ∨
        (s.makeRoomChunked = (.error .loneRequestDoesNotFit, s') ∧ s'.Stuck)) :=
  makeRoomChunkedLoop_spec hs (Cleared.refl s older) le_rfl []

section Whole

def decodings (s : Scheduler) : List Rid := s.running.filter (fun r => (s.reqs r).decodes)

theorem decodeCost_sum (hd : ∀ x ∈ s.running, (s.reqs x).state = .decode) :
    (s.decodings.map s.decodeCost).sum = s.costs s.running := by
  unfold decodings costs
  generalize s.running = l at hd
  induction l with
  | nil => rfl
  | cons x l ih =>
    have hx := hd x List.mem_cons_self
    have ih := ih fun y hy => hd y (List.mem_cons_of_mem _ hy)
    rw [List.map_cons, List.sum_cons, cost_of_decode hx, ← ih, List.filter_cons]
    split
    · simp
    · next h => simp [decodeCost, show ¬ (s.reqs x).decodes by simpa using h]

theorem decodings_eq_running (hd : ∀ x ∈ s.running, (s.reqs x).state = .decode) (h : s.spent = []) :
    s.decodings = s.running := by
  refine List.filter_eq_self.mpr fun x hx => ?_
  have : ¬ (s.reqs x).isSpent := fun hsp => by
    have : x ∈ s.spent := mem_spent.mpr ⟨hx, hsp⟩
    simp [h] at this
  have hdec := hd x hx
  simp only [Request.isSpent, hdec, true_and] at this
  simp [Request.decodes, hdec, this]

theorem decodings_erase (hrun : s'.running = s.running.erase v)
    (hreq : ∀ x ∈ s'.running, s'.reqs x = s.reqs x) : s'.decodings = s.decodings.erase v := by
  unfold decodings
  rw [List.erase_filter, hrun]
  refine List.filter_congr fun x hx => ?_
  rw [hreq x (hrun ▸ hx)]

theorem makeRoomLoop_spec {fuel : Nat} {m : Room} (hs : (s0.pool [] older).Sound) (h : Cleared s0 s older)
    (hd : ∀ x ∈ s.running, (s.reqs x).state = .decode) (hm : m.decoding = s.decodings)
    (hf : s.running.length ≤ fuel) :
    ∃ s', Cleared s0 s' older ∧ (∀ x ∈ s'.running, (s'.reqs x).state = .decode) ∧
      ((∃ m', makeRoomLoop fuel s m = (.ok m', s') ∧ m'.decoding = s'.decodings ∧
          s'.costs s'.running ≤ s'.kv.numAvailable) ∨
        (makeRoomLoop fuel s m = (.error .loneRequestDoesNotFit, s') ∧ s'.Stuck)) := by
  have hneed : s.decodeNeed m.decoding = .ok (s.costs s.running) := by
    rw [hm, decodeNeed_ok (h.step.sound hs) fun x hx => by simpa using (List.mem_filter.mp hx).1, decodeCost_sum hd]
  induction fuel generalizing s m with
  | zero =>
    have hs' := h.step.sound hs
    have hnil : s.running = [] := List.length_eq_zero_iff.mp (Nat.le_zero.mp hf)
    have hle : s.costs s.running ≤ s.kv.numAvailable := by
      rw [hnil, costs_nil]; exact available_nonneg hs'
    refine ⟨s, h, hd, .inl ⟨m, ?_, hm, hle⟩⟩
    rw [makeRoomLoop, hneed]
    simp [hle]
  | succ fuel ih =>
    have hs' := h.step.sound hs
    by_cases hle : s.costs s.running ≤ s.kv.numAvailable
    · refine ⟨s, h, hd, .inl ⟨m, ?_, hm, hle⟩⟩
      rw [makeRoomLoop, hneed]
      simp [hle]
    · have hpick := pickChunked_cases hs' (not_le.mp hle)
      -- One more victim: the loop goes on with a scheduler the same facts hold of.
      have hnext : ∀ v, v ∈ s.running → s.lead ≠ some v → ∀ m' : Room, m'.decoding = s.decodings.erase v →
          ∃ s1, s.preempt v = .ok s1 ∧ ∃ s', Cleared s0 s' older ∧ (∀ x ∈ s'.running, (s'.reqs x).state = .decode) ∧
            ((∃ m'', makeRoomLoop fuel s1 m' = (.ok m'', s') ∧ m''.decoding = s'.decodings ∧
                s'.costs s'.running ≤ s'.kv.numAvailable) ∨
              (makeRoomLoop fuel s1 m' = (.error .loneRequestDoesNotFit, s') ∧ s'.Stuck)) := by
        intro v hv hlead m' hm'
        obtain ⟨s1, hp, hc, hrun, hreq⟩ := h.preempt hs' hv hlead
        have hdec := decodings_erase hrun hreq
        have hd1 : ∀ x ∈ s1.running, (s1.reqs x).state = .decode := fun x hx => by
          rw [hreq x hx]
          exact hd x (List.mem_of_mem_erase (hrun ▸ hx))
        have hlen : s1.running.length ≤ fuel := by
          rw [hrun, List.length_erase_of_mem hv]; omega
        have hm1 : m'.decoding = s1.decodings := hm'.trans hdec.symm
        have hneed1 : s1.decodeNeed m'.decoding = .ok (s1.costs s1.running) := by
          rw [hm1, decodeNeed_ok (hc.step.sound hs) fun x hx => by simpa using (List.mem_filter.mp hx).1,
            decodeCost_sum hd1]
        exact ⟨s1, hp, ih hc hd1 hm1 hlen hneed1⟩
      cases hsp : s.spent.getLast? with
      | some v =>
        obtain ⟨hv, hspent⟩ := mem_spent.mp (List.mem_of_getLast? hsp)
        have hnot : v ∉ s.decodings := fun hx => by
          have := (List.mem_filter.mp hx).2
          simp only [decide_eq_true_eq] at this
          exact this.2 hspent.2
        obtain ⟨s1, hp, s', h1, h2, h3⟩ := hnext v hv (fun hl => lead_not_spent hl hspent)
          { m with preempted := m.preempted ++ [v] } (by rw [List.erase_of_not_mem hnot]; exact hm)
        refine ⟨s', h1, h2, ?_⟩
        have e : makeRoomLoop (fuel + 1) s m = makeRoomLoop fuel s1 { m with preempted := m.preempted ++ [v] } := by
          rw [makeRoomLoop, hneed]
          simp [hle, hsp, hp]
        rw [e]
        exact h3
      | none =>
        have hall : m.decoding = s.running := hm.trans (decodings_eq_running hd (List.getLast?_eq_none_iff.mp hsp))
        have hpv : s.pickVictim m.decoding = s.pickChunked := by simp [pickChunked, hsp, hall]
        rcases hpick with ⟨-, h2, h3⟩ | ⟨-, v, hv, hlead, h3⟩
        · refine ⟨s, h, hd, .inr ⟨?_, h2⟩⟩
          rw [makeRoomLoop, hneed]
          simp [hle, hsp, hpv, h3]
        · obtain ⟨s1, hp, s', h1, h2, h4⟩ := hnext v hv hlead ⟨m.decoding.erase v, m.preempted ++ [v]⟩ (by rw [hm])
          refine ⟨s', h1, h2, ?_⟩
          have e : makeRoomLoop (fuel + 1) s m =
              makeRoomLoop fuel s1 ⟨m.decoding.erase v, m.preempted ++ [v]⟩ := by
            rw [makeRoomLoop, hneed]
            simp [hle, hsp, hpv, h3, hp]
          rw [e]
          exact h4

theorem makeRoom_spec (hs : (s.pool [] older).Sound) (hd : ∀ x ∈ s.running, (s.reqs x).state = .decode) :
    ∃ s', Cleared s s' older ∧ (∀ x ∈ s'.running, (s'.reqs x).state = .decode) ∧
      ((∃ m, s.makeRoom s.decodings = (.ok m, s') ∧ m.decoding = s'.decodings ∧
          s'.costs s'.running ≤ s'.kv.numAvailable) ∨
        (s.makeRoom s.decodings = (.error .loneRequestDoesNotFit, s') ∧ s'.Stuck)) :=
  makeRoomLoop_spec hs (Cleared.refl s older) hd rfl le_rfl

end Whole

end Scheduler

end MiniServe
