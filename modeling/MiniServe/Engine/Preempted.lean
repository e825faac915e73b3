import MiniServe.Engine.Progress

namespace MiniServe

open KVCacheManager

namespace Scheduler

variable {s s' s'' : Scheduler} {older : List Entry} {r v : Rid} {p : List Rid}

theorem preempt_queues (h : s.preempt v = .ok s') :
    s'.running = s.running.erase v ∧ s'.waiting = v :: s.waiting ∧ ∀ x, x ≠ v → s'.reqs x = s.reqs x := by
  unfold preempt at h
  split at h
  · simp at h
  · split at h
    · simp at h
    · obtain rfl := Except.ok.inj h
      exact ⟨rfl, rfl, fun x hx => Function.update_of_ne hx _ _⟩

theorem pickVictim_mem {pool : List Rid} (h : s.pickVictim pool = .ok v) : v ∈ pool := by
  unfold pickVictim at h
  split at h
  · simp at h
  · next first rest hf =>
    have hm : s.policy.pickVictim s.reqs first rest ∈ first :: rest := s.policy.pickVictim_mem first rest
    rw [← hf, Except.ok.inj h] at hm
    exact (List.mem_filter.mp hm).1

theorem pickChunked_mem (h : s.pickChunked = .ok v) : v ∈ s.running := by
  unfold pickChunked at h
  split at h
  · next w hw =>
    obtain rfl := Except.ok.inj h
    exact (mem_spent.mp (List.mem_of_getLast? hw)).1
  · exact pickVictim_mem h

structure Yielded (s s' : Scheduler) (p : List Rid) : Prop where
  waiting : s'.waiting = p.reverse ++ s.waiting
  running : (s'.running ++ p).Perm s.running

theorem Yielded.refl (s : Scheduler) : Yielded s s [] := ⟨rfl, by simp⟩

theorem Yielded.preempt (h : Yielded s s' p) (hv : v ∈ s'.running) (hp : s'.preempt v = .ok s'') :
    Yielded s s'' (p ++ [v]) := by
  obtain ⟨hrun, hwait, -⟩ := preempt_queues hp
  refine ⟨by simp [hwait, h.waiting], ?_⟩
  rw [hrun]
  calc (s'.running.erase v ++ (p ++ [v])).Perm (v :: s'.running.erase v ++ p) := by
        rw [← List.append_assoc, List.cons_append]
        exact List.perm_append_singleton v _
    _ |>.Perm (s'.running ++ p) := (List.perm_cons_erase hv).symm.append_right p
    _ |>.Perm s.running := h.running

theorem makeRoomChunkedLoop_yielded {s0 : Scheduler} {fuel : Nat} {pre : List Rid} (hy : Yielded s0 s pre)
    (h : makeRoomChunkedLoop fuel s pre = (.ok p, s')) : Yielded s0 s' p := by
  induction fuel generalizing s pre with
  | zero =>
    rw [makeRoomChunkedLoop] at h
    split at h
    · simp at h
    · split at h
      · obtain ⟨h1, rfl⟩ := Prod.mk.inj h
        obtain rfl := Except.ok.inj h1
        exact hy
      · split at h
        · simp at h
        · simp at h
  | succ fuel ih =>
    rw [makeRoomChunkedLoop] at h
    split at h
    · simp at h
    · split at h
      · obtain ⟨h1, rfl⟩ := Prod.mk.inj h
        obtain rfl := Except.ok.inj h1
        exact hy
      · split at h
        · simp at h
        · split at h
          · simp at h
          · next victim hpick =>
            split at h
            · simp at h
            · next s1 hpre => exact ih (hy.preempt (pickChunked_mem hpick) hpre) h

theorem makeRoomLoop_yielded {s0 : Scheduler} {fuel : Nat} {m m' : Room} (hy : Yielded s0 s m.preempted)
    (hnd : s.running.Nodup) (hsub : ∀ x ∈ m.decoding, x ∈ s.running ∧ ¬ (s.reqs x).isSpent) (hdec : m.decoding.Nodup)
    (h : makeRoomLoop fuel s m = (.ok m', s')) : Yielded s0 s' m'.preempted := by
  induction fuel generalizing s m with
  | zero =>
    rw [makeRoomLoop] at h
    split at h
    · simp at h
    · split at h
      · obtain ⟨h1, rfl⟩ := Prod.mk.inj h
        obtain rfl := Except.ok.inj h1
        exact hy
      · simp at h
  | succ fuel ih =>
    -- Taking a victim out leaves the decoding requests that are left running.
    have hnext : ∀ {v : Rid} {s1 : Scheduler} (dec : List Rid), s.preempt v = .ok s1 →
      (∀ x ∈ dec, x ∈ m.decoding ∧ x ≠ v) →
        s1.running.Nodup ∧ ∀ x ∈ dec, x ∈ s1.running ∧ ¬ (s1.reqs x).isSpent := by
      intro v s1 dec hpre hd
      obtain ⟨hrun, -, hreq⟩ := preempt_queues hpre
      refine ⟨hrun ▸ hnd.erase v, fun x hx => ?_⟩
      obtain ⟨hm, hne⟩ := hd x hx
      rw [hrun, hreq x hne]
      exact ⟨(List.mem_erase_of_ne hne).mpr (hsub x hm).1, (hsub x hm).2⟩
    rw [makeRoomLoop] at h
    split at h
    · simp at h
    · split at h
      · obtain ⟨h1, rfl⟩ := Prod.mk.inj h
        obtain rfl := Except.ok.inj h1
        exact hy
      · split at h
        · next victim hvic =>
          obtain ⟨hv, hsp⟩ := mem_spent.mp (List.mem_of_getLast? hvic)
          split at h
          · simp at h
          · next s1 hpre =>
            obtain ⟨h1, h2⟩ := hnext m.decoding hpre fun x hx =>
              ⟨hx, by rintro rfl; exact (hsub x hx).2 hsp⟩
            exact ih (m := { m with preempted := m.preempted ++ [victim] }) (hy.preempt hv hpre) h1 h2 hdec h
        · split at h
          · simp at h
          · next victim hvic =>
            have hv := pickVictim_mem hvic
            split at h
            · simp at h
            · next s1 hpre =>
              obtain ⟨h1, h2⟩ := hnext (m.decoding.erase victim) hpre fun x hx =>
                ⟨List.mem_of_mem_erase hx, by rintro rfl; exact hdec.not_mem_erase hx⟩
              exact ih (m := ⟨m.decoding.erase victim, m.preempted ++ [victim]⟩) (hy.preempt (hsub _ hv).1 hpre) h1 h2
                (hdec.erase _) h

structure Retained (s s' : Scheduler) (p : List Rid) : Prop where
  sub : p ⊆ s.running
  stays : ∀ x ∈ s.running, x ∉ p → x ∈ s'.running ∧ s'.reqs x = s.reqs x
  came : ∀ x ∈ s'.running, (x ∈ s.running ∧ x ∉ p ∧ s'.reqs x = s.reqs x) ∨ (s'.reqs x).state = .prefill

theorem Yielded.retained (h : Yielded s s' p) (hnd : s.running.Nodup) (hk : ∀ x ∈ s'.running, s'.reqs x = s.reqs x) :
    Retained s s' p := by
  have hnd' := h.running.nodup_iff.mpr hnd
  refine ⟨fun x hx => h.running.mem_iff.mp (List.mem_append_right _ hx), fun x hx hp => ?_, fun x hx => .inl ?_⟩
  · have hx' := (List.mem_append.mp (h.running.mem_iff.mpr hx)).resolve_right hp
    exact ⟨hx', hk x hx'⟩
  · exact ⟨h.running.mem_iff.mp (List.mem_append_left _ hx), fun hp => List.disjoint_of_nodup_append hnd' hx hp, hk x hx⟩

theorem Retained.grown (h : Retained s s' p) (hsub : s'.running ⊆ s''.running)
    (hk : ∀ x ∈ s'.running, s''.reqs x = s'.reqs x)
    (hcame : ∀ x ∈ s''.running, x ∈ s'.running ∨ (s''.reqs x).state = .prefill) : Retained s s'' p := by
  refine ⟨h.sub, fun x hx hp => ?_, fun x hx => ?_⟩
  · obtain ⟨h1, h2⟩ := h.stays x hx hp
    exact ⟨hsub h1, (hk x h1).trans h2⟩
  · rcases hcame x hx with hx' | hst
    · rw [hk x hx']
      exact h.came x hx'
    · exact .inr hst

theorem schedule_retains {b : Batch} (hs : (s.pool [] older).Sound)
    (hd : s.chunkedPrefillSize = 0 → ∀ x ∈ s.running, (s.reqs x).state = .decode)
    (h : s.schedule = (.ok (some b), s')) : Retained s s' b.preempted := by
  have hnd : s.running.Nodup := running_nodup hs
  unfold schedule at h
  split at h
  · next hz =>
    have hcase := scheduleWhole_cases hs (hd hz)
    rw [h] at hcase
    generalize hres : ((.ok (some b), s') : Except Error (Option Batch) × Scheduler) = res at hcase
    cases hcase with
    | @prefill m s1 hadm hE hm hd1 =>
      obtain ⟨h1, rfl⟩ := Prod.mk.inj hres
      obtain rfl := Option.some.inj (Except.ok.inj h1)
      have hR : Retained s s1 [] := ⟨by simp, fun x hx _ => ⟨hE.running ▸ hx, hE.kept.reqs x hx⟩,
        fun x hx => .inl ⟨hE.running ▸ hx, by simp, hE.kept.reqs x (hE.running ▸ hx)⟩⟩
      refine hR.grown (List.subset_append_left _ _) (fun _ _ => rfl) fun x hx => ?_
      rcases List.mem_append.mp hx with hx | hx
      · exact .inl hx
      · exact .inr (hE.fresh x hx).1
    | @decode m s1 s2 m' hadm hE hm hC hd2 hroom hdec hle =>
      split at hres
      · simp at hres
      · obtain ⟨h1, rfl⟩ := Prod.mk.inj hres
        obtain rfl := Option.some.inj (Except.ok.inj h1)
        have hnd1 : s1.running.Nodup := hE.running ▸ hnd
        have hy : Yielded s1 s' m'.preempted := by
          refine makeRoomLoop_yielded (m := ⟨s1.decodings, []⟩) (Yielded.refl s1) hnd1 (fun x hx => ?_)
            (hnd1.filter _) hroom
          rw [decodings, List.mem_filter, decide_eq_true_eq] at hx
          exact ⟨hx.1, fun hsp => hx.2.2 hsp.2⟩
        have hR := hy.retained hnd1 fun x hx => hC.kept.reqs x hx
        have hreq : ∀ x ∈ s1.running, s1.reqs x = s.reqs x := fun x hx => hE.kept.reqs x (hE.running ▸ hx)
        refine ⟨hE.running ▸ hR.sub, fun x hx hp => ?_, fun x hx => ?_⟩
        · have hx1 : x ∈ s1.running := hE.running ▸ hx
          obtain ⟨h1, h2⟩ := hR.stays x hx1 hp
          exact ⟨h1, h2.trans (hreq x hx1)⟩
        · rcases hR.came x hx with ⟨h1, h2, h3⟩ | h1
          · exact .inl ⟨hE.running ▸ h1, h2, h3.trans (hreq x h1)⟩
          · exact .inr h1
    | stuck hE hm hC hd2 hst => simp at hres
  · have hcase := scheduleChunked_cases hs
    rw [h] at hcase
    generalize hres : ((.ok (some b), s') : Except Error (Option Batch) × Scheduler) = res at hcase
    cases hcase with
    | @batch s1 s2 p c1 c2 hC hroom hle hrun hadm hG =>
      split at hres
      · simp at hres
      · obtain ⟨h1, rfl⟩ := Prod.mk.inj hres
        obtain rfl := Option.some.inj (Except.ok.inj h1)
        have hy : Yielded s s1 p := makeRoomChunkedLoop_yielded (Yielded.refl s) hroom
        exact (hy.retained hnd fun x hx => hC.kept.reqs x hx).grown hG.sub hG.kept.reqs hG.came
    | stuck hC hst => simp at hres

end Scheduler

end MiniServe
