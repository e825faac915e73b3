import MiniServe.Engine.Queues

namespace MiniServe

namespace KVCacheManager

variable {kv kv' : KVCacheManager} {q q' : Request} {cached : Nat}

theorem commit_output (h : kv.commit q = .ok (kv', q')) : q'.outputIds = q.outputIds ∧ q'.params = q.params := by
  unfold commit at h
  split at h
  · dsimp only at h
    split at h
    · simp at h
    · split at h
      · simp at h
      · obtain ⟨-, rfl⟩ := Prod.mk.inj (Except.ok.inj h)
        exact ⟨rfl, rfl⟩
  · obtain ⟨-, rfl⟩ := Prod.mk.inj (Except.ok.inj h)
    exact ⟨rfl, rfl⟩

theorem release_output (h : kv.release q = .ok (kv', q')) : q'.outputIds = q.outputIds ∧ q'.params = q.params := by
  unfold release at h
  split at h
  · obtain ⟨-, rfl⟩ := Prod.mk.inj (Except.ok.inj h)
    exact ⟨rfl, rfl⟩
  · split at h
    · simp at h
    · next hcom =>
      have hout := commit_output hcom
      split at h
      · simp at h
      · split at h
        · simp at h
        · obtain ⟨-, rfl⟩ := Prod.mk.inj (Except.ok.inj h)
          exact hout

theorem acquire_output (h : kv.acquire q = .ok (cached, kv', q')) :
    q'.outputIds = q.outputIds ∧ q'.params = q.params := by
  unfold acquire at h
  split at h
  · simp at h
  · split at h
    · simp at h
    · split at h
      · simp at h
      · obtain ⟨-, hq⟩ := Prod.mk.inj (Except.ok.inj h)
        obtain ⟨-, rfl⟩ := Prod.mk.inj hq
        exact ⟨rfl, rfl⟩

theorem abandon_output (h : kv.abandon q = .ok (kv', q')) : q'.outputIds = q.outputIds ∧ q'.params = q.params := by
  unfold abandon at h
  split at h
  · simp at h
  · split at h
    · simp at h
    · split at h
      · simp at h
      · obtain ⟨-, rfl⟩ := Prod.mk.inj (Except.ok.inj h)
        exact ⟨rfl, rfl⟩

end KVCacheManager

open KVCacheManager

namespace Scheduler

variable {s s' s'' : Scheduler} {r v : Rid} {cached : Nat}

-- The requests with tokens left to sample, the running ones first.
def line (s : Scheduler) : List Rid := (s.running ++ s.waiting).filter (fun r => ¬ (s.reqs r).reachedMaxTokens)

def SameOutput (s s' : Scheduler) : Prop :=
  ∀ x, (s'.reqs x).outputIds = (s.reqs x).outputIds ∧ (s'.reqs x).params = (s.reqs x).params

theorem SameOutput.refl (s : Scheduler) : SameOutput s s := fun _ => ⟨rfl, rfl⟩

theorem SameOutput.trans (h1 : SameOutput s s') (h2 : SameOutput s' s'') : SameOutput s s'' := fun x =>
  ⟨(h2 x).1.trans (h1 x).1, (h2 x).2.trans (h1 x).2⟩

theorem SameOutput.reachedMaxTokens (h : SameOutput s s') (x : Rid) :
    (s'.reqs x).reachedMaxTokens ↔ (s.reqs x).reachedMaxTokens := by
  unfold Request.reachedMaxTokens
  rw [(h x).1, (h x).2]

theorem SameOutput.update {q : Request} (hq : q.outputIds = (s.reqs r).outputIds ∧ q.params = (s.reqs r).params)
    (hs' : s'.reqs = Function.update s.reqs r q) : SameOutput s s' := by
  intro x
  rw [hs']
  by_cases hx : x = r
  · subst hx
    rw [Function.update_self]
    exact hq
  · rw [Function.update_of_ne hx]
    exact ⟨rfl, rfl⟩

theorem SameOutput.line (h : SameOutput s s') (hq : s'.running ++ s'.waiting = s.running ++ s.waiting) :
    s'.line = s.line := by
  unfold Scheduler.line
  rw [hq]
  exact List.filter_congr fun x _ => decide_eq_decide.mpr (not_congr (h.reachedMaxTokens x))

section Admit

structure Untouched (s s' : Scheduler) : Prop where
  running : s'.running = s.running
  waiting : s'.waiting = s.waiting
  output : SameOutput s s'

theorem acquire_untouched (h : s.acquire r = .ok (cached, s')) : Untouched s s' := by
  unfold acquire at h
  split at h
  · simp at h
  · next hacq =>
    obtain ⟨-, rfl⟩ := Prod.mk.inj (Except.ok.inj h)
    exact ⟨rfl, rfl, .update (acquire_output hacq) rfl⟩

theorem abandon_untouched (h : s.abandon r = .ok s') : Untouched s s' := by
  unfold abandon at h
  split at h
  · simp at h
  · next hab =>
    obtain rfl := Except.ok.inj h
    exact ⟨rfl, rfl, .update (abandon_output hab) rfl⟩

theorem enterPrefill_queues (h : s.enterPrefill r cached = .ok s') :
    s'.running = s.running ∧ s'.waiting = s.waiting.erase r ∧ SameOutput s s' := by
  unfold enterPrefill at h
  split at h
  · simp at h
  · next hq =>
    obtain rfl := Except.ok.inj h
    obtain ⟨-, rfl⟩ := Request.transition_eq_ok hq
    exact ⟨rfl, rfl, .update (q := { s.reqs r with state := .prefill }) ⟨rfl, rfl⟩ rfl⟩

theorem admitLoop_queues {l a : List Rid} {m : Admission} (hw : s.waiting = l) (h : admitLoop l s m = .ok (a, s')) :
    s'.running = s.running ∧ a ++ s'.waiting = m.admitted ++ s.waiting ∧ SameOutput s s' := by
  induction l generalizing s m with
  | nil =>
    rw [admitLoop] at h
    obtain ⟨rfl, rfl⟩ := Prod.mk.inj (Except.ok.inj h)
    exact ⟨rfl, rfl, .refl s⟩
  | cons r rest ih =>
    rw [admitLoop] at h
    split at h
    · obtain ⟨rfl, rfl⟩ := Prod.mk.inj (Except.ok.inj h)
      exact ⟨rfl, rfl, .refl s⟩
    split at h
    · obtain ⟨rfl, rfl⟩ := Prod.mk.inj (Except.ok.inj h)
      exact ⟨rfl, rfl, .refl s⟩
    split at h
    · simp at h
    next cached s1 hacq =>
    have h1 := acquire_untouched hacq
    dsimp only at h
    split at h
    · simp at h
    · split at h
      · simp at h
      · next s2 hab =>
        obtain ⟨rfl, rfl⟩ := Prod.mk.inj (Except.ok.inj h)
        have h2 := abandon_untouched hab
        exact ⟨h2.running.trans h1.running, by rw [h2.waiting, h1.waiting], h1.output.trans h2.output⟩
    · split at h
      · simp at h
      · next s2 hent =>
        obtain ⟨hrun, hwait, hout⟩ := enterPrefill_queues hent
        have hrest : s2.waiting = rest := by rw [hwait, h1.waiting, hw, List.erase_cons_head]
        obtain ⟨g1, g2, g3⟩ := ih hrest h
        refine ⟨g1.trans (hrun.trans h1.running), ?_, (h1.output.trans hout).trans g3⟩
        rw [g2, hrest, hw]
        simp [Admission.enter]

theorem chunkAdmit_queues {l : List Rid} {c c' : Chunks} (hw : s.waiting = l) (h : chunkAdmit l s c = .ok (c', s')) :
    s'.running ++ s'.waiting = s.running ++ s.waiting ∧ SameOutput s s' := by
  induction l generalizing s c with
  | nil =>
    rw [chunkAdmit] at h
    obtain ⟨-, rfl⟩ := Prod.mk.inj (Except.ok.inj h)
    exact ⟨rfl, .refl s⟩
  | cons r rest ih =>
    rw [chunkAdmit] at h
    split at h
    · obtain ⟨-, rfl⟩ := Prod.mk.inj (Except.ok.inj h)
      exact ⟨rfl, .refl s⟩
    split at h
    · obtain ⟨-, rfl⟩ := Prod.mk.inj (Except.ok.inj h)
      exact ⟨rfl, .refl s⟩
    split at h
    · simp at h
    next cached s1 hacq =>
    have h1 := acquire_untouched hacq
    split at h
    · simp at h
    · split at h
      · simp at h
      · next s2 hab =>
        obtain ⟨-, rfl⟩ := Prod.mk.inj (Except.ok.inj h)
        have h2 := abandon_untouched hab
        exact ⟨by rw [h2.running, h2.waiting, h1.running, h1.waiting], h1.output.trans h2.output⟩
    · split at h
      · simp at h
      · next s2 hent =>
        obtain ⟨hrun, hwait, hout⟩ := enterPrefill_queues hent
        have hrest : s2.waiting = rest := by rw [hwait, h1.waiting, hw, List.erase_cons_head]
        obtain ⟨g1, g2⟩ := @ih { s2 with running := s2.running ++ [r] } _ hrest h
        refine ⟨?_, (h1.output.trans hout).trans g2⟩
        rw [g1]
        show (s2.running ++ [r]) ++ s2.waiting = _
        rw [hrest, hrun, h1.running, hw, List.append_assoc]
        rfl

end Admit

section Victims

variable {p : List Rid}

structure Aligned (s s' : Scheduler) : Prop where
  line : s'.line = s.line
  output : SameOutput s s'
  policy : s'.policy = s.policy
  nodup : s.running.Nodup → s'.running.Nodup

theorem Aligned.refl (s : Scheduler) : Aligned s s := ⟨rfl, .refl s, rfl, id⟩

theorem Aligned.trans (h1 : Aligned s s') (h2 : Aligned s' s'') : Aligned s s'' :=
  ⟨h2.line.trans h1.line, h1.output.trans h2.output, h2.policy.trans h1.policy, fun h => h2.nodup (h1.nodup h)⟩

-- A spent victim is not in the line; the last running request goes from the end of the running requests to
-- the front of the queue, which is where it was.
theorem Aligned.preempt (hnd : s.running.Nodup) (hv : (s.reqs v).isSpent ∨ s.running.getLast? = some v)
    (h : s.preempt v = .ok s') : Aligned s s' := by
  obtain ⟨hrun, hwait, -⟩ := preempt_queues h
  have hpol : s'.policy = s.policy ∧ SameOutput s s' := by
    unfold Scheduler.preempt at h
    split at h
    · simp at h
    · next hq =>
      obtain ⟨-, rfl⟩ := Request.transition_eq_ok hq
      split at h
      · simp at h
      · next hrel =>
        obtain rfl := Except.ok.inj h
        have hout := release_output hrel
        refine ⟨rfl, .update ?_ rfl⟩
        exact hout
  refine ⟨?_, hpol.2, hpol.1, fun _ => hrun ▸ hnd.erase v⟩
  rcases hv with hsp | hlast
  · have hout : ¬ decide (¬ (s.reqs v).reachedMaxTokens) = true := by simpa using hsp.2
    have hsame : s'.line = (s'.running ++ s'.waiting).filter (fun r => ¬ (s.reqs r).reachedMaxTokens) :=
      List.filter_congr fun x _ => decide_eq_decide.mpr (not_congr (hpol.2.reachedMaxTokens x))
    have hnot : v ∉ s.running.filter (fun r => ¬ (s.reqs r).reachedMaxTokens) := fun hm =>
      hout (List.mem_filter.mp hm).2
    rw [hsame, hrun, hwait, List.filter_append,
      List.filter_cons_of_neg (p := fun r => decide (¬ (s.reqs r).reachedMaxTokens)) hout, ← List.erase_filter,
      List.erase_of_not_mem hnot, ← List.filter_append]
    rfl
  · obtain ⟨init, hinit⟩ := List.getLast?_eq_some_iff.mp hlast
    have hv : v ∉ init := by
      rw [hinit] at hnd
      exact fun hm => List.disjoint_of_nodup_append hnd hm (List.mem_singleton_self v)
    refine hpol.2.line ?_
    rw [hrun, hwait, hinit, List.erase_append_right _ hv, List.erase_cons_head]
    simp

theorem pickVictim_last (hp : s.policy = .fcfs) (hnd : s.running.Nodup) (h : s.pickVictim s.running = .ok v) :
    s.running.getLast? = some v := by
  unfold pickVictim at h
  split at h
  · simp at h
  · next first rest hf =>
    have hv := Except.ok.inj h
    rw [hp] at hv
    cases hrun : s.running with
    | nil => simp [hrun] at hf
    | cons x tl =>
      rw [hrun] at hnd
      have htl : tl = first :: rest := by
        rw [← hf, hrun, List.head?_cons, List.filter_cons_of_neg (by simp)]
        refine (List.filter_eq_self.mpr fun y hy => ?_).symm
        have hne : x ≠ y := fun e => (List.nodup_cons.mp hnd).1 (e ▸ hy)
        simpa using hne
      rw [htl, List.getLast?_cons_cons, List.getLast?_eq_some_getLast (List.cons_ne_nil first rest)]
      exact congrArg some hv

theorem pickChunked_last (hp : s.policy = .fcfs) (hnd : s.running.Nodup) (h : s.pickChunked = .ok v) :
    (s.reqs v).isSpent ∨ s.running.getLast? = some v := by
  unfold pickChunked at h
  split at h
  · next hsp =>
    obtain rfl := Except.ok.inj h
    exact .inl (mem_spent.mp (List.mem_of_getLast? hsp)).2
  · exact .inr (pickVictim_last hp hnd h)

theorem makeRoomChunkedLoop_aligned {fuel : Nat} {res : Except Error (List Rid)} (hp : s.policy = .fcfs)
    (hnd : s.running.Nodup) (h : makeRoomChunkedLoop fuel s p = (res, s')) : Aligned s s' := by
  induction fuel generalizing s p with
  | zero =>
    rw [makeRoomChunkedLoop] at h
    repeat' split at h
    all_goals
      obtain ⟨-, rfl⟩ := Prod.mk.inj h
      exact .refl s
  | succ fuel ih =>
    rw [makeRoomChunkedLoop] at h
    split at h
    · obtain ⟨-, rfl⟩ := Prod.mk.inj h
      exact .refl s
    split at h
    · obtain ⟨-, rfl⟩ := Prod.mk.inj h
      exact .refl s
    split at h
    · obtain ⟨-, rfl⟩ := Prod.mk.inj h
      exact .refl s
    split at h
    · obtain ⟨-, rfl⟩ := Prod.mk.inj h
      exact .refl s
    next victim hpick =>
    split at h
    · obtain ⟨-, rfl⟩ := Prod.mk.inj h
      exact .refl s
    · next s1 hpre =>
      have h1 := Aligned.preempt hnd (pickChunked_last hp hnd hpick) hpre
      exact h1.trans (ih (h1.policy.trans hp) (h1.nodup hnd) h)

theorem makeRoomLoop_aligned {fuel : Nat} {m : Room} {res : Except Error Room} (hp : s.policy = .fcfs)
    (hnd : s.running.Nodup) (hd : ∀ x ∈ s.running, (s.reqs x).state = .decode) (hm : m.decoding = s.decodings)
    (h : makeRoomLoop fuel s m = (res, s')) : Aligned s s' := by
  induction fuel generalizing s m with
  | zero =>
    rw [makeRoomLoop] at h
    repeat' split at h
    all_goals
      obtain ⟨-, rfl⟩ := Prod.mk.inj h
      exact .refl s
  | succ fuel ih =>
    have hnext : ∀ {v : Rid} {s1 : Scheduler}, s.preempt v = .ok s1 →
        (∀ x ∈ s1.running, (s1.reqs x).state = .decode) ∧ s1.decodings = s.decodings.erase v := by
      intro v s1 hpre
      obtain ⟨hrun, -, hreq⟩ := preempt_queues hpre
      have hkeep : ∀ x ∈ s1.running, s1.reqs x = s.reqs x := fun x hx => by
        refine hreq x ?_
        rintro rfl
        exact hnd.not_mem_erase (hrun ▸ hx)
      refine ⟨fun x hx => ?_, decodings_erase hrun hkeep⟩
      rw [hkeep x hx]
      exact hd x (List.mem_of_mem_erase (hrun ▸ hx))
    rw [makeRoomLoop] at h
    split at h
    · obtain ⟨-, rfl⟩ := Prod.mk.inj h
      exact .refl s
    split at h
    · obtain ⟨-, rfl⟩ := Prod.mk.inj h
      exact .refl s
    split at h
    · next victim hsp =>
      have hspent := (mem_spent.mp (List.mem_of_getLast? hsp)).2
      split at h
      · obtain ⟨-, rfl⟩ := Prod.mk.inj h
        exact .refl s
      · next s1 hpre =>
        have h1 := Aligned.preempt hnd (.inl hspent) hpre
        obtain ⟨hd1, hdec⟩ := hnext hpre
        have hnot : victim ∉ s.decodings := fun hx => by
          have := (List.mem_filter.mp hx).2
          simp only [decide_eq_true_eq] at this
          exact this.2 hspent.2
        exact h1.trans (ih (h1.policy.trans hp) (h1.nodup hnd) hd1
          (by rw [hdec, List.erase_of_not_mem hnot]; exact hm) h)
    · next hsp =>
      have hall : m.decoding = s.running := hm.trans (decodings_eq_running hd (List.getLast?_eq_none_iff.mp hsp))
      split at h
      · obtain ⟨-, rfl⟩ := Prod.mk.inj h
        exact .refl s
      next victim hpick =>
      rw [hall] at hpick
      split at h
      · obtain ⟨-, rfl⟩ := Prod.mk.inj h
        exact .refl s
      · next s1 hpre =>
        have h1 := Aligned.preempt hnd (.inr (pickVictim_last hp hnd hpick)) hpre
        obtain ⟨hd1, hdec⟩ := hnext hpre
        exact h1.trans (ih (h1.policy.trans hp) (h1.nodup hnd) hd1 (by rw [hdec, ← hm]) h)

end Victims

theorem order_fcfs (hp : s.policy = .fcfs) : s.order = s.waiting := by
  rw [order, hp]
  rfl

theorem scheduleWhole_line {res : Except Error (Option Batch)} {older : List Entry} (hp : s.policy = .fcfs)
    (hs : (s.pool [] older).Sound) (hd : ∀ x ∈ s.running, (s.reqs x).state = .decode)
    (h : s.scheduleWhole = (res, s')) : s'.line = s.line ∧ SameOutput s s' := by
  obtain ⟨m, s1, hadm, hE⟩ := admitWaiting_spec hs
  rw [scheduleWhole, hadm] at h
  rw [admitWaiting, order_fcfs hp] at hadm
  obtain ⟨hrun, hwait, hout⟩ := admitLoop_queues rfl hadm
  simp only at h
  split at h
  · obtain ⟨-, rfl⟩ := Prod.mk.inj h
    exact ⟨SameOutput.line hout (by simp [hrun, hwait]), hout⟩
  · next hnil =>
    have hline : s1.line = s.line := hout.line (by simpa [hrun, not_not.mp hnil] using hwait)
    have hd1 : ∀ x ∈ s1.running, (s1.reqs x).state = .decode := fun x hx => by
      rw [hE.kept.reqs x (hrun ▸ hx)]
      exact hd x (hrun ▸ hx)
    have hroom : Aligned s1 (s1.makeRoom s1.decodings).2 :=
      makeRoomLoop_aligned (hE.step.same.policy.trans hp) (hrun ▸ running_nodup hs) hd1 rfl rfl
    have hs' : s' = (s1.makeRoom s1.decodings).2 := by
      rw [show s1.running.filter (fun r => (s1.reqs r).decodes) = s1.decodings from rfl] at h
      split at h
      · next heq =>
        rw [heq]
        exact (Prod.mk.inj h).2.symm
      · next heq =>
        rw [heq]
        split at h
        · exact (Prod.mk.inj h).2.symm
        · exact (Prod.mk.inj h).2.symm
    rw [hs']
    exact ⟨hroom.line.trans hline, hout.trans hroom.output⟩

theorem scheduleChunked_line {res : Except Error (Option Batch)} (hp : s.policy = .fcfs) (hnd : s.running.Nodup)
    (h : s.scheduleChunked = (res, s')) : s'.line = s.line ∧ SameOutput s s' := by
  have hroom : Aligned s s.makeRoomChunked.2 := makeRoomChunkedLoop_aligned hp hnd rfl
  unfold scheduleChunked at h
  split at h
  · next heq =>
    rw [heq] at hroom
    obtain ⟨-, rfl⟩ := Prod.mk.inj h
    exact ⟨hroom.line, hroom.output⟩
  next p s1 heq =>
  rw [heq] at hroom
  dsimp only at h
  split at h
  · obtain ⟨-, rfl⟩ := Prod.mk.inj h
    exact ⟨hroom.line, hroom.output⟩
  split at h
  · obtain ⟨-, rfl⟩ := Prod.mk.inj h
    exact ⟨hroom.line, hroom.output⟩
  next c1 _ _ c2 s2 hadm =>
  have hs' : s2 = s' := by
    split at h
    · exact (Prod.mk.inj h).2
    · exact (Prod.mk.inj h).2
  subst hs'
  split at hadm
  · rw [order_fcfs (hroom.policy.trans hp)] at hadm
    obtain ⟨hq, hout⟩ := chunkAdmit_queues rfl hadm
    exact ⟨(hout.line hq).trans hroom.line, hroom.output.trans hout⟩
  · rw [chunkAdmit] at hadm
    obtain ⟨-, rfl⟩ := Prod.mk.inj (Except.ok.inj hadm)
    exact ⟨hroom.line, hroom.output⟩

theorem schedule_line {res : Except Error (Option Batch)} {older : List Entry} (hp : s.policy = .fcfs)
    (hs : (s.pool [] older).Sound) (hd : s.chunkedPrefillSize = 0 → ∀ x ∈ s.running, (s.reqs x).state = .decode)
    (h : s.schedule = (res, s')) : s'.line = s.line ∧ SameOutput s s' := by
  unfold schedule at h
  split at h
  · next hz => exact scheduleWhole_line hp hs (hd hz) h
  · exact scheduleChunked_line hp (running_nodup hs) h

theorem Shrinks.line (h : Shrinks s s') : s'.line.Sublist s.line :=
  filter_sublist_filter (h.running.append h.waiting) fun x hx hp => by
    rw [decide_eq_true_eq] at hp ⊢
    exact fun hr => hp (h.reached x hx hr)

end Scheduler

namespace Engine

variable {e : Engine} {model : Model} {c : EngineConfig} {ok : List Token → Prop}

theorem Sound.line_add {q : Request} (he : e.Sound) (hrid : q.rid = e.nextRid)
    (h : e.scheduler.line.Pairwise (· < ·)) :
    Scheduler.line { e.scheduler.set q.rid q with waiting := e.scheduler.waiting ++ [q.rid] } |>.Pairwise (· < ·) := by
  have hlt : ∀ x ∈ e.scheduler.running ++ e.scheduler.waiting, x < q.rid := fun x hx => by
    rw [hrid]
    by_contra hle
    exact (he.later x (not_lt.mp hle)).2 hx
  have hold : (e.scheduler.running ++ e.scheduler.waiting).filter
      (fun r => ¬ (Function.update e.scheduler.reqs q.rid q r).reachedMaxTokens) = e.scheduler.line :=
    List.filter_congr fun x hx => by rw [Function.update_of_ne (hlt x hx).ne]
  show List.Pairwise (· < ·) ((e.scheduler.running ++ (e.scheduler.waiting ++ [q.rid])).filter _)
  rw [← List.append_assoc, List.filter_append]
  refine List.pairwise_append.mpr ⟨?_, (List.pairwise_singleton _ _).sublist List.filter_sublist, fun x hx y hy => ?_⟩
  · exact hold ▸ h
  · rw [List.mem_singleton.mp (List.mem_of_mem_filter hy)]
    exact hlt x (List.mem_of_mem_filter hx)

theorem fcfs_never_overtakes (h : Reachable model c ok e) (hp : c.policy = .fcfs) :
    ((e.scheduler.running ++ e.scheduler.waiting).filter
      (fun r => ¬ (e.request r).reachedMaxTokens)).Pairwise (· < ·) := by
  have hinv : e.scheduler.policy = .fcfs ∧ e.scheduler.line.Pairwise (· < ·) := by
    refine h.queue_rule (P := fun s => s.policy = .fcfs ∧ s.line.Pairwise (· < ·)) ⟨hp, ?_⟩ ?_ ?_ ?_
    · exact List.Pairwise.nil
    · exact fun e q he _ hrid ⟨hp, hl⟩ => ⟨hp, he.line_add hrid hl⟩
    · rintro e res s he hs ⟨hp, hl⟩
      refine ⟨(he.schedule_eq hs).1.step.same.policy.trans hp, ?_⟩
      rw [(Scheduler.schedule_line hp he.pool he.whole hs).1]
      exact hl
    · exact fun s s' hshr ⟨hp, hl⟩ => ⟨hshr.same.policy.trans hp, hl.sublist hshr.line⟩
  exact hinv.2

def uncached : EngineConfig :=
  { tiny with
    numBlocks := 3
    numBlocks_pos := Nat.succ_pos (nat_lit 2)
    radix := false }

def offered : Engine :=
  (((new uncached).addRequest [1] { maxNewTokens := 4 }).2.addRequest [2] { maxNewTokens := 4 }).2.addRequest [3]
    { maxNewTokens := 4 } |>.2

def begun : Engine := (offered.step (constant 7)).2

def crowded : Engine := (begun.step (constant 7)).2

def yielded : Engine := (crowded.step (constant 7)).2

theorem yielded_reachable : Reachable (constant 7) uncached (fun _ => True) yielded := by
  have h0 : Reachable (constant 7) uncached (fun _ => True) offered := .add (.add (.add .init trivial) trivial) trivial
  have h1 : Reachable (constant 7) uncached (fun _ => True) begun := h0.next (by decide +kernel)
  have h2 : Reachable (constant 7) uncached (fun _ => True) crowded := h1.next (by decide +kernel)
  exact h2.next (by decide +kernel)

theorem fcfs_never_overtakes_yielded : crowded.scheduler.running = [0, 1, 2] ∧ yielded.scheduler.running = [0] ∧
    yielded.scheduler.waiting = [1, 2] ∧ ((yielded.scheduler.running ++ yielded.scheduler.waiting).filter
      (fun r => ¬ (yielded.request r).reachedMaxTokens)).Pairwise (· < ·) :=
  ⟨by decide +kernel, by decide +kernel, by decide +kernel, fcfs_never_overtakes yielded_reachable rfl⟩

end Engine

end MiniServe
