import MiniServe.Engine.ContiguousSound

namespace MiniServe

namespace Contiguous

open ModelRunner
open MiniServe.Engine (inflightEntries)

namespace Scheduler

variable {s s' s'' : Scheduler} {new new' admitted l : List Rid} {r : Rid} {budget : Int}

structure Entered (s s' : Scheduler) (new : List Rid) : Prop where
  running : s'.running = s.running
  waiting : (new ++ s'.waiting).Perm s.waiting
  maxRunning : s'.maxRunning = s.maxRunning
  inside : ∀ r ∈ new, s'.reqs r = { s.reqs r with state := .prefill }
  outside : ∀ r, r ∉ new → s'.reqs r = s.reqs r

theorem Entered.refl (s : Scheduler) : Entered s s [] :=
  ⟨rfl, List.Perm.refl _, rfl, fun _ h => absurd h List.not_mem_nil, fun _ _ => rfl⟩

theorem Entered.trans (h : Entered s s' new) (h' : Entered s' s'' new') (hd : ∀ r ∈ new', r ∉ new) :
    Entered s s'' (new ++ new') where
  running := h'.running.trans h.running
  waiting := by
    rw [List.append_assoc]
    exact (h'.waiting.append_left new).trans h.waiting
  maxRunning := h'.maxRunning.trans h.maxRunning
  inside := fun r hr => by
    by_cases hn : r ∈ new'
    · rw [h'.inside r hn, h.outside r (hd r hn)]
    · rw [h'.outside r hn]
      exact h.inside r ((List.mem_append.mp hr).resolve_right hn)
  outside := fun r hr => by
    obtain ⟨h1, h2⟩ := not_or.mp (List.mem_append.not.mp hr)
    rw [h'.outside r h2, h.outside r h1]

theorem enterPrefill_ok (hr : r ∈ s.waiting) (hs : (s.reqs r).state = .waiting) :
    ∃ s1, s.enterPrefill r = .ok s1 ∧ Entered s s1 [r] := by
  have htrans : (s.reqs r).transition .prefill = .ok { s.reqs r with state := .prefill } :=
    Request.transition_ok (by rw [hs]; decide)
  let q : Request := { s.reqs r with state := .prefill }
  refine ⟨{ s.set r q with
    waiting := s.waiting.erase r
    stats := s.stats.admitted (q.numPreemptions = 0) q.seqLen 0 }, ?_, rfl, (List.perm_cons_erase hr).symm, rfl,
    fun x hx => ?_, fun x hx => ?_⟩
  · rw [enterPrefill, htrans]
  · obtain rfl := List.mem_singleton.mp hx
    exact Function.update_self ..
  · exact Function.update_of_ne (by simpa using hx) ..

theorem admitLoop_ok (hl : l.Nodup)
    (hw : ∀ r ∈ l, r ∈ s.waiting ∧ (s.reqs r).state = .waiting ∧ (s.reqs r).numPending = 0) :
    ∃ new s', admitLoop l s admitted budget = .ok (admitted ++ new, s') ∧ Entered s s' new ∧ new.Nodup ∧ new ⊆ l ∧
      (admitted ++ new = [] → l = [] ∨ s.maxRunning ≤ s.running.length) := by
  induction l generalizing s admitted budget with
  | nil => exact ⟨[], s, by simp [admitLoop], .refl s, List.nodup_nil, List.Subset.refl _, fun _ => .inl rfl⟩
  | cons r l ih =>
    obtain ⟨hnot, hl⟩ := List.nodup_cons.mp hl
    obtain ⟨hr, hst, hpend⟩ := hw r List.mem_cons_self
    rw [admitLoop]
    by_cases hfull : s.running.length + admitted.length ≥ s.maxRunning
    · refine ⟨[], s, by rw [if_pos hfull, List.append_nil], .refl s, List.nodup_nil, List.nil_subset _,
        fun hnil => .inr ?_⟩
      rw [List.append_nil] at hnil
      rw [hnil] at hfull
      exact hfull
    · rw [if_neg hfull, if_neg (not_not.mpr hpend)]
      simp only
      by_cases hfit : admitted = [] ∨ ((s.reqs r).seqLen : Int) ≤ budget
      · obtain ⟨s1, henter, h1⟩ := enterPrefill_ok hr hst
        have hw1 : ∀ x ∈ l, x ∈ s1.waiting ∧ (s1.reqs x).state = .waiting ∧ (s1.reqs x).numPending = 0 := by
          intro x hx
          have hne : x ∉ [r] := by
            rw [List.mem_singleton]
            exact fun he => hnot (he ▸ hx)
          obtain ⟨hx1, hx2⟩ := hw x (List.mem_cons_of_mem _ hx)
          rw [h1.outside x hne]
          exact ⟨(List.mem_append.mp (h1.waiting.mem_iff.mpr hx1)).resolve_left hne, hx2⟩
        obtain ⟨new, s', hloop, h', hnd, hsub, -⟩ := @ih s1 (admitted ++ [r]) (budget - (s.reqs r).seqLen) hl hw1
        have hr' : r ∉ new := fun hmem => hnot (hsub hmem)
        refine ⟨r :: new, s', ?_, h1.trans h' fun x hx he => hr' (List.mem_singleton.mp he ▸ hx),
          List.nodup_cons.mpr ⟨hr', hnd⟩,
          List.cons_subset_cons _ hsub, fun hnil => by simp at hnil⟩
        rw [if_pos hfit, henter]
        simp only [hloop, List.append_assoc, List.singleton_append]
      · refine ⟨[], s, by rw [if_neg hfit, List.append_nil], .refl s, List.nodup_nil, List.nil_subset _, fun hnil => ?_⟩
        rw [List.append_nil] at hnil
        exact absurd (.inl hnil) hfit

theorem order_perm (s : Scheduler) : s.order.Perm s.waiting := by
  unfold order
  cases s.policy with
  | fcfs => exact List.Perm.refl _
  | sjf => exact List.perm_insertionSort ..
  | cache => exact List.Perm.refl _

inductive Scheduled (s : Scheduler) : Option Batch → Scheduler → Prop
  | prefill {new : List Rid} {s1 : Scheduler} (hne : new ≠ []) (hnd : new.Nodup) (h : Entered s s1 new) :
      Scheduled s (some ⟨.prefill, new.map s1.wholeRow, [], 0⟩) { s1 with running := s1.running ++ new }
  | decode {s1 : Scheduler} (hne : (s.running.filter fun r => (s.reqs r).decodes) ≠ []) (h : Entered s s1 []) :
      Scheduled s (some ⟨.decode, (s.running.filter fun r => (s.reqs r).decodes).map s1.decodeRow, [],
        (s.running.filter fun r => (s.reqs r).decodes).length⟩) s1
  | idle {s1 : Scheduler} (hnil : (s.running.filter fun r => (s.reqs r).decodes) = []) (h : Entered s s1 [])
      (hstay : s.waiting = [] ∨ s.running ≠ []) : Scheduled s none s1

theorem schedule_ok (hn : s.waiting.Nodup)
    (hw : ∀ r ∈ s.waiting, (s.reqs r).state = .waiting ∧ (s.reqs r).numPending = 0) :
    ∃ batch s', s.schedule = .ok (batch, s') ∧ Scheduled s batch s' := by
  have hmem : ∀ r ∈ s.order, r ∈ s.waiting ∧ (s.reqs r).state = .waiting ∧ (s.reqs r).numPending = 0 := fun r hr =>
    ⟨s.order_perm.mem_iff.mp hr, hw r (s.order_perm.mem_iff.mp hr)⟩
  obtain ⟨new, s1, hloop, h, hnd, -, hstay⟩ :=
    @admitLoop_ok s [] s.order s.maxPrefillTokens (s.order_perm.nodup_iff.mpr hn) hmem
  rw [List.nil_append] at hloop hstay
  have hadmit : s.admitWaiting = .ok (new, s1) := hloop
  by_cases hne : new = []
  · subst hne
    have hrun : (s1.running.filter fun r => (s1.reqs r).decodes) = s.running.filter fun r => (s.reqs r).decodes := by
      rw [h.running]
      apply List.filter_congr
      intro r _
      rw [h.outside r List.not_mem_nil]
    by_cases hnil : (s.running.filter fun r => (s.reqs r).decodes) = []
    · refine ⟨none, s1, ?_, .idle hnil h ?_⟩
      · rw [schedule, hadmit]
        simp only [ne_eq, not_true_eq_false, if_false, hrun]
        exact if_pos hnil
      · rcases hstay rfl with he | hfull
        · exact .inl (List.perm_nil.mp (he ▸ s.order_perm.symm))
        · have := s.maxRunning_pos
          exact .inr (List.ne_nil_of_length_pos (by omega))
    · refine ⟨_, s1, ?_, .decode hnil h⟩
      rw [schedule, hadmit]
      simp only [ne_eq, not_true_eq_false, if_false, hrun]
      exact if_neg hnil
  · refine ⟨_, _, ?_, .prefill hne hnd h⟩
    rw [schedule, hadmit]
    exact if_pos hne

end Scheduler

section Entries

variable {rids : List Rid} {toks : Rid → Token} {slots : Rid → Nat} {r : Rid}

def sampledEntries (toks : Rid → Token) (slots : Rid → Nat) (rids : List Rid) : List Entry :=
  rids.map fun r => (r, toks r, some (slots r))

theorem sampledEntries_other (h : r ∉ rids) :
    inflightTokens (sampledEntries toks slots rids) r = [] ∧ slotsOf (sampledEntries toks slots rids) r = [] := by
  induction rids with
  | nil => exact ⟨rfl, rfl⟩
  | cons x rids ih =>
    obtain ⟨hne, h⟩ := not_or.mp (List.mem_cons.not.mp h)
    obtain ⟨h1, h2⟩ := ih h
    rw [sampledEntries, List.map_cons, inflightTokens_cons_ne (Ne.symm hne), slotsOf_cons_ne (Ne.symm hne)]
    exact ⟨h1, h2⟩

theorem sampledEntries_own (hn : rids.Nodup) (h : r ∈ rids) :
    inflightTokens (sampledEntries toks slots rids) r = [toks r] ∧
    slotsOf (sampledEntries toks slots rids) r = [slots r] := by
  induction rids with
  | nil => exact absurd h List.not_mem_nil
  | cons x rids ih =>
    obtain ⟨hx, hn⟩ := List.nodup_cons.mp hn
    rw [sampledEntries, List.map_cons]
    rcases List.mem_cons.mp h with rfl | h
    · obtain ⟨h1, h2⟩ := @sampledEntries_other _ toks slots _ hx
      rw [inflightTokens_cons_some, slotsOf_cons_some]
      exact ⟨congrArg (toks r :: ·) h1, congrArg (slots r :: ·) h2⟩
    · have hne : x ≠ r := fun he => hx (he ▸ h)
      obtain ⟨h1, h2⟩ := ih hn h
      rw [inflightTokens_cons_ne hne, slotsOf_cons_ne hne]
      exact ⟨h1, h2⟩

end Entries

namespace Engine

variable {model : Model} {e e' : Engine} {es : List Entry} {rids : List Rid} {r : Rid}

def ran (q : Request) : Request := { q.sampled with state := .decode }

structure Runnable (e : Engine) (es : List Entry) (r : Rid) : Prop where
  queued : r ∈ e.queued
  plain : Plain (e.request r).promptIds
  prompt : (e.request r).promptIds ≠ []
  going : ¬ (e.request r).isDone
  room : (e.request r).outputIds.length < (e.request r).params.maxNewTokens

structure Ran (e e' : Engine) (es : List Entry) (rids : List Rid) : Prop where
  nodup : rids.Nodup
  runnable : ∀ r ∈ rids, Runnable e es r
  queued : e'.queued.Perm e.queued
  requests : e'.requests = e.requests
  nextRid : e'.nextRid = e.nextRid
  running : ∀ r, r ∈ e'.scheduler.running ↔ r ∈ e.scheduler.running ∨ r ∈ rids
  waiting : ∀ r ∈ e'.scheduler.waiting, r ∈ e.scheduler.waiting
  inside : ∀ r ∈ rids, e'.request r = ran (e.request r) ∧
    e'.caches r = some ⟨(e.truth es r).zipIdx, (e.request r).maxLen⟩
  outside : ∀ r, r ∉ rids → e'.request r = e.request r ∧ e'.caches r = e.caches r

def sample (model : Model) (e : Engine) (es : List Entry) (r : Rid) : Token :=
  model.nextAfter (e.request r) (e.outputs es r)

def entriesOf (model : Model) (e : Engine) (es : List Entry) (rids : List Rid) : List Entry :=
  sampledEntries (e.sample model es) (fun r => (e.request r).outputIds.length) rids

theorem Ran.sound (h : Ran e e' es rids) (hs : Sound model e es) : Sound model e' (es ++ e.entriesOf model es rids) := by
  have hother : ∀ r, r ∉ rids → e'.outputs (es ++ e.entriesOf model es rids) r = e.outputs es r := by
    intro r hr
    rw [outputs, outputs, (h.outside r hr).1, inflightTokens_append, entriesOf,
      (sampledEntries_other hr).1, List.append_nil]
  have hown : ∀ r ∈ rids, e'.outputs (es ++ e.entriesOf model es rids) r = e.outputs es r ++ [e.sample model es r] := by
    intro r hr
    have hready : (ran (e.request r)).readyIds = (e.request r).readyIds :=
      (hs.pending r (h.runnable r hr).going).readyIds_sampled
    rw [outputs, outputs, (h.inside r hr).1, hready, inflightTokens_append, entriesOf, (sampledEntries_own h.nodup hr).1,
      List.append_assoc]
  have hgoing : ∀ r ∈ rids, ¬ (e'.request r).isDone := by
    intro r hr
    rw [(h.inside r hr).1]
    simp [ran, Request.isDone]
  refine ⟨h.queued.nodup_iff.mpr hs.nodup, ?_, fun r hr => ?_, fun r hr => ?_, fun r hr => ?_,
    fun r => ?_, fun r hd => ?_,
    fun r hr => ?_, fun x hx => ?_⟩
  · rw [h.requests]
    exact hs.requests.trans h.queued.symm
  · have hnot : r ∉ rids := by
      intro hmem
      have hrun := (h.running r).mpr (.inr hmem)
      exact (List.nodup_append.mp (h.queued.nodup_iff.mpr hs.nodup)).2.2 r hrun r hr rfl
    rw [(h.outside r hnot).1, (h.outside r hnot).2]
    exact hs.waits r (h.waiting r hr)
  · by_cases hmem : r ∈ rids
    · have hrun := h.runnable r hmem
      rw [hown r hmem, (h.inside r hmem).1, (h.inside r hmem).2]
      refine ⟨rfl, hrun.prompt, hrun.plain, by simp [ran, Request.sampled], fun h0 => absurd h0 (Nat.succ_ne_zero _), ?_⟩
      have htruth : (e.request r).promptIds ++ (e.outputs es r ++ [e.sample model es r]) = e.truth es r ++
        [e.sample model es r] :=
        (List.append_assoc ..).symm
      show _ = some (⟨((e.request r).promptIds ++ (e.outputs es r ++ [e.sample model es r])).dropLast.zipIdx,
        _⟩ : ContiguousKVCache)
      rw [htruth, List.dropLast_concat]
      rfl
    · rw [hother r hmem, (h.outside r hmem).1, (h.outside r hmem).2]
      exact hs.runs r (((h.running r).mp hr).resolve_right hmem)
  · have hq : r ∉ e.queued := fun hm => hr (h.queued.mem_iff.mpr hm)
    have hnot : r ∉ rids := fun hm => hq (h.runnable r hm).queued
    rw [(h.outside r hnot).1, (h.outside r hnot).2]
    exact hs.gone r hq
  · by_cases hmem : r ∈ rids
    · have hrun := h.runnable r hmem
      have hd := hgoing r hmem
      rw [hown r hmem]
      rw [(h.inside r hmem).1] at hd ⊢
      exact (hs.told r).sampled (hs.pending r hrun.going) ⟨rfl, rfl, rfl⟩ rfl rfl hrun.going hd hrun.room rfl
    · rw [hother r hmem, (h.outside r hmem).1]
      exact hs.told r
  · by_cases hmem : r ∈ rids
    · rw [(h.inside r hmem).1, slotsOf_append, entriesOf, (sampledEntries_own h.nodup hmem).2]
      exact (hs.pending r (h.runnable r hmem).going).sampled
    · rw [(h.outside r hmem).1] at hd ⊢
      rw [slotsOf_append, entriesOf, (sampledEntries_other hmem).2, List.append_nil]
      exact hs.pending r hd
  · rw [h.nextRid] at hr
    obtain ⟨hb, hq⟩ := hs.later r hr
    have hnot : r ∉ rids := fun hm => hq (h.runnable r hm).queued
    exact ⟨(h.outside r hnot).1.trans hb, fun hm => hq (h.queued.mem_iff.mp hm)⟩
  · rw [h.nextRid]
    rcases List.mem_append.mp hx with hx | hx
    · exact hs.entries x hx
    · obtain ⟨r, hr, rfl⟩ := List.mem_map.mp hx
      exact ⟨hs.known (h.runnable r hr).queued, model.next_nonneg ..⟩

end Engine

end Contiguous

end MiniServe
