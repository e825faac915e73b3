import MiniServe.Engine.ContiguousRun
import MiniServe.Engine.Output
import MiniServe.Engine.Termination

namespace MiniServe

namespace Contiguous

open MiniServe.Engine (inflightEntries)

namespace Engine

variable {model : Model} {e e' : Engine} {L : Option Launched} {rids : List Rid} {r : Rid}

structure Launches (model : Model) (e : Engine) (L : Option Launched) (e' : Engine) (rids : List Rid) : Prop where
  whole : ∀ x, L = some x → x.Whole
  entries : inflightEntries L = e.entriesOf model e.entries rids
  ran : Ran e e' e.entries rids
  inflight : e'.inflight = e.inflight
  overlap : e'.overlap = e.overlap
  idle : rids = [] → L = none ∧ (e.scheduler.running.filter fun r => (e.scheduler.reqs r).decodes) = [] ∧
    (e.scheduler.waiting = [] ∨ e.scheduler.running ≠ [])

theorem Launches.once (h : Launches model e L e' rids) : ((inflightEntries L).map Prod.fst).Nodup := by
  have hfst : (inflightEntries L).map Prod.fst = rids := by
    rw [h.entries, entriesOf, sampledEntries, List.map_map]
    exact List.map_id _
  rw [hfst]
  exact h.ran.nodup

theorem idle_ran {s1 : Scheduler} {es : List Entry} (hE : e.scheduler.Entered s1 []) :
    Ran e { e with scheduler := s1, launched := none } es [] where
  nodup := List.nodup_nil
  runnable := fun _ hr => absurd hr List.not_mem_nil
  queued := by
    show (s1.running ++ s1.waiting).Perm _
    rw [hE.running]
    exact List.Perm.append_left _ hE.waiting
  requests := rfl
  nextRid := rfl
  running := fun r => by
    show r ∈ s1.running ↔ _
    rw [hE.running]
    exact ⟨.inl, fun hr => hr.elim id fun hn => absurd hn List.not_mem_nil⟩
  waiting := fun r hr => hE.waiting.mem_iff.mp hr
  inside := fun _ hr => absurd hr List.not_mem_nil
  outside := fun r hr => ⟨hE.outside r hr, rfl⟩

theorem Ready.launchBatch (h : Ready model e) : ∃ batch s' L e' rids, e.scheduler.schedule = .ok (batch, s') ∧
    Engine.launchBatch { e with scheduler := s', launched := batch } model batch = .ok (L, e') ∧
      Launches model e L e' rids := by
  have hwait : ∀ r ∈ e.scheduler.waiting, (e.scheduler.reqs r).state = .waiting ∧ (e.scheduler.reqs r).numPending = 0 :=
    fun r hr => ⟨(h.sound.waits r hr).state, (h.sound.waits r hr).numPending⟩
  obtain ⟨batch, s', hsch, hS⟩ := Scheduler.schedule_ok (List.nodup_append.mp h.sound.nodup).2.1 hwait
  cases hS with
  | @prefill new s1 hne hnd hE =>
    obtain ⟨halloc, hprep⟩ := h.prepare_prefill hnd hE
    obtain ⟨L, e', hl, -, hwhole, hentries, hran, hfly, hover⟩ := hprep.launch h.sound ((if_pos rfl).trans halloc)
    refine ⟨_, _, some L, e', new, hsch, ?_, fun x hx => Option.some.inj hx ▸ hwhole, hentries, hran, hfly, hover,
      fun hnil => absurd hnil hne⟩
    simp only [Engine.launchBatch]
    rw [hl]
  | @decode s1 hne hE =>
    have hprep := h.prepare_decode hE
    obtain ⟨L, e', hl, -, hwhole, hentries, hran, hfly, hover⟩ := hprep.launch h.sound (if_neg (by simp))
    refine ⟨_, _, some L, e', _, hsch, ?_, fun x hx => Option.some.inj hx ▸ hwhole, hentries, hran, hfly, hover,
      fun hnil => absurd hnil hne⟩
    simp only [Engine.launchBatch]
    rw [hl]
  | idle hnil hE hstay =>
    exact ⟨none, s', none, _, [], hsch, rfl, fun _ hx => by simp at hx, rfl, idle_ran hE, rfl, rfl,
      fun _ => ⟨rfl, hnil, hstay⟩⟩

theorem Sound.fly {es : List Entry} {L : Option Launched} (h : Sound model e es) :
    Sound model { e with inflight := L } es :=
  ⟨h.nodup, h.requests, h.waits, h.runs, h.gone, h.told, h.pending, h.later, h.entries⟩

inductive Stepped (model : Model) (e e' : Engine) : Prop
  | intro {L : Option Launched} {mid : Engine} {rids : List Rid} (hl : Launches model e L mid rids)
      (hb : ReadBack { mid with inflight := if e.overlap then L else none } e')

theorem Ready.step (h : Ready model e) :
    ∃ out e', e.step model = .ok (out, e') ∧ Ready model e' ∧ Stepped model e e' := by
  obtain ⟨batch, s', L, mid, rids, hsch, hlaunch, hl⟩ := h.launchBatch
  have hsound : Sound model mid (e.entries ++ inflightEntries L) := by
    rw [hl.entries]
    exact hl.ran.sound h.sound
  cases hover : e.overlap with
  | true =>
    obtain ⟨out, e', hread, hs', hb⟩ := Sound.readBack e.inflight (hsound.fly (L := L))
    have hfly : e'.inflight = L := hb.inflight
    refine ⟨out, e', ?_, ?_, .intro hl (by rw [if_pos hover]; exact hb)⟩
    · simp only [Engine.step, hsch, hlaunch]
      simp only [hover, if_true, hread]
    · have hentries : e'.entries = inflightEntries L := congrArg inflightEntries hfly
      refine ⟨by rw [hentries]; exact hs', fun x hx => hl.whole x (hfly ▸ hx),
        by rw [hentries]; exact hl.once, h.long, fun hno => ?_⟩
      rw [hb.overlap] at hno
      exact absurd (hl.overlap.symm.trans hno) (by rw [hover]; simp)
  | false =>
    have hnone := h.plain hover
    have hnil : e.entries = [] := congrArg inflightEntries hnone
    rw [hnil, List.nil_append] at hsound
    have hmid : Sound model { mid with inflight := none } (inflightEntries L ++ []) := by
      rw [List.append_nil]
      exact hsound.fly
    obtain ⟨out, e', hread, hs', hb⟩ := Sound.readBack L hmid
    have hfly : e'.inflight = none := hb.inflight
    refine ⟨out, e', ?_, ?_, .intro hl (by rw [if_neg (by rw [hover]; simp)]; exact hb)⟩
    · simp only [Engine.step, hsch, hlaunch]
      simp only [hover, Bool.false_eq_true, if_false, hread]
    · have hentries : e'.entries = [] := congrArg inflightEntries hfly
      refine ⟨by rw [hentries]; exact hs', fun x hx => ?_, by rw [hentries]; exact List.nodup_nil, h.long, fun _ => hfly⟩
      rw [hfly] at hx
      cases hx

section Progress

theorem Launches.alike (h : Launches model e L e' rids) (r : Rid) : Pool.Alike (e.request r) (e'.request r) := by
  by_cases hr : r ∈ rids
  · rw [(h.ran.inside r hr).1]
    exact ⟨rfl, rfl, rfl⟩
  · rw [(h.ran.outside r hr).1]
    exact ⟨rfl, rfl, rfl⟩

theorem Stepped.alike (h : Stepped model e e') (r : Rid) : Pool.Alike (e.request r) (e'.request r) := by
  cases h with
  | intro hl hb => exact (hl.alike r).trans (hb.alike r)

theorem Stepped.pursued {l : List Rid} (h : Stepped model e e') (he : Ready model e) (he' : Ready model e')
    (hp : ∀ r ∈ l, r ∈ e.requests ∨ (e.request r).state = .finished) :
    ∀ r ∈ l, r ∈ e'.requests ∨ (e'.request r).state = .finished := by
  intro r hr
  have halike := h.alike r
  cases h with
  | @intro L mid rids hl hb =>
    by_cases hin : r ∈ e.requests
    · have hq : r ∈ e.queued := he.sound.requests.mem_iff.mp hin
      by_cases hin' : r ∈ e'.requests
      · exact .inl hin'
      · have hprompt : (e.request r).promptIds ≠ [] := by
          rcases List.mem_append.mp hq with hq | hq
          · exact (he.sound.runs r hq).prompt
          · exact (he.sound.waits r hq).prompt
        have hdone : (e'.request r).isDone := by
          refine (he'.sound.gone r fun hm => hin' (he'.sound.requests.mem_iff.mpr hm)).1.resolve_right fun hb => ?_
          have hnil := halike.1
          rw [hb] at hnil
          exact hprompt hnil.symm
        refine .inr ((hb.ended r).resolve_left fun hst => ?_)
        have hmid : ¬ (mid.request r).isDone := by
          by_cases hmem : r ∈ rids
          · rw [(hl.ran.inside r hmem).1]
            simp [ran, Request.isDone]
          · rw [(hl.ran.outside r hmem).1]
            exact he.not_done hq
        refine hmid ?_
        rw [Request.isDone] at hdone ⊢
        rw [hst] at hdone
        exact hdone
    · have hmem : r ∉ rids := fun hm => hin (he.sound.requests.mem_iff.mpr (hl.ran.runnable r hm).queued)
      right
      rcases hb.ended r with hst | hst
      · rw [hst]
        show (mid.request r).state = _
        rw [(hl.ran.outside r hmem).1]
        exact (hp r hr).resolve_left hin
      · exact hst

def work (e : Engine) : Nat := ∑ r ∈ e.requests.toFinset, (e.request r).tokensLeft

def effort (e : Engine) : Nat ×ₗ Nat := toLex (e.work, if e.inflight = none then 0 else 1)

theorem Ready.stays_busy (h : Ready model e) (hnone : e.inflight = none)
    (hnil : (e.scheduler.running.filter fun r => (e.scheduler.reqs r).decodes) = []) : e.scheduler.running = [] := by
  apply List.eq_nil_iff_forall_not_mem.mpr
  intro r hr
  have hruns := h.sound.runs r hr
  have hq : r ∈ e.queued := List.mem_append_left _ hr
  have h0 : (e.request r).numPending = 0 := by
    rw [← (h.sound.pending r (h.not_done hq)).length, entries, hnone]
    rfl
  have hdec : (e.request r).decodes := ⟨hruns.state, not_le.mpr (hruns.room h0)⟩
  have hmem : r ∈ e.scheduler.running.filter fun r => (e.scheduler.reqs r).decodes := by
    rw [List.mem_filter]
    exact ⟨hr, decide_eq_true hdec⟩
  exact List.not_mem_nil (hnil ▸ hmem)

theorem Stepped.effort_lt (h : Stepped model e e') (he : Ready model e) (hu : e.hasUnfinished) :
    e'.effort < e.effort := by
  have halike := h.alike
  cases h with
  | @intro L mid rids hl hb =>
    have hsub : e'.requests.toFinset ⊆ e.requests.toFinset := by
      intro x hx
      rw [List.mem_toFinset] at hx ⊢
      exact hl.ran.requests ▸ hb.requests x hx
    have hlen : ∀ x ∈ e'.requests, (e'.request x).outputIds.length = (mid.request x).outputIds.length := hb.length
    have hmid : ∀ x, (mid.request x).outputIds.length = (e.request x).outputIds.length + if x ∈ rids then 1 else 0 := by
      intro x
      by_cases hx : x ∈ rids
      · rw [(hl.ran.inside x hx).1, if_pos hx]
        simp [ran, Request.sampled]
      · rw [(hl.ran.outside x hx).1, if_neg hx, Nat.add_zero]
    have hle : ∀ x ∈ e'.requests.toFinset, (e'.request x).tokensLeft ≤ (e.request x).tokensLeft := by
      intro x hx
      apply Request.tokensLeft_le (halike x)
      rw [hlen x (List.mem_toFinset.mp hx), hmid x]
      exact Nat.le_add_right ..
    rcases Loop.sum_lt_or_same hsub hle fun x _ => Nat.succ_pos _ with hlt | ⟨heq, hsame⟩
    · exact Prod.Lex.toLex_lt_toLex.mpr (.inl hlt)
    have hrids : rids = [] := by
      apply List.eq_nil_iff_forall_not_mem.mpr
      intro x hx
      have hrun := hl.ran.runnable x hx
      have hin : x ∈ e.requests.toFinset := List.mem_toFinset.mpr (he.sound.requests.mem_iff.mpr hrun.queued)
      have hin' : x ∈ e'.requests := List.mem_toFinset.mp (heq ▸ hin)
      have hx' := hsame x hin
      have hroom := hrun.room
      have hcount := hlen x hin'
      rw [hmid x, if_pos hx] at hcount
      simp only [Request.tokensLeft, (halike x).2.1] at hx'
      omega
    obtain ⟨hL, hnil, hstay⟩ := hl.idle hrids
    have hfly' : e'.inflight = none := by
      rw [hb.inflight, hL]
      exact ite_self none
    have hfly : e.inflight ≠ none := by
      intro hnone
      have hrun := he.stays_busy hnone hnil
      have hwait := hstay.resolve_right (not_not.mpr hrun)
      rcases hu with (hw | hr) | hi
      · exact hw hwait
      · exact hr hrun
      · exact hi hnone
    have hwork : e'.work = e.work := by
      rw [work, work, heq]
      exact Finset.sum_congr rfl hsame
    refine Prod.Lex.toLex_lt_toLex.mpr (.inr ⟨hwork, ?_⟩)
    rw [if_pos hfly', if_neg hfly]
    exact Nat.one_pos

end Progress

inductive Reachable (model : Model) (c : EngineConfig) : Engine → Prop
  | init : Reachable model c (new c)
  | add {e : Engine} {prompt : List Token} {params : SamplingParams} (h : Reachable model c e) (hp : Plain prompt) :
      Reachable model c (e.addRequest prompt params).2
  | abort {e e' : Engine} {r : Rid} (h : Reachable model c e) (ha : e.abort r = .ok e') : Reachable model c e'
  | step {e e' : Engine} {out : Option Batch} (h : Reachable model c e)
      (hs : e.step model = .ok (out, e')) : Reachable model c e'

theorem new_ready (c : EngineConfig) (hm : model.Long) : Ready model (new c) where
  sound :=
    { nodup := List.nodup_nil
      requests := List.Perm.refl _
      waits := fun _ hr => absurd hr List.not_mem_nil
      runs := fun _ hr => absurd hr List.not_mem_nil
      gone := fun _ _ => ⟨.inr rfl, rfl⟩
      told := fun _ => ⟨fun _ => rfl, fun _ => Nat.zero_le _, fun _ _ ht => absurd ht List.not_mem_nil,
        fun hf => (by cases hf),
        fun ha => (by cases ha)⟩
      pending := fun _ _ => ⟨[], rfl, List.not_mem_nil, rfl⟩
      later := fun _ _ => ⟨rfl, List.not_mem_nil⟩
      entries := fun _ hx => absurd hx List.not_mem_nil }
  whole := fun _ hL => by cases hL
  once := List.nodup_nil
  long := hm
  plain := fun _ => rfl

theorem Ready.same (h : Ready model e) (hs : Sound model e' e.entries) (hfly : e'.inflight = e.inflight)
    (hover : e'.overlap = e.overlap) : Ready model e' := by
  have hentries : e'.entries = e.entries := congrArg inflightEntries hfly
  refine ⟨hentries ▸ hs, fun L hL => h.whole L (hfly ▸ hL), hentries ▸ h.once, h.long, fun hno => ?_⟩
  rw [hfly]
  exact h.plain (hover ▸ hno)

theorem Ready.abort (h : Ready model e) (r : Rid) : ∃ e', e.abort r = .ok e' ∧ Ready model e' := by
  obtain ⟨e', ha, hs, hcase⟩ := h.sound.abort r
  refine ⟨e', ha, ?_⟩
  rcases hcase with rfl | ⟨q, rfl, -, -⟩
  · exact h
  · exact h.same hs rfl rfl

theorem Ready.add {prompt : List Token} {params : SamplingParams} (h : Ready model e) (hp : Plain prompt) :
    Ready model (e.addRequest prompt params).2 := by
  rcases e.addRequest_cases prompt params with ⟨-, he⟩ | ⟨q, hne, rfl, he⟩
  · rw [he]
    exact h.same (h.sound.rename (Nat.le_succ _)) rfl rfl
  · rw [he]
    exact h.same (h.sound.submit ⟨rfl, rfl, rfl, rfl⟩ hne hp) rfl rfl

theorem Reachable.ready {c : EngineConfig} (h : Reachable model c e) (hm : model.Long) : Ready model e := by
  induction h with
  | init => exact new_ready c hm
  | add h hp ih => exact ih.add hp
  | @abort e e' r h ha ih =>
    obtain ⟨e1, h1, hr⟩ := ih.abort r
    rw [ha] at h1
    exact Except.ok.inj h1 ▸ hr
  | step h hs ih =>
    obtain ⟨out, e1, h1, hr, -⟩ := ih.step
    rw [hs] at h1
    exact (Prod.mk.inj (Except.ok.inj h1)).2 ▸ hr

-- Whatever is submitted, aborted and stepped, the engine without a pool goes on, and it tells what the paged one tells.
theorem contiguous_agrees_with_paged {c : EngineConfig} (h : Reachable model c e) (hm : model.Long) :
    (∃ out e', e.step model = .ok (out, e')) ∧ (∀ r, ∃ e', e.abort r = .ok e') ∧
      (∀ r, ((e.request r).state = .finished → (e.request r).outputIds = model.output (e.request r)) ∧
        ((e.request r).state = .aborted → (e.request r).outputIds <+: model.output (e.request r))) ∧
      ∀ (d : MiniServe.EngineConfig) (p : MiniServe.Engine) (r x : Rid),
        MiniServe.Engine.Reachable model d (fun prompt => placeholder ∉ prompt) p →
        Pool.Alike (p.request x) (e.request r) → (p.request x).state = .finished → (e.request r).state = .finished →
          (e.request r).outputIds = (p.request x).outputIds := by
  have hr := h.ready hm
  refine ⟨?_, fun r => ?_, fun r => ⟨(hr.sound.told r).finished, (hr.sound.told r).aborted⟩,
    fun d p r x hp ha hx hfin => ?_⟩
  · obtain ⟨out, e', hs, -⟩ := hr.step
    exact ⟨out, e', hs⟩
  · obtain ⟨e', ha, -⟩ := hr.abort r
    exact ⟨e', ha⟩
  · have hpaged : (p.request x).outputIds = model.output (p.request x) := (hp.content.told x).finished hx
    rw [(hr.sound.told r).finished hfin, hpaged]
    exact Model.output_alike ha

def next (model : Model) (e : Engine) : Engine :=
  match e.step model with
  | .error _ => e
  | .ok (_, e) => e

theorem Reachable.next {c : EngineConfig} (h : Reachable model c e) (hm : model.Long) :
    Reachable model c (e.next model) ∧ Pool.Alike (e.request r) ((e.next model).request r) := by
  obtain ⟨out, e', hs, -, hstep⟩ := (h.ready hm).step
  have hn : e.next model = e' := by simp [Engine.next, hs]
  rw [hn]
  exact ⟨.step h hs, hstep.alike r⟩

def lagging : EngineConfig where
  maxRunning := 1
  maxPrefillTokens := 2
  policy := .sjf
  overlap := true
  seeds := fun _ => 0
  maxRunning_pos := Nat.one_pos
  maxPrefillTokens_pos := Nat.two_pos

def submitted : Engine := ((new lagging).addRequest [1, 2] { maxNewTokens := 2 }).2

def lastInFlight : Engine := (submitted.next (MiniServe.Engine.constant 7)).next (MiniServe.Engine.constant 7)

def ended : Engine := lastInFlight.next (MiniServe.Engine.constant 7)

theorem contiguous_agrees_with_paged_ended : (ended.request 0).state = .finished ∧
    (MiniServe.Engine.ended.request 0).state = .finished ∧
      (ended.request 0).outputIds = (MiniServe.Engine.ended.request 0).outputIds := by
  have hsubmitted : Reachable (MiniServe.Engine.constant 7) lagging submitted := Reachable.init.add (by decide)
  have hm : (MiniServe.Engine.constant 7).Long := MiniServe.Engine.constant_long (by decide)
  obtain ⟨h1, ha1⟩ := @Reachable.next _ _ 0 _ hsubmitted hm
  obtain ⟨hflight, ha2⟩ := @Reachable.next _ _ 0 _ h1 hm
  obtain ⟨h, ha3⟩ := @Reachable.next _ lastInFlight 0 _ hflight hm
  have hstep : ∀ p : MiniServe.Engine, (p.step (MiniServe.Engine.constant 7)).1.isOk = true →
      MiniServe.Engine.Call (MiniServe.Engine.constant 7) (fun prompt => placeholder ∉ prompt) p
        (p.step (MiniServe.Engine.constant 7)).2 := by
    intro p hp
    cases hr : (p.step (MiniServe.Engine.constant 7)).1 with
    | error err => simp [hr, Except.isOk, Except.toBool] at hp
    | ok out => exact .step (Prod.ext hr rfl)
  have hadd : (MiniServe.Engine.new MiniServe.Engine.tiny).addRequest [1, 2] { maxNewTokens := 2 } =
      (.ok 0, MiniServe.Engine.submitted) := Prod.ext (by decide +kernel) rfl
  have hrun : MiniServe.Engine.Calls (MiniServe.Engine.constant 7) (fun prompt => placeholder ∉ prompt)
      MiniServe.Engine.submitted MiniServe.Engine.ended :=
    (Relation.ReflTransGen.single (hstep MiniServe.Engine.submitted (by decide +kernel))).tail
      (hstep MiniServe.Engine.afterFirst (by decide +kernel))
  obtain ⟨hended, hsub⟩ := MiniServe.Engine.calls_submission .init (by decide) hadd hrun
  have hfin : (ended.request 0).state = .finished := by decide +kernel
  have halike : Pool.Alike (MiniServe.Engine.ended.request 0) (ended.request 0) :=
    ⟨by decide +kernel, ((ha1.trans ha2).trans ha3).2.1.trans hsub.2.1.symm, by decide +kernel⟩
  have hfin' : (MiniServe.Engine.ended.request 0).state = .finished := by decide +kernel
  obtain ⟨-, -, -, hsame⟩ := contiguous_agrees_with_paged h hm
  exact ⟨hfin, hfin', hsame _ _ 0 0 hended halike hfin' hfin⟩

end Engine

end Contiguous

end MiniServe
