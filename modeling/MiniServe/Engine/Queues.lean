import MiniServe.Engine.Preempted
import MiniServe.Engine.Termination

namespace MiniServe

theorem Request.reached_iff {q : Request} : q.reachedMaxTokens ↔ q.tokensLeft ≤ 1 := by
  unfold reachedMaxTokens tokensLeft
  omega

namespace Scheduler

variable {s s' s'' : Scheduler}

-- What every call but the scheduler's own does to the queues: requests leave them, and those that stay
-- may sample tokens and begin to decode.
structure Shrinks (s s' : Scheduler) : Prop where
  same : Same s s'
  running : s'.running.Sublist s.running
  waiting : s'.waiting.Sublist s.waiting
  reached : ∀ x ∈ s'.running ++ s'.waiting, (s.reqs x).reachedMaxTokens → (s'.reqs x).reachedMaxTokens
  decode : ∀ x ∈ s'.running, (s.reqs x).state = .decode → (s'.reqs x).state = .decode

theorem Shrinks.isSpent (h : Shrinks s s') {x : Rid} (hx : x ∈ s'.running) (hsp : (s.reqs x).isSpent) :
    (s'.reqs x).isSpent :=
  ⟨h.decode x hx hsp.1, h.reached x (List.mem_append_left _ hx) hsp.2⟩

theorem filter_sublist_filter {l l' : List Rid} {p p' : Rid → Bool} (hl : l'.Sublist l)
    (hp : ∀ x ∈ l', p' x = true → p x = true) : (l'.filter p').Sublist (l.filter p) := by
  have h : l'.filter p' = (l'.filter p).filter p' := by
    rw [List.filter_filter]
    refine List.filter_congr fun x hx => ?_
    cases hx' : p' x with
    | false => rfl
    | true => rw [hp x hx hx']; rfl
  rw [h]
  exact List.filter_sublist.trans (hl.filter p)

end Scheduler

namespace Engine

variable {e e' : Engine} {model : Model} {c : EngineConfig} {ok : List Token → Prop} {older : List Entry}
  {b : Batch} {ids : List Token} {s1 s2 : Scheduler} {slots : List (Option Nat)}

theorem Launches.decode (hL : Launches model e b ids older s1 s2 slots) (hb : e.scheduler.BatchFits b) {x : Rid}
    (hst : (e.scheduler.reqs x).state = .decode) : (s2.reqs x).state = .decode := by
  by_cases hx : x ∈ b.rows.map Row.rid
  · obtain ⟨row, hrow, rfl⟩ := List.mem_map.mp hx
    rcases (hb.rows row hrow).le.eq_or_lt with hc | hlt
    · exact ((hL.rows row hrow).complete hc).1
    · exact ((hL.rows row hrow).chunk hlt).trans hst
  · rw [hL.settled.other x hx, hL.reserved.other x hx]
    exact hst

theorem Sound.queued (he : e.Sound) {x : Rid} (hx : x ∈ e.scheduler.running ++ e.scheduler.waiting) :
    (e.request x).promptIds ≠ [] ∧ ¬ (e.request x).isDone :=
  ⟨he.promptIds_ne (he.requests.mem_iff.mpr hx), he.request_not_done (he.requests.mem_iff.mpr hx)⟩

theorem reached_of_moves {p p' : Pool} {sample : Option (Rid → Token)} {x : Rid} (hm : Pool.Moves sample p p')
    (hs : p.Sound) (hr : (p.reqs x).promptIds ≠ []) (hd : ¬ (p'.reqs x).isDone)
    (hx : (p.reqs x).reachedMaxTokens) : (p'.reqs x).reachedMaxTokens := by
  rw [Request.reached_iff] at hx ⊢
  exact (hm.tokensLeft_le hs hr hd).trans hx

theorem Kept.subset (hk : Kept e e') {x : Rid} (hx : x ∈ e'.scheduler.running ++ e'.scheduler.waiting) :
    x ∈ e.scheduler.running ++ e.scheduler.waiting :=
  (hk.running.append hk.waiting).subset hx

theorem Kept.shrinks (hk : Kept e e') (he : e.Sound) (he' : e'.Sound) (hm : Pool.Moves none e.pool e'.pool) :
    Scheduler.Shrinks e.scheduler e'.scheduler where
  same := hk.same
  running := hk.running
  waiting := hk.waiting
  reached := fun _ hx => reached_of_moves hm he.pool (he.queued (hk.subset hx)).1 (he'.queued hx).2
  decode := fun x hx hst => (hk.state x hx).trans hst

theorem Stepped.shrinks (h : Stepped model e e') (he : e.Sound) (he' : e'.Sound) :
    ∃ s res, e.scheduler.schedule = (res, s) ∧ Scheduler.Shrinks s e'.scheduler := by
  cases h with
  | @idle s e1 hsch hm hd he1 hk hi =>
    obtain ⟨hS, -⟩ := he.schedule_eq hsch
    have hq : ∀ x, x ∈ e'.scheduler.running ++ e'.scheduler.waiting → x ∈ e.scheduler.running ++
        e.scheduler.waiting := by
      intro x hx
      have := hk.toKept.subset hx
      rw [he1] at this
      simpa using hS.step.perm.mem_iff.mp (by simpa using this)
    refine ⟨s, _, hsch, ⟨he1 ▸ hk.same, he1 ▸ hk.running, he1 ▸ hk.waiting, fun x hx hr => ?_, fun x hx hst => ?_⟩⟩
    · have h0 := (he.queued (hq x hx)).1
      have hd' := (he'.queued hx).2
      have hs := hS.step.moves.sound he.pool
      have hd0 := hs.not_done (r := x) (by
        have := hk.toKept.subset hx
        rw [he1] at this
        simpa [Scheduler.pool] using this)
      rw [Request.reached_iff] at hr ⊢
      have e1 := hS.step.moves.tokensLeft_eq he.pool h0 hd0
      have e2 := hm.tokensLeft_eq he.pool h0 hd'
      exact (e2.trans e1.symm).le.trans hr
    · have := hk.state x hx
      rw [he1] at this
      exact this.trans hst
  | @launch s s1 s2 b ids slots e2 hsch hb hids hs hL hp hd he2 hk =>
    obtain ⟨hS, -⟩ := he.schedule_eq hsch
    have hs0 := hS.step.sound he.pool
    have hs1 := hL.opens.sound hs0
    have hs2 := hL.settles.sound hs1
    have hrun : s2.running = s.running := hL.settled.running.trans hL.reserved.running
    have hwait : s2.waiting = s.waiting := hL.settled.waiting.trans hL.reserved.waiting
    have hrun' : e'.scheduler.running.Sublist s.running := by
      rw [← hrun, ← he2]
      exact hk.running
    have hwait' : e'.scheduler.waiting.Sublist s.waiting := by
      rw [← hwait, ← he2]
      exact hk.waiting
    have hsame : Scheduler.Same s e'.scheduler :=
      (hL.reserved.same.trans hL.settled.same).trans (he2 ▸ hk.same)
    refine ⟨s, _, hsch, ⟨hsame, hrun', hwait', fun x hx hr => ?_, fun x hx hst => ?_⟩⟩
    · have hx' : x ∈ s.running ++ s.waiting := (hrun'.append hwait').subset hx
      have h0 : (s.reqs x).promptIds ≠ [] := hs0.prompt (by simpa [Scheduler.pool] using hx')
      have hd' := (he'.queued hx).2
      have h1 := (hL.opens.alike h0).ne_nil h0
      have h2 := (hL.settles.alike h1).ne_nil h1
      have hd2 := (hp.output_grows hs2 h2 hd').1
      have hd1 := (hL.settles.output_grows hs1 h1 hd2).1
      exact reached_of_moves hp hs2 h2 hd' (reached_of_moves hL.settles hs1 h1 hd2
        (reached_of_moves hL.opens hs0 h0 hd1 hr))
    · have := hk.state x hx
      rw [he2] at this
      exact this.trans (hL.decode hb hst)

-- An invariant of the queues holds in every reachable state if a submission, the scheduler and whatever
-- shrinks the queues keep it.
theorem Reachable.queue_rule {P : Scheduler → Prop} (h : Reachable model c ok e) (hinit : P c.scheduler)
    (hadd : ∀ (e : Engine) (q : Request), e.Sound → q.Fresh → q.rid = e.nextRid → P e.scheduler →
      P { e.scheduler.set q.rid q with waiting := e.scheduler.waiting ++ [q.rid] })
    (hschedule : ∀ (e : Engine) (res : Except Error (Option Batch)) (s : Scheduler), e.Sound →
      e.scheduler.schedule = (res, s) → P e.scheduler → P s)
    (hshrink : ∀ s s', Scheduler.Shrinks s s' → P s → P s') : P e.scheduler := by
  induction h with
  | init => exact hinit
  | @add e prompt params h hp ih =>
    rcases e.addRequest_cases prompt params with ⟨err, d, he⟩ | ⟨q, d, hq, hrid, -, -, -, -, he⟩
    · rw [he]; exact ih
    · rw [he]; exact hadd e q h.sound hq hrid ih
  | @abort e e' r h ha ih =>
    obtain ⟨e1, h1, hs1, hm, hk⟩ := h.sound.abort r
    obtain rfl : e1 = e' := Except.ok.inj (h1.symm.trans ha)
    exact hshrink _ _ (hk.shrinks h.sound hs1 hm) ih
  | step h hs ih =>
    rcases h.sound.step_cases model with ⟨s, -, h1⟩ | ⟨b, s, err, -, -, h1⟩ | ⟨out', e1, h1, hs1, hst, -⟩
    · rw [hs] at h1; simp at h1
    · rw [hs] at h1; simp at h1
    · rw [hs] at h1
      obtain rfl := (Prod.mk.inj h1).2
      obtain ⟨s, res, hsch, hshr⟩ := hst.shrinks h.sound hs1
      exact hshrink _ _ hshr (hschedule _ res s h.sound hsch ih)
  | raised h hs ih => exact hschedule _ _ _ h.sound hs ih

theorem Reachable.same (h : Reachable model c ok e) : Scheduler.Same c.scheduler e.scheduler :=
  h.queue_rule (P := Scheduler.Same c.scheduler) (Scheduler.Same.refl _)
    (fun _ _ _ _ _ hp => hp.trans ⟨rfl, rfl, rfl, rfl, rfl, rfl, rfl, rfl⟩)
    (fun _ _ _ he hs hp => hp.trans (he.schedule_eq hs).1.step.same) fun _ _ hshr hp => hp.trans hshr.same

end Engine

end MiniServe
