import MiniServe.Engine.Content

namespace MiniServe

open KVCacheManager

namespace Request

variable {q q' : Request}

structure Grows (q q' : Request) : Prop where
  ready : q.readyIds <+: q'.readyIds
  done : q.isDone → q' = q

theorem Grows.refl (q : Request) : q.Grows q := ⟨List.prefix_refl _, fun _ => rfl⟩

theorem Grows.trans {q'' : Request} (h1 : q.Grows q') (h2 : q'.Grows q'') : q.Grows q'' :=
  ⟨h1.ready.trans h2.ready, fun hd => by
    have h := h1.done hd
    exact (h2.done (h ▸ hd)).trans h⟩

structure Cut (q : Request) : Prop where
  unfinished : q.state ≠ .finished → ∀ t ∈ q.readyIds, t ∉ q.params.stopTokenIds
  finished : q.state = .finished → ∃ pre tok, q.outputIds = pre ++ [tok] ∧ q.numPending = 0 ∧
    ∀ t ∈ pre, t ∉ q.params.stopTokenIds

theorem Fresh.cut (h : q.Fresh) : q.Cut :=
  ⟨fun _ t ht => by simp [readyIds, h.output] at ht, fun hf => by simp [h.state] at hf⟩

theorem Cut.restate (h : q.Cut) (hr : q'.readyIds = q.readyIds) (hp : q'.params = q.params) (hd : ¬ q.isDone)
    (hf : q'.state ≠ .finished) : q'.Cut := by
  refine ⟨fun _ => ?_, fun hf' => absurd hf' hf⟩
  rw [hr, hp]
  exact h.unfinished fun hq => hd (.inl hq)

end Request

namespace Pool

variable {p p' : Pool} {sample : Option (Rid → Token)} {r : Rid}

theorem Sound.head_pending {tok : Token} {k : Nat} {rest : List Entry} (hs : p.Sound)
    (ho : p.older = (r, tok, some k) :: rest) (hd : ¬ (p.reqs r).isDone) :
    (p.reqs r).Pending (k :: slotsOf (rest ++ p.newer) r) := by
  have h := hs.pending r hd
  rw [ho, List.cons_append, slotsOf_cons_some] at h
  exact h

theorem Move.reads (h : Move sample p p') (hs : p.Sound) (hr : (p.reqs r).promptIds ≠ []) (hc : (p.reqs r).Cut) :
    (p.reqs r).Grows (p'.reqs r) ∧ (p'.reqs r).Cut := by
  have hself : (p.reqs r).Grows (p.reqs r) ∧ (p.reqs r).Cut := ⟨Request.Grows.refl _, hc⟩
  have hput : ∀ (x : Rid) (q : Request), (r = x → (p.reqs r).Grows q ∧ q.Cut) →
      (p.reqs r).Grows (Function.update p.reqs x q r) ∧ (Function.update p.reqs x q r).Cut := by
    intro x q hq
    by_cases e : r = x
    · subst e; rw [Function.update_self]; exact hq rfl
    · rw [Function.update_of_ne e]; exact hself
  have hsame : ∀ (q : Request), ¬ (p.reqs r).isDone → q.state ≠ .finished → q.readyIds = (p.reqs r).readyIds →
      q.params = (p.reqs r).params → (p.reqs r).Grows q ∧ q.Cut := by
    intro q hd hst hready hpar
    exact ⟨⟨hready ▸ List.prefix_refl _, fun h => absurd h hd⟩, hc.restate hready hpar hd hst⟩
  have hstate : ¬ (p.reqs r).isDone → (p.reqs r).state ≠ .finished := fun hd hf => hd (.inl hf)
  cases h with
  | @submit x q hb hx hq =>
    refine hput x q fun e => absurd ?_ hr
    rw [e, hb]
    rfl
  | lookup hw h1 h2 =>
    refine hput _ _ fun e => ?_
    subst e
    exact hsame _ (hs.not_done (.inr hw)) (hstate (hs.not_done (.inr hw))) rfl rfl
  | enter hw hn h =>
    refine hput _ _ fun e => ?_
    subst e
    exact hsame _ (hs.not_done (.inr hw)) (by simp) rfl rfl
  | preempt hl ho hn h =>
    refine hput _ _ fun e => ?_
    subst e
    exact hsame _ (hs.not_done (.inl hl)) (by simp) rfl rfl
  | evict h => exact hself
  | extend hf hl ho hn hcache hstart hpos hroom hpre h =>
    refine hput _ _ fun e => ?_
    subst e
    exact hsame _ (hs.not_done (.inl hl)) (hstate (hs.not_done (.inl hl))) rfl rfl
  | chunk hf ho hpre hlt htok h =>
    refine hput _ _ fun e => ?_
    subst e
    have hd := hs.not_done (.inl (hs.head_row ho).1)
    exact hsame _ hd (hstate hd) rfl rfl
  | first hf ho hpre heq htok h =>
    refine hput _ _ fun e => ?_
    subst e
    have hd := hs.not_done (.inl (hs.head_row ho).1)
    exact hsame _ hd (by simp) (hs.pending _ hd).readyIds_sampled rfl
  | again hf ho hdec hlen htok =>
    refine hput _ _ fun e => ?_
    subst e
    have hd := hs.not_done (.inl (hs.head_row ho).1)
    exact hsame _ hd (hstate hd) (hs.pending _ hd).readyIds_sampled rfl
  | skip ho h => exact hself
  | @fill x tok k rest ho hop hd hq hk hst =>
    refine hput _ _ fun e => ?_
    subst e
    have hp := hs.head_pending ho hd
    refine ⟨⟨by rw [hp.readyIds_filled]; exact List.prefix_append _ _, fun h => absurd h hd⟩, fun _ t ht => ?_,
      fun hf => absurd hf (hstate hd)⟩
    rw [hp.readyIds_filled] at ht
    rcases List.mem_append.mp ht with ht | ht
    · exact hc.unfinished (hstate hd) t ht
    · rw [List.mem_singleton.mp ht]; exact hst
  | @finish x tok k rest kv' ho hop hd hq hk h =>
    refine hput _ _ fun e => ?_
    subst e
    have hp := hs.head_pending ho hd
    have hids : ((p.reqs r).filled k tok).dropPending.outputIds = (p.reqs r).readyIds ++ [tok] := by
      rw [Request.dropPending_outputIds, ← hp.readyIds_filled]
      rfl
    have hpar : ((p.reqs r).filled k tok).dropPending.params = (p.reqs r).params := by simp [Request.filled]
    refine ⟨⟨?_, fun h => absurd h hd⟩, fun hf => by simp [Request.dropped] at hf, fun _ => ?_⟩
    · simp only [Request.readyIds, Request.dropped, Request.dropPending_numPending, Nat.sub_zero, List.take_length]
      rw [hids]
      exact List.prefix_append _ _
    · refine ⟨(p.reqs r).readyIds, tok, hids, by simp [Request.dropped], fun t ht => ?_⟩
      simp only [Request.dropped, hpar]
      exact hc.unfinished (hstate hd) t ht
  | abort hop hq h =>
    refine hput _ _ fun e => ?_
    subst e
    have hd := hs.not_done hq
    refine hsame _ hd (by simp [Request.dropped]) ?_ (by simp [Request.dropped])
    simp only [Request.readyIds, Request.dropped, Request.dropPending_numPending, Nat.sub_zero, List.take_length]
    rw [Request.dropPending_outputIds]
  | turn ho hop => exact hself

theorem Moves.reads (h : Moves sample p p') (hs : p.Sound) (hr : (p.reqs r).promptIds ≠ []) (hc : (p.reqs r).Cut) :
    (p.reqs r).Grows (p'.reqs r) ∧ (p'.reqs r).Cut := by
  induction h with
  | refl => exact ⟨Request.Grows.refl _, hc⟩
  | tail h1 hm ih =>
    obtain ⟨hg, hc'⟩ := hm.reads (Moves.sound h1 hs) ((Moves.alike h1 hr).ne_nil hr) ih.2
    exact ⟨ih.1.trans hg, hc'⟩

end Pool

namespace Engine

variable {e e' : Engine} {model : Model} {s : Scheduler} {r : Rid}

structure Reads (e e' : Engine) (r : Rid) : Prop where
  alike : Pool.Alike (e.request r) (e'.request r)
  grows : (e.request r).Grows (e'.request r)
  cut : (e'.request r).Cut

theorem Reads.refl (hc : (e.request r).Cut) : Reads e e r := ⟨⟨rfl, rfl, rfl⟩, Request.Grows.refl _, hc⟩

theorem Reads.of_moves {sample : Option (Rid → Token)} {p p' : Pool} (h : Pool.Moves sample p p') (hs : p.Sound)
    (he : p.reqs r = e.request r) (he' : p'.reqs r = e'.request r) (hr : (e.request r).promptIds ≠ [])
    (hc : (e.request r).Cut) : Reads e e' r := by
  rw [← he] at hr hc
  obtain ⟨hg, hc'⟩ := h.reads hs hr hc
  exact ⟨he ▸ he' ▸ h.alike hr, he ▸ he' ▸ hg, he' ▸ hc'⟩

theorem Stepped.reads (h : Stepped model e e') (he : e.Sound) (hr : (e.request r).promptIds ≠ [])
    (hc : (e.request r).Cut) : Reads e e' r := by
  cases h with
  | idle hsch hm => exact Reads.of_moves hm he.pool rfl rfl hr hc
  | launch hsch hb hids hs hL hp =>
    have h1 := hs.trans hL.opens
    have hs1 := h1.sound he.pool
    have hs2 := hL.settles.sound hs1
    have ha1 := h1.alike hr
    have ha2 := hL.settles.alike (ha1.ne_nil hr)
    obtain ⟨hg1, hc1⟩ := h1.reads he.pool hr hc
    obtain ⟨hg2, hc2⟩ := hL.settles.reads hs1 (ha1.ne_nil hr) hc1
    have hr2 := (ha1.trans ha2).ne_nil hr
    obtain ⟨hg3, hc3⟩ := hp.reads hs2 hr2 hc2
    exact ⟨(ha1.trans ha2).trans (hp.alike hr2), (hg1.trans hg2).trans hg3, hc3⟩

theorem Sound.scheduled_reads {res : Except Error (Option Batch)} (he : e.Sound)
    (hsch : e.scheduler.schedule = (res, s)) (heq : e'.scheduler = s) (hr : (e.request r).promptIds ≠ [])
    (hc : (e.request r).Cut) : Reads e e' r := by
  obtain ⟨hS, -⟩ := he.schedule_eq hsch
  exact Reads.of_moves hS.step.moves he.pool rfl (by rw [request, heq]; rfl) hr hc

theorem Sound.step_reads {out : Except Error (Option Batch)} (he : e.Sound) (hs : e.step model = (out, e'))
    (hr : (e.request r).promptIds ≠ []) (hc : (e.request r).Cut) : Reads e e' r := by
  rcases he.step_cases model with ⟨s, hsch, h1⟩ | ⟨b, s, err, hsch, hids | ⟨⟨ids, hids⟩, -, hlong⟩, -⟩ |
    ⟨out', e1, h1, -, hst, -⟩
  · rw [hs] at h1
    obtain ⟨-, rfl⟩ := Prod.mk.inj h1
    exact he.scheduled_reads hsch rfl hr hc
  · have h1 : e.step model = _ := step_fill_error hsch hids
    rw [hs] at h1
    obtain ⟨-, rfl⟩ := Prod.mk.inj h1
    exact he.scheduled_reads hsch rfl hr hc
  · obtain ⟨s1, h1, hm⟩ := he.step_long hsch hids hlong model
    rw [hs] at h1
    obtain ⟨-, rfl⟩ := Prod.mk.inj h1
    exact Reads.of_moves hm he.pool rfl rfl hr hc
  · rw [hs] at h1
    obtain ⟨-, rfl⟩ := Prod.mk.inj h1
    exact hst.reads he hr hc

theorem Sound.step_sound {out : Option Batch} (he : e.Sound) (hs : e.step model = (.ok out, e')) : e'.Sound := by
  rcases he.step_cases model with ⟨s, -, h1⟩ | ⟨b, s, err, -, -, h1⟩ | ⟨out', e1, h1, he1, -⟩
  · rw [hs] at h1; simp at h1
  · rw [hs] at h1; simp at h1
  · rw [hs] at h1
    exact (Prod.mk.inj h1).2 ▸ he1

theorem Sound.launched_reads {b : Option Batch} {L : Option Launched} (he : e.Sound)
    (hsch : e.scheduler.schedule = (.ok b, s))
    (hl : Engine.launchBatch { e with scheduler := s, launched := b } model b = .ok (L, e'))
    (hr : (e.request r).promptIds ≠ []) (hc : (e.request r).Cut) : Reads e e' r := by
  cases b with
  | none =>
    obtain ⟨-, rfl⟩ := Prod.mk.inj (Except.ok.inj hl)
    exact he.scheduled_reads hsch rfl hr hc
  | some b =>
    obtain ⟨hS, -⟩ := he.schedule_eq hsch
    have hpool := hS.step.sound he.pool
    cases hids : ModelRunner.fillRows b (b.rows.flatMap (ModelRunner.rowIds s)) e.inflight with
    | error err => simp [launchBatch, launch, ModelRunner.forward, hids] at hl
    | ok ids =>
      have hlong : ∀ id ∈ b.rows.flatMap (ModelRunner.rowIds s), IsLong id := by
        by_contra hn
        obtain ⟨s1, hraise, -⟩ :=
          @launch_long e.entries { e with scheduler := s, launched := some b } model b e.inflight ids
          hpool (hS.batch b rfl) (hS.fits _ rfl) hids (by simpa only [not_forall, exists_prop] using hn)
        simp only [launchBatch, hraise] at hl
        simp at hl
      obtain ⟨s1, s2, slots, hL, hlaunch⟩ := @launch_ok e.entries { e with scheduler := s, launched := some b } model b
        e.inflight ids hpool (hS.batch b rfl) (hS.fits _ rfl) hids hlong
      simp only [launchBatch, hlaunch] at hl
      obtain ⟨-, rfl⟩ := Prod.mk.inj (Except.ok.inj hl)
      have h1 := hS.step.moves.trans hL.opens
      have ha := h1.alike hr
      obtain ⟨hg1, hc1⟩ := h1.reads he.pool hr hc
      obtain ⟨hg2, hc2⟩ := hL.settles.reads (hL.opens.sound hpool) (ha.ne_nil hr) hc1
      exact ⟨ha.trans (hL.settles.alike (ha.ne_nil hr)), hg1.trans hg2, hc2⟩

end Engine

end MiniServe
