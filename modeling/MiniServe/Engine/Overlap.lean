import MiniServe.Engine.Ready

namespace MiniServe

open KVCacheManager

def Request.Clean (q : Request) : Prop := q.isDone → placeholder ∉ q.outputIds ∧ q.numPending = 0

namespace Pool

variable {p p' : Pool} {sample : Option (Rid → Token)} {r : Rid}

theorem Sound.ready_clean (hs : p.Sound) (hd : ¬ (p.reqs r).isDone) : placeholder ∉ (p.reqs r).readyIds := by
  obtain ⟨ready, ho, hr, -⟩ := hs.pending r hd
  rw [Request.readyIds, ho]
  simpa using hr

theorem Move.clean (hs : p.Sound) (hc : ∀ x, (p.reqs x).Clean) (h : Move sample p p') : ∀ x, (p'.reqs x).Clean := by
  have hput : ∀ (r : Rid) (q : Request), q.Clean → ∀ x, (Function.update p.reqs r q x).Clean := by
    intro r q hq x
    by_cases e : x = r
    · subst e; rw [Function.update_self]; exact hq
    · rw [Function.update_of_ne e]; exact hc x
  have hgoing : ∀ {q : Request}, ¬ q.isDone → q.Clean := fun hd h => absurd h hd
  cases h with
  | submit hb hr hq => exact hput _ _ (hgoing (by simp [Request.isDone, hq.state]))
  | lookup hr h1 h2 => exact hput _ _ (hgoing (hs.not_done (.inr hr)))
  | enter hr hn h => exact hput _ _ (hgoing (by simp [Request.isDone]))
  | preempt hr ho hn h => exact hput _ _ (hgoing (by simp [Request.isDone]))
  | evict h => exact hc
  | extend hf hr ho hn hcache hstart hpos hroom hpre h => exact hput _ _ (hgoing (hs.not_done (.inl hr)))
  | chunk hf ho hpre hlt htok h => exact hput _ _ (hgoing (hs.not_done (.inl (hs.head_row ho).1)))
  | first hf ho hpre heq htok h => exact hput _ _ (hgoing (by simp [Request.isDone]))
  | again hf ho hdec hlen htok =>
    refine hput _ _ (hgoing ?_)
    simp [Request.isDone, Request.sampled, hdec]
  | skip ho h => exact hc
  | fill ho hop hd hr hk hst => exact hput _ _ (hgoing hd)
  | @finish r tok k rest kv' ho hop hd hr hk h =>
    refine hput _ _ fun _ => ⟨?_, by simp [Request.dropped]⟩
    have hp := hs.head_pending ho hd
    have hids : ((p.reqs r).filled k tok).dropPending.outputIds = (p.reqs r).readyIds ++ [tok] := by
      rw [Request.dropPending_outputIds, ← hp.readyIds_filled]
      rfl
    have htok : (0 : Int) ≤ tok := hs.nonneg (r, tok, some k) (by simp [ho])
    simp only [Request.dropped, hids, List.mem_append, List.mem_singleton, not_or]
    refine ⟨hs.ready_clean hd, ?_⟩
    rintro rfl
    exact absurd htok (by decide)
  | @abort r kv' hop hr h =>
    refine hput _ _ fun _ => ⟨?_, by simp [Request.dropped]⟩
    simp only [Request.dropped, Request.dropPending_outputIds]
    exact hs.ready_clean (hs.not_done hr)
  | turn ho hop => exact hc

theorem Moves.clean (h : Moves sample p p') (hs : p.Sound) (hc : ∀ x, (p.reqs x).Clean) : ∀ x, (p'.reqs x).Clean :=
  (h.invariant (I := fun p => ∀ x, (p.reqs x).Clean) (fun _ _ hs hc hm => hm.clean hs hc) hs hc).2

end Pool

namespace Engine

variable {e e' : Engine} {model : Model} {c : EngineConfig} {out : Option Batch} {r : Rid} {v : Bool}

theorem Stepped.clean (he : e.Sound) (h : Stepped model e e') (hc : ∀ x, (e.request x).Clean) :
    ∀ x, (e'.request x).Clean := by
  cases h with
  | idle hsch hm => exact hm.clean he.pool hc
  | launch hsch hb hids hs hL hp =>
    have hopen := hL.opens.sound (hs.sound he.pool)
    have h1 := (hs.trans hL.opens).clean he.pool hc
    have h2 := hL.settles.clean hopen h1
    exact hp.clean (hL.settles.sound hopen) h2

section HandOver

def stepLaunches (e : Engine) (model : Model) : Option Launched :=
  match e.scheduler.schedule with
  | (.error _, _) => none
  | (.ok batch, s) =>
    match Engine.launchBatch { e with scheduler := s, launched := batch } model batch with
    | .error _ => none
    | .ok (L, _) => L

def stepProcesses (e : Engine) (model : Model) : Option Launched :=
  if e.overlap then e.inflight else e.stepLaunches model

theorem step_hands (h : e.step model = (.ok out, e')) : ∃ e2 : Engine,
    Engine.readBack { e2 with inflight := if e.overlap then e.stepLaunches model else none } (e.stepProcesses model) =
      .ok (out, e') := by
  unfold Engine.step at h
  split at h
  · simp at h
  · next batch s hsch =>
    simp only at h
    split at h
    · simp at h
    · next L e2 hl =>
      have hL : e.stepLaunches model = L := by simp [stepLaunches, hsch, hl]
      rw [stepProcesses, hL]
      cases ho : e.overlap with
      | true =>
        simp only [ho, if_true] at h ⊢
        split at h
        · simp at h
        · next o e3 hr =>
          obtain ⟨h1, rfl⟩ := Prod.mk.inj h
          obtain rfl := Except.ok.inj h1
          exact ⟨e2, hr⟩
      | false =>
        simp only [ho, Bool.false_eq_true, if_false] at h ⊢
        split at h
        · simp at h
        · next o e3 hr =>
          obtain ⟨h1, rfl⟩ := Prod.mk.inj h
          obtain rfl := Except.ok.inj h1
          exact ⟨e2, hr⟩

theorem retire_inflight (h : e.retire r = .ok e') : e'.inflight = e.inflight := by
  unfold Engine.retire at h
  split at h
  · simp at h
  · split at h
    · simp at h
    · split at h
      · rw [← Except.ok.inj h]
      · simp at h

theorem processRow_inflight {tok : Token} {slot : Option Nat} (h : e.processRow r tok slot = .ok e') :
    e'.inflight = e.inflight := by
  unfold Engine.processRow at h
  split at h
  · rw [← Except.ok.inj h]
  · split at h
    · rw [← Except.ok.inj h]
    · simp only at h
      split at h
      · split at h
        · simp at h
        · exact (retire_inflight h).trans rfl
      · rw [← Except.ok.inj h]

theorem processRows_inflight {es : List Entry} (h : processRows es e = .ok e') : e'.inflight = e.inflight := by
  induction es generalizing e with
  | nil => rw [← Except.ok.inj h]
  | cons x es ih =>
    obtain ⟨r, tok, slot⟩ := x
    unfold processRows at h
    split at h
    · simp at h
    · next e1 h1 => exact (ih h).trans (processRow_inflight h1)

theorem readBack_inflight {L : Option Launched} (h : e.readBack L = .ok (out, e')) : e'.inflight = e.inflight := by
  unfold Engine.readBack at h
  split at h
  · rw [← (Prod.mk.inj (Except.ok.inj h)).2]
  · split at h
    · simp at h
    · next e1 h1 =>
      rw [← (Prod.mk.inj (Except.ok.inj h)).2]
      exact processRows_inflight h1

theorem step_inflight (h : e.step model = (.ok out, e')) :
    e'.inflight = if e.overlap then e.stepLaunches model else none := by
  obtain ⟨e2, hr⟩ := step_hands h
  exact readBack_inflight hr

end HandOver

-- The runs in which `overlap` is set before every step, with the states and values of the steps so far, the batches
-- launched and those read back.
inductive Toggled (model : Model) (c : EngineConfig) :
    Engine → List (Engine × Bool) → List Launched → List Launched → Prop
  | init : Toggled model c (new c) [] [] []
  | add {e : Engine} {steps : List (Engine × Bool)} {launched processed : List Launched} (prompt : List Token)
      (params : SamplingParams) (h : Toggled model c e steps launched processed) :
      Toggled model c (e.addRequest prompt params).2 steps launched processed
  | abort {e e' : Engine} {steps : List (Engine × Bool)} {launched processed : List Launched} {r : Rid}
      (h : Toggled model c e steps launched processed) (ha : e.abort r = .ok e') :
      Toggled model c e' steps launched processed
  | step {e e' : Engine} {steps : List (Engine × Bool)} {launched processed : List Launched}
      {out : Option Batch} {v : Bool}
      (h : Toggled model c e steps launched processed)
      (hs : Engine.step { e with overlap := v } model = (.ok out, e')) :
      Toggled model c e' (steps ++ [(e, v)])
        (launched ++ (Engine.stepLaunches { e with overlap := v } model).toList)
        (processed ++ (Engine.stepProcesses { e with overlap := v } model).toList)
  | raised {e : Engine} {s : Scheduler} {steps : List (Engine × Bool)} {launched processed : List Launched} {err : Error}
      {v : Bool} (h : Toggled model c e steps launched processed) (hs : e.scheduler.schedule = (.error err, s)) :
      Toggled model c { e with overlap := v, scheduler := s } steps launched processed

def Drops (x : Engine × Bool) : Bool := !x.2 && x.1.inflight.isSome

theorem addRequest_inflight (e : Engine) (prompt : List Token) (params : SamplingParams) :
    (e.addRequest prompt params).2.inflight = e.inflight := by
  rcases e.addRequest_cases prompt params with ⟨err, d, he⟩ | ⟨q, d, -, -, -, -, -, -, he⟩
  · rw [he]
  · rw [he]

theorem abort_inflight (h : e.abort r = .ok e') : e'.inflight = e.inflight := by
  unfold Engine.abort at h
  split at h
  · split at h
    · simp at h
    · exact (retire_inflight h).trans rfl
  · rw [← Except.ok.inj h]

theorem Toggled.lengths {steps : List (Engine × Bool)} {launched processed : List Launched}
    (h : Toggled model c e steps launched processed) :
    launched.length = processed.length + e.inflight.toList.length + (steps.filter Drops).length := by
  induction h with
  | init => rfl
  | add prompt params h ih => rw [addRequest_inflight, ih]
  | abort h ha ih => rw [abort_inflight ha, ih]
  | @step e e' steps launched processed out v h hs ih =>
    rw [step_inflight hs]
    simp only [List.length_append, List.filter_append, stepProcesses]
    cases v with
    | true => simp [Drops, ih]; omega
    | false =>
      cases hi : e.inflight with
      | none => simp [Drops, ih, hi]; omega
      | some L => simp [Drops, ih, hi]; omega
  | raised h hs ih => exact ih

section Kept

variable {steps : List (Engine × Bool)} {launched processed : List Launched}

theorem Sound.withOverlap (he : e.Sound) (hv : v = false → e.inflight = none) :
    Sound { e with overlap := v } :=
  ⟨⟨he.pool, he.requests, he.later, he.len⟩, he.whole, hv, he.rows⟩

theorem retire_withOverlap (e : Engine) (v : Bool) (r : Rid) :
    Engine.retire { e with overlap := v } r = (e.retire r).map fun e' => { e' with overlap := v } := by
  unfold Engine.retire
  simp only [Engine.request]
  split
  · rfl
  · split
    · rfl
    · split <;> rfl

theorem abort_withOverlap (h : e.abort r = .ok e') (v : Bool) :
    Engine.abort { e with overlap := v } r = .ok { e' with overlap := v } := by
  unfold Engine.abort at h ⊢
  split at h
  · next hm =>
    rw [if_pos hm]
    split at h
    · simp at h
    · next q hq =>
      have hreq : Engine.request { e with overlap := v } r = e.request r := rfl
      rw [hreq, hq]
      have := retire_withOverlap { e with scheduler := e.scheduler.set r q } v r
      rw [h] at this
      exact this
  · next hm =>
    rw [if_neg hm, Except.ok.inj h]

-- The engine of a run whose steps drop nothing, with the value `overlap` happens to have left aside.
theorem Toggled.sound (h : Toggled model c e steps launched processed)
    (hk : ∀ x ∈ steps, x.2 = false → x.1.inflight = none) :
    Sound { e with overlap := true } ∧ ∀ x, (e.request x).Clean := by
  induction h with
  | init =>
    refine ⟨(new_sound c).withOverlap (by simp), fun x hx => ?_⟩
    simp [new, request, EngineConfig.scheduler, Request.isDone, Request.blank] at hx
  | @add e steps launched processed prompt params h ih =>
    obtain ⟨hs, hc⟩ := ih hk
    rcases e.addRequest_cases prompt params with ⟨err, d, he⟩ | ⟨q, d, hq, hrid, -, -, -, -, he⟩
    · rw [he]
      exact ⟨hs.rename (Nat.le_succ _), hc⟩
    · rw [he]
      obtain ⟨h1, hm⟩ := hs.submit (d := d) hq hrid
      exact ⟨h1, hm.clean hs.pool hc⟩
  | @abort e e' steps launched processed r h ha ih =>
    obtain ⟨hs, hc⟩ := ih hk
    obtain ⟨e1, h1, h2, hm, -⟩ := hs.abort r
    rw [abort_withOverlap ha] at h1
    obtain rfl := Except.ok.inj h1
    exact ⟨h2, hm.clean hs.pool hc⟩
  | @step e e' steps launched processed out v h hs ih =>
    obtain ⟨he, hc⟩ := ih fun x hx => hk x (List.mem_append_left _ hx)
    have hv : Sound { e with overlap := v } := he.withOverlap (hk (e, v) (by simp))
    rcases hv.step_cases model with ⟨s, -, h1⟩ | ⟨b, s, err, -, -, h1⟩ | ⟨out', e1, h1, h2, hst, -⟩
    · rw [hs] at h1; simp at h1
    · rw [hs] at h1; simp at h1
    · rw [hs] at h1
      obtain rfl := (Prod.mk.inj h1).2
      exact ⟨h2.withOverlap (by simp), hst.clean hv hc⟩
  | @raised e s steps launched processed err v h hs ih =>
    obtain ⟨he, hc⟩ := ih hk
    have hsch : ({ e with overlap := true } : Engine).scheduler.schedule = (.error err, s) := hs
    have hm := (he.schedule_eq hsch).1.step.moves
    exact ⟨he.step_error hsch, hm.clean he.pool hc⟩

theorem Toggled.ordered (h : Toggled model c e steps launched processed)
    (hk : ∀ x ∈ steps, x.2 = false → x.1.inflight = none) : launched = processed ++ e.inflight.toList := by
  induction h with
  | init => rfl
  | add prompt params h ih => rw [addRequest_inflight, ih hk]
  | abort h ha ih => rw [abort_inflight ha, ih hk]
  | @step e e' steps launched processed out v h hs ih =>
    have ih := ih fun x hx => hk x (List.mem_append_left _ hx)
    rw [step_inflight hs, stepProcesses]
    cases v with
    | true => simp [ih]
    | false =>
      rw [hk (e, false) (by simp) rfl] at ih
      simpa using ih
  | raised h hs ih => exact ih hk

theorem Sound.settled (he : Sound { e with overlap := true }) (hc : ∀ x, (e.request x).Clean) (hi : e.inflight = none)
    (r : Rid) : placeholder ∉ (e.request r).outputIds ∧ (e.request r).numPending = 0 := by
  by_cases hd : (e.request r).isDone
  · exact hc r hd
  · have hp := he.pool.pending r hd
    have hzero : (e.request r).numPending = 0 := by
      have hent : Engine.entries { e with overlap := true } = [] := by
        simp [Engine.entries, hi, inflightEntries]
      rw [hent] at hp
      exact hp.length.symm
    obtain ⟨ready, ho, hr, -⟩ := hp
    have ho : (e.request r).outputIds = ready ++ List.replicate (e.request r).numPending placeholder := ho
    rw [hzero, List.replicate_zero, List.append_nil] at ho
    exact ⟨ho ▸ hr, hzero⟩

theorem read_back_once_iff (h : Toggled model c e steps launched processed) :
    (launched = processed ++ e.inflight.toList ∧
      (e.inflight = none → ∀ r, placeholder ∉ (e.request r).outputIds ∧ (e.request r).numPending = 0)) ↔
      ∀ x ∈ steps, x.2 = false → x.1.inflight = none := by
  constructor
  · rintro ⟨heq, -⟩
    have hlen := h.lengths
    rw [heq, List.length_append] at hlen
    have hnil : steps.filter Drops = [] := List.length_eq_zero_iff.mp (by omega)
    intro x hx hv
    have := List.filter_eq_nil_iff.mp hnil x hx
    simpa [Drops, hv] using this
  · intro hk
    obtain ⟨hs, hc⟩ := h.sound hk
    exact ⟨h.ordered hk, fun hi => hs.settled hc hi⟩

theorem Toggled.next (h : Toggled model c e steps launched processed) (v : Bool)
    (hs : (Engine.step { e with overlap := v } model).1.isOk = true) :
    Toggled model c (Engine.step { e with overlap := v } model).2 (steps ++ [(e, v)])
      (launched ++ (Engine.stepLaunches { e with overlap := v } model).toList)
      (processed ++ (Engine.stepProcesses { e with overlap := v } model).toList) := by
  cases hr : (Engine.step { e with overlap := v } model).1 with
  | error err => simp [hr, Except.isOk, Except.toBool] at hs
  | ok out => exact .step h (Prod.ext hr rfl)

end Kept

section Switched

def queued : Engine := ((new tiny).addRequest [1, 2] { maxNewTokens := 2 }).2

def ahead : Engine := (Engine.step { queued with overlap := true } (constant 7)).2

theorem ahead_toggled : ∃ launched processed, Toggled (constant 7) tiny ahead [(queued, true)] launched processed := by
  have h : Toggled (constant 7) tiny queued [] [] [] := .add [1, 2] { maxNewTokens := 2 } .init
  exact ⟨_, _, h.next true (by decide +kernel)⟩

theorem read_back_once_iff_ahead :
    ∃ launched processed, Toggled (constant 7) tiny ahead [(queued, true)] launched processed ∧
    launched = processed ++ ahead.inflight.toList := by
  obtain ⟨launched, processed, h⟩ := ahead_toggled
  exact ⟨launched, processed, h, ((read_back_once_iff h).mpr (by simp)).1⟩

theorem switched_off_drops : ¬ ∀ e steps launched processed, Toggled (constant 7) tiny e steps launched processed →
    launched = processed ++ e.inflight.toList ∧
      (e.inflight = none → ∀ r, placeholder ∉ (e.request r).outputIds ∧ (e.request r).numPending = 0) := by
  intro hall
  obtain ⟨launched, processed, h⟩ := ahead_toggled
  have hrun := h.next false (by decide +kernel)
  have hlen := hrun.lengths
  rw [(hall _ _ _ _ hrun).1, List.length_append] at hlen
  have hdrop : (([(queued, true)] ++ [(ahead, false)]).filter Drops).length = 1 := by decide +kernel
  omega

end Switched

end Engine

end MiniServe
