import MiniServe.Engine.ContiguousReach
import MiniServe.Engine.Longs
import MiniServe.Engine.Queues
import MiniServe.Lib.Jobs
import MiniServe.Spec.Output

namespace MiniServe

open Generate

namespace Contiguous

namespace Engine

variable {model : Model} {e e' : Engine} {c : EngineConfig} {params : SamplingParams} {r : Rid}

instance : Decidable e.hasUnfinished := inferInstanceAs (Decidable ((_ ∨ _) ∨ _))

-- The engine as `generate` uses it: submit every prompt, then step until nothing is unfinished.
def offline (model : Model) (params : SamplingParams) : Jobs.Machine Engine RunError (List Token) Rid (List Token) where
  submit p e :=
    match e.addRequest p params with
    | (.error err, e) => (.error (.engine err), e)
    | (.ok r, e) => (.ok r, e)
  busy e := e.hasUnfinished
  turn e :=
    match e.step model with
    | .error err => (.error err, e)
    | .ok (_, e) => (.ok (), e)
  result e r := (e.request r).outputIds
  dec _ := inferInstance

def generate (model : Model) (fuel : Nat) (prompts : List (List Token)) (params : SamplingParams) (e : Engine) :
    Option (Except RunError (List (List Token)) × Engine) := (offline model params).runAll fuel prompts e

def submissionAt (e : Engine) (params : SamplingParams) (i : Nat) (prompt : List Token) : Request :=
  { rid := e.nextRid + i, promptIds := prompt, params, seed := params.seed.getD (e.seeds (e.drawn + i)) }

structure Owes (model : Model) (e : Engine) (r : Rid) (out : List Token) : Prop where
  here : r ∈ e.requests ∨ (e.request r).state = .finished
  output : model.output (e.request r) = out

theorem Owes.step {out : List Token} (h : Owes model e r out) (he : Ready model e) (he' : Ready model e')
    (hs : Stepped model e e') :
    Owes model e' r out := by
  have hp := hs.pursued (l := [r]) he he' fun x hx => List.mem_singleton.mp hx ▸ h.here
  exact ⟨hp r (List.mem_singleton_self r), (Model.output_alike (hs.alike r)).trans h.output⟩

theorem Ready.fresh (h : Ready model e) {out : List Token} (ho : Owes model e r out) : r ≠ e.nextRid := by
  rintro rfl
  obtain ⟨hb, hq⟩ := h.sound.later _ le_rfl
  rcases ho.here with hin | hf
  · exact hq (h.sound.requests.mem_iff.mp hin)
  · rw [hb] at hf
    cases hf

theorem serves (c : EngineConfig) (params : SamplingParams) (hm : model.Long) :
    (offline model params).Serves (Reachable model c) Plain
      (fun e i p => model.output (e.submissionAt params i p)) (Owes model)
        (fun p err => p = [] ∧ err = .engine .emptyPrompt)
      (fun _ => False) effort where
  submit := fun e p he hp => by
    have hadd : Reachable model c (e.addRequest p params).2 := .add he hp
    rcases e.addRequest_cases p params with ⟨hnil, h⟩ | ⟨q, -, rfl, h⟩
    · exact .inl ⟨.engine .emptyPrompt, { e with nextRid := e.nextRid + 1 }, by simp [offline, h], hnil, rfl⟩
    · refine .inr ⟨e.nextRid, (e.addRequest p params).2,
        by simp [offline, h], hadd, ?_, fun r out ho => ?_, fun n j => ?_⟩
      · have hself : (e.addRequest p params).2.request e.nextRid = e.submissionAt params 0 p := by
          rw [h]
          exact Function.update_self ..
        exact ⟨.inl (by rw [h]; simp), by rw [hself]⟩
      · have hne := (he.ready hm).fresh ho
        have hsame : (e.addRequest p params).2.request r = e.request r := by
          rw [h]
          exact Function.update_of_ne hne ..
        refine ⟨?_, by rw [hsame]; exact ho.output⟩
        rw [hsame, h]
        exact ho.here.imp (List.mem_append_left _) id
      · have hsub : (e.addRequest p params).2.submissionAt params n j = e.submissionAt params (n + 1) j := by
          rw [h]
          cases hs : params.seed <;> simp [submissionAt, hs, Nat.add_assoc, Nat.add_comm 1 n]
        rw [hsub]
  turn := fun e he hu => by
    have hr := he.ready hm
    obtain ⟨out, e', hstep, he', hs⟩ := hr.step
    exact .inr ⟨e', by simp [offline, hstep], .step he hstep, hs.effort_lt hr hu, fun r out ho => ho.step hr he' hs⟩
  done := fun e r out he hidle ho => by
    have hrun : e.scheduler.running = [] := by
      by_contra hne
      exact hidle (.inl (.inr hne))
    have hwait : e.scheduler.waiting = [] := by
      by_contra hne
      exact hidle (.inl (.inl hne))
    have hf : (e.request r).state = .finished := by
      refine ho.here.resolve_left fun hin => ?_
      have hq := (he.ready hm).sound.requests.mem_iff.mp hin
      rw [queued, hrun, hwait] at hq
      exact List.not_mem_nil hq
    exact (((he.ready hm).sound.told r).finished hf).trans ho.output

end Engine

end Contiguous

structure EngineConfig.Fits (c : EngineConfig) (params : SamplingParams) (p : List Token) : Prop where
  prompt : p ≠ []
  room : ceilDiv (p.length + params.maxNewTokens + c.tokensPerStep - 1 : Nat) c.blockSize ≤ c.numBlocks

namespace Engine

variable {model : Model} {e e' : Engine} {c : EngineConfig} {params : SamplingParams} {r : Rid}

section Capacity

-- Without the prefix cache a running request keeps nothing but its own blocks, and `add` has counted these.
theorem Reachable.not_stuck {ok : List Token → Prop} (h : Reachable model c ok e) (hradix : c.radix = false) :
    ¬ e.scheduler.Stuck := by
  have he := h.sound
  have htree : e.scheduler.kv.tree = none := by
    have hsome := h.same.radix
    rw [show c.scheduler.kv.tree.isSome = c.radix by
      simp [EngineConfig.scheduler, KVCacheManager.new]; cases c.radix <;> rfl,
      hradix] at hsome
    simpa using hsome
  rintro ⟨r, hlead, hlt⟩
  have hr := Scheduler.lead_mem hlead
  have hr' : r ∈ e.scheduler.running ++ [] := by simpa using hr
  have hpool : (e.scheduler.pool [] e.entries).Sound := he.pool
  have hact := Scheduler.pool_active hpool hr'
  have hacc := h.accepted r (he.mem_queues.mpr (.inl hr))
  have hown : (e.scheduler.ownBlocks r).length = (e.scheduler.reqs r).tableBlocks.length := by
    simp [Scheduler.ownBlocks, KVCacheManager.nodeBlocks, htree]
  have hav := Scheduler.available_le hpool hr'
  have hnn := Scheduler.available_nonneg hpool
  rw [hown] at hav hlt
  rcases hact.phase with ⟨hst, -, h0⟩ | ⟨hst, hcov, -⟩
  · have hle := hacc.blocksFor_le (hact.room h0)
    rw [Scheduler.cost_of_prefill hst, Scheduler.prefillRest] at hlt
    simp only [Engine.request] at hle
    omega
  · have hroom : (e.scheduler.reqs r).outputIds.length < (e.scheduler.reqs r).params.maxNewTokens := by
      by_contra hfull
      exact Scheduler.lead_not_spent hlead ⟨hst, not_lt.mp hfull⟩
    have hdec : (e.scheduler.reqs r).decodes := ⟨hst, not_le.mpr hroom⟩
    have hbs : (0 : Int) < e.scheduler.kv.blockSize := by have := @KVCacheManager.blockSize_pos e.scheduler.kv; omega
    have hneed : ceilDiv (((e.scheduler.reqs r).covered : Int) + e.scheduler.tokensPerStep) e.scheduler.kv.blockSize ≤
        e.scheduler.kv.allocator.numBlocks := by
      refine (ceilDiv_mono hbs ?_).trans hacc
      have := e.scheduler.tokensPerStep_pos
      simp only [Request.seqLen] at hcov
      simp only [Request.maxLen, Engine.request]
      omega
    rw [Scheduler.cost, if_pos hdec, Scheduler.stepNeed, BlockTable.need, Scheduler.table_numTokens,
      Scheduler.table_blocks] at hlt
    omega

end Capacity

section Serves

def offline (model : Model) (params : SamplingParams) : Jobs.Machine Engine Error (List Token) Rid (List Token) where
  submit p e := e.addRequest p params
  busy e := e.hasUnfinished
  turn e :=
    match e.step model with
    | (.error err, e) => (.error err, e)
    | (.ok _, e) => (.ok (), e)
  result e r := (e.request r).outputIds
  dec _ := inferInstance

def generate (model : Model) (fuel : Nat) (prompts : List (List Token)) (params : SamplingParams) (e : Engine) :
    Option (Except Error (List (List Token)) × Engine) := (offline model params).runAll fuel prompts e

def submissionAt (e : Engine) (params : SamplingParams) (i : Nat) (prompt : List Token) : Request :=
  { rid := e.nextRid + i, promptIds := prompt, params, seed := params.seed.getD (e.seeds (e.drawn + i)) }

structure Owes (model : Model) (e : Engine) (r : Rid) (out : List Token) : Prop where
  here : r ∈ e.requests ∨ (e.request r).state = .finished
  prompt : (e.request r).promptIds ≠ []
  output : model.output (e.request r) = out

theorem addRequest_told {ok : List Token → Prop} (h : Reachable model c ok e) (p : List Token) :
    (¬ c.Fits params p ∧ ∃ err, (e.addRequest p params).1 = .error err ∧ err.kind = .valueError) ∨
      c.Fits params p ∧ ∃ e', e.addRequest p params = (.ok e.nextRid, e') ∧
        e'.request e.nextRid = e.submissionAt params 0 p ∧
        (∀ r, r ≠ e.nextRid → e'.request r = e.request r) ∧ e'.requests = e.requests ++ [e.nextRid] ∧
        ∀ n j, e'.submissionAt params n j = e.submissionAt params (n + 1) j := by
  have hsame := h.same
  have hbs : e.scheduler.kv.blockSize = c.blockSize := hsame.blockSize
  have hnum : e.scheduler.kv.allocator.numBlocks = c.numBlocks := hsame.numBlocks
  have htps : e.scheduler.tokensPerStep = c.tokensPerStep := hsame.tokensPerStep
  by_cases hp : p = []
  · exact .inl ⟨fun hf => hf.prompt hp, .emptyPrompt, by simp [addRequest, Request.new, hp], rfl⟩
  let q : Request := { rid := e.nextRid, promptIds := p, params, seed := params.seed.getD (e.seeds e.drawn) }
  have hq : Request.new e.nextRid p params = .ok { rid := e.nextRid, promptIds := p, params } := by
    simp [Request.new, hp]
  have hblocks : e.scheduler.blocksFor (q.maxLen + e.scheduler.tokensPerStep - 1) =
      ceilDiv (p.length + params.maxNewTokens + c.tokensPerStep - 1 : Nat) c.blockSize := by
    rw [Scheduler.blocksFor, hbs, htps]
    rfl
  by_cases hfit : ceilDiv (p.length + params.maxNewTokens + c.tokensPerStep - 1 : Nat) c.blockSize ≤ c.numBlocks
  · have hadd : e.scheduler.add q = .ok { e.scheduler.set q.rid q with waiting := e.scheduler.waiting ++ [q.rid] } := by
      simp only [Scheduler.add]
      rw [if_neg (by simp [q]), if_neg (by rw [hblocks, hnum]; exact not_lt.mpr hfit)]
    refine .inr ⟨⟨hp, hfit⟩, { e with
      nextRid := e.nextRid + 1
      drawn := params.seed.elim (e.drawn + 1) fun _ => e.drawn
      requests := e.requests ++ [q.rid]
      scheduler := { e.scheduler.set q.rid q with waiting := e.scheduler.waiting ++ [q.rid] } }, ?_,
      Function.update_self ..,
      fun r hr => Function.update_of_ne hr .., rfl, fun n j => ?_⟩
    · simp only [addRequest, hq]
      rw [show e.scheduler.add _ = _ from hadd]
      cases params.seed <;> rfl
    · cases hs : params.seed <;> simp [submissionAt, hs, Nat.add_assoc, Nat.add_comm 1 n]
  · have hadd : e.scheduler.add q = .error (.needsMoreThanPool q.rid q.maxLen
        (e.scheduler.kv.allocator.numBlocks * e.scheduler.kv.blockSize)) := by
      simp only [Scheduler.add]
      rw [if_neg (by simp [q]), if_pos (by rw [hblocks, hnum]; exact not_le.mp hfit)]
    refine .inl ⟨fun hf => hfit hf.room, .needsMoreThanPool q.rid q.maxLen
      (e.scheduler.kv.allocator.numBlocks * e.scheduler.kv.blockSize), ?_, rfl⟩
    simp only [addRequest, hq]
    rw [show e.scheduler.add _ = _ from hadd]

theorem Owes.step {ok : List Token → Prop} {out : List Token} (h : Owes model e r out) (he : Reachable model c ok e)
    (he' : Reachable model c ok e') (hs : Stepped model e e') : Owes model e' r out := by
  have hp := hs.pursued (l := [r]) he.sound he'.sound fun x hx => List.mem_singleton.mp hx ▸ h.here
  have ha := hs.alike h.prompt
  exact ⟨hp r (List.mem_singleton_self r), ha.ne_nil h.prompt, (Model.output_alike ha).trans h.output⟩

theorem Owes.known {out : List Token} (h : Owes model e r out) (he : e.Sound) : r ≠ e.nextRid := by
  rintro rfl
  have hb : e.request e.nextRid = Request.blank e.nextRid := (he.later _ le_rfl).1
  exact h.prompt (by rw [hb]; rfl)

theorem serves (c : EngineConfig) (params : SamplingParams) (hm : model.Long) :
    (offline model params).Serves (Reachable model c Plain) Plain
      (fun e i p => model.output (e.submissionAt params i p)) (Owes model)
      (fun p err => ¬ c.Fits params p ∧ err.kind = .valueError)
      (fun err => c.radix = true ∧ err = .loneRequestDoesNotFit) effort where
  submit := fun e p he hp => by
    rcases addRequest_told he p with ⟨hfit, err, herr, hkind⟩ | ⟨hfit, e', h, hself, hother, hrequests, hnext⟩
    · exact .inl ⟨err, (e.addRequest p params).2, Prod.ext herr rfl, hfit, hkind⟩
    · have hadd : Reachable model c Plain (e.addRequest p params).2 := .add he hp
      rw [h] at hadd
      refine .inr ⟨e.nextRid, e', h, hadd, ⟨.inl (by rw [hrequests]; simp), ?_, by rw [hself]⟩,
        fun r out ho => ?_, fun n j => ?_⟩
      · rw [hself]
        exact hfit.prompt
      · have hsame := hother r (ho.known he.sound)
        refine ⟨?_, by rw [hsame]; exact ho.prompt, by rw [hsame]; exact ho.output⟩
        rw [hsame, hrequests]
        exact ho.here.imp (List.mem_append_left _) id
      · rw [hnext]
  turn := fun e he hu => by
    rcases he.sound.step_cases model with ⟨s, hsch, h⟩ | ⟨b, s, err, hsch, hfill, -⟩ | ⟨out, e', h, -, hs, -⟩
    · refine .inl ⟨.loneRequestDoesNotFit, { e with scheduler := s }, by simp [offline, h], ?_, rfl⟩
      by_contra hradix
      obtain ⟨hS, -⟩ := he.sound.schedule
      exact he.not_stuck (Bool.eq_false_iff.mpr hradix) (hS.stuck.mp (by rw [hsch]))
    · exact absurd hfill (he.accepts hm hsch)
    · have he' : Reachable model c Plain e' := .step he h
      have hdrain : Draining e.requests e := ⟨he.sound, he.accepted, fun r hr => .inl hr⟩
      exact .inr ⟨e', by simp [offline, h], he', (hdrain.step hu h).2, fun r out ho => ho.step he he' hs⟩
  done := fun e r out he hidle ho => by
    have hf : (e.request r).state = .finished := by
      refine ho.here.resolve_left fun hin => hidle (.inl ?_)
      rcases he.sound.mem_queues.mp hin with hq | hq
      · exact .inr (List.ne_nil_of_mem hq)
      · exact .inl (List.ne_nil_of_mem hq)
    have hout : (e.request r).outputIds = model.output (e.request r) := (he.unmarked.content.told r).finished hf
    exact hout.trans ho.output

end Serves

end Engine

section Outputs

variable {prompts : List (List Token)} {params : SamplingParams}

theorem generate_matches_greedy {target : Target} {c : Contiguous.EngineConfig} {e : Contiguous.Engine}
    (h : Contiguous.Engine.Reachable target.toModel c e) (hm : target.toModel.Long) (hg : params.isGreedy)
    (hp : ∀ p ∈ prompts, p ≠ [] ∧ Plain p) :
    ∃ fuel outs e', e.generate target.toModel fuel prompts params = some (.ok outs, e') ∧ ¬ e'.hasUnfinished ∧
      List.Forall₂
        (fun p out => greedyGenerate target.greedy params.stopTokenIds p params.maxNewTokens = .ok out)
        prompts outs := by
  obtain ⟨fuel, res, e', hrun, hend⟩ := (Contiguous.Engine.serves c params hm).runAll_ends h fun p hmem => (hp p hmem).2
  rcases hend with ⟨rfl, -, hidle⟩ | ⟨err, -, hraise⟩
  · refine ⟨fuel, _, e', hrun, hidle, Jobs.forall₂_mapIdx fun n p hmem => ?_⟩
    have hdecode : target.toModel.output (e.submissionAt params n p) = target.decode p params := Target.output_greedy hg
    rw [greedyGenerate_eq (hp p hmem).1 (hp p hmem).2.2 (target.greedy_long hm), hdecode]
    rfl
  · rcases hraise with ⟨p, hmem, hnil, -⟩ | hfails
    · exact absurd hnil (hp p hmem).1
    · exact hfails.elim

theorem generate_matches_greedy_counter : ∃ fuel e', (Contiguous.Engine.new Contiguous.Engine.lagging).generate
    SpecEngine.counter.toModel fuel [[1, 2], [5]] { maxNewTokens := 3 } = some (.ok [[2, 3, 4], [1, 2, 3]], e') ∧
      ¬ e'.hasUnfinished := by
  obtain ⟨fuel, outs, e', hrun, hidle, hall⟩ := @generate_matches_greedy [[1, 2], [5]] { maxNewTokens := 3 }
    SpecEngine.counter Contiguous.Engine.lagging _ .init SpecEngine.counter_long (by decide) (by decide)
  obtain _ | ⟨h1, _ | ⟨h2, _ | _⟩⟩ := hall
  have hfirst : greedyGenerate SpecEngine.counter.greedy [] [1, 2] 3 = .ok [2, 3, 4] := by rfl
  have hsecond : greedyGenerate SpecEngine.counter.greedy [] [5] 3 = .ok [1, 2, 3] := by rfl
  obtain rfl := Except.ok.inj (hfirst.symm.trans h1)
  obtain rfl := Except.ok.inj (hsecond.symm.trans h2)
  exact ⟨fuel, e', hrun, hidle⟩

theorem paged_generate_agrees {model : Model} {c : EngineConfig} {d : Contiguous.EngineConfig} {e : Engine}
    {ref : Contiguous.Engine} (h : Engine.Reachable model c Plain e) (hm : model.Long)
    (href : Contiguous.Engine.Reachable model d ref) (hseeds : ref.seeds = e.seeds ∧ ref.drawn = e.drawn)
    (hp : ∀ p ∈ prompts, p ≠ [] ∧ Plain p) :
    ∃ outs, (∃ fuel ref', ref.generate model fuel prompts params = some (.ok outs, ref') ∧ ¬ ref'.hasUnfinished) ∧
      ∃ fuel res e', e.generate model fuel prompts params = some (res, e') ∧
        ((res = .ok outs ∧ ¬ e'.hasUnfinished) ∨
          (∃ p ∈ prompts, ¬ c.Fits params p ∧ ∃ err, res = .error err ∧ err.kind = .valueError) ∨
          (c.radix = true ∧ res = .error .loneRequestDoesNotFit)) := by
  obtain ⟨fuel, res, ref', hrun, hend⟩ :=
    (Contiguous.Engine.serves d params hm).runAll_ends href fun p hmem => (hp p hmem).2
  obtain ⟨fuel', res', e', hrun', hend'⟩ := (Engine.serves c params hm).runAll_ends h fun p hmem => (hp p hmem).2
  have hsame : (fun i p => model.output (e.submissionAt params i p)) =
      fun i p => model.output (ref.submissionAt params i p) := by
    funext i p
    apply Model.output_alike
    refine ⟨rfl, rfl, ?_⟩
    simp only [Engine.submissionAt, Contiguous.Engine.submissionAt, hseeds.1, hseeds.2]
  rcases hend with ⟨rfl, -, hidle⟩ | ⟨err, -, ⟨p, hmem, hnil, -⟩ | hfails⟩
  · refine ⟨_, ⟨fuel, ref', hrun, hidle⟩, fuel', res', e', hrun', ?_⟩
    rcases hend' with ⟨rfl, -, hidle'⟩ | ⟨err, rfl, ⟨p, hmem, hfit, hkind⟩ | ⟨hradix, rfl⟩⟩
    · exact .inl ⟨by rw [hsame], hidle'⟩
    · exact .inr (.inl ⟨p, hmem, hfit, err, rfl, hkind⟩)
    · exact .inr (.inr ⟨hradix, rfl⟩)
  · exact absurd hnil (hp p hmem).1
  · exact hfails.elim

def uncached : EngineConfig := { Engine.tiny with radix := false }

theorem paged_generate_agrees_uncached : ∃ outs,
    (∃ fuel ref', (Contiguous.Engine.new Contiguous.Engine.lagging).generate (Engine.constant 7) fuel [[1, 2], [3]]
      { maxNewTokens := 2 } = some (.ok outs, ref')) ∧
      ∃ fuel e', (Engine.new uncached).generate (Engine.constant 7) fuel [[1, 2], [3]] { maxNewTokens := 2 } =
        some (.ok outs, e') := by
  have hfits : ∀ p ∈ [[1, 2], [3]], uncached.Fits { maxNewTokens := 2 } p := by
    intro p hp
    rcases List.mem_pair.mp hp with rfl | rfl
    · exact ⟨by decide, by decide⟩
    · exact ⟨by decide, by decide⟩
  obtain ⟨outs, ⟨fuel, ref', href, -⟩, fuel', res, e', hrun, hend⟩ := @paged_generate_agrees [[1, 2], [3]]
    { maxNewTokens := 2 } (Engine.constant 7) uncached Contiguous.Engine.lagging _ _ .init
    (Engine.constant_long (by decide)) .init ⟨rfl, rfl⟩ (by decide)
  rcases hend with ⟨rfl, -⟩ | ⟨p, hp, hno, -⟩ | ⟨hradix, -⟩
  · exact ⟨outs, ⟨fuel, ref', href⟩, fuel', e', hrun⟩
  · exact absurd (hfits p hp) hno
  · exact absurd hradix (by decide)

end Outputs

end MiniServe
