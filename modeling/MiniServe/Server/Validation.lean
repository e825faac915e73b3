import MiniServe.Engine.Queues
import MiniServe.Server.Protocol

namespace MiniServe

namespace Server

inductive Body where
  | chat (req : ChatCompletionRequest)
  | completion (req : CompletionRequest)

namespace Body

def seed : Body → Option Int
  | chat req => req.seed
  | completion req => req.seed

def samplingParams (numPromptTokens contextLen : Nat) (stopTokenIds : List Token) :
    Body → Except ProtocolError SamplingParams
  | chat req => req.samplingParams numPromptTokens contextLen stopTokenIds
  | completion req => req.samplingParams numPromptTokens contextLen stopTokenIds

end Body

-- `pool` is the number of blocks and their size, when the engine's KV is paged.
def contextLen (maxPositionEmbeddings : Nat) (pool : Option (Nat × Nat)) : Nat :=
  match pool with
  | none => maxPositionEmbeddings
  | some (numBlocks, blockSize) => min maxPositionEmbeddings (numBlocks * blockSize)

section Checks

variable {m : Int} {stop : List Token} {temperature topP : PyFloat} {seed : Option Int} {p : SamplingParams}
  {n ctx : Nat} {requested : Option Int} {e : ParamError}

theorem newParams_ok (h : newParams m stop temperature topP seed = .ok p) :
    1 ≤ m ∧ (p.maxNewTokens : Int) = m ∧ p.seed = seed.map Int.toNat := by
  unfold newParams at h
  split at h
  · simp at h
  · next hm =>
    split at h
    · simp at h
    · split at h
      any_goals simp at h
      split at h
      · simp at h
      · split at h
        · cases h
          refine ⟨by omega, ?_, rfl⟩
          exact Int.toNat_of_nonneg (by omega)
        · split at h
          · cases h
            refine ⟨by omega, ?_, rfl⟩
            exact Int.toNat_of_nonneg (by omega)
          · simp at h

-- The checks of the engine that the server leaves to it are those of the temperature and of top_p.
theorem newParams_error (hm : 1 ≤ m) (hs : ∀ s, seed = some s → 0 ≤ s ∧ s < 2 ^ 32)
    (h : newParams m stop temperature topP seed = .error e) : e = .temperature temperature ∨ e = .topP topP := by
  unfold newParams at h
  rw [dif_neg (by omega : ¬ m < 1)] at h
  split at h
  · cases h
    exact .inl rfl
  · split at h
    any_goals
      cases h
      exact .inr rfl
    split at h
    · cases h
      exact .inr rfl
    · split at h
      · simp at h
      · next s =>
        rw [dif_pos (hs s rfl)] at h
        simp at h

theorem boundedTokens_ok (hroom : 1 ≤ (ctx : Int) - n) (h : GenerationRequest.boundedTokens requested n ctx = .ok m) :
    1 ≤ m ∧ n + m ≤ ctx := by
  unfold GenerationRequest.boundedTokens at h
  cases requested with
  | none =>
    cases h
    omega
  | some k =>
    simp only at h
    split at h
    · simp at h
    · split at h
      · simp at h
      · cases h
        omega

end Checks

section Params

variable {req : GenerationRequest} {topLogprobs : Option Int} {requested : Except ProtocolError (Option Int)}
  {n ctx : Nat} {stop : List Token} {p : SamplingParams} {body : Body} {e : ProtocolError}

structure Bounded (n ctx : Nat) (seed : Option Int) (p : SamplingParams) : Prop where
  pos : 1 ≤ n
  maxNewTokens : 1 ≤ p.maxNewTokens
  fits : n + p.maxNewTokens ≤ ctx
  seed : p.seed = seed.map fun s => (s % 2 ^ 32).toNat

theorem GenerationRequest.samplingParams_ok (h : req.samplingParams topLogprobs requested n ctx stop = .ok p) :
    Bounded n ctx req.seed p := by
  unfold GenerationRequest.samplingParams at h
  cases hc : req.checkSupported topLogprobs with
  | error e => simp [hc] at h
  | ok u =>
    simp only [hc] at h
    split at h
    · simp at h
    · next hn =>
      split at h
      · simp at h
      · next hroom =>
        cases hr : requested with
        | error e => simp [hr] at h
        | ok requested =>
          simp only [hr] at h
          cases hb : boundedTokens requested n ctx with
          | error e => simp [hb] at h
          | ok m =>
            simp only [hb] at h
            split at h
            · simp at h
            · next p' hp =>
              cases h
              have hm := boundedTokens_ok (by omega) hb
              obtain ⟨-, hmax, hseed⟩ := newParams_ok hp
              refine ⟨by omega, by omega, by omega, ?_⟩
              rw [hseed, Option.map_map]
              rfl

theorem GenerationRequest.samplingParams_error {pe : ParamError}
    (h : req.samplingParams topLogprobs requested n ctx stop = .error (.params pe))
    (hreq : ∀ e, requested = .error e → ∀ pe, e ≠ .params pe) :
    pe = .temperature (req.temperature.getD 1) ∨ pe = .topP (req.topP.getD 1) := by
  unfold GenerationRequest.samplingParams at h
  cases hc : req.checkSupported topLogprobs with
  | error e =>
    simp only [hc, Except.error.injEq] at h
    unfold checkSupported at hc
    split at hc
    · simp at hc
    · cases hc
      simp at h
  | ok u =>
    simp only [hc] at h
    split at h
    · simp at h
    · next hn =>
      split at h
      · simp at h
      · next hroom =>
        cases hr : requested with
        | error e =>
          simp only [hr, Except.error.injEq] at h
          exact absurd h (hreq e hr pe)
        | ok requested =>
          simp only [hr] at h
          cases hb : boundedTokens requested n ctx with
          | error e =>
            simp only [hb, Except.error.injEq] at h
            subst h
            unfold boundedTokens at hb
            cases requested with
            | none => simp at hb
            | some k =>
              simp only at hb
              split at hb
              · simp at hb
              · split at hb <;> simp at hb
          | ok m =>
            simp only [hb] at h
            split at h
            · next e hp =>
              simp only [Except.error.injEq, ProtocolError.params.injEq] at h
              subst h
              refine newParams_error (boundedTokens_ok (by omega) hb).1 (fun s hs => ?_) hp
              obtain ⟨t, -, rfl⟩ := Option.map_eq_some_iff.mp hs
              omega
            · simp at h

theorem Body.samplingParams_ok (h : body.samplingParams n ctx stop = .ok p) : Bounded n ctx body.seed p := by
  cases body with
  | chat req => exact GenerationRequest.samplingParams_ok h
  | completion req =>
    have h : req.toGenerationRequest.samplingParams none (.ok (some req.requestedMaxTokens)) n ctx stop = .ok p := h
    exact GenerationRequest.samplingParams_ok h

theorem Body.samplingParams_error {pe : ParamError} (h : body.samplingParams n ctx stop = .error (.params pe)) :
    (∃ t, pe = .temperature t) ∨ ∃ t, pe = .topP t := by
  cases body with
  | chat req =>
    refine (GenerationRequest.samplingParams_error h fun e he pe => ?_).imp (fun h => ⟨_, h⟩) fun h => ⟨_, h⟩
    unfold ChatCompletionRequest.requestedMaxTokens at he
    split at he <;> simp at he
    subst he
    simp
  | completion req =>
    have h : req.toGenerationRequest.samplingParams none (.ok (some req.requestedMaxTokens)) n ctx stop =
      .error (.params pe) := h
    exact (GenerationRequest.samplingParams_error h fun e he => by simp at he).imp (fun h => ⟨_, h⟩) fun h => ⟨_, h⟩

end Params

section Engine

variable {n maxPositionEmbeddings numBlocks blockSize : Nat} {seed : Option Int} {p : SamplingParams}
  {prompt : List Token} {s : Scheduler} {q : Request}

theorem Bounded.accepted (h : Bounded n (contextLen maxPositionEmbeddings (some (numBlocks, blockSize))) seed p)
    (hlen : q.promptIds.length = n) (hp : q.params = p) (hstep : s.tokensPerStep = 1)
    (hn : s.kv.allocator.numBlocks = numBlocks) (hb : s.kv.blockSize = blockSize) : s.Accepted q := by
  have hfits : q.maxLen ≤ numBlocks * blockSize := by
    have := h.fits.trans (Nat.min_le_right _ _)
    rw [Request.maxLen, hlen, hp]
    exact this
  have hpos : (0 : Int) < s.kv.blockSize := by
    have := @KVCacheManager.blockSize_pos s.kv
    omega
  unfold Scheduler.Accepted Scheduler.blocksFor
  rw [ceilDiv_le hpos, hstep, Nat.add_sub_cancel, hn, hb]
  exact_mod_cast hfits

theorem Bounded.new (h : Bounded n (contextLen maxPositionEmbeddings (some (numBlocks, blockSize))) seed p)
    (hlen : prompt.length = n)
    (rid : Rid) : Request.new rid prompt p = .ok { rid, promptIds := prompt, params := p } := by
  have hne : prompt ≠ [] := List.length_pos_iff.mp (hlen ▸ h.pos)
  simp [Request.new, hne]

theorem Bounded.add (h : Bounded n (contextLen maxPositionEmbeddings (some (numBlocks, blockSize))) seed p)
    (hlen : q.promptIds.length = n) (hp : q.params = p) (hstate : q.state = .waiting) (hstep : s.tokensPerStep = 1)
    (hn : s.kv.allocator.numBlocks = numBlocks) (hb : s.kv.blockSize = blockSize) : ∃ s', s.add q = .ok s' := by
  have hacc := h.accepted hlen hp hstep hn hb
  refine ⟨{ s.set q.rid q with waiting := s.waiting ++ [q.rid] }, ?_⟩
  simp only [Scheduler.add]
  rw [if_neg (not_not.mpr hstate), if_neg (not_lt.mpr hacc)]

theorem validation_covers_engine (body : Body) (n maxPositionEmbeddings numBlocks blockSize : Nat)
    (stopTokenIds : List Token) :
    (∀ pe, body.samplingParams n (contextLen maxPositionEmbeddings (some (numBlocks, blockSize))) stopTokenIds =
        .error (.params pe) → (∃ t, pe = .temperature t) ∨ ∃ t, pe = .topP t) ∧
      ∀ p, body.samplingParams n (contextLen maxPositionEmbeddings (some (numBlocks, blockSize))) stopTokenIds = .ok p →
        1 ≤ p.maxNewTokens ∧ n + p.maxNewTokens ≤ contextLen maxPositionEmbeddings (some (numBlocks, blockSize)) ∧
        (p.seed = body.seed.map fun s => (s % 2 ^ 32).toNat) ∧ (∀ t, p.seed = some t → t < 2 ^ 32) ∧
        ∀ prompt : List Token, prompt.length = n →
          (∀ rid, ∃ q, Request.new rid prompt p = .ok q ∧ q.promptIds = prompt ∧ q.params = p ∧
            ∀ s : Scheduler, s.tokensPerStep = 1 → s.kv.allocator.numBlocks = numBlocks → s.kv.blockSize = blockSize →
              ∃ s', s.add q = .ok s') ∧
          ∀ model c e, Engine.Reachable model c (fun _ => True) e → c.tokensPerStep = 1 → c.numBlocks = numBlocks →
            c.blockSize = blockSize → (e.addRequest prompt p).1 = .ok e.nextRid := by
  refine ⟨fun pe => Body.samplingParams_error, fun p hp => ?_⟩
  have hB := Body.samplingParams_ok hp
  refine ⟨hB.maxNewTokens, hB.fits, hB.seed, p.seed_lt, fun prompt hlen => ⟨fun rid => ?_, ?_⟩⟩
  · exact ⟨_, hB.new hlen rid, rfl, rfl, fun s hstep hn hb => hB.add hlen rfl rfl hstep hn hb⟩
  · intro model c e he hstep hn hb
    have hsame := he.same
    have hacc : e.scheduler.Accepted (e.submission prompt p) :=
      hB.accepted hlen rfl (hsame.tokensPerStep.trans hstep) (hsame.numBlocks.trans hn) (hsame.blockSize.trans hb)
    exact Engine.addRequest_ok (List.length_pos_iff.mp (hlen ▸ hB.pos)) hacc

def oddSeed : Body := .chat { maxCompletionTokens := some 12, seed := some (-1) }

theorem validation_covers_engine_oddSeed : ∃ p, oddSeed.samplingParams 4 (contextLen 40960 (some (4, 4))) [0] = .ok p ∧
    4 + p.maxNewTokens ≤ 16 ∧ p.seed = some 4294967295 ∧
    ∀ model, ((Engine.new { Engine.roomy 3 with blockSize := 4, blockSize_pos := by decide }).addRequest
      [1, 2, 3, 4] p).1 = .ok 0 ∧
      Engine.Reachable model { Engine.roomy 3 with blockSize := 4, blockSize_pos := by decide } (fun _ => True)
        (.new { Engine.roomy 3 with blockSize := 4, blockSize_pos := by decide }) := by
  obtain ⟨p, hp⟩ : ∃ p, oddSeed.samplingParams 4 (contextLen 40960 (some (4, 4))) [0] = .ok p := ⟨_, rfl⟩
  obtain ⟨-, h⟩ := validation_covers_engine oddSeed 4 40960 4 4 [0]
  obtain ⟨-, hfits, hseed, -, hprompt⟩ := h p hp
  exact ⟨p, hp, hfits, hseed, fun model => ⟨(hprompt [1, 2, 3, 4] rfl).2 model _ _ .init rfl rfl rfl, .init⟩⟩

end Engine

end Server

end MiniServe
