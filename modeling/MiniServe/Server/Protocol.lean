import MiniServe.Engine.Longs
import MiniServe.Engine.Output
import MiniServe.Engine.Progress

namespace MiniServe

namespace Server

inductive Prompt where
  | text (s : String)
  | ids (l : List Int)
  deriving DecidableEq, Repr

inductive Stop where
  | text (s : String)
  | list (l : List String)
  deriving DecidableEq, Repr

inductive Logprobs where
  | flag (b : Bool)
  | count (n : Int)
  deriving DecidableEq, Repr

structure GenerationRequest where
  maxTokens : Option Int := none
  temperature : Option PyFloat := none
  topP : Option PyFloat := none
  seed : Option Int := none
  ignoreEos : Bool := false
  n : Option Int := none
  stop : Option Stop := none
  presencePenalty : Option PyFloat := none
  frequencyPenalty : Option PyFloat := none
  logprobs : Option Logprobs := none

structure ChatCompletionRequest extends GenerationRequest where
  maxCompletionTokens : Option Int := none
  topLogprobs : Option Int := none

structure CompletionRequest extends GenerationRequest where
  prompt : Prompt

inductive ParamError where
  | maxNewTokens (got : Int)
  | temperature (got : PyFloat)
  | topP (got : PyFloat)
  | seed (got : Int)
  deriving DecidableEq, Repr

inductive ProtocolError where
  | notSupported (what : List String)
  | emptyPrompt
  | noRoom (numPromptTokens contextLen : Nat)
  | bothMaxTokens
  | maxTokens (got : Int)
  | exceedsContext (numPromptTokens : Nat) (maxTokens : Int) (contextLen : Nat)
  | params (e : ParamError)
  deriving DecidableEq, Repr

-- The checks of `SamplingParams.__post_init__`.
def newParams (maxNewTokens : Int) (stopTokenIds : List Token) (temperature topP : PyFloat) (seed : Option Int) :
    Except ParamError SamplingParams :=
  if h1 : maxNewTokens < 1 then .error (.maxNewTokens maxNewTokens)
  else if h2 : ¬ temperature.Nonneg then .error (.temperature temperature)
  else
    match topP with
    | .inf | .negInf | .nan => .error (.topP topP)
    | .finite p =>
      if h3 : ¬ (0 < p ∧ p ≤ 1) then .error (.topP topP)
      else
        match seed with
        | none =>
          .ok {
            maxNewTokens := maxNewTokens.toNat
            stopTokenIds
            temperature
            topP := p
            maxNewTokens_pos := by omega
            temperature_nonneg := not_not.mp h2
            topP_mem := not_not.mp h3
            seed_lt := by simp }
        | some s =>
          if h4 : 0 ≤ s ∧ s < 2 ^ 32 then
            .ok {
              maxNewTokens := maxNewTokens.toNat
              stopTokenIds
              temperature
              topP := p
              seed := some s.toNat
              maxNewTokens_pos := by omega
              temperature_nonneg := not_not.mp h2
              topP_mem := not_not.mp h3
              seed_lt := fun t ht => by obtain rfl := Option.some.inj ht; omega }
          else .error (.seed s)

namespace GenerationRequest

variable (req : GenerationRequest)

def unsupported (topLogprobs : Option Int) : List String :=
  (if req.n = none ∨ req.n = some 1 then [] else ["n > 1"]) ++
  (if req.stop = none ∨ req.stop = some (.text "") ∨ req.stop = some (.list []) then [] else ["stop"]) ++
  (if req.presencePenalty = none ∨ req.presencePenalty = some 0 then [] else ["presence_penalty"]) ++
  (if req.frequencyPenalty = none ∨ req.frequencyPenalty = some 0 then [] else ["frequency_penalty"]) ++
  (if (req.logprobs = none ∨ req.logprobs = some (.flag false) ∨ req.logprobs = some (.count 0)) ∧
      (topLogprobs = none ∨ topLogprobs = some 0) then [] else ["logprobs"])

def checkSupported (topLogprobs : Option Int) : Except ProtocolError Unit :=
  if req.unsupported topLogprobs = [] then .ok () else .error (.notSupported (req.unsupported topLogprobs))

def boundedTokens (requested : Option Int) (numPromptTokens contextLen : Nat) : Except ProtocolError Int :=
  let room := (contextLen : Int) - numPromptTokens
  match requested with
  | none => .ok room
  | some maxTokens =>
    if maxTokens < 1 then .error (.maxTokens maxTokens)
    else if maxTokens > room then .error (.exceedsContext numPromptTokens maxTokens contextLen)
    else .ok maxTokens

-- A seed is any integer; the engine keeps its low 32 bits.
def samplingParams (topLogprobs : Option Int) (requested : Except ProtocolError (Option Int))
    (numPromptTokens contextLen : Nat) (stopTokenIds : List Token) : Except ProtocolError SamplingParams :=
  match req.checkSupported topLogprobs with
  | .error e => .error e
  | .ok () =>
    if numPromptTokens = 0 then .error .emptyPrompt
    else if (contextLen : Int) - numPromptTokens < 1 then .error (.noRoom numPromptTokens contextLen)
    else
      match requested with
      | .error e => .error e
      | .ok requested =>
        match boundedTokens requested numPromptTokens contextLen with
        | .error e => .error e
        | .ok maxTokens =>
          match newParams maxTokens (if req.ignoreEos then [] else stopTokenIds) (req.temperature.getD 1)
              (req.topP.getD 1) (req.seed.map (· % 2 ^ 32)) with
          | .error e => .error (.params e)
          | .ok p => .ok p

end GenerationRequest

namespace CompletionRequest

variable (req : CompletionRequest)

def requestedMaxTokens : Int :=
  match req.maxTokens with
  | none => 16
  | some n => n

def samplingParams (numPromptTokens contextLen : Nat) (stopTokenIds : List Token) :
    Except ProtocolError SamplingParams :=
  req.toGenerationRequest.samplingParams none (.ok (some req.requestedMaxTokens)) numPromptTokens contextLen stopTokenIds

end CompletionRequest

namespace ChatCompletionRequest

variable (req : ChatCompletionRequest)

def requestedMaxTokens : Except ProtocolError (Option Int) :=
  match req.maxTokens, req.maxCompletionTokens with
  | some _, some _ => .error .bothMaxTokens
  | maxTokens, none => .ok maxTokens
  | none, some n => .ok (some n)

def samplingParams (numPromptTokens contextLen : Nat) (stopTokenIds : List Token) :
    Except ProtocolError SamplingParams :=
  req.toGenerationRequest.samplingParams req.topLogprobs req.requestedMaxTokens numPromptTokens contextLen stopTokenIds

end ChatCompletionRequest

def encode (tokenizer : String → List Token) : Prompt → List Token
  | .text s => tokenizer s
  | .ids l => l

def completions (tokenizer : String → List Token) (contextLen : Nat) (stopTokenIds : List Token)
    (req : CompletionRequest) : Except ProtocolError (List Token × SamplingParams) :=
  let promptIds := encode tokenizer req.prompt
  match req.samplingParams promptIds.length contextLen stopTokenIds with
  | .error e => .error e
  | .ok params => .ok (promptIds, params)

end Server

namespace Engine

-- A step with a batch to launch raises, and the prompts of the other requests in it are such as can be fed.
def RaisesFor (e : Engine) (model : Model) (r : Rid) : Prop :=
  ∃ b s err, e.scheduler.schedule = (.ok (some b), s) ∧ (e.step model).1 = .error err ∧
    ∀ row ∈ b.rows, row.rid ≠ r → Plain (e.request row.rid).promptIds

def Harmless (prompt : List Token) (params : SamplingParams) : Prop :=
  ∀ model c e e1 r e', model.Long → Reachable model c (fun _ => True) e → e.addRequest prompt params = (.ok r, e1) →
    Calls model (fun _ => True) e1 e' → ¬ e'.RaisesFor model r

variable {prompt : List Token} {params : SamplingParams}

theorem harmless_of_plain (h : Plain prompt) : Harmless prompt params := by
  rintro model c e e1 r e' hm he hadd hrun ⟨b, s, err, hsch, herr, hother⟩
  obtain ⟨he', halike⟩ := calls_submission he trivial hadd hrun
  have hplain : ∀ row ∈ b.rows, Plain (e'.request row.rid).promptIds := by
    intro row hrow
    by_cases hr : row.rid = r
    · rw [hr, halike.1]
      exact h
    · exact hother row hrow hr
  rcases he'.sound.step_cases model with ⟨s1, h1, -⟩ | ⟨b1, s1, err1, h1, hbad, -⟩ | ⟨out, e2, h1, -⟩
  · rw [hsch] at h1
    simp at h1
  · rw [hsch] at h1
    obtain ⟨hb, rfl⟩ := Prod.mk.inj h1
    obtain rfl := Option.some.inj (Except.ok.inj hb)
    exact he'.sound.accepts (he'.longs hm) hsch hplain hbad
  · rw [h1] at herr
    simp at herr

def roomy (n : Nat) : EngineConfig where
  numBlocks := n + 1
  blockSize := 1
  radix := false
  maxRunning := 1
  maxPrefillTokens := 1
  chunkedPrefillSize := 0
  tokensPerStep := 1
  policy := .fcfs
  overlap := false
  seeds := fun _ => 0
  numBlocks_pos := Nat.succ_pos n
  blockSize_pos := Nat.one_pos
  maxRunning_pos := Nat.one_pos
  maxPrefillTokens_pos := Nat.one_pos
  tokensPerStep_pos := Nat.one_pos

theorem roomy_schedule {q : Request} {n : Nat} (hq : q.Fresh) (hlen : q.promptIds.length ≤ n) :
    ∃ s', Scheduler.schedule { (roomy n).scheduler.set 0 q with waiting := [0] } =
        (.ok (some ⟨.prefill, [⟨0, 0, q.promptIds.length⟩], [], 0⟩), s') ∧ (s'.reqs 0).tokens = q.promptIds := by
  let s : Scheduler := { (roomy n).scheduler.set 0 q with waiting := [0] }
  let q' : Request := { q with cache := some ⟨[], 0⟩, cacheNode := none, numCachedTokens := 0 }
  have hreq : s.reqs 0 = q := by simp [s, Scheduler.set]
  have hseq : q.seqLen = q.promptIds.length := by simp [Request.seqLen, hq.output]
  have hacq : s.acquire 0 = .ok (0, s.put 0 (s.kv, q')) := by
    have hnew : BlockTable.new s.kv.allocator [] = (.ok ⟨[], 0⟩, s.kv.allocator) := by
      simp [BlockTable.new, BlockAllocator.incref]
    have hlook : s.kv.lookup q = .ok (none, [], none) := rfl
    have hkv : s.kv.acquire q = .ok (0, s.kv, q') := by
      simp only [KVCacheManager.acquire, hq.cache, hlook, hnew]
      rfl
    simp only [Scheduler.acquire, hreq, hkv]
  have hfits : (s.put 0 (s.kv, q')).fits ⟨[], 1, 0⟩ 0 q.seqLen = .ok (some (q.seqLen + 1 : Nat)) := by
    have hav : s.kv.numAvailable = n + 1 := by
      simp [KVCacheManager.numAvailable, KVCacheManager.numEvictable, s, Scheduler.set, EngineConfig.scheduler, roomy,
        KVCacheManager.new, BlockAllocator.fresh, BlockAllocator.numFree]
    have hself : (s.put 0 (s.kv, q')).reqs 0 = q' := by simp [Scheduler.put]
    have hneed : (s.put 0 (s.kv, q')).prefillNeed 0 = .ok (q.seqLen + 1 : Nat) := by
      simp only [Scheduler.prefillNeed, hself]
      have : (s.put 0 (s.kv, q')).blocksFor (q'.seqLen + 1) = (q.seqLen + 1 : Nat) := by
        show ceilDiv (q.seqLen + 1 : Nat) 1 = _
        simp [ceilDiv]
      simp [this, q', BlockTable.numBlocks]
    have hdec : (s.put 0 (s.kv, q')).decodeNeed (s.put 0 (s.kv, q')).running = .ok 0 := rfl
    have hle : ((q.seqLen + 1 : Nat) : Int) ≤ (s.put 0 (s.kv, q')).kv.numAvailable - 0 - 0 := by
      show _ ≤ s.kv.numAvailable - 0 - 0
      rw [hav, hseq]
      omega
    simp only [Scheduler.fits, hneed, hdec]
    simp only [true_or, if_true]
    rw [if_pos hle]
  have hent : ∃ s2, (s.put 0 (s.kv, q')).enterPrefill 0 0 = .ok s2 ∧ s2.reqs 0 = { q' with state := .prefill } := by
    have hself : (s.put 0 (s.kv, q')).reqs 0 = q' := by simp [Scheduler.put]
    have htr : q'.transition .prefill = .ok { q' with state := .prefill } :=
      Request.transition_ok (by simp [q', hq.state, RequestState.next])
    refine ⟨_, by simp only [Scheduler.enterPrefill, hself, htr]; rfl, ?_⟩
    simp [Scheduler.set]
  obtain ⟨s2, hent, h2⟩ := hent
  have hadm : s.admitWaiting = .ok ([0], s2) := by
    show Scheduler.admitLoop [0] s ⟨[], 1, 0⟩ = _
    rw [Scheduler.admitLoop, hacq]
    have hself : (s.put 0 (s.kv, q')).reqs 0 = q' := by simp [Scheduler.put]
    have hroom : ¬ s.running.length + ([] : List Rid).length ≥ s.maxRunning := by
      show ¬ 0 + 0 ≥ 1
      decide
    have hn : ((q'.seqLen : Nat) : Int) - (0 : Nat) = q.seqLen := by simp [q', Request.seqLen]
    rw [if_neg hroom]
    simp only [hreq, hq.numPending, ne_eq, not_true_eq_false, if_false, hself, hn, hfits, hent]
    rfl
  refine ⟨{ s2 with running := s2.running ++ [0] }, ?_, ?_⟩
  · show s.schedule = _
    have hrow : s2.wholeRow 0 = ⟨0, 0, q.promptIds.length⟩ := by
      simp only [Scheduler.wholeRow, h2]
      show (⟨0, 0, q.seqLen - 0⟩ : Row) = _
      rw [hseq]
      rfl
    have hz : s.chunkedPrefillSize = 0 := rfl
    rw [Scheduler.schedule, if_pos hz, Scheduler.scheduleWhole, hadm]
    simp [hrow]
  · simp only [h2]
    simp [Request.tokens, q', hq.output]

theorem addRequest_ok {e : Engine} (hp : prompt ≠ []) (hacc : e.scheduler.Accepted (e.submission prompt params)) :
    (e.addRequest prompt params).1 = .ok e.nextRid := by
  have hnew : Request.new e.nextRid prompt params = .ok { rid := e.nextRid, promptIds := prompt, params } := by
    simp [Request.new, hp]
  have hadd : e.scheduler.add (e.submission prompt params) =
    .ok { e.scheduler.set e.nextRid (e.submission prompt params) with
      waiting := e.scheduler.waiting ++ [e.nextRid] } := by
    simp only [Scheduler.add]
    rw [if_neg (by simp [submission]), if_neg (not_lt.mpr hacc)]
    rfl
  unfold submission at hadd
  simp only [addRequest, hnew, hadd]

theorem refused_alone {b : Batch} {s : Scheduler} (hrows : b.rows.flatMap (ModelRunner.rowIds s) = prompt)
    (hn : b.numDecode = 0) (h : ¬ Plain prompt) : ∃ err, Refused s b none err := by
  rw [Plain, not_and_or, not_not] at h
  by_cases hmark : placeholder ∈ prompt
  · refine ⟨.placeholderOutsideDecode, .inl ?_⟩
    have hcount : prompt.count placeholder ≠ 0 := fun h0 => List.count_eq_zero.mp h0 hmark
    simp only [hrows, hn, ModelRunner.fillRows, List.take_zero]
    rw [if_pos (by simpa using hcount.symm)]
  · refine ⟨.longOverflow, .inr ⟨⟨prompt, ?_⟩, rfl, ?_⟩⟩
    · rw [hrows]
      exact ModelRunner.fillRows_plain hn hmark
    · rw [hrows]
      simpa using h.resolve_left hmark

theorem not_harmless (h : ¬ Plain prompt) : ¬ Harmless prompt params := by
  intro hsafe
  have hp : prompt ≠ [] := by
    rintro rfl
    exact h (by decide)
  let c := roomy (prompt.length + params.maxNewTokens)
  have hacc : c.scheduler.Accepted ((new c).submission prompt params) := by
    show ceilDiv ((prompt.length + params.maxNewTokens + 1 - 1 : Nat) : Int) (1 : Nat) ≤
      ((prompt.length + params.maxNewTokens + 1 : Nat) : Int)
    simp only [ceilDiv]
    omega
  have hok : ((new c).addRequest prompt params).1 = .ok 0 := addRequest_ok hp hacc
  rcases (new c).addRequest_cases prompt params with ⟨err, d, h1⟩ | ⟨q, d, hq, hrid, hpr, -, -, -, h1⟩
  · rw [h1] at hok
    simp at hok
  · have hrid0 : q.rid = 0 := hrid
    rw [hrid0] at h1
    obtain ⟨s', hsch, htok⟩ := @roomy_schedule q (prompt.length + params.maxNewTokens) hq (by rw [hpr]; omega)
    have hids : ModelRunner.rowIds s' ⟨0, 0, q.promptIds.length⟩ = prompt := by
      rw [ModelRunner.rowIds, Request.tokenSlice_eq, htok, hpr]
      simp
    obtain ⟨err, hbad⟩ := @refused_alone prompt ⟨.prefill, [⟨0, 0, q.promptIds.length⟩], [], 0⟩ s'
      (by simp only [List.flatMap_cons, List.flatMap_nil, List.append_nil, hids]) rfl h
    have hsound : ((new c).addRequest prompt params).2.Sound :=
      (@Reachable.add (constant 7) c (fun _ => True) (new c) prompt params .init trivial).sound
    rw [h1] at hsound
    refine hsafe (constant 7) c (new c) _ 0 _ (constant_long (by decide)) .init h1 Relation.ReflTransGen.refl
      ⟨_, s', err, hsch, hsound.step_refused hsch hbad _, ?_⟩
    intro row hrow hne
    simp only [List.mem_singleton] at hrow
    exact absurd (by rw [hrow]) hne

theorem harmless_iff : Harmless prompt params ↔ Plain prompt :=
  ⟨fun h => by_contra fun hn => not_harmless hn h, harmless_of_plain⟩

end Engine

namespace Server

variable {tokenizer : String → List Token} {contextLen : Nat} {stopTokenIds ids ids' : List Token}
  {req : CompletionRequest} {params : SamplingParams}

theorem accepted_ids_harmless_iff (hids : req.prompt = .ids ids)
    (hok : completions tokenizer contextLen stopTokenIds req = .ok (ids', params)) :
    Engine.Harmless ids' params ↔ placeholder ∉ ids ∧ ∀ id ∈ ids, IsLong id := by
  have hpass : ids' = ids := by
    simp only [completions, hids, encode] at hok
    split at hok
    · simp at hok
    · exact (Prod.mk.inj (Except.ok.inj hok)).1.symm
  rw [hpass]
  exact Engine.harmless_iff

def markerBody : CompletionRequest := { prompt := .ids [-1], maxTokens := some 1 }

def plainBody : CompletionRequest := { prompt := .ids [1, 2], maxTokens := some 2, temperature := some 0 }

theorem accepted_ids_harmless_iff_plain : Plain [1, 2] ∧
    Engine.Harmless [1, 2] { maxNewTokens := 2, stopTokenIds := [0] } := by
  have hok : completions (fun _ => []) 16 [0] plainBody = .ok ([1, 2], { maxNewTokens := 2, stopTokenIds := [0] }) := by
    rfl
  exact ⟨by decide, (accepted_ids_harmless_iff rfl hok).mpr (by decide)⟩

theorem marker_prompt_takes_engine_down :
    ¬ ∀ (req : CompletionRequest) (ids ids' : List Token) (params : SamplingParams),
    req.prompt = .ids ids → completions (fun _ => []) 16 [0] req = .ok (ids', params) → Engine.Harmless ids' params := by
  intro h
  have hok : completions (fun _ => []) 16 [0] markerBody =
      .ok ([-1], { maxNewTokens := 1, stopTokenIds := [0], temperature := 1 }) := by
    rfl
  have hsafe := h markerBody [-1] _ _ rfl hok
  let e : Engine := ((Engine.new Engine.tiny).addRequest [-1]
    { maxNewTokens := 1, stopTokenIds := [0], temperature := 1 }).2
  have hadd : (Engine.new Engine.tiny).addRequest [-1] { maxNewTokens := 1, stopTokenIds := [0], temperature := 1 } =
      (.ok 0, e) := Prod.ext (by decide +kernel) rfl
  have hsch : e.scheduler.schedule.1 = .ok (some ⟨.prefill, [⟨0, 0, 1⟩], [], 0⟩) := by decide +kernel
  refine hsafe (Engine.constant 7) Engine.tiny (Engine.new Engine.tiny) e 0 e
    (Engine.constant_long (by decide)) .init hadd Relation.ReflTransGen.refl
    ⟨_, _, .placeholderOutsideDecode, Engine.schedule_of_fst hsch, by decide +kernel, ?_⟩
  intro row hrow hne
  simp only [List.mem_singleton] at hrow
  exact absurd (by rw [hrow]) hne

end Server

end MiniServe
