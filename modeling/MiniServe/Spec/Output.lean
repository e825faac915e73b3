import MiniServe.Engine.Preempted
import MiniServe.Spec.Steps

namespace MiniServe

open Generate Pool

namespace SpecEngine

variable {e e' e2 : SpecEngine} {target : Target} {dm : DraftModel} {c : SpecConfig} {r : Rid}

-- The calls on the engine that return; a rejected submission leaves the engine to be used again.
inductive Call (target : Target) (dm : DraftModel) : SpecEngine → SpecEngine → Prop
  | add {e : SpecEngine} (prompt : List Token)
      (params : SamplingParams) : Call target dm e (e.addRequest prompt params).2
  | abort {e e' : SpecEngine} {r : Rid} (h : e.abort r = .ok e') : Call target dm e e'
  | setGamma {e e' : SpecEngine} {value : Int} (h : e.setGamma value = .ok e') : Call target dm e e'
  | setRoundGraphs {e e' : SpecEngine} {value : Bool} (h : e.setRoundGraphs value = .ok e') : Call target dm e e'
  | step {e e' : SpecEngine} {out : Option Batch} (h : e.step target dm = (.ok out, e')) : Call target dm e e'

def Calls (target : Target) (dm : DraftModel) : SpecEngine → SpecEngine → Prop := Relation.ReflTransGen (Call target dm)

theorem Call.based (h : Call target dm e e') (hb : Based target e) : Based target e' := by
  cases h with
  | add prompt params => exact hb.addRequest prompt params
  | abort h => exact hb.abort h
  | setGamma h => exact hb.setGamma h
  | setRoundGraphs h => exact hb.setRoundGraphs h
  | step h => exact hb.step h

theorem Calls.based (h : Calls target dm e e') (hb : Based target e) : Based target e' := by
  induction h with
  | refl => exact hb
  | tail _ hc ih => exact hc.based ih

theorem addRequest_alike (h : Based target e) (prompt : List Token) (params : SamplingParams)
    (hr : (e.base.request r).promptIds ≠ []) :
    Alike (e.base.request r) ((e.addRequest prompt params).2.base.request r) := by
  unfold SpecEngine.addRequest
  split
  · rcases e.base.addRequest_cases prompt params with ⟨err, d, he⟩ | ⟨q, d, hq, hrid, -, -, -, -, he⟩
    · simp only [he]
      exact ⟨rfl, rfl, rfl⟩
    · simp only [he]
      exact (h.sound.submit (d := d) hq hrid).2.alike hr
  · exact ⟨rfl, rfl, rfl⟩

theorem Call.alike (h : Call target dm e e') (hb : Based target e) (hr : (e.base.request r).promptIds ≠ []) :
    Alike (e.base.request r) (e'.base.request r) := by
  cases h with
  | add prompt params => exact addRequest_alike hb prompt params hr
  | @abort _ r' h =>
    obtain ⟨h1, -⟩ := abort_base h
    obtain ⟨base, h2, -, hm, -⟩ := hb.sound.abort r'
    obtain rfl : base = e'.base := Except.ok.inj (h2.symm.trans h1)
    exact hm.alike hr
  | setGamma h =>
    unfold SpecEngine.setGamma at h
    split at h
    · simp at h
    · obtain rfl := Except.ok.inj h
      exact ⟨rfl, rfl, rfl⟩
  | setRoundGraphs h =>
    unfold SpecEngine.setRoundGraphs at h
    split at h
    · simp at h
    · obtain rfl := Except.ok.inj h
      exact ⟨rfl, rfl, rfl⟩
  | step h =>
    obtain ⟨hadv, -⟩ := hb.advances h
    cases hadv with
    | plain _ hplain =>
      rcases hb.sound.step_cases target.toModel with ⟨s, -, h1⟩ | ⟨b, s, err, -, -, h1⟩ | ⟨out', e1, h1, h2, hst, hA⟩
      · rw [hplain] at h1; simp at h1
      · rw [hplain] at h1; simp at h1
      · rw [hplain] at h1
        rw [(Prod.mk.inj h1).2]
        exact hst.alike hr
    | @round b s s1 e1 _ _ _ _ _ hsch hbase _ _ _ hp =>
      have h1 : Alike (e.base.request r) (s.reqs r) := (hb.pool_moves hsch).alike hr
      have hreq : e1.base.request r = s.reqs r := by rw [Engine.request, hbase]
      rw [← hreq] at h1
      exact h1.trans (hp.alike r)

theorem Calls.alike (h : Calls target dm e e') (hb : Based target e) (hr : (e.base.request r).promptIds ≠ []) :
    Alike (e.base.request r) (e'.base.request r) := by
  induction h with
  | refl => exact ⟨rfl, rfl, rfl⟩
  | tail h hc ih => exact ih.trans (hc.alike (Calls.based h hb) (ih.ne_nil hr))

section Output

variable {prompt : List Token} {params : SamplingParams} {b : Batch}

theorem addRequest_request (h : e.addRequest prompt params = (.ok r, e')) :
    (e'.base.request r).promptIds = prompt ∧ (e'.base.request r).params = params ∧ params.isGreedy ∧ prompt ≠ [] := by
  unfold SpecEngine.addRequest at h
  split at h
  · next hg =>
    rcases e.base.addRequest_cases prompt params with ⟨err, d, he⟩ | ⟨q, d, hq, hrid, hpr, hpa, -, -, he⟩
    · simp only [he] at h
      simp at h
    · simp only [he] at h
      obtain ⟨h1, rfl⟩ := Prod.mk.inj h
      obtain rfl := Except.ok.inj h1
      have hself : Function.update e.base.scheduler.reqs q.rid q q.rid = q := Function.update_self ..
      simp only [Engine.request, Scheduler.set, hself]
      exact ⟨hpr, hpa, hg, hpr ▸ hq.prompt⟩
  · simp at h

theorem Based.finished (h : Based target e) (hg : (e.base.request r).params.isGreedy)
    (hf : (e.base.request r).state = .finished) :
    (e.base.request r).outputIds = target.decode (e.base.request r).promptIds (e.base.request r).params := by
  rw [← Target.output_greedy hg]
  exact (h.content.told r).finished hf

structure RoundGain (q q' : Request) (gamma : Nat) : Prop where
  aligned : ¬ q'.isDone → ∃ tb, q'.cache = some tb ∧ tb.numTokens + 1 = q'.seqLen
  gained : ∃ new, q'.outputIds = q.outputIds ++ new ∧ 1 ≤ new.length ∧ new.length ≤ gamma + 1

theorem Based.round_gain (h : Based target e) (hstep : e.step target dm = (.ok (some b), e')) (hg : e.gamma ≠ 0)
    (hph : b.phase = .decode) (hr : r ∈ b.rows.map Row.rid) : RoundGain (e.base.request r)
    (e'.base.request r) e.gamma := by
  obtain ⟨hadv, -⟩ := h.advances hstep
  cases hadv with
  | plain hnot _ =>
    rcases hnot b rfl with h0 | h0
    · exact absurd h0 hg
    · exact absurd hph h0
  | @round b' s s1 e1 columns new marks hout _ hsch hbase hgamma hcol hrounds hp =>
    obtain rfl := Option.some.inj hout
    have hv := hp.verdict r hr
    have hs : e1.base.request r = s.reqs r := by rw [Engine.request, hbase]
    have hpool : (e.base.scheduler.pool [] []).Sound := by
      have := h.sound.pool
      rw [h.entries] at this
      exact this
    -- The scheduler gives a decoding row only to a request it has not touched.
    have hkeep : s.reqs r = e.base.request r := by
      obtain ⟨hm, hdec, -⟩ := hrounds.decodes hr
      rw [hbase] at hm
      rw [hs] at hdec
      rcases (Scheduler.schedule_retains hpool h.sound.whole hsch).came r hm with ⟨-, -, h3⟩ | h3
      · exact h3
      · rw [hdec.1] at h3
        simp at h3
    have hlen : (Rounds.proposed (b.rows.map Row.rid) columns r).length = e.gamma := by
      simp [Rounds.proposed, proposalsAt, hcol]
    refine ⟨fun hd => ?_, new r, ?_, hv.pos, hlen ▸ hv.le⟩
    · cases hmark : marks r with
      | none => exact absurd (.inl (hv.ended hmark)) hd
      | some n =>
        obtain ⟨-, h2, -, tb, -, h4⟩ := hv.going n hmark
        exact ⟨_, h4, h2⟩
    · rw [hv.outputIds, hp.reserved.outputIds r, ← Engine.request, hs, hkeep]

theorem speculation_keeps_output (hrun : Calls target dm (new c) e) :
    (∀ prompt params r e' e2, e.addRequest prompt params = (.ok r, e') → Calls target dm e' e2 →
      (e2.base.request r).state = .finished → (e2.base.request r).outputIds = target.decode prompt params) ∧
    ∀ b e', e.step target dm = (.ok (some b), e') → e.gamma ≠ 0 → b.phase = .decode →
      ∀ r ∈ b.rows.map Row.rid, RoundGain (e.base.request r) (e'.base.request r) e.gamma := by
  have hb := hrun.based (new_based target c)
  refine ⟨fun prompt params r e' e2 hadd hcalls hfin => ?_, fun b e' hstep hg hph r hr => hb.round_gain hstep hg hph hr⟩
  obtain ⟨hpr, hpa, hg, hne⟩ := addRequest_request hadd
  have hb' : Based target e' := by
    have := hb.addRequest prompt params
    rw [hadd] at this
    exact this
  have ha := hcalls.alike (r := r) hb' (by rw [hpr]; exact hne)
  have hg2 : (e2.base.request r).params.isGreedy := by
    rw [ha.2.1, hpa]
    exact hg
  rw [(hcalls.based hb').finished hg2 hfin, ha.1, ha.2.1, hpr, hpa]

def tiny : SpecConfig where
  numBlocks := 1
  blockSize := 8
  maxRunning := 2
  maxPrefillTokens := 8
  chunkedPrefillSize := 0
  gamma := 2
  policy := .fcfs
  seeds := fun _ => 0
  cudaGraph := true
  graphMaxBs := 2
  numBlocks_pos := Nat.one_pos
  blockSize_pos := Nat.succ_pos (nat_lit 7)
  maxRunning_pos := Nat.two_pos
  maxPrefillTokens_pos := Nat.succ_pos (nat_lit 7)

def counter : Target where
  next h _ _ _ := (min h.length 9 : Nat)
  next_nonneg _ _ _ _ := Int.natCast_nonneg _
  greedy h := (min h.length 9 : Nat)
  next_greedy _ _ _ _ _ := rfl
  greedy_nonneg _ := Int.natCast_nonneg _

theorem counter_long : counter.toModel.Long := fun _ _ _ _ =>
  ⟨le_trans (by decide) (Int.natCast_nonneg _), lt_of_le_of_lt (Int.ofNat_le.mpr (min_le_right _ 9)) (by decide)⟩

def counterDraft : DraftModel := ⟨fun h => min h.length 2⟩

def submitted : SpecEngine := ((new tiny).addRequest [1] { maxNewTokens := 4 }).2

def prefilled : SpecEngine := (submitted.step counter counterDraft).2

def afterRound : SpecEngine := (prefilled.step counter counterDraft).2

def ended : SpecEngine := (afterRound.step counter counterDraft).2

theorem step_eq {out : Option Batch} (h : (e.step target dm).1 = .ok out) :
    e.step target dm = (.ok out, (e.step target dm).2) := Prod.ext h rfl

theorem Calls.next (h : Calls target dm e e') (hok : (e'.step target dm).1.isOk = true) :
    Calls target dm e (e'.step target dm).2 := by
  cases hr : (e'.step target dm).1 with
  | error err => simp [hr, Except.isOk, Except.toBool] at hok
  | ok out => exact h.tail (.step (Prod.ext hr rfl))

theorem submitted_calls : Calls counter counterDraft (new tiny) submitted := .single (.add _ _)

theorem speculation_keeps_output_counted : (ended.base.request 0).outputIds = counter.decode [1] { maxNewTokens := 4 } ∧
    counter.decode [1] { maxNewTokens := 4 } = [1, 2, 3, 4] ∧
    RoundGain (prefilled.base.request 0) (afterRound.base.request 0) prefilled.gamma ∧ prefilled.gamma = 2 ∧
    (prefilled.base.request 0).outputIds = [1] ∧ (afterRound.base.request 0).outputIds = [1, 2, 3] := by
  have hadd : (new tiny).addRequest [1] { maxNewTokens := 4 } = (.ok 0, submitted) := Prod.ext (by decide +kernel) rfl
  have h1 : Calls counter counterDraft submitted prefilled := Calls.next .refl (by decide +kernel)
  have h2 : Calls counter counterDraft submitted afterRound := Calls.next h1 (by decide +kernel)
  have h3 : Calls counter counterDraft submitted ended := Calls.next h2 (by decide +kernel)
  have hround : (prefilled.step counter counterDraft).1 = .ok (some ⟨.decode, [⟨0, 1, 1⟩], [], 1⟩) := by decide +kernel
  have hstep : prefilled.step counter counterDraft = (_, afterRound) := step_eq hround
  have hg : prefilled.gamma = 2 := by decide +kernel
  have hne : prefilled.gamma ≠ 0 := by
    rw [hg]
    decide
  have hfin : (ended.base.request 0).state = .finished := by decide +kernel
  have hout := (speculation_keeps_output (c := tiny) .refl).1 _ _ 0 _ _ hadd h3 hfin
  have hgain := (speculation_keeps_output (submitted_calls.trans h1)).2 _ _ hstep hne rfl 0 (by simp)
  exact ⟨hout, by decide +kernel, hgain, hg, by decide +kernel, by decide +kernel⟩

end Output

end SpecEngine

end MiniServe
