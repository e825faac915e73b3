import MiniServe.Spec.Fits

namespace MiniServe

open KVCacheManager Pool

namespace SpecEngine

variable {e e' : SpecEngine} {target : Target} {dm : DraftModel} {c : SpecConfig} {r : Rid} {s : Scheduler}

theorem Advances.kept {out : Option Batch} (h : Advances target e e' out) (hb : Based target e) (hb' : Based target e') :
    Scheduler.Same e.base.scheduler e'.base.scheduler ∧ (∀ r ∈ e'.base.requests, r ∈ e.base.requests) := by
  cases h with
  | plain _ hstep =>
    rcases hb.sound.step_cases target.toModel with ⟨s, -, h1⟩ | ⟨b, s, err, -, -, h1⟩ | ⟨out', e1, h1, -, -, hA⟩
    · rw [hstep] at h1; simp at h1
    · rw [hstep] at h1; simp at h1
    · rw [hstep] at h1
      obtain rfl := (Prod.mk.inj h1).2
      exact ⟨hA.same, hA.requests⟩
  | @round b s s1 e1 columns new marks hout hg hsch hbase hgamma hcol hr hp =>
    obtain ⟨hS, -⟩ := hb.scheduled hsch
    obtain ⟨d, hj⟩ := hp.judges
    have hR := hp.reserved
    rw [hbase] at hR hj
    refine ⟨(hS.step.same.trans hR.same).trans hj.same, fun x hx => ?_⟩
    have hq : x ∈ s.running ++ s.waiting := by
      rcases List.mem_append.mp (hb'.sound.requests.mem_iff.mp hx) with h | h
      · exact List.mem_append_left _ (hR.running ▸ hj.running.subset h)
      · rw [hj.waiting] at h
        exact List.mem_append_right _ (hR.waiting ▸ h)
    exact hb.sound.requests.mem_iff.mpr (by simpa using hS.step.perm.mem_iff.mp (by simpa using hq))

-- What held of the requests still holds of those that stay, if it is about nothing a call changes but gamma.
theorem Call.holds {P : Scheduler → Request → Prop} (h : Call target dm e e') (hb : Based target e)
    (hP : ∀ {s s' q q'}, Scheduler.Same s s' → Alike q q' → P s q → P s' q')
    (hadd : ∀ {s : Scheduler} {q : Request}, s.Accepted q → P s q)
    (hgamma : ∀ value, e.setGamma value = .ok e' → ∀ r ∈ e'.base.requests, P e'.base.scheduler (e'.base.request r))
    (he : ∀ r ∈ e.base.requests, P e.base.scheduler (e.base.request r)) :
    ∀ r ∈ e'.base.requests, P e'.base.scheduler (e'.base.request r) := by
  have hb' := h.based hb
  have halike : ∀ r ∈ e.base.requests, Alike (e.base.request r) (e'.base.request r) := fun r hr =>
    h.alike hb (hb.sound.promptIds_ne hr)
  have hkeep : Scheduler.Same e.base.scheduler e'.base.scheduler → (∀ r ∈ e'.base.requests, r ∈ e.base.requests) →
      ∀ r ∈ e'.base.requests, P e'.base.scheduler (e'.base.request r) := fun hsame hsub r hr =>
    hP hsame (halike r (hsub r hr)) (he r (hsub r hr))
  cases h with
  | add prompt params =>
    unfold SpecEngine.addRequest at halike hkeep ⊢
    split
    · rcases e.base.addRequest_cases prompt params with ⟨err, d, h1⟩ | ⟨q, d, hq, hrid, -, -, -, hfit, h1⟩
      · simp only [h1]
        exact he
      · simp only [h1]
        intro r hr
        have hsame : Scheduler.Same e.base.scheduler
            { e.base.scheduler.set q.rid q with waiting := e.base.scheduler.waiting ++ [q.rid] } :=
          ⟨rfl, rfl, rfl, rfl, rfl, rfl, rfl, rfl⟩
        refine hP hsame ⟨rfl, rfl, rfl⟩ ?_
        show P e.base.scheduler (Function.update e.base.scheduler.reqs q.rid q r)
        by_cases hx : r = q.rid
        · subst hx
          rw [Function.update_self]
          exact hadd hfit
        · rw [Function.update_of_ne hx]
          exact he r ((List.mem_append.mp hr).resolve_right (by simpa using hx))
    · exact he
  | @abort _ r' h =>
    obtain ⟨h1, -⟩ := abort_base h
    obtain ⟨base, h2, -, -, hk⟩ := hb.sound.abort r'
    obtain rfl : base = e'.base := Except.ok.inj (h2.symm.trans h1)
    exact hkeep hk.same (Engine.advanced_of e.base hb.sound (List.Perm.refl _) (Scheduler.Same.refl _) rfl
      hb.sound.requests hk).requests
  | @setGamma _ value h => exact hgamma value h
  | setRoundGraphs h =>
    unfold SpecEngine.setRoundGraphs at h
    split at h
    · simp at h
    · obtain rfl := Except.ok.inj h
      exact he
  | step h =>
    obtain ⟨hadv, -⟩ := hb.advances h
    exact hkeep (hadv.kept hb hb').1 (hadv.kept hb hb').2

-- A request was accepted with room for its own tokens, whatever gamma has become since.
theorem Reachable.maxLen_fits (h : Reachable target dm c e) : ∀ r ∈ e.base.requests,
    e.base.scheduler.blocksFor (e.base.request r).maxLen ≤ e.base.scheduler.kv.allocator.numBlocks := by
  induction h with
  | init => simp [new, Engine.new]
  | @call e e' h hc ih =>
    refine hc.holds (P := fun s q => s.blocksFor q.maxLen ≤ s.kv.allocator.numBlocks) h.based (fun hsame ha hq => ?_)
      (fun {s q} hacc => ?_) (fun value hg => ?_) ih
    · simp only [Scheduler.blocksFor, Request.maxLen] at hq ⊢
      rw [hsame.blockSize, hsame.numBlocks, ha.1, ha.2.1]
      exact hq
    · have hbs : (0 : Int) < s.kv.blockSize := by have := @blockSize_pos s.kv; omega
      refine (ceilDiv_mono hbs ?_).trans hacc
      have := s.tokensPerStep_pos
      omega
    · unfold SpecEngine.setGamma at hg
      split at hg
      · simp at hg
      · obtain rfl := Except.ok.inj hg
        exact ih
  | @raised e s err h hs ih =>
    intro r hr
    have ha : Alike (e.base.request r) (s.reqs r) := (h.based.pool_moves hs).alike (h.based.sound.promptIds_ne hr)
    have hsame := (h.based.scheduled hs).1.step.same
    have := ih r hr
    simp only [Scheduler.blocksFor, Request.maxLen, Engine.request] at this ha ⊢
    rw [hsame.blockSize, hsame.numBlocks, ha.1, ha.2.1]
    exact this

def HeadFits (e : SpecEngine) : Prop :=
  ∀ r, e.base.scheduler.running.head? = some r → (e.base.request r).state = .decode →
    e.base.scheduler.blocksFor ((e.base.request r).seqLen + e.gamma) ≤ e.base.scheduler.kv.allocator.numBlocks

theorem Based.lead (h : Based target e) : e.base.scheduler.lead = e.base.scheduler.running.head? := by
  cases hrun : e.base.scheduler.running with
  | nil => simp [Scheduler.lead, hrun]
  | cons r rest =>
    have hm : r ∈ e.base.scheduler.running := by rw [hrun]; exact List.mem_cons_self
    have hact := Scheduler.pool_active h.sound.pool (by simpa using hm : r ∈ e.base.scheduler.running ++ [])
    have hroom := hact.room (h.sound.no_pending h.inflight (.inl hm))
    have hns : ¬ (e.base.scheduler.reqs r).isSpent := fun hsp => absurd hsp.2 (not_le.mpr hroom)
    simp [Scheduler.lead, hrun, hns]

theorem headFits_iff (h : Reachable target dm c e) : e.HeadFits ↔ ¬ e.base.scheduler.Stuck := by
  have hb := h.based
  have hpool : (e.base.scheduler.pool [] []).Sound := by
    have := hb.sound.pool
    rw [hb.entries] at this
    exact this
  have hbs : (0 : Int) < e.base.scheduler.kv.blockSize := by have := @blockSize_pos e.base.scheduler.kv; omega
  have hcase : ∀ r, e.base.scheduler.running.head? = some r →
      (e.base.scheduler.cost r + (e.base.scheduler.ownBlocks r).length ≤ e.base.scheduler.kv.allocator.numBlocks ↔
        ((e.base.request r).state = .decode →
          e.base.scheduler.blocksFor ((e.base.request r).seqLen + e.gamma) ≤
              e.base.scheduler.kv.allocator.numBlocks)) := by
    intro r hr
    have hm : r ∈ e.base.scheduler.running := List.mem_of_mem_head? hr
    have hm' : r ∈ e.base.scheduler.running ++ [] := by simpa using hm
    have hact := Scheduler.pool_active hpool hm'
    have hroom := hact.room (hb.sound.no_pending hb.inflight (.inl hm))
    have hown : (e.base.scheduler.ownBlocks r).length = (e.base.scheduler.reqs r).tableBlocks.length := by
      simp [Scheduler.ownBlocks, nodeBlocks, hb.tree]
    have hav := Scheduler.available_le hpool hm'
    have hnn := Scheduler.available_nonneg hpool
    rw [hown] at hav ⊢
    rcases hact.phase with ⟨hst, -, -⟩ | ⟨hst, hcov, -⟩
    · have hmax := h.maxLen_fits r (hb.sound.mem_queues.mpr (.inl hm))
      have hle : e.base.scheduler.blocksFor ((e.base.scheduler.reqs r).seqLen + 1) ≤
          e.base.scheduler.kv.allocator.numBlocks := by
        refine (ceilDiv_mono hbs ?_).trans hmax
        simp only [Request.seqLen, Request.maxLen, Engine.request]
        omega
      refine ⟨fun _ hd => ?_, fun _ => ?_⟩
      · rw [Engine.request, hst] at hd
        simp at hd
      · rw [Scheduler.cost_of_prefill hst, Scheduler.prefillRest]
        omega
    · have hdec : (e.base.scheduler.reqs r).decodes := ⟨hst, not_le.mpr hroom⟩
      have hneed : e.base.scheduler.cost r = max 0 (e.base.scheduler.blocksFor ((e.base.request r).seqLen + e.gamma) -
          (e.base.scheduler.reqs r).tableBlocks.length) := by
        rw [Scheduler.cost, if_pos hdec, Scheduler.stepNeed, BlockTable.need, Scheduler.table_numTokens,
          Scheduler.table_blocks, hb.tokensPerStep, Scheduler.blocksFor, Engine.request]
        congr 3
        push_cast
        omega
      rw [hneed]
      refine ⟨fun hle _ => by omega, fun hle => ?_⟩
      have := hle hst
      omega
  rw [HeadFits, Scheduler.Stuck, hb.lead]
  simp only [not_exists, not_and, not_lt]
  exact forall_congr' fun r => forall_congr' fun hr => (hcase r hr).symm

theorem Based.schedule_raises_iff (h : Based target e) :
    (∀ err s, e.base.scheduler.schedule ≠ (.error err, s)) ↔ ¬ e.base.scheduler.Stuck := by
  obtain ⟨hS, -⟩ := h.sound.schedule
  rw [← hS.stuck]
  constructor
  · intro hne hres
    exact hne _ _ (Prod.ext hres rfl)
  · intro hne err s hs
    have herr := hS.error err (by rw [hs])
    exact hne (by rw [hs, herr])

-- Every request in the engine passes the check that `add` makes, under the gamma of now.
def Fitting (e : SpecEngine) : Prop := ∀ r ∈ e.base.requests, e.base.scheduler.Accepted (e.base.request r)

inductive Tuned (target : Target) (dm : DraftModel) (c : SpecConfig) : SpecEngine → Prop
  | init : Tuned target dm c (new c)
  | call {e e' : SpecEngine} (h : Tuned target dm c e) (hc : Call target dm e e')
      (hg : ∀ value, e.setGamma value = .ok e' → e'.Fitting) : Tuned target dm c e'

theorem Tuned.reachable (h : Tuned target dm c e) : Reachable target dm c e := by
  induction h with
  | init => exact .init
  | call _ hc _ ih => exact ih.call hc

theorem Tuned.fitting (h : Tuned target dm c e) : e.Fitting := by
  induction h with
  | init => simp [Fitting, new, Engine.new]
  | call h hc hg ih => exact hc.holds h.reachable.based (fun hsame ha hq => hq.alike hsame ha) id hg ih

theorem Fitting.headFits (hf : e.Fitting) (h : Based target e) : e.HeadFits := by
  intro r hr _
  have hm : r ∈ e.base.scheduler.running := List.mem_of_mem_head? hr
  have hroom := (Scheduler.pool_active h.sound.pool (by simpa using hm : r ∈ e.base.scheduler.running ++ [])).room
    (h.sound.no_pending h.inflight (.inl hm))
  have hbs : (0 : Int) < e.base.scheduler.kv.blockSize := by have := @blockSize_pos e.base.scheduler.kv; omega
  refine (ceilDiv_mono hbs ?_).trans (hf r (h.sound.mem_queues.mpr (.inl hm)))
  rw [h.tokensPerStep]
  simp only [Request.seqLen, Request.maxLen, Engine.request]
  omega

theorem gamma_safe_iff (target : Target) (dm : DraftModel) (c : SpecConfig) (e : SpecEngine)
    (h : Reachable target dm c e) :
    ((∀ err s, e.base.scheduler.schedule ≠ (.error err, s)) ↔ e.HeadFits) ∧
      (Tuned target dm c e → ∀ err s, e.base.scheduler.schedule ≠ (.error err, s)) := by
  refine ⟨?_, fun ht => ?_⟩
  · rw [h.based.schedule_raises_iff, headFits_iff h]
  · rw [h.based.schedule_raises_iff, ← headFits_iff h]
    exact ht.fitting.headFits h.based

-- Accepted with gamma 0 into a pool of one block of four tokens, which it can fill alone; with gamma 3 the
-- next round would need a second block.
def plainTiny : SpecConfig := { tiny with blockSize := 4, blockSize_pos := Nat.succ_pos (nat_lit 3), gamma := 0 }

def filling : SpecEngine := (((new plainTiny).addRequest [1] { maxNewTokens := 3 }).2.step counter counterDraft).2

def raisedGamma : SpecEngine :=
  { filling with
    gamma := 3
    base := { filling.base with scheduler := { filling.base.scheduler with
      tokensPerStep := 4
      tokensPerStep_pos := Nat.succ_pos (nat_lit 3) } } }

theorem raisedGamma_reachable : Reachable counter counterDraft plainTiny raisedGamma := by
  have h1 : Calls counter counterDraft (new plainTiny) filling := Calls.next (.single (.add _ _)) (by decide +kernel)
  have h2 : Call counter counterDraft filling raisedGamma :=
    .setGamma (show filling.setGamma 3 = .ok raisedGamma from rfl)
  exact Calls.reachable (h1.tail h2)

theorem raised_gamma_raises : ¬ ∀ (target : Target) (dm : DraftModel) (c : SpecConfig) (e : SpecEngine),
    Reachable target dm c e → ∀ err s, e.base.scheduler.schedule ≠ (.error err, s) := by
  intro h
  have h1 : raisedGamma.base.scheduler.schedule.1 = .error .loneRequestDoesNotFit := by decide +kernel
  exact h _ _ _ _ raisedGamma_reachable _ _ (Engine.schedule_of_fst h1)

def shorter : SpecEngine := ((new plainTiny).addRequest [1] { maxNewTokens := 2 }).2

def shorterFilling : SpecEngine := (shorter.step counter counterDraft).2

def tuned : SpecEngine :=
  { shorterFilling with
    gamma := 1
    base := { shorterFilling.base with scheduler := { shorterFilling.base.scheduler with
      tokensPerStep := 2
      tokensPerStep_pos := Nat.two_pos } } }

theorem gamma_safe_iff_tuned : tuned.base.scheduler.running = [0] ∧ tuned.HeadFits ∧
    ∀ err s, tuned.base.scheduler.schedule ≠ (.error err, s) := by
  have hfit1 : shorter.Fitting := by unfold Fitting Scheduler.Accepted; decide +kernel
  have hfit2 : shorterFilling.Fitting := by unfold Fitting Scheduler.Accepted; decide +kernel
  have hfit3 : tuned.Fitting := by unfold Fitting Scheduler.Accepted; decide +kernel
  have h1 : Tuned counter counterDraft plainTiny shorter := .call .init (.add _ _) fun _ _ => hfit1
  have hout : (shorter.step counter counterDraft).1 = .ok (some ⟨.prefill, [⟨0, 0, 1⟩], [], 0⟩) := by decide +kernel
  have h2 : Tuned counter counterDraft plainTiny shorterFilling := h1.call (.step (step_eq hout)) fun _ _ => hfit2
  have h3 : Tuned counter counterDraft plainTiny tuned :=
    h2.call (.setGamma (show shorterFilling.setGamma 1 = .ok tuned from rfl)) fun _ _ => hfit3
  have hsafe := (gamma_safe_iff _ _ _ _ h3.reachable).2 h3
  exact ⟨by decide +kernel, (gamma_safe_iff _ _ _ _ h3.reachable).1.mp hsafe, hsafe⟩

end SpecEngine

end MiniServe
