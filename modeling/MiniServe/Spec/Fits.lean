import MiniServe.Engine.Invariants
import MiniServe.Spec.Output

namespace MiniServe

open KVCacheManager Pool

-- What a scheduler that has just returned `out` still has room for: the batch it returned, and everything that
-- the running requests can allocate before one of them ends.
structure Scheduler.Serves (s : Scheduler) (out : Option Batch) : Prop where
  reserve : ∀ b, out = some b → (ModelRunner.reserve s b.rows).1 = .ok ()
  outstanding : ∃ n, s.outstanding s.running = .ok n ∧ n ≤ s.kv.numAvailable ∧ (s.kv.reserve n).1 = .ok ()

theorem Scheduler.Scheduled.serves {s s' : Scheduler} {older : List Entry} {out : Option Batch}
    (h : Scheduled s s' older (.ok out)) (hs : (s.pool [] older).Sound) : s'.Serves out := by
  have hs' := h.step.sound hs
  have hfit := h.fits out rfl
  refine ⟨fun b hb => ?_, ?_⟩
  · have hB := h.batch b (by rw [hb])
    obtain ⟨s1, hres, -⟩ := Scheduler.reserve_ok hs' (fun row hrow => (hB.rows row hrow).opens hs') hB.nodup
      ((hB.rowCosts_le hs').trans hfit)
    rw [hres]
  · obtain ⟨kv', -, hok, -⟩ := hs'.kv.reserve (s'.costs s'.running)
    refine ⟨_, Scheduler.outstanding_ok hs' (by simp), hfit, ?_⟩
    rw [show s'.kv.reserve _ = _ from (hok hfit).1]

namespace SpecEngine

variable {e e' : SpecEngine} {target : Target} {dm : DraftModel} {c : SpecConfig}

inductive Reachable (target : Target) (dm : DraftModel) (c : SpecConfig) : SpecEngine → Prop
  | init : Reachable target dm c (new c)
  | call {e e' : SpecEngine} (h : Reachable target dm c e) (hc : Call target dm e e') : Reachable target dm c e'
  | raised {e : SpecEngine} {s : Scheduler} {err : Error} (h : Reachable target dm c e)
      (hs : e.base.scheduler.schedule = (.error err, s)) :
        Reachable target dm c { e with base := { e.base with scheduler := s } }

theorem Reachable.based (h : Reachable target dm c e) : Based target e := by
  induction h with
  | init => exact new_based target c
  | call _ hc ih => exact hc.based ih
  | raised _ hs ih => exact ih.raised hs

theorem Calls.reachable (h : Calls target dm (new c) e) : Reachable target dm c e := by
  induction h with
  | refl => exact .init
  | tail _ hc ih => exact ih.call hc

def roundRows (s : Scheduler) (b : Batch) : List Row :=
  b.rows.map fun row => ⟨row.rid, (s.reqs row.rid).seqLen - 1, s.tokensPerStep⟩

theorem Based.round_reserves (h : Based target e) {b : Batch} {s : Scheduler}
    (hsch : e.base.scheduler.schedule = (.ok (some b), s)) (hph : b.phase = .decode) :
    (ModelRunner.reserve s (roundRows s b)).1 = .ok () := by
  let e1 : SpecEngine := { e with base := { e.base with scheduler := s, launched := some b } }
  have hr : Rounds target e1 b := h.rounds hsch hph rfl rfl
  have hrows : roundRows s b = (b.rows.map Row.rid).map e1.verifyRow := by
    rw [List.map_map]
    refine List.map_congr_left fun row _ => ?_
    rw [show s.tokensPerStep = e1.gamma + 1 from hr.tokensPerStep]
    rfl
  have hopens : ∀ row ∈ roundRows s b, s.RowOpens row := by
    intro row hrow
    rw [hrows] at hrow
    obtain ⟨r, hm, rfl⟩ := List.mem_map.mp hrow
    exact hr.opens hm
  have hnd : ((roundRows s b).map Row.rid).Nodup := by
    rw [hrows, Rounds.map_rid]
    exact hr.batch.nodup
  have hav : s.rowCosts (roundRows s b) ≤ s.kv.numAvailable := by
    rw [hrows]
    exact hr.costs_le
  obtain ⟨s1, hres, -⟩ := Scheduler.reserve_ok hr.sound hopens hnd hav
  rw [show ModelRunner.reserve s (roundRows s b) = _ from hres]

theorem scheduled_batch_fits :
    (∀ (model : Model) (c : EngineConfig) (ok : List Token → Prop) (e : Engine), Engine.Reachable model c ok e →
      ∀ out s, e.scheduler.schedule = (.ok out, s) → s.Serves out) ∧
    ∀ (target : Target) (dm : DraftModel) (c : SpecConfig) (e : SpecEngine), Reachable target dm c e →
      ∀ out s, e.base.scheduler.schedule = (.ok out, s) → s.Serves out ∧
        ∀ b, out = some b → e.gamma ≠ 0 → b.phase = .decode → (ModelRunner.reserve s (roundRows s b)).1 = .ok () := by
  refine ⟨fun model c ok e he out s hsch => ?_, fun target dm c e he out s hsch => ⟨?_, fun b hb _ hph => ?_⟩⟩
  · exact (he.sound.schedule_eq hsch).1.serves he.sound.pool
  · have h := he.based
    have hpool := h.sound.pool
    rw [h.entries] at hpool
    exact (h.scheduled hsch).1.serves hpool
  · rw [hb] at hsch
    exact he.based.round_reserves hsch hph

theorem scheduled_batch_fits_prefilled :
    Engine.afterFirst.scheduler.schedule.2.Serves (some ⟨.decode, [⟨0, 2, 1⟩], [], 1⟩) ∧
    (ModelRunner.reserve prefilled.base.scheduler.schedule.2
      (roundRows prefilled.base.scheduler.schedule.2 ⟨.decode, [⟨0, 1, 1⟩], [], 1⟩)).1 = .ok () := by
  have h1 : Engine.afterFirst.scheduler.schedule.1 = .ok (some ⟨.decode, [⟨0, 2, 1⟩], [], 1⟩) := by decide +kernel
  have h2 : prefilled.base.scheduler.schedule.1 = .ok (some ⟨.decode, [⟨0, 1, 1⟩], [], 1⟩) := by decide +kernel
  have hcalls : Calls counter counterDraft (new tiny) prefilled := Calls.next submitted_calls (by decide +kernel)
  have hg : prefilled.gamma ≠ 0 := by decide +kernel
  exact ⟨scheduled_batch_fits.1 _ _ _ _ Engine.afterFirst_reachable _ _ (Engine.schedule_of_fst h1),
    (scheduled_batch_fits.2 _ _ _ _ hcalls.reachable _ _ (Engine.schedule_of_fst h2)).2 _ rfl hg rfl⟩

end SpecEngine

end MiniServe
