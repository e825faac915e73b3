import MiniServe.Server.ExactlyOnce

namespace MiniServe

open Transcript

namespace Engine

variable {e e' : Engine} {model : Model} {ok : List Token → Prop} {r : Rid}

theorem addRequest_valueError {prompt : List Token} {params : SamplingParams} {err : Error}
    (h : e.addRequest prompt params = (.error err, e')) : err.kind = .valueError := by
  have hnew : ∀ x, Request.new e.nextRid prompt params = .error x → x.kind = .valueError := by
    intro x hx
    unfold Request.new at hx
    split at hx
    · rw [← Except.error.inj hx]; rfl
    · simp at hx
  have hadd : ∀ q x, e.scheduler.add q = .error x → x.kind = .valueError := by
    intro q x hx
    simp only [Scheduler.add] at hx
    split at hx
    · rw [← Except.error.inj hx]; rfl
    · split at hx
      · rw [← Except.error.inj hx]; rfl
      · simp at hx
  unfold Engine.addRequest at h
  simp only at h
  split at h
  · next x hx =>
    obtain rfl := Except.error.inj (Prod.mk.inj h).1
    exact hnew _ hx
  · split at h
    · next x hx =>
      obtain rfl := Except.error.inj (Prod.mk.inj h).1
      exact hadd _ _ hx
    · simp at h

theorem Call.reads (h : Call model ok e e') (he : e.Sound) (hr : (e.request r).promptIds ≠ []) (hc : (e.request r).Cut) :
    Reads e e' r := by
  cases h with
  | @add prompt params hp =>
    rcases e.addRequest_cases prompt params with ⟨err, d, h1⟩ | ⟨q, d, hq, hrid, -, -, -, -, h1⟩
    · rw [h1]; exact ⟨⟨rfl, rfl, rfl⟩, Request.Grows.refl _, hc⟩
    · rw [h1]; exact Reads.of_moves (he.submit (d := d) hq hrid).2.moves he.pool rfl rfl hr hc
  | @abort _ r' ha =>
    obtain ⟨e1, h1, -, hm, -⟩ := he.abort r'
    obtain rfl : e1 = e' := Except.ok.inj (h1.symm.trans ha)
    exact Reads.of_moves hm he.pool rfl rfl hr hc
  | step hs => exact he.step_reads hs hr hc

theorem Call.sound (h : Call model ok e e') (he : e.Sound) : e'.Sound := by
  cases h with
  | @add prompt params hp =>
    rcases e.addRequest_cases prompt params with ⟨err, d, h1⟩ | ⟨q, d, hq, hrid, -, -, -, -, h1⟩
    · rw [h1]; exact he.rename (Nat.le_succ _)
    · rw [h1]; exact (he.submit hq hrid).1
  | @abort _ r' ha =>
    obtain ⟨e1, h1, hs, -⟩ := he.abort r'
    obtain rfl : e1 = e' := Except.ok.inj (h1.symm.trans ha)
    exact hs
  | step hs => exact he.step_sound hs

theorem Calls.sound (h : Calls model ok e e') (he : e.Sound) : e'.Sound := by
  induction h with
  | refl => exact he
  | tail _ hc ih => exact hc.sound ih

theorem Calls.reads (h : Calls model ok e e') (he : e.Sound) (hr : (e.request r).promptIds ≠ [])
    (hc : (e.request r).Cut) :
    Reads e e' r := by
  induction h with
  | refl => exact Reads.refl hc
  | tail h1 hcall ih =>
    have h2 := hcall.reads (Calls.sound h1 he) (ih.alike.ne_nil hr) ih.cut
    exact ⟨ih.alike.trans h2.alike, ih.grows.trans h2.grows, h2.cut⟩

end Engine

namespace Server

def Command.callOf : Command → Option Cid
  | .call c _ => some c
  | .add _ => none
  | .abort _ => none
  | .stop => none

-- A function for `call` that uses the engine through its own operations and raises nothing but an `Exception`.
def Polite (model : Model) (fn : Engine → CallOutcome × Engine) : Prop :=
  ∀ e, (fn e).1 ≠ .baseException ∧ Engine.Calls model (fun _ => True) e (fn e).2

namespace AsyncEngine

variable {a a' : AsyncEngine} {H : Sid → List Sent} {s : Sid} {us : List Update} {u : Update} {model : Model}
  {detokenize : List DetokenizeItem → List String → Prop} {c : EngineConfig} {ev : Event}

def Ended (T : List Sent) : Prop := ∃ x ∈ T, x.reason ≠ none

-- Every caller has its answer, or stands where the engine thread will still find it.
structure Awaited (model : Model) (a : AsyncEngine) (H : Sid → List Sent) : Prop where
  streams : ∀ s < a.numStreams, Ended (H s) ∨ s ∈ a.live.map Live.stream ∨ s ∈ a.commands.filterMap Command.addOf
  calls : ∀ c < a.numCalls, c ∈ a.resolved ∨ c ∈ a.commands.filterMap Command.callOf
  last : a.commands.Pairwise fun x y => x = .stop → y.addOf = none ∧ y.callOf = none
  stopping : .stop ∈ a.commands → a.stopping = true
  polite : ∀ c fn, .call c fn ∈ a.commands → Polite model fn
  exited : a.thread = .exited → (a.dead = true ∨ a.stopping = true) ∧ a.live = [] ∧
    ∀ cmd ∈ a.commands, cmd.addOf = none ∧ cmd.callOf = none
  engine : a.thread = .running → a.engine.Sound
  known : ∀ l ∈ a.live, (a.engine.request l.rid).promptIds ≠ [] ∧ (a.engine.request l.rid).Cut

namespace Awaited

theorem start (c : EngineConfig) : Awaited model (start c) fun _ => [] where
  streams := fun s hs => by simp at hs
  calls := fun s hs => by simp at hs
  last := List.Pairwise.nil
  stopping := fun h => by simp at h
  polite := fun c fn h => by simp at h
  exited := fun h => by simp at h
  engine := fun _ => Engine.new_sound c
  known := fun l hl => by simp at hl

theorem elsewhere (h : Awaited model a H) (updates : List (List Update)) (outputs : Sid → List StreamOutput) :
    Awaited model { a with updates, outputs } H :=
  ⟨h.streams, h.calls, h.last, h.stopping, h.polite, h.exited, h.engine, h.known⟩

theorem publish (h : Awaited model a' fun s => a.history s ++ sentOf us s) (hu : a'.updates = a.updates)
    (ho : a'.outputs = a.outputs) : Awaited model (a'.publish us) (a'.publish us).history := by
  have hist : (a'.publish us).history = fun s => a.history s ++ sentOf us s := by
    funext s
    rw [history_publish]
    simp only [history, hu, ho]
  rw [hist]
  unfold AsyncEngine.publish
  split
  · exact h
  · exact h.elsewhere _ _

theorem advance {e : Engine} {th : Thread} (h : Awaited model a H) (hth : th ≠ .exited)
    (hreads : ∀ r, (a.engine.request r).promptIds ≠ [] → (a.engine.request r).Cut → Engine.Reads a.engine e r)
    (hsound : th = .running → e.Sound) : Awaited model { a with engine := e, thread := th } H :=
  ⟨h.streams, h.calls, h.last, h.stopping, h.polite, fun hx => absurd hx hth, hsound, fun l hl => by
    obtain ⟨hne, hcut⟩ := h.known l hl
    have hr := hreads l.rid hne hcut
    exact ⟨hr.alike.ne_nil hne, hr.cut⟩⟩

theorem told {l : Live} {us : List Update} (h : Awaited model a fun s => H s ++ sentOf us s)
    (hu : u.stream = l.stream) (hr : u.finishReason ≠ none) :
    Awaited model { a with live := a.live.erase l } fun s => H s ++ sentOf (us ++ [u]) s := by
  refine ⟨fun s hs => ?_, h.calls, h.last, h.stopping, h.polite, fun ht => ?_, h.engine,
    fun x hx => h.known x (List.mem_of_mem_erase hx)⟩
  · have hmono : Ended (H s ++ sentOf us s) → Ended (H s ++ sentOf (us ++ [u]) s) := by
      rintro ⟨x, hx, hr⟩
      exact ⟨x, by rw [sentOf_append, ← List.append_assoc]; exact List.mem_append_left _ hx, hr⟩
    by_cases e : s = l.stream
    · refine .inl ⟨u.sent, ?_, hr⟩
      rw [e, ← hu, sentOf_append, sentOf_self]
      simp
    · rcases h.streams s hs with h1 | h1 | h1
      · exact .inl (hmono h1)
      · refine .inr (.inl ?_)
        obtain ⟨x, hx, rfl⟩ := List.mem_map.mp h1
        exact List.mem_map_of_mem ((List.mem_erase_of_ne fun e' => e (by rw [e'])).mpr hx)
      · exact .inr (.inr h1)
  · obtain ⟨h1, h2, h3⟩ := h.exited ht
    exact ⟨h1, by simp [h2], h3⟩

theorem collectRow {us us' : List Update} {r : Rid} (h : Awaited model a fun s => H s ++ sentOf us s)
    (hr : a.collectRow r us = some (us', a')) : Awaited model a' fun s => H s ++ sentOf us' s := by
  unfold AsyncEngine.collectRow at hr
  cases hfind : a.live.find? (fun l => l.rid = r) with
  | none =>
    rw [hfind] at hr
    obtain ⟨rfl, rfl⟩ := Prod.mk.inj (Option.some.inj hr)
    exact h
  | some l =>
    simp only [hfind] at hr
    split at hr
    · split at hr
      · simp at hr
      · obtain ⟨rfl, rfl⟩ := Prod.mk.inj (Option.some.inj hr)
        exact h.told rfl (by simp)
    · obtain ⟨rfl, rfl⟩ := Prod.mk.inj (Option.some.inj hr)
      obtain rfl : l.rid = r := by simpa using List.find?_some hfind
      have hl := h.known l (List.mem_of_find?_eq_some hfind)
      refine ⟨fun s hs => ?_, h.calls, h.last, h.stopping, h.polite, fun ht => ?_, h.engine, fun x hx => ?_⟩
      · rcases h.streams s hs with ⟨x, hx, hxr⟩ | h1 | h1
        · refine .inl ⟨x, ?_, hxr⟩
          split
          · exact hx
          · rw [sentOf_append, ← List.append_assoc]
            exact List.mem_append_left _ hx
        · refine .inr (.inl ?_)
          obtain ⟨x, hx, rfl⟩ := List.mem_map.mp h1
          refine List.mem_map.mpr ⟨_, List.mem_map_of_mem hx, ?_⟩
          by_cases e : x = l <;> simp [e]
        · exact .inr (.inr h1)
      · obtain ⟨h1, h2, h3⟩ := h.exited ht
        exact ⟨h1, by simp [h2], h3⟩
      · obtain ⟨y, hy, rfl⟩ := List.mem_map.mp hx
        by_cases e : y = l
        · simpa [e] using hl
        · simpa [e] using h.known y hy

theorem collectRow_some (us : List Update) (r : Rid) (h : Awaited model a H) : ∃ p, a.collectRow r us = some p := by
  unfold AsyncEngine.collectRow
  cases hfind : a.live.find? (fun l => l.rid = r) with
  | none => exact ⟨_, rfl⟩
  | some l =>
    obtain rfl : l.rid = r := by simpa using List.find?_some hfind
    by_cases hf : (a.engine.request l.rid).state = .finished
    · obtain ⟨pre, tok, hout, -⟩ := (h.known l (List.mem_of_find?_eq_some hfind)).2.finished hf
      simp [hf, hout]
    · simp [hf]

theorem collect (rids : List Rid) {us : List Update} (h : Awaited model a fun s => H s ++ sentOf us s) :
    ∃ us' a', AsyncEngine.collect rids us a = (some us', a') ∧ Awaited model a' fun s => H s ++ sentOf us' s := by
  induction rids generalizing a us with
  | nil => exact ⟨us, a, rfl, h⟩
  | cons r rest ih =>
    obtain ⟨⟨us1, a1⟩, h1⟩ := h.collectRow_some us r
    obtain ⟨us2, a2, h2, hs2⟩ := ih (h.collectRow h1)
    exact ⟨us2, a2, by simp only [AsyncEngine.collect, h1, h2], hs2⟩

theorem engineStep (h : Awaited model a a.history) (ht : a.thread = .running) :
    Awaited model (a.engineStep model) (a.engineStep model).history := by
  have he := h.engine ht
  unfold AsyncEngine.engineStep
  obtain ⟨⟨out, e'⟩, hs⟩ : ∃ p, a.engine.step model = p := ⟨_, rfl⟩
  have hreads := fun r hr hc => he.step_reads (r := r) hs hr hc
  rw [hs]
  cases out with
  | error err => exact h.advance (by simp) hreads (by simp)
  | ok out =>
    have hadv : Awaited model { a with engine := e' } a.history :=
      h.advance (by simp [ht]) hreads fun _ => he.step_sound hs
    cases out with
    | none => exact hadv
    | some b =>
      have h0 : Awaited model { a with engine := e' } fun s => a.history s ++ sentOf [] s := by
        simpa [sentOf] using hadv
      obtain ⟨us, a1, h1, hs1⟩ := h0.collect (b.rows.map Row.rid)
      obtain ⟨hu1, ho1⟩ := collect_same (b.rows.map Row.rid) [] { a with engine := e' }
      rw [h1] at hu1 ho1
      simp only [h1]
      exact hs1.publish hu1 ho1

theorem failAll (cause : Cause) (reason : FinishReason) (h : Awaited model a a.history) :
    Awaited model (a.failAll cause reason) (a.failAll cause reason).history ∧ (a.failAll cause reason).live = [] := by
  refine ⟨publish (a := a) ?_ rfl rfl, by rw [AsyncEngine.failAll, publish_live]⟩
  refine ⟨fun s hs => ?_, h.calls, h.last, h.stopping, h.polite, fun ht => ?_, h.engine, fun l hl => by simp at hl⟩
  · rcases h.streams s hs with ⟨x, hx, hr⟩ | h1 | h1
    · exact .inl ⟨x, List.mem_append_left _ hx, hr⟩
    · obtain ⟨l, hl, rfl⟩ := List.mem_map.mp h1
      refine .inl ⟨(failUpdate cause reason l).sent, List.mem_append_right _ ?_, by simp [failUpdate, Update.sent]⟩
      simp only [sentOf, List.mem_map, List.mem_filter]
      exact ⟨_, ⟨⟨l, hl, rfl⟩, by simp [failUpdate]⟩, rfl⟩
    · exact .inr (.inr h1)
  · obtain ⟨h1, -, h3⟩ := h.exited ht
    exact ⟨h1, rfl, h3⟩

theorem settle {cmd : Command} {rest : List Command} {e : Engine} {live : List Live} {resolved : List Cid}
    {requestOf : Sid → Option Rid} {H' : Sid → List Sent} (h : Awaited model a H) (ht : a.thread ≠ .exited)
    (hc : a.commands = cmd :: rest) (hH : ∀ s, Ended (H s) → Ended (H' s))
    (hlive : ∀ l ∈ a.live, Ended (H' l.stream) ∨ l.stream ∈ live.map Live.stream)
    (hadd : ∀ s, cmd.addOf = some s → Ended (H' s) ∨ s ∈ live.map Live.stream) (hres : ∀ c ∈ a.resolved, c ∈ resolved)
    (hcall : ∀ c, cmd.callOf = some c → c ∈ resolved) (hsound : a.thread = .running → e.Sound)
    (hknown : ∀ l ∈ live, (e.request l.rid).promptIds ≠ [] ∧ (e.request l.rid).Cut) :
    Awaited model { a with commands := rest, engine := e, live, resolved, requestOf } H' := by
  have hlast := h.last
  rw [hc] at hlast
  have hsub : ∀ x ∈ rest, x ∈ a.commands := fun x hx => hc ▸ List.mem_cons_of_mem _ hx
  refine ⟨fun s hs => ?_, fun i hi => ?_, (List.pairwise_cons.mp hlast).2, fun hs => h.stopping (hsub _ hs),
    fun i fn hm => h.polite i fn (hsub _ hm), fun hx => absurd hx ht, hsound, hknown⟩
  · rcases h.streams s hs with h1 | h1 | h1
    · exact .inl (hH s h1)
    · obtain ⟨l, hl, rfl⟩ := List.mem_map.mp h1
      rcases hlive l hl with h2 | h2
      · exact .inl h2
      · exact .inr (.inl h2)
    · rw [hc] at h1
      obtain ⟨x, hx, hxs⟩ := List.mem_filterMap.mp h1
      rcases List.mem_cons.mp hx with rfl | hx
      · rcases hadd s hxs with h2 | h2
        · exact .inl h2
        · exact .inr (.inl h2)
      · exact .inr (.inr (List.mem_filterMap.mpr ⟨x, hx, hxs⟩))
  · rcases h.calls i hi with h1 | h1
    · exact .inl (hres i h1)
    · rw [hc] at h1
      obtain ⟨x, hx, hxs⟩ := List.mem_filterMap.mp h1
      rcases List.mem_cons.mp hx with rfl | hx
      · exact .inl (hcall i hxs)
      · exact .inr (List.mem_filterMap.mpr ⟨x, hx, hxs⟩)

theorem ended_append {T T' : List Sent} (h : Ended T) : Ended (T ++ T') := by
  obtain ⟨x, hx, hr⟩ := h
  exact ⟨x, List.mem_append_left _ hx, hr⟩

theorem ended_sent {T : List Sent} (hr : u.finishReason ≠ none) : Ended (T ++ sentOf [u] u.stream) :=
  ⟨u.sent, by rw [sentOf_self]; simp, hr⟩

theorem handleAdd {rest : List Command} (h : Awaited model a a.history) (ht : a.thread = .running)
    (hc : a.commands = .add s :: rest) : Awaited model (AsyncEngine.handleAdd { a with commands := rest } s)
      (AsyncEngine.handleAdd { a with commands := rest } s).history := by
  have he := h.engine ht
  have hown : ∀ t, (Command.add s).addOf = some t → t = s := fun t ht => (Option.some.inj ht).symm
  unfold AsyncEngine.handleAdd
  rcases a.engine.addRequest_cases (a.streams s).promptIds (a.streams s).params with
    ⟨err, d, hadd⟩ | ⟨q, d, hq, hrid, -, -, -, -, hadd⟩
  · simp only [hadd, Engine.addRequest_valueError hadd, if_true]
    refine publish (a := a) ?_ rfl rfl
    refine h.settle (by simp [ht]) hc (fun t => ended_append) (fun l hl => .inr (List.mem_map_of_mem hl))
      (fun t htm => .inl ?_)
      (fun _ hm => hm) (by simp [Command.callOf]) (fun _ => he.rename (Nat.le_succ _)) h.known
    rw [hown t htm]
    exact @ended_sent ⟨s, [], some .error, 0, some (.rejected err)⟩ _ (by simp)
  · simp only [hadd]
    refine h.settle (by simp [ht]) hc (fun _ hm => hm) (fun l hl => .inr ?_) (fun t htm => .inr ?_) (fun _ hm => hm)
      (by simp [Command.callOf]) (fun _ => (he.submit hq hrid).1) fun l hl => ?_
    · exact List.mem_map_of_mem (List.mem_append_left _ hl)
    · simp [hown t htm]
    · have hself : Function.update a.engine.scheduler.reqs q.rid q q.rid = q := Function.update_self _ _ _
      rcases List.mem_append.mp hl with hl | hl
      · obtain ⟨hne, hcut⟩ := h.known l hl
        have hread := (@Engine.Call.add model (fun _ => True) a.engine (a.streams s).promptIds (a.streams s).params
          trivial).reads he hne hcut
        rw [hadd] at hread
        exact ⟨hread.alike.ne_nil hne, hread.cut⟩
      · obtain rfl := List.mem_singleton.mp hl
        show (Function.update a.engine.scheduler.reqs q.rid q q.rid).promptIds ≠ [] ∧
          (Function.update a.engine.scheduler.reqs q.rid q q.rid).Cut
        rw [hself]
        exact ⟨hq.prompt, hq.cut⟩

theorem handleAbort {rest : List Command} (h : Awaited model a a.history) (ht : a.thread = .running)
    (hc : a.commands = .abort s :: rest) : Awaited model (AsyncEngine.handleAbort { a with commands := rest } s)
      (AsyncEngine.handleAbort { a with commands := rest } s).history := by
  have he := h.engine ht
  unfold AsyncEngine.handleAbort
  cases hfind : a.live.find? (fun l => l.stream = s) with
  | none =>
    exact h.settle (by simp [ht]) hc (fun _ hm => hm) (fun l hl => .inr (List.mem_map_of_mem hl))
      (by simp [Command.addOf])
      (fun _ hm => hm) (by simp [Command.callOf]) h.engine h.known
  | some l =>
    obtain rfl : l.stream = s := by simpa using List.find?_some hfind
    obtain ⟨e', hab, hs', hm, -⟩ := he.abort l.rid
    simp only [hab]
    refine publish (a := a) ?_ rfl rfl
    refine h.settle (by simp [ht]) hc (fun t => ended_append) (fun x hx => ?_) (by simp [Command.addOf]) (fun _ hm => hm)
      (by simp [Command.callOf]) (fun _ => hs') fun x hx => ?_
    · by_cases e : x.stream = l.stream
      · rw [e]
        exact .inl (@ended_sent ⟨l.stream, [], some .abort, l.sent, none⟩ _ (by simp))
      · exact .inr (List.mem_map_of_mem ((List.mem_erase_of_ne fun e' => e (by rw [e'])).mpr hx))
    · obtain ⟨hne, hcut⟩ := h.known x (List.mem_of_mem_erase hx)
      have hread : Engine.Reads a.engine e' x.rid := Engine.Reads.of_moves hm he.pool rfl rfl hne hcut
      exact ⟨hread.alike.ne_nil hne, hread.cut⟩

theorem handleCall {i : Cid} {fn : Engine → CallOutcome × Engine} {rest : List Command} (h : Awaited model a a.history)
    (ht : a.thread = .running) (hc : a.commands = .call i fn :: rest) :
    Awaited model (AsyncEngine.handleCall { a with commands := rest } i fn)
      (AsyncEngine.handleCall { a with commands := rest } i fn).history := by
  have he := h.engine ht
  obtain ⟨hout, hcalls⟩ := h.polite i fn (by simp [hc]) a.engine
  unfold AsyncEngine.handleCall
  have hset : ∀ e, e = (fn a.engine).2 →
      Awaited model { a with commands := rest, engine := e, resolved := a.resolved ++ [i] } a.history := by
    rintro e rfl
    refine h.settle (by simp [ht]) hc (fun _ hm => hm) (fun l hl => .inr (List.mem_map_of_mem hl))
      (by simp [Command.addOf])
      (fun _ hm => List.mem_append_left _ hm) (by simp [Command.callOf]) (fun _ => hcalls.sound he) fun l hl => ?_
    obtain ⟨hne, hcut⟩ := h.known l hl
    have hread := hcalls.reads he hne hcut
    exact ⟨hread.alike.ne_nil hne, hread.cut⟩
  split
  · next e hfn => simp [show fn a.engine = _ from hfn] at hout
  · next e _ hfn => exact hset e (by rw [show fn a.engine = _ from hfn])

theorem exit (h : Awaited model a H) (hd : a.dead = true ∨ a.stopping = true) (hl : a.live = [])
    (hc : ∀ cmd ∈ a.commands, cmd.addOf = none ∧ cmd.callOf = none) : Awaited model { a with thread := .exited } H :=
  ⟨h.streams, h.calls, h.last, h.stopping, h.polite, fun _ => ⟨hd, hl, hc⟩, by simp, h.known⟩

theorem handleStop {rest : List Command} (h : Awaited model a a.history) (ht : a.thread = .running)
    (hc : a.commands = .stop :: rest) :
    Awaited model (AsyncEngine.handle { a with commands := rest } .stop)
      (AsyncEngine.handle { a with commands := rest } .stop).history := by
  have hpop : Awaited model { a with commands := rest } a.history :=
    h.settle (by simp [ht]) hc (fun _ hm => hm) (fun l hl => .inr (List.mem_map_of_mem hl)) (by simp [Command.addOf])
      (fun _ hm => hm) (by simp [Command.callOf]) h.engine h.known
  have hlast := h.last
  rw [hc] at hlast
  obtain ⟨hfail, hl⟩ := hpop.failAll .shuttingDown .abort
  obtain ⟨updates, hu⟩ := publish_same { a with commands := rest, live := [] }
    (a.live.map (failUpdate .shuttingDown .abort))
  have hst : (AsyncEngine.failAll { a with commands := rest } .shuttingDown .abort).stopping = true := by
    rw [AsyncEngine.failAll, hu]
    exact h.stopping (by simp [hc])
  have hrest : (AsyncEngine.failAll { a with commands := rest } .shuttingDown .abort).commands = rest := by
    rw [AsyncEngine.failAll, hu]
  exact hfail.exit (.inr hst) hl fun cmd hm => (List.pairwise_cons.mp hlast).1 cmd (hrest ▸ hm) rfl

theorem drainAfterDeath (e : Option Error) (cs : List Command)
    (h : Awaited model { a with commands := cs, thread := .failing e } a.history) (hd : a.dead = true) (hl : a.live = [])
    (hc : a.commands = []) (ht : a.thread = .exited) :
    Awaited model (AsyncEngine.drainAfterDeath e cs a) (AsyncEngine.drainAfterDeath e cs a).history := by
  induction cs generalizing a with
  | nil =>
    have hexit := h.exit (.inl hd) hl (by simp)
    have hself : { a with commands := [], thread := Thread.exited } = a := by rw [← hc, ← ht]
    simp only [hself] at hexit
    exact hexit
  | cons cmd rest ih =>
    have hlive : ∀ l ∈ a.live, ∀ P : Prop, P := fun l hm => by simp [hl] at hm
    simp only [AsyncEngine.drainAfterDeath]
    cases cmd with
    | add s =>
      have ha : a.answer e (.add s) =
          { a with updates := a.updates ++ [[⟨s, [], some .error, 0, some (.engineError e)⟩]] } := by
        simp [answer, AsyncEngine.publish]
      rw [ha]
      refine ih ?_ hd hl hc ht
      have hset : Awaited model { a with commands := rest, thread := .failing e } fun t =>
          a.history t ++ sentOf [⟨s, [], some .error, 0, some (.engineError e)⟩] t := by
        refine h.settle (by simp) rfl (fun t => ended_append) (fun l hm => hlive l hm _) (fun t htm => .inl ?_)
          (fun _ hm => hm) (by simp [Command.callOf]) h.engine h.known
        obtain rfl : s = t := Option.some.inj htm
        exact @ended_sent ⟨s, [], some .error, 0, some (.engineError e)⟩ _ (by simp)
      have hpub := publish (a := { a with commands := rest, thread := .failing e }) hset rfl rfl
      simp only [AsyncEngine.publish, List.cons_ne_nil, if_false] at hpub
      exact hpub
    | call c fn =>
      refine ih ?_ hd hl hc ht
      exact h.settle (by simp) rfl (fun _ hm => hm) (fun l hm => hlive l hm _) (by simp [Command.addOf])
        (fun _ hm => List.mem_append_left _ hm) (by simp [Command.callOf, answer]) h.engine h.known
    | abort s =>
      refine ih ?_ hd hl hc ht
      exact h.settle (by simp) rfl (fun _ hm => hm) (fun l hm => hlive l hm _) (by simp [Command.addOf])
        (fun _ hm => hm) (by simp [Command.callOf]) h.engine h.known
    | stop =>
      refine ih ?_ hd hl hc ht
      exact h.settle (by simp) rfl (fun _ hm => hm) (fun l hm => hlive l hm _) (by simp [Command.addOf])
        (fun _ hm => hm) (by simp [Command.callOf]) h.engine h.known

theorem die {e : Option Error} (h : Awaited model a a.history) (ht : a.thread = .failing e) :
    Awaited model (a.die e) (a.die e).history := by
  have hdead : Awaited model { a with dead := true } a.history :=
    ⟨h.streams, h.calls, h.last, h.stopping, h.polite, fun hx => by simp [ht] at hx, h.engine, h.known⟩
  obtain ⟨hfail, -⟩ := hdead.failAll (.engineError e) .error
  obtain ⟨updates, hu⟩ := publish_same { a with dead := true, live := [] }
    (a.live.map (failUpdate (.engineError e) .error))
  have heq : AsyncEngine.failAll { a with dead := true } (.engineError e) .error =
      { a with dead := true, live := [], updates := updates } := hu
  rw [heq] at hfail
  rw [AsyncEngine.die, heq]
  refine drainAfterDeath e a.commands ?_ rfl rfl rfl rfl
  have hself : ({ a with dead := true, live := [], updates := updates, thread := Thread.failing e } : AsyncEngine) =
      { a with dead := true, live := [], updates := updates } := by rw [← ht]
  simp only [hself]
  exact hfail

theorem enqueue {cmd : Command} {stopping : Bool} (h : Awaited model a H) (hst : a.stopping = true → stopping = true)
    (hown : cmd = .stop → stopping = true) (hq : cmd.addOf = none ∧ cmd.callOf = none) :
    Awaited model { a with commands := a.commands ++ [cmd], stopping } H := by
  have hcall : ∀ i fn, cmd ≠ .call i fn := by
    rintro i fn rfl
    simp [Command.callOf] at hq
  refine ⟨fun s hs => ?_, fun i hi => ?_, ?_, fun hm => ?_, fun i fn hm => ?_, fun hx => ?_, h.engine, h.known⟩
  · simpa [hq.1] using h.streams s hs
  · simpa [hq.2] using h.calls i hi
  · exact List.pairwise_append.mpr ⟨h.last, List.pairwise_singleton _ _, fun x _ y hy _ => List.mem_singleton.mp hy ▸ hq⟩
  · rcases List.mem_append.mp hm with hm | hm
    · exact hst (h.stopping hm)
    · exact hown (List.mem_singleton.mp hm).symm
  · rcases List.mem_append.mp hm with hm | hm
    · exact h.polite i fn hm
    · exact absurd (List.mem_singleton.mp hm).symm (hcall i fn)
  · obtain ⟨hd, hl, hc⟩ := h.exited hx
    refine ⟨hd.imp id hst, hl, fun x hm => ?_⟩
    rcases List.mem_append.mp hm with hm | hm
    · exact hc x hm
    · rw [List.mem_singleton.mp hm]; exact hq

-- A question is asked while nobody has asked the thread to stop.
theorem ask {cmd : Command} {numStreams numCalls : Nat} {streams : Sid → RequestStream} (h : Awaited model a H)
    (hd : a.dead = false) (hst : a.stopping = false) (hcmd : cmd ≠ .stop)
    (hp : ∀ i fn, cmd = .call i fn → Polite model fn)
    (hstreams : ∀ s < numStreams, s < a.numStreams ∨ cmd.addOf = some s)
    (hcalls : ∀ i < numCalls, i < a.numCalls ∨ cmd.callOf = some i) :
    Awaited model { a with commands := a.commands ++ [cmd], numStreams, numCalls, streams } H := by
  have hnot : .stop ∉ a.commands := fun hm => by
    have := h.stopping hm
    simp [hst] at this
  refine ⟨fun s hs => ?_, fun i hi => ?_, ?_, fun hm => ?_, fun i fn hm => ?_, fun hx => ?_, h.engine, h.known⟩
  · rw [List.filterMap_append, List.mem_append]
    rcases hstreams s hs with hs | hs
    · rcases h.streams s hs with h1 | h1 | h1
      · exact .inl h1
      · exact .inr (.inl h1)
      · exact .inr (.inr (.inl h1))
    · exact .inr (.inr (.inr (by simp [hs])))
  · rw [List.filterMap_append, List.mem_append]
    rcases hcalls i hi with hi | hi
    · rcases h.calls i hi with h1 | h1
      · exact .inl h1
      · exact .inr (.inl h1)
    · exact .inr (.inr (by simp [hi]))
  · exact List.pairwise_append.mpr ⟨h.last, List.pairwise_singleton _ _, fun x hx _ _ e => absurd (e ▸ hx) hnot⟩
  · rcases List.mem_append.mp hm with hm | hm
    · exact absurd hm hnot
    · exact absurd (List.mem_singleton.mp hm).symm hcmd
  · rcases List.mem_append.mp hm with hm | hm
    · exact h.polite i fn hm
    · exact hp i fn (List.mem_singleton.mp hm).symm
  · obtain ⟨h1, -⟩ := h.exited hx
    simp [hd, hst] at h1

theorem submit {promptIds : List Token} {params : SamplingParams} (h : Awaited model a H) (hst : a.stopping = false)
    (hs : a.submit promptIds params = some a') : Awaited model a' H := by
  unfold AsyncEngine.submit at hs
  split at hs
  · simp at hs
  · next hd =>
    obtain rfl := Option.some.inj hs
    refine h.ask (by simpa using hd) hst (by simp) (by simp) (fun s hs => ?_) fun i hi => .inl hi
    rcases Nat.lt_succ_iff_lt_or_eq.mp hs with hs | rfl
    · exact .inl hs
    · exact .inr rfl

theorem call {fn : Engine → CallOutcome × Engine} (h : Awaited model a H) (hst : a.stopping = false)
    (hp : Polite model fn)
    (hs : a.call fn = some a') : Awaited model a' H := by
  unfold AsyncEngine.call at hs
  split at hs
  · simp at hs
  · next hd =>
    obtain rfl := Option.some.inj hs
    refine h.ask (by simpa using hd) hst (by simp) (fun i fn' e => ?_) (fun s hs => .inl hs) fun i hi => ?_
    · obtain ⟨-, rfl⟩ := Command.call.inj e
      exact hp
    · rcases Nat.lt_succ_iff_lt_or_eq.mp hi with hi | rfl
      · exact .inl hi
      · exact .inr rfl

end Awaited

def Asks (model : Model) (a : AsyncEngine) : Event → Prop
  | .submit _ _ => a.stopping = false
  | .call fn => a.stopping = false ∧ Polite model fn
  | _ => True

theorem Awaited.next (h : Awaited model a a.history)
    (hd : ∀ items texts, detokenize items texts → texts.length = items.length) (hev : Asks model a ev)
    (hn : Next model detokenize ev a a') : Awaited model a' a'.history := by
  cases hn with
  | submit hs =>
    obtain ⟨hu, ho⟩ := submit_same hs
    have hist : a'.history = a.history := funext fun s => by simp only [history, hu, ho]
    rw [hist]
    exact h.submit hev hs
  | abort hlt => exact h.enqueue id (by simp) ⟨rfl, rfl⟩
  | call hc =>
    have hist : a'.history = a.history := by
      unfold AsyncEngine.call at hc
      split at hc
      · simp at hc
      · rw [← Option.some.inj hc]; rfl
    rw [hist]
    exact h.call hev.1 hev.2 hc
  | stop => exact h.enqueue (fun _ => rfl) (fun _ => rfl) ⟨rfl, rfl⟩
  | @pump _ n texts hp =>
    have hlen : texts.length = (a.fetched n).length := (hd _ _ hp).trans (List.length_map _)
    have hist : (a.pump n texts).history = a.history := funext fun s => (history_pump n hlen).1
    obtain ⟨outputs, ho⟩ := push_same ((a.fetched n).zip texts) { a with updates := a.updates.drop n }
    rw [hist, AsyncEngine.pump, ho]
    exact h.elsewhere _ _
  | @take _ cmd rest ht hc =>
    cases cmd with
    | add s => exact h.handleAdd ht hc
    | abort s => exact h.handleAbort ht hc
    | call i fn => exact h.handleCall ht hc
    | stop => exact h.handleStop ht hc
  | step ht hu => exact h.engineStep ht
  | fault ht hf =>
    refine h.advance (by simp) (fun r hr hc => ?_) (by simp)
    have he := h.engine ht
    cases hf with
    | start => exact Engine.Reads.refl hc
    | scheduled hsch => exact he.scheduled_reads hsch rfl hr hc
    | launched hsch hl => exact he.launched_reads hsch hl hr hc
  | die ht => exact h.die ht

theorem Run.awaited (hd : ∀ items texts, detokenize items texts → texts.length = items.length)
    (h : Run model detokenize (Asks model) (start c) a) : Awaited model a a.history := by
  induction h with
  | refl => exact Awaited.start c
  | tail _ hn ih =>
    obtain ⟨ev, hev, hn⟩ := hn
    exact ih.next hd hev hn

structure AllAnswered (a : AsyncEngine) : Prop where
  streams : ∀ s < a.numStreams, ∃ x ∈ a.history s, x.reason ≠ none
  calls : ∀ i < a.numCalls, i ∈ a.resolved
  queue : ∀ cmd ∈ a.commands, cmd.addOf = none ∧ cmd.callOf = none

theorem all_answered (hd : ∀ items texts, detokenize items texts → texts.length = items.length)
    (h : Run model detokenize (Asks model) (start c) a) (hx : a.thread = .exited) : AllAnswered a := by
  have ha := Run.awaited hd h
  obtain ⟨-, hl, hq⟩ := ha.exited hx
  have hnone : a.commands.filterMap Command.addOf = [] ∧ a.commands.filterMap Command.callOf = [] :=
    ⟨List.filterMap_eq_nil_iff.mpr fun cmd hm => (hq cmd hm).1,
      List.filterMap_eq_nil_iff.mpr fun cmd hm => (hq cmd hm).2⟩
  refine ⟨fun s hs => ?_, fun i hi => ?_, hq⟩
  · simpa [hl, hnone.1, Ended] using ha.streams s hs
  · simpa [hnone.2] using ha.calls i hi

def shutDown : AsyncEngine := AsyncEngine.handle { added.stop with commands := [] } .stop

theorem shutDown_run : Run (Engine.constant 7) silent (Asks (Engine.constant 7)) (start Engine.tiny) shutDown := by
  have h1 : Next (Engine.constant 7) silent (.submit [1, 2] { maxNewTokens := 1 })
    (start Engine.tiny) asked := .submit rfl
  have h2 : Next (Engine.constant 7) silent .take asked added := .take rfl rfl
  have h3 : Next (Engine.constant 7) silent .stop added added.stop := .stop
  have h4 : Next (Engine.constant 7) silent .take added.stop shutDown := .take (by decide +kernel) rfl
  have hrun : Run (Engine.constant 7) silent (Asks (Engine.constant 7)) (start Engine.tiny) added :=
    (Run.snoc Relation.ReflTransGen.refl h1 rfl).snoc h2 trivial
  exact (hrun.snoc h3 trivial).snoc h4 trivial

theorem all_answered_at_stop : shutDown.thread = .exited ∧ shutDown.numStreams = 1 ∧ AllAnswered shutDown := by
  refine ⟨rfl, by decide +kernel, all_answered (fun items texts h => ?_) shutDown_run rfl⟩
  rw [h, List.length_map]

def lateAsked : AsyncEngine := ((start Engine.tiny).stop.submit [1, 2] { maxNewTokens := 1 }).getD (start Engine.tiny)

def lateStopped : AsyncEngine := AsyncEngine.handle { lateAsked with commands := [.add 0] } .stop

theorem late_submission_unanswered : ¬ ∀ a, Run (Engine.constant 7) silent (fun _ _ => True) (start Engine.tiny) a →
    a.thread = .exited → AllAnswered a := by
  intro h
  have h1 : Next (Engine.constant 7) silent .stop (start Engine.tiny) (start Engine.tiny).stop := .stop
  have h2 : Next (Engine.constant 7) silent (.submit [1, 2] { maxNewTokens := 1 }) (start Engine.tiny).stop lateAsked :=
    .submit rfl
  have h3 : Next (Engine.constant 7) silent .take lateAsked lateStopped := .take rfl rfl
  have hrun : Run (Engine.constant 7) silent (fun _ _ => True) (start Engine.tiny) lateStopped :=
    ((Run.snoc Relation.ReflTransGen.refl h1 trivial).snoc h2 trivial).snoc h3 trivial
  obtain ⟨x, hx, -⟩ := (h lateStopped hrun rfl).streams 0 (by decide +kernel)
  have hnone : lateStopped.history 0 = [] := by decide +kernel
  rw [hnone] at hx
  simp at hx

end AsyncEngine

end Server

end MiniServe
