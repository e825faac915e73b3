import MiniServe.Engine.Termination
import MiniServe.Server.Told

namespace MiniServe

namespace Engine

variable {e e' : Engine} {r : Rid}

theorem retire_requests (h : e.retire r = .ok e') : e'.requests = e.requests.erase r := by
  unfold retire at h
  split at h
  · simp at h
  · split at h
    · simp at h
    · split at h
      · rw [← Except.ok.inj h]
      · simp at h

theorem abort_requests (h : e.abort r = .ok e') : e'.requests = e.requests.erase r := by
  unfold abort at h
  split at h
  · split at h
    · simp at h
    · have hr := retire_requests h
      exact hr
  · next hr => rw [← Except.ok.inj h, List.erase_of_not_mem hr]

theorem Sound.step_requests {model : Model} {out : Option Batch} (he : e.Sound) (h : e.step model = (.ok out, e')) :
    ∀ r ∈ e'.requests, r ∈ e.requests := by
  rcases he.step_cases model with ⟨s, -, h1⟩ | ⟨b, s, err, -, -, h1⟩ | ⟨out', e1, h1, -, -, hadv⟩
  · rw [h1] at h
    simp at h
  · rw [h] at h1
    simp at h1
  · rw [h1] at h
    obtain ⟨-, rfl⟩ := Prod.mk.inj h
    exact hadv.requests

end Engine

namespace Server

namespace AsyncEngine

variable {a a' : AsyncEngine} {s : Sid} {us : List Update} {model : Model} {ev : Event} {n : Nat}

section Doomed

theorem mem_adds : s ∈ a.adds ↔ .add s ∈ a.commands := by
  unfold adds
  rw [List.mem_filterMap]
  constructor
  · rintro ⟨cmd, hm, hs⟩
    cases cmd with
    | add t =>
      obtain rfl : t = s := by simpa [Command.addOf] using hs
      exact hm
    | abort t => simp [Command.addOf] at hs
    | call c fn => simp [Command.addOf] at hs
    | stop => simp [Command.addOf] at hs
  · exact fun hm => ⟨_, hm, rfl⟩

-- The engine thread will stop generating for the stream, or has: an abort stands behind its add.
def Doomed (a : AsyncEngine) (s : Sid) : Prop :=
  a.Failing ∨ (¬ a.Fresh s ∧ s ∉ a.liveStreams) ∨
    ∃ before behind, a.commands = before ++ .abort s :: behind ∧ .add s ∉ behind

theorem doomed_abort (a : AsyncEngine) (s : Sid) : (a.abort s).Doomed s := .inr (.inr ⟨a.commands, [], rfl, by simp⟩)

theorem Doomed.of_taken (hs : ¬ a.Fresh s) (h : .abort s ∈ a.commands ∨ a.Failing ∨ s ∉ a.liveStreams) : a.Doomed s := by
  rcases h with h | h | h
  · obtain ⟨before, behind, hc⟩ := List.append_of_mem h
    refine .inr (.inr ⟨before, behind, hc, fun hm => hs (.inl (mem_adds.mpr ?_))⟩)
    rw [hc]
    exact List.mem_append_right _ (List.mem_cons_of_mem _ hm)
  · exact .inl h
  · exact .inr (.inl ⟨hs, h⟩)

theorem Doomed.taken (h : a.Doomed s) : .abort s ∈ a.commands ∨ a.Failing ∨ s ∉ a.liveStreams := by
  rcases h with h | ⟨-, h⟩ | ⟨before, behind, hc, -⟩
  · exact .inr (.inl h)
  · exact .inr (.inr h)
  · exact .inl (by rw [hc]; simp)

theorem Doomed.served (h : a.Doomed s) (hs : Served model a a' us) (hf : ¬ a.Fresh s) : a'.Doomed s := by
  have hf' := hs.sends.not_fresh hf
  refine .of_taken hf' ?_
  rcases h.taken with h | h | h
  · exact hs.sends.aborts s hf (.inl h)
  · exact hs.sends.aborts s hf (.inr h)
  · exact .inr (.inr (hs.sends.stays_closed hf h))

theorem Doomed.append {cs : List Command} (h : a.Doomed s) (ht : a'.thread = a.thread)
    (hl : a'.liveStreams = a.liveStreams)
    (hn : a.numStreams ≤ a'.numStreams) (hc : a'.commands = a.commands ++ cs) (hcs : .add s ∉ cs) : a'.Doomed s := by
  rcases h with ⟨e, h⟩ | ⟨h1, h2⟩ | ⟨before, behind, hb, hnot⟩
  · exact .inl ⟨e, ht.trans h⟩
  · refine .inr (.inl ⟨fun hf => h1 ?_, hl ▸ h2⟩)
    rcases hf with hf | hf
    · have hm := mem_adds.mp hf
      rw [hc] at hm
      exact .inl (mem_adds.mpr ((List.mem_append.mp hm).resolve_right hcs))
    · exact .inr (hn.trans hf)
  · refine .inr (.inr ⟨before, behind ++ cs, by rw [hc, hb, List.append_assoc, List.cons_append], fun hm => ?_⟩)
    exact (List.mem_append.mp hm).elim hnot hcs

theorem drainAfterDeath_thread (e : Option Error) (cs : List Command) (a : AsyncEngine) :
    (drainAfterDeath e cs a).thread = a.thread ∧ (drainAfterDeath e cs a).live = a.live := by
  induction cs generalizing a with
  | nil => exact ⟨rfl, rfl⟩
  | cons cmd rest ih =>
    obtain ⟨h1, h2⟩ := ih (a.answer e cmd)
    have hans : (a.answer e cmd).thread = a.thread ∧ (a.answer e cmd).live = a.live := by
      cases cmd with
      | add s =>
        obtain ⟨updates, he⟩ := publish_same a [⟨s, [], some .error, 0, some (.engineError e)⟩]
        rw [answer, he]
        exact ⟨rfl, rfl⟩
      | abort s => exact ⟨rfl, rfl⟩
      | call i fn => exact ⟨rfl, rfl⟩
      | stop => exact ⟨rfl, rfl⟩
    exact ⟨h1.trans hans.1, h2.trans hans.2⟩

theorem doomed_die (e : Option Error) (hs : s < a.numStreams) : (a.die e).Doomed s := by
  have hk := die_keeps e a
  have hlive : (a.die e).live = [] := by
    unfold AsyncEngine.die
    rw [(drainAfterDeath_thread _ _ _).2]
    exact publish_live _ _
  refine .inr (.inl ⟨?_, by simp [liveStreams, hlive]⟩)
  rintro (hf | hf)
  · rw [mem_adds, hk.commands] at hf
    simp at hf
  · rw [hk.numStreams] at hf
    exact absurd hs (not_lt.mpr hf)

theorem Doomed.next (h : a.Doomed s) (hs : s < a.numStreams) (hsane : Sane model a) (hev : ∀ fn, ev ≠ .call fn)
    (hn : Next model (fun _ _ => False) ev a a') : a'.Doomed s := by
  obtain ⟨us, hserved⟩ := hsane.next (fun fn he => absurd he (hev fn)) hn
  by_cases hf : a.Fresh s
  · cases hn with
    | submit hsub =>
      unfold AsyncEngine.submit at hsub
      split at hsub
      · simp at hsub
      · rw [← Option.some.inj hsub]
        have hne : s ≠ a.numStreams := Nat.ne_of_lt hs
        exact h.append rfl rfl (Nat.le_succ _) rfl (by simpa using hne)
    | abort hlt => exact h.append rfl rfl le_rfl rfl (by simp)
    | call hc => exact absurd rfl (hev _)
    | stop => exact h.append rfl rfl le_rfl rfl (by simp)
    | pump hp => exact absurd hp id
    | @take _ cmd rest ht hc =>
      have hk := handle_keeps cmd { a with commands := rest }
      rcases h with ⟨e, h⟩ | ⟨h1, -⟩ | ⟨before, behind, hb, hnot⟩
      · rw [ht] at h
        simp at h
      · exact absurd hf h1
      · rw [hc] at hb
        cases before with
        | nil =>
          obtain ⟨rfl, rfl⟩ := List.cons.inj hb
          have hm := mem_adds.mp (hf.resolve_right (not_le.mpr hs))
          rw [hc] at hm
          exact absurd (List.mem_cons.mp hm) (by simp [hnot])
        | cons x before =>
          obtain ⟨-, rfl⟩ := List.cons.inj hb
          exact .inr (.inr ⟨before, behind, hk.commands, hnot⟩)
    | step ht hu =>
      have hk := engineStep_keeps model a
      rcases h with ⟨e, h⟩ | ⟨h1, -⟩ | ⟨before, behind, hb, hnot⟩
      · rw [ht] at h
        simp at h
      · exact absurd hf h1
      · exact .inr (.inr ⟨before, behind, hk.commands.trans hb, hnot⟩)
    | fault ht hfault => exact .inl ⟨none, rfl⟩
    | die ht => exact doomed_die _ hs
  · exact h.served hserved hf

end Doomed

section Tracked

variable {r : Rid}

def Tracked (a : AsyncEngine) : Prop := a.thread = .running → ∀ r ∈ a.engine.requests, ∃ l ∈ a.live, l.rid = r

theorem collectRow_live {us us' : List Update} (h : a.collectRow r us = some (us', a')) :
    a'.engine = a.engine ∧ a'.thread = a.thread ∧
      ∀ l ∈ a.live, (a.engine.request l.rid).state ≠ .finished → ∃ l' ∈ a'.live, l'.rid = l.rid := by
  unfold collectRow at h
  split at h
  · obtain ⟨-, rfl⟩ := Prod.mk.inj (Option.some.inj h)
    exact ⟨rfl, rfl, fun l hl _ => ⟨l, hl, rfl⟩⟩
  · next l hfind =>
    obtain rfl : l.rid = r := by simpa using List.find?_some hfind
    by_cases hf : (a.engine.request l.rid).state = .finished
    · simp only [hf, if_true] at h
      split at h
      · simp at h
      · obtain ⟨-, rfl⟩ := Prod.mk.inj (Option.some.inj h)
        refine ⟨rfl, rfl, fun x hx hnf => ⟨x, ?_, rfl⟩⟩
        have hne : x ≠ l := fun e => hnf (e ▸ hf)
        exact (List.mem_erase_of_ne hne).mpr hx
    · simp only [hf, if_false] at h
      obtain ⟨-, rfl⟩ := Prod.mk.inj (Option.some.inj h)
      refine ⟨rfl, rfl, fun x hx _ => ⟨_, List.mem_map_of_mem hx, ?_⟩⟩
      by_cases e : x = l <;> simp [e]

theorem collect_live (rids : List Rid) (us : List Update) (a : AsyncEngine) :
    (collect rids us a).2.engine = a.engine ∧ (collect rids us a).2.thread = a.thread ∧
      ∀ l ∈ a.live, (a.engine.request l.rid).state ≠ .finished → ∃ l' ∈ (collect rids us a).2.live, l'.rid = l.rid := by
  induction rids generalizing us a with
  | nil => exact ⟨rfl, rfl, fun l hl _ => ⟨l, hl, rfl⟩⟩
  | cons r rest ih =>
    simp only [collect]
    cases h : a.collectRow r us with
    | none => exact ⟨rfl, rfl, fun l hl _ => ⟨l, hl, rfl⟩⟩
    | some p =>
      obtain ⟨he, ht, hl⟩ := collectRow_live h
      obtain ⟨he', ht', hl'⟩ := ih p.1 p.2
      refine ⟨he'.trans he, ht'.trans ht, fun l hm hnf => ?_⟩
      obtain ⟨l1, hm1, hr1⟩ := hl l hm hnf
      obtain ⟨l2, hm2, hr2⟩ := hl' l1 hm1 (by rw [he, hr1]; exact hnf)
      exact ⟨l2, hm2, hr2.trans hr1⟩

theorem Tracked.publish (us : List Update) (h : Tracked a) : Tracked (a.publish us) := by
  obtain ⟨updates, he⟩ := publish_same a us
  rw [he]
  exact h

theorem Tracked.engineStep (h : Tracked a) (hsane : Sane model a) (ht : a.thread = .running) :
    Tracked (a.engineStep model) := by
  have he := hsane.engine ht
  unfold AsyncEngine.engineStep
  split
  · exact fun hx => by simp [raise] at hx
  · next e hstep => exact fun _ r hr => h ht r (he.step_requests hstep r hr)
  · next b e hstep =>
    have hsound := he.step_sound hstep
    obtain ⟨h1, h2, h3⟩ := collect_live (b.rows.map Row.rid) [] { a with engine := e }
    split
    · exact fun hx => by simp [raise] at hx
    · next us a1 hc =>
      rw [hc] at h1 h3
      refine Tracked.publish us fun _ r hr => ?_
      rw [h1] at hr
      obtain ⟨l, hl, rfl⟩ := h ht r (he.step_requests hstep r hr)
      exact h3 l hl fun hf => hsound.request_not_done hr (.inl hf)

theorem Tracked.handleAdd (h : Tracked a) (ht : a.thread = .running) (s : Sid) : Tracked (a.handleAdd s) := by
  unfold AsyncEngine.handleAdd
  rcases a.engine.addRequest_cases (a.streams s).promptIds (a.streams s).params with
    ⟨err, d, hadd⟩ | ⟨q, d, -, -, -, -, -, -, hadd⟩
  · simp only [hadd]
    split
    · exact Tracked.publish _ h
    · exact fun hx => by simp [raise] at hx
  · simp only [hadd]
    intro _ r hr
    rcases List.mem_append.mp hr with hr | hr
    · obtain ⟨l, hl, hlr⟩ := h ht r hr
      exact ⟨l, List.mem_append_left _ hl, hlr⟩
    · exact ⟨_, List.mem_append_right _ (List.mem_singleton_self _), (List.mem_singleton.mp hr).symm⟩

theorem Tracked.handleAbort (h : Tracked a) (hsane : Sane model a) (ht : a.thread = .running) (s : Sid) :
    Tracked (a.handleAbort s) := by
  have he := hsane.engine ht
  unfold AsyncEngine.handleAbort
  split
  · exact h
  · next l hfind =>
    split
    · exact fun hx => by simp [raise] at hx
    · next e hab =>
      refine Tracked.publish _ fun _ r hr => ?_
      have hreq := Engine.abort_requests hab
      have hr : r ∈ a.engine.requests.erase l.rid := hreq ▸ hr
      obtain ⟨hne, hm⟩ := (he.requests.nodup_iff.mpr he.queues_nodup).mem_erase_iff.mp hr
      obtain ⟨l', hl', rfl⟩ := h ht r hm
      exact ⟨l', (List.mem_erase_of_ne fun e => hne (congrArg Live.rid e)).mpr hl', rfl⟩

theorem Tracked.next (h : Tracked a) (hsane : Sane model a) (hcalls : ∀ i fn, .call i fn ∉ a.commands)
    (hn : Next model (fun _ _ => False) ev a a') : Tracked a' := by
  cases hn with
  | submit hsub =>
    unfold AsyncEngine.submit at hsub
    split at hsub
    · simp at hsub
    · rw [← Option.some.inj hsub]
      exact h
  | abort hlt => exact h
  | call hc =>
    unfold AsyncEngine.call at hc
    split at hc
    · simp at hc
    · rw [← Option.some.inj hc]
      exact h
  | stop => exact h
  | pump hp => exact absurd hp id
  | @take _ cmd rest ht hc =>
    have hpop : Tracked { a with commands := rest } := h
    cases cmd with
    | add s => exact hpop.handleAdd ht s
    | abort s => exact hpop.handleAbort (hsane.popped hc) ht s
    | call i fn => exact absurd (hc ▸ List.mem_cons_self) (hcalls i fn)
    | stop => exact fun hx => by simp [handle] at hx
  | step ht hu => exact h.engineStep hsane ht
  | fault ht hf => exact fun hx => by simp [raise] at hx
  | @die _ e ht =>
    intro hx
    unfold AsyncEngine.die at hx
    rw [(drainAfterDeath_thread _ _ _).1] at hx
    simp at hx

end Tracked

end AsyncEngine

namespace Serving

open AsyncEngine

variable {sv sv' : Serving} {model : Model} {c : EngineConfig} {mv : Move} {s : Sid}

theorem abortOf_add (us : List Update) (s : Sid) : .add s ∉ us.filterMap abortOf := by
  intro hm
  obtain ⟨u, -, hu⟩ := List.mem_filterMap.mp hm
  unfold abortOf at hu
  split at hu <;> simp at hu

theorem doomed_serves (h : sv.srv.Doomed s) (hs : s < sv.srv.numStreams) (hsteady : Steady model sv) (hmv : NoCalls mv)
    (hserves : Serves model mv sv sv') : sv'.srv.Doomed s := by
  cases hserves with
  | thread hn => exact h.next hs hsteady.sane hmv hn
  | pump n decode =>
    have hP := pump_srv n decode sv
    have hlive : (sv.pump n decode).srv.liveStreams = sv.srv.liveStreams := by rw [liveStreams, hP.live, liveStreams]
    obtain ⟨cs, hc, hcs⟩ : ∃ cs, (sv.pump n decode).srv.commands = sv.srv.commands ++ cs ∧ .add s ∉ cs := by
      unfold Serving.pump
      split
      · exact ⟨[], by rw [(pump_keeps n _ sv.srv).commands, List.append_nil], by simp⟩
      · exact ⟨_, (pumpFailed_keeps n sv.srv).commands, abortOf_add _ s⟩
    exact h.append hP.thread hlive hP.numStreams.ge hc hcs

theorem tracked_serves (h : sv.srv.Tracked) (hsteady : Steady model sv) (hshadowed : Shadowed model c sv)
    (hserves : Serves model mv sv sv') : sv'.srv.Tracked := by
  cases hserves with
  | thread hn =>
    obtain ⟨b, hrun, hb⟩ := hshadowed
    have hcalls := (run_streams hrun).calls
    rw [hb.same] at hcalls
    exact h.next hsteady.sane hcalls hn
  | pump n decode =>
    unfold Serving.pump
    split
    · next texts st _ =>
      obtain ⟨outputs, ho⟩ := push_same ((sv.srv.fetched n).zip (texts.map String.ofList))
        { sv.srv with updates := sv.srv.updates.drop n }
      simp only [AsyncEngine.pump, ho]
      exact h
    · obtain ⟨outputs, ho⟩ := push_same (((sv.srv.fetched n).map failed).map fun u => (u, "")) { sv.srv with
        updates := sv.srv.updates.drop n
        commands := sv.srv.commands ++ (sv.srv.fetched n).filterMap abortOf }
      simp only [AsyncEngine.pumpFailed, ho]
      exact h

end Serving

namespace Http

open Serving AsyncEngine

variable {model : Model} {c : EngineConfig} {app : App} {x x' : Http} {act : Act} {s : Sid} {hd : Handler}

-- Nobody waits for what has been doomed or told, and the engine works for nobody else.
structure Watched (x : Http) : Prop where
  doomed : ∀ s hd, x.handlers s = some hd → hd.ended = true ∨ hd.disconnected ≠ none →
    hd.finished = true ∨ x.sv.srv.Doomed s
  tracked : x.sv.srv.Tracked

theorem Sound.doomed (h : Sound model c x) (hm : Moved model NoCalls x.sv x'.sv) (hs : x.handlers s = some hd)
    (hdoom : x.sv.srv.Doomed s) : x'.sv.srv.Doomed s := by
  cases hm with
  | same he =>
    rw [he]
    exact hdoom
  | serves hmv hserves => exact doomed_serves hdoom ((h.known s).mp (by simp [hs])) h.steady hmv hserves

theorem Sound.calm (h : Sound model c x) (ha : Acts app model act x x') : Moved model NoCalls x.sv x'.sv :=
  h.moved ha (fun _ _ hown => own_noCalls hown) (fun _ _ => by simp [NoCalls]) fun _ => by simp [NoCalls]

theorem abortUnless_doomed (x : Http) (s : Sid) (finished : Bool) :
    finished = true ∨ (x.abortUnless s finished).sv.srv.Doomed s := by
  cases finished with
  | true => exact .inl rfl
  | false => exact .inr (doomed_abort x.sv.srv s)

theorem stop_handlers (x : Http) (s : Sid) (finished : Bool) (new : Handler) :
    ((x.abortUnless s finished).put s new).handlers = Function.update x.handlers s (some new) := by
  rw [Http.put, (abortUnless_outputs x s finished).2]

theorem Watched.put (h : Watched x) (hsound : Sound model c x) (new : Handler) (hm : Moved model NoCalls x.sv x'.sv)
    (hx : x'.handlers = Function.update x.handlers s (some new))
    (hnew : new.ended = true ∨ new.disconnected ≠ none → new.finished = true ∨ x'.sv.srv.Doomed s) :
    ∀ t hd, x'.handlers t = some hd → hd.ended = true ∨ hd.disconnected ≠ none → hd.finished = true ∨
    x'.sv.srv.Doomed t := by
  intro t hd' ht hgone
  rw [hx] at ht
  rcases update_cases ht with ⟨rfl, rfl⟩ | ⟨-, ht⟩
  · exact hnew hgone
  · exact (h.doomed t hd' ht hgone).imp_right (hsound.doomed hm ht)

theorem Watched.resume (h : Watched x) (hsound : Sound model c x) (new : Handler)
    (hm : Moved model NoCalls x.sv (x.resume s new).sv)
    (hnew : new.ended = false → new.disconnected ≠ none → new.finished = true ∨ x.sv.srv.Doomed s) :
    ∀ t hd, (x.resume s new).handlers t = some hd → hd.ended = true ∨ hd.disconnected ≠ none →
      hd.finished = true ∨ (x.resume s new).sv.srv.Doomed t := by
  by_cases he : new.ended = true
  · have hx : x.resume s new = x.close s new := if_pos he
    rw [hx] at hm ⊢
    exact h.put hsound _ hm (stop_handlers x s new.finished _) fun _ => abortUnless_doomed x s new.finished
  · have hx : x.resume s new = x.put s new := if_neg he
    have he : new.ended = false := by simpa using he
    rw [hx] at hm ⊢
    exact h.put hsound new hm rfl fun hgone => hnew he (hgone.resolve_left (by simp [he]))

theorem Watched.generate {post : Post} {promptIds : List Token} {hex : String} {created : Nat} (h : Watched x)
    (hsound : Sound model c x) (hm : Moved model NoCalls x.sv x'.sv)
    (hg : x.generate app post promptIds hex created = .ok x') :
    ∀ t hd, x'.handlers t = some hd → hd.ended = true ∨ hd.disconnected ≠ none → hd.finished = true ∨
    x'.sv.srv.Doomed t := by
  have hx : x'.handlers = Function.update x.handlers x.sv.srv.numStreams (some (app.handler post hex created)) := by
    unfold Http.generate at hg
    split at hg
    · simp at hg
    · split at hg
      · simp at hg
      · rw [← Except.ok.inj hg]
  exact h.put hsound _ hm hx fun hgone => by simp [App.handler] at hgone

theorem Watched.acts (h : Watched x) (hsound : Sound model c x) (ha : Acts app model act x x') : Watched x' := by
  have hm := hsound.calm ha
  refine ⟨?_, ?_⟩
  · cases ha with
    | serve hown hs => exact fun t hd ht hgone => (h.doomed t hd ht hgone).imp_right (hsound.doomed hm ht)
    | generate hg => exact h.generate hsound hm hg
    | @sent _ s hd hh hrun hu =>
      have hk := hd.sent_kept
      refine h.put hsound _ hm rfl fun hgone => ?_
      rw [hk.ended, hk.disconnected] at hgone
      rw [hk.finished]
      exact (h.doomed s hd hh hgone).imp_right (hsound.doomed hm hh)
    | @got _ s hd out hh hidle hdis hout =>
      have hsame := got_same hd out
      refine h.resume hsound _ hm fun _ hgone => ?_
      rw [hsame.disconnected] at hgone
      refine (h.doomed s hd hh (.inr hgone)).imp_left fun hf => ?_
      rw [hsame.finished]
      simp [Handler.counted, hf]
    | @dropped _ s hd hh hidle hdis =>
      refine h.resume hsound _ hm fun hrun => ?_
      unfold Handler.dropped at hrun
      split at hrun <;> simp at hrun
    | @disconnect _ s hd hh hrun hdis =>
      exact h.put hsound _ hm (stop_handlers x s hd.finished _) fun _ => abortUnless_doomed x s hd.finished
    | @close _ s hd hh hrun =>
      exact h.put hsound _ hm (stop_handlers x s hd.finished _) fun _ => abortUnless_doomed x s hd.finished
  · cases hm with
    | same he =>
      rw [he]
      exact h.tracked
    | serves hmv hs => exact tracked_serves h.tracked hsound.steady hsound.shadowed hs

theorem Run.watched {ok : Act → Prop} (h : Http.Run app model ok (Http.start c) x) : Watched x := by
  induction h with
  | refl => exact ⟨fun s hd hs => by simp at hs, fun _ r hr => by simp [Engine.new] at hr⟩
  | tail h1 hn ih =>
    obtain ⟨act, -, ha⟩ := hn
    exact ih.acts (Run.sound h1) ha

theorem Sound.finished_output (h : Sound model c x) (hs : x.handlers s = some hd) (hf : hd.finished = true) :
    ∃ o ∈ x.sv.srv.outputs s, o.finishReason ≠ none := by
  rcases h.reads s hd hs with hr | hdone
  · simp [hr.unfinished] at hf
  · obtain ⟨pre, o, reason, hlast, -, hreason, -⟩ := hdone.last
    refine ⟨o, List.mem_of_mem_take (hlast ▸ List.mem_append_right _ (List.mem_singleton_self o)), ?_⟩
    simp [hreason]

-- Whenever the engine thread has taken its commands, and steps, each request it steps for has a handler that waits for
-- it, of a client that has not left.
theorem no_request_without_client {ok : Act → Prop} (h : Http.Run app model ok (Http.start c) x)
    (ht : x.sv.srv.thread = .running) (hc : x.sv.srv.commands = []) :
    ∀ r ∈ x.sv.srv.engine.requests, ∃ s hd, x.handlers s = some hd ∧ x.sv.srv.requestOf s = some r ∧
      hd.ended = false ∧ hd.disconnected = none ∧ hd.finished = false ∧
      ∀ o ∈ x.sv.srv.outputs s, o.finishReason = none := by
  intro r hr
  have hsound := Run.sound h
  have hwatched := Run.watched h
  obtain ⟨l, hl, rfl⟩ := hwatched.tracked ht r hr
  have hlive : l.stream ∈ x.sv.srv.liveStreams := List.mem_map_of_mem hl
  have hrun : ¬ x.sv.srv.Failing := by
    rintro ⟨e, he⟩
    rw [ht] at he
    simp at he
  have hlt : l.stream < x.sv.srv.numStreams := by
    by_contra hge
    exact hsound.steady.sane.live_old _ hlive (.inr (not_lt.mp hge))
  obtain ⟨hd, hs⟩ := Option.ne_none_iff_exists'.mp ((hsound.known l.stream).mpr hlt)
  have hreq : x.sv.srv.requestOf l.stream = some l.rid := by
    obtain ⟨b, hb, hshown⟩ := hsound.shadowed
    have := ((run_streams hb).live l (by rw [hshown.same]; exact hl)).1
    rw [hshown.same] at this
    exact this
  have htold : ∀ o ∈ x.sv.srv.outputs l.stream, o.finishReason = none := by
    intro o ho
    by_contra hr
    rcases hsound.steady.ordered.told l.stream ⟨o, ho, hr⟩ hlive with hab | hfail
    · simp [hc] at hab
    · exact hrun hfail
  have hfin : hd.finished = false := by
    by_contra hf
    obtain ⟨o, ho, hr⟩ := hsound.finished_output hs (by simpa using hf)
    exact hr (htold o ho)
  have hstay : ¬ (hd.ended = true ∨ hd.disconnected ≠ none) := by
    intro hgone
    rcases hwatched.doomed l.stream hd hs hgone with hf | hdoom
    · simp [hfin] at hf
    · rcases hdoom.taken with hab | hfail | hnot
      · simp [hc] at hab
      · exact hrun hfail
      · exact hnot hlive
  rw [not_or, not_not] at hstay
  exact ⟨l.stream, hd, hs, hreq, by simpa using hstay.1, hstay.2, hfin, htold⟩

def both : Http := (posted.generate tinyApp tinyPost [1, 2] "1" 0).toOption.getD posted

def bothAdmitted : Http :=
  { both with sv := ⟨(AsyncEngine.handle { both.sv.srv with commands := [] } (.add 0)).handle (.add 1), ∅⟩ }

def firstAdmitted : Http :=
    { both with sv := ⟨AsyncEngine.handle { both.sv.srv with commands := [.add 1] } (.add 0), ∅⟩ }

def left : Http := bothAdmitted.disconnect 0 (tinyApp.handler tinyPost "0" 0)

def abandoned : Http := { left with sv := ⟨AsyncEngine.handle { left.sv.srv with commands := [] } (.abort 0), ∅⟩ }

theorem abandoned_run : Http.Run tinyApp (Engine.constant 7) (fun _ => True) (Http.start Engine.tiny) abandoned := by
  have h1 : Acts tinyApp (Engine.constant 7) (.generate tinyPost [1, 2] "0" 0) (Http.start Engine.tiny) posted :=
    .generate rfl
  have h2 : Acts tinyApp (Engine.constant 7) (.generate tinyPost [1, 2] "1" 0) posted both := .generate rfl
  have h3 : Acts tinyApp (Engine.constant 7) (.serve (.thread .take)) both firstAdmitted :=
    .serve trivial (.thread (.take rfl rfl))
  have h4 : Acts tinyApp (Engine.constant 7) (.serve (.thread .take)) firstAdmitted bothAdmitted :=
    .serve trivial (.thread (.take rfl rfl))
  have h5 : Acts tinyApp (Engine.constant 7) (.disconnect 0) bothAdmitted left := .disconnect rfl rfl rfl
  have h6 : Acts tinyApp (Engine.constant 7) (.serve (.thread .take)) left abandoned :=
    .serve trivial (.thread (.take rfl rfl))
  have hstart : Http.Run tinyApp (Engine.constant 7) (fun _ => True) (Http.start Engine.tiny) (Http.start Engine.tiny) :=
    Relation.ReflTransGen.refl
  exact (((((hstart.next h1 trivial).next h2 trivial).next h3 trivial).next h4 trivial).next h5 trivial).next h6 trivial

theorem no_request_without_client_left : abandoned.sv.srv.engine.requests = [1] ∧
    ∃ s hd, abandoned.handlers s = some hd ∧ abandoned.sv.srv.requestOf s = some 1 ∧
      hd.ended = false ∧ hd.disconnected = none ∧ hd.finished = false ∧
      ∀ o ∈ abandoned.sv.srv.outputs s, o.finishReason = none :=
  ⟨by decide +kernel, no_request_without_client abandoned_run rfl rfl 1 (by decide +kernel)⟩

end Http

end Server

end MiniServe
