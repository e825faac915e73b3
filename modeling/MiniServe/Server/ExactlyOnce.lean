import MiniServe.Server.Streaming

namespace MiniServe

open Transcript

namespace Server

namespace AsyncEngine

variable {a a' a'' : AsyncEngine} {H : Sid → List Sent} {s : Sid} {us : List Update} {u : Update} {model : Model}
  {detokenize : List DetokenizeItem → List String → Prop} {c : EngineConfig} {ev : Event}

structure Follows (a a' : AsyncEngine) : Prop where
  streams : Streams a' a'.history
  sent : ∀ s, a.history s <+: a'.history s
  pushed : ∀ s, a.outputs s <+: a'.outputs s

namespace Follows

theorem of_eq (h : Streams a' a.history) (hu : a'.updates = a.updates) (ho : a'.outputs = a.outputs) : Follows a a' := by
  have hist : a'.history = a.history := by
    funext s
    simp only [history, hu, ho]
  exact ⟨hist ▸ h, fun s => by rw [hist], fun s => by rw [ho]⟩

theorem trans (h1 : Follows a a') (h2 : Follows a' a'') : Follows a a'' :=
  ⟨h2.streams, fun s => (h1.sent s).trans (h2.sent s), fun s => (h1.pushed s).trans (h2.pushed s)⟩

theorem publish (h : Streams a' fun s => a.history s ++ sentOf us s) (hu : a'.updates = a.updates)
    (ho : a'.outputs = a.outputs) : Follows a (a'.publish us) := by
  have hist : ∀ s, a'.history s = a.history s := fun s => by simp only [history, hu, ho]
  have hpub : (a'.publish us).history = fun s => a.history s ++ sentOf us s := by
    funext s
    rw [history_publish, hist]
  refine ⟨?_, fun s => ?_, fun s => ?_⟩
  · rw [hpub]
    unfold AsyncEngine.publish
    split
    · exact h
    · exact h.elsewhere _ _ _ _ _
  · rw [hpub]
    exact List.prefix_append _ _
  · unfold AsyncEngine.publish
    split <;> rw [← ho]

end Follows

namespace Streams

theorem failAll {cause : Cause} {reason : FinishReason} (h : Streams a a.history) (hr : ¬ Ends (some reason)) :
    Follows a (a.failAll cause reason) :=
  Follows.publish (h.fail hr) rfl rfl

theorem told_refused {cause : Option Cause} (h : Streams a a.history) (hH : a.history s = [])
    (hreq : a.requestOf s = none)
    (hlt : s < a.numStreams) (hadd : s ∉ a.commands.filterMap Command.addOf) :
    Follows a (a.publish [⟨s, [], some .error, 0, cause⟩]) := by
  refine Follows.publish ?_ rfl rfl
  have hH' : (fun t => a.history t ++ sentOf [⟨s, [], some .error, 0, cause⟩] t) =
      Function.update a.history s [⟨[], some .error, 0⟩] := by
    funext t
    rw [history_cons]
    simp [sentOf, hH, Update.sent]
  rw [hH']
  exact h.refuse hH hreq hlt hadd

theorem popped {cmd : Command} {rest : List Command} (h : Streams a a.history) (hc : a.commands = cmd :: rest) :
    Streams { a with commands := rest } a.history :=
  h.requeue (hc ▸ (List.sublist_cons_self _ _).filterMap _) fun c fn hm => h.calls c fn (hc ▸ List.mem_cons_of_mem _ hm)

theorem popped_add {rest : List Command} (h : Streams a a.history) (hc : a.commands = .add s :: rest) :
    s < a.numStreams ∧ a.history s = [] ∧ a.requestOf s = none ∧ s ∉ rest.filterMap Command.addOf := by
  have hadds : a.commands.filterMap Command.addOf = s :: rest.filterMap Command.addOf := by simp [hc, Command.addOf]
  obtain ⟨h1, h2, h3⟩ := h.adds s (by simp [hadds])
  have hnd := h.adds_nodup
  rw [hadds] at hnd
  exact ⟨h1, h2, h3, (List.nodup_cons.mp hnd).1⟩

theorem raise {e : Option Error} (h : Streams a a.history) : Follows a (a.raise e) :=
  Follows.of_eq (h.halt (by simp)) rfl rfl

theorem handleAdd (h : Streams a a.history) (ht : a.thread = .running) (hlt : s < a.numStreams) (hH : a.history s = [])
    (hreq : a.requestOf s = none) (hadd : s ∉ a.commands.filterMap Command.addOf) : Follows a (a.handleAdd s) := by
  have he := h.engine ht
  unfold AsyncEngine.handleAdd
  rcases a.engine.addRequest_cases (a.streams s).promptIds (a.streams s).params with
    ⟨err, d, hadd'⟩ | ⟨q, d, hq, hrid, -, hpar, -, -, hadd'⟩
  · have hs : Follows a { a with engine := { a.engine with nextRid := a.engine.nextRid + 1, drawn := d } } :=
      Follows.of_eq (h.advance
        (fun r _ hc => ⟨⟨rfl, rfl, rfl⟩, Request.Grows.refl _, hc⟩) fun _ => he.rename (Nat.le_succ _))
        rfl rfl
    simp only [hadd']
    split
    · exact hs.trans (hs.streams.told_refused hH hreq hlt hadd)
    · exact hs.trans hs.streams.raise
  · have hsub : ∀ x, x ≠ q.rid → Function.update a.engine.scheduler.reqs q.rid q x = a.engine.scheduler.reqs x :=
      fun x hx => Function.update_of_ne hx _ _
    have hself : Function.update a.engine.scheduler.reqs q.rid q q.rid = q := Function.update_self _ _ _
    simp only [hadd']
    refine Follows.of_eq ?_ rfl rfl
    exact h.accept hH hreq hlt hadd (fun _ => (he.submit hq hrid).1) (he.later q.rid (le_of_eq hrid.symm)).1
      hself hq hpar hsub

theorem handleAbort (h : Streams a a.history) (ht : a.thread = .running) (s : Sid) : Follows a (a.handleAbort s) := by
  have he := h.engine ht
  unfold AsyncEngine.handleAbort
  cases hfind : a.live.find? (fun l => l.stream = s) with
  | none => exact Follows.of_eq h rfl rfl
  | some l =>
    obtain rfl : l.stream = s := by simpa using List.find?_some hfind
    have hl : l ∈ a.live := List.mem_of_find?_eq_some hfind
    obtain ⟨e', hab, hs', hm, -⟩ := he.abort l.rid
    have hadv : Streams { a with engine := e' } a.history :=
      h.advance (fun r hr hc => Engine.Reads.of_moves hm he.pool rfl rfl hr hc) fun _ => hs'
    simp only [hab]
    refine Follows.publish ?_ rfl rfl
    have hH : (fun t => a.history t ++ sentOf [⟨l.stream, [], some .abort, l.sent, none⟩] t) =
        Function.update a.history l.stream (a.history l.stream ++ [⟨[], some .abort, l.sent⟩]) := by
      funext t
      rw [history_cons]
      simp [sentOf, Update.sent]
    rw [hH]
    exact hadv.close hl (by simp [Ends])

theorem engineStep (h : Streams a a.history) (ht : a.thread = .running) (model : Model) :
    Follows a (a.engineStep model) := by
  have he := h.engine ht
  unfold AsyncEngine.engineStep
  obtain ⟨⟨out, e'⟩, hs⟩ : ∃ p, a.engine.step model = p := ⟨_, rfl⟩
  have hreads := fun r hr hc => he.step_reads (r := r) hs hr hc
  rw [hs]
  cases out with
  | error err => exact Follows.of_eq (h.advance hreads (by simp)) rfl rfl
  | ok out =>
    have hadv : Streams { a with engine := e' } a.history := h.advance hreads fun _ => he.step_sound hs
    cases out with
    | none => exact Follows.of_eq hadv rfl rfl
    | some b =>
      have h0 : Streams { a with engine := e' } fun s => a.history s ++ sentOf [] s := by
        simpa [sentOf] using hadv
      obtain ⟨us, a1, h1, hs1⟩ := h0.collect (b.rows.map Row.rid)
      obtain ⟨hu1, ho1⟩ := collect_same (b.rows.map Row.rid) [] { a with engine := e' }
      rw [h1] at hu1 ho1
      simp only [h1]
      exact Follows.publish hs1 hu1 ho1

theorem drainAfterDeath (e : Option Error) (cs : List Command) (h : Streams a a.history) (hc : a.commands = [])
    (hadds : ∀ s ∈ cs.filterMap Command.addOf, s < a.numStreams ∧ a.history s = [] ∧ a.requestOf s = none)
    (hnd : (cs.filterMap Command.addOf).Nodup) : Follows a (AsyncEngine.drainAfterDeath e cs a) := by
  induction cs generalizing a with
  | nil => exact Follows.of_eq h rfl rfl
  | cons cmd rest ih =>
    simp only [AsyncEngine.drainAfterDeath]
    cases cmd with
    | add s =>
      have hcons : (Command.add s :: rest).filterMap Command.addOf = s :: rest.filterMap Command.addOf := by
        simp [Command.addOf]
      rw [hcons] at hadds hnd
      obtain ⟨hs, hnd⟩ := List.nodup_cons.mp hnd
      obtain ⟨h1, h2, h3⟩ := hadds s (List.mem_cons_self ..)
      have ha : Follows a (a.publish [⟨s, [], some .error, 0, some (.engineError e)⟩]) :=
        h.told_refused h2 h3 h1 (by simp [hc])
      refine ha.trans (ih ha.streams hc (fun t htm => ?_) hnd)
      obtain ⟨h1, h2, h3⟩ := hadds t (List.mem_cons_of_mem _ htm)
      have hne : s ≠ t := fun e => hs (e ▸ htm)
      have hsent : sentOf [⟨s, [], some .error, 0, some (.engineError e)⟩] t = [] := by simp [sentOf, hne]
      exact ⟨h1, (history_publish a _ t).trans (by rw [h2, hsent]; rfl), h3⟩
    | abort s => exact ih h hc hadds hnd
    | stop => exact ih h hc hadds hnd
    | call c fn =>
      have ha : Follows a { a with resolved := a.resolved ++ [c] } := Follows.of_eq (h.elsewhere _ _ _ _ _) rfl rfl
      exact ha.trans (ih ha.streams hc hadds hnd)

theorem die (h : Streams a a.history) (e : Option Error) : Follows a (a.die e) := by
  have hdead : Follows a { a with dead := true } := Follows.of_eq (h.elsewhere _ _ _ _ _) rfl rfl
  have hfail : Follows { a with dead := true } (AsyncEngine.failAll { a with dead := true } (.engineError e) .error) :=
    hdead.streams.failAll (by simp [Ends])
  obtain ⟨a1, ha1⟩ : ∃ a1, AsyncEngine.failAll { a with dead := true } (.engineError e) .error = a1 := ⟨_, rfl⟩
  have hcmd : a1.commands = a.commands := by
    rw [← ha1, AsyncEngine.failAll, publish_commands]
  rw [ha1] at hfail
  have hadds := hfail.streams.adds
  have hnd := hfail.streams.adds_nodup
  rw [hcmd] at hadds hnd
  have hend : Follows a1 { a1 with commands := [], thread := .exited } := by
    have hnone : Streams { a1 with commands := [] } a1.history := hfail.streams.requeue (by simp) (by simp)
    exact Follows.of_eq (hnone.halt (by simp)) rfl rfl
  rw [AsyncEngine.die, ha1]
  exact (hdead.trans hfail).trans (hend.trans (hend.streams.drainAfterDeath e _ rfl hadds hnd))

theorem pump {n : Nat} {texts : List String} (h : Streams a a.history) (hlen : texts.length = (a.fetched n).length) :
    Follows a (a.pump n texts) := by
  have hist : (a.pump n texts).history = a.history := funext fun s => (history_pump n hlen).1
  obtain ⟨outputs, ho⟩ := push_same ((a.fetched n).zip texts) { a with updates := a.updates.drop n }
  refine ⟨?_, fun s => by rw [hist], fun s => (history_pump n hlen).2⟩
  rw [hist, AsyncEngine.pump, ho]
  exact h.elsewhere _ _ _ _ _

theorem handle {cmd : Command} {rest : List Command} (h : Streams a a.history) (ht : a.thread = .running)
    (hc : a.commands = cmd :: rest) : Follows a (AsyncEngine.handle { a with commands := rest } cmd) := by
  have hpop : Follows a { a with commands := rest } := Follows.of_eq (h.popped hc) rfl rfl
  refine hpop.trans ?_
  cases cmd with
  | add s =>
    obtain ⟨h1, h2, h3, h4⟩ := h.popped_add hc
    exact hpop.streams.handleAdd ht h1 h2 h3 h4
  | abort s => exact hpop.streams.handleAbort ht s
  | call c fn => exact absurd (hc ▸ List.mem_cons_self ..) (h.calls c fn)
  | stop =>
    have hfail : Follows { a with commands := rest }
      (AsyncEngine.failAll { a with commands := rest } .shuttingDown .abort) :=
      hpop.streams.failAll (by simp [Ends])
    exact hfail.trans (Follows.of_eq (hfail.streams.halt (by simp)) rfl rfl)

theorem fault {e : Engine} (h : Streams a a.history) (ht : a.thread = .running) (hf : Fault model a.engine e) :
    Follows a (AsyncEngine.raise { a with engine := e } none) := by
  have he := h.engine ht
  refine Follows.of_eq (h.advance (fun r hr hc => ?_) (by simp)) rfl rfl
  cases hf with
  | start => exact Engine.Reads.refl hc
  | scheduled hsch => exact he.scheduled_reads hsch rfl hr hc
  | launched hsch hl => exact he.launched_reads hsch hl hr hc

theorem next (hd : ∀ items texts, detokenize items texts → texts.length = items.length) (hev : ∀ fn, ev ≠ .call fn)
    (h : Streams a a.history) (hn : Next model detokenize ev a a') : Follows a a' := by
  have hqueue : ∀ cmd : Command, cmd.addOf = none → (∀ c fn, cmd ≠ .call c fn) →
      Streams { a with commands := a.commands ++ [cmd] } a.history := by
    intro cmd hadd hcall
    refine h.requeue (by simp [hadd]) fun c fn hm => ?_
    rcases List.mem_append.mp hm with hm | hm
    · exact h.calls c fn hm
    · exact hcall c fn (List.mem_singleton.mp hm).symm
  cases hn with
  | submit hs =>
    have ho := submit_same hs
    exact Follows.of_eq (h.submit hs) ho.1 ho.2
  | abort hlt => exact Follows.of_eq (hqueue (.abort _) rfl (by simp)) rfl rfl
  | call hc => exact absurd rfl (hev _)
  | stop => exact Follows.of_eq ((hqueue .stop rfl (by simp)).elsewhere _ _ _ _ _) rfl rfl
  | pump hp => exact h.pump ((hd _ _ hp).trans (List.length_map _))
  | take ht hc => exact h.handle ht hc
  | step ht hu => exact h.engineStep ht model
  | fault ht hf => exact h.fault ht hf
  | die ht => exact h.die _

end Streams

-- What a client reads from a stream, against the request the engine has for it.
structure ExactlyOnce (a : AsyncEngine) (s : Sid) : Prop where
  told : ∀ r, a.requestOf s = some r → (a.outputs s).flatMap StreamOutput.tokenIds <+: (a.engine.request r).outputIds
  refused : a.requestOf s = none → (a.outputs s).flatMap StreamOutput.tokenIds = []
  complete : ∀ o ∈ a.outputs s, o.finishReason = some .stop ∨ o.finishReason = some .length →
    ∃ r, a.requestOf s = some r ∧ (a.outputs s).flatMap StreamOutput.tokenIds = (a.engine.request r).outputIds
  counts : ∀ (i : Nat) o, (a.outputs s)[i]? = some o →
    o.numOutputTokens = (((a.outputs s).take (i + 1)).flatMap StreamOutput.tokenIds).length
  once : ∀ (i : Nat) o, (a.outputs s)[i]? = some o → o.finishReason ≠ none → i + 1 = (a.outputs s).length
  stop_iff : (∃ o ∈ a.outputs s, o.finishReason = some .stop) ↔
    ∃ tok, ((a.outputs s).flatMap StreamOutput.tokenIds).getLast? = some tok ∧ tok ∈ (a.streams s).params.stopTokenIds

theorem tokens_sent (os : List StreamOutput) : tokens (os.map StreamOutput.sent) = os.flatMap StreamOutput.tokenIds := by
  simp [tokens, List.flatMap_map, StreamOutput.sent]

theorem pushed_begins (a : AsyncEngine) (s : Sid) : (a.outputs s).map StreamOutput.sent <+: a.history s :=
  List.prefix_append _ _

theorem Streams.exactlyOnce (h : Streams a a.history) (s : Sid) : ExactlyOnce a s := by
  have hwf := (h.script s).begins (a.pushed_begins s)
  obtain ⟨later, hlater⟩ := a.pushed_begins s
  have htokens : (a.outputs s).flatMap StreamOutput.tokenIds <+: tokens (a.history s) := by
    rw [← tokens_sent, ← hlater, tokens_append]
    exact List.prefix_append _ _
  have hmem : ∀ o ∈ a.outputs s, o.sent ∈ a.history s := fun o ho =>
    hlater ▸ List.mem_append_left _ (List.mem_map_of_mem ho)
  -- Once the last message has been pushed, everything sent has been.
  have hall : ∀ o ∈ a.outputs s, o.finishReason ≠ none →
      (a.outputs s).flatMap StreamOutput.tokenIds = tokens (a.history s) := by
    intro o ho hr
    rw [← tokens_sent]
    exact congrArg tokens ((h.script s).ended_eq (a.pushed_begins s) (List.mem_map_of_mem ho) hr)
  refine ⟨fun r hr => ?_, fun hn => ?_, fun o ho he => ?_, fun i o ho => ?_, fun i o ho hr => ?_, ?_, ?_⟩
  · exact (htokens.trans (h.told s r hr)).trans (List.take_prefix _ _)
  · exact List.prefix_nil.mp ((h.unasked s hn).1 ▸ htokens)
  · have hend : o.finishReason ≠ none := by rcases he with he | he <;> simp [he]
    cases hr : a.requestOf s with
    | none =>
      have := (h.unasked s hr).2 _ (hmem o ho)
      rcases he with he | he <;> simp [StreamOutput.sent, he] at this
    | some r => exact ⟨r, rfl, (hall o ho hend).trans (h.full s r hr _ (hmem o ho) he).2.1⟩
  · have := hwf.counts i o.sent (by simp [ho])
    rw [← List.map_take, tokens_sent] at this
    exact this
  · have := hwf.once i o.sent (by simp [ho]) hr
    simpa using this
  · rintro ⟨o, ho, hr⟩
    cases hreq : a.requestOf s with
    | none =>
      have := (h.unasked s hreq).2 _ (hmem o ho)
      simp [StreamOutput.sent, hr] at this
    | some r =>
      obtain ⟨-, htok, hstop⟩ := h.full s r hreq _ (hmem o ho) (.inl hr)
      obtain ⟨tok, h1, h2⟩ := hstop hr
      exact ⟨tok, by rw [hall o ho (by simp [hr]), htok, h1], h2⟩
  · rintro ⟨tok, hlast, hstop⟩
    obtain ⟨o, ho, hto⟩ := List.mem_flatMap.mp (List.mem_of_getLast? hlast)
    by_contra hno
    exact h.clean s _ (hmem o ho) (fun hr => hno ⟨o, ho, hr⟩) tok hto hstop

theorem Run.follows (hd : ∀ items texts, detokenize items texts → texts.length = items.length)
    (h : Streams a a.history) (hrun : Run model detokenize (fun _ ev => ∀ fn, ev ≠ .call fn) a a') : Follows a a' := by
  induction hrun with
  | refl => exact Follows.of_eq h rfl rfl
  | tail h1 hn ih =>
    obtain ⟨ev, hev, hn⟩ := hn
    exact ih.trans (ih.streams.next hd hev hn)

-- Any interleaving, with `stop` as well; a stream that has ended stays as it is, whatever is aborted later.
theorem exactly_once (hd : ∀ items texts, detokenize items texts → texts.length = items.length)
    (h : Run model detokenize (fun _ ev => ∀ fn, ev ≠ .call fn) (start c) a) (s : Sid) :
    ExactlyOnce a s ∧ ∀ a', Run model detokenize (fun _ ev => ∀ fn, ev ≠ .call fn) a a' →
      ((∃ o ∈ a.outputs s, o.finishReason ≠ none) → a'.outputs s = a.outputs s) ∧
        ((∃ x ∈ a.history s, x.reason ≠ none) → a'.history s = a.history s) := by
  have h0 : Streams (start c) (start c).history := Streams.start c
  have hs := (Run.follows hd h0 h).streams
  refine ⟨hs.exactlyOnce s, fun a' h' => ?_⟩
  have hf := Run.follows hd hs h'
  refine ⟨fun ⟨o, ho, hr⟩ => ?_, fun ⟨x, hx, hr⟩ => ?_⟩
  · have hpre : (a.outputs s).map StreamOutput.sent <+: a'.history s := (a.pushed_begins s).trans (hf.sent s)
    have hend := (hf.streams.script s).ended_eq hpre (List.mem_map_of_mem ho) hr
    have hlen : (a'.outputs s).length ≤ (a.outputs s).length := by
      have := (a'.pushed_begins s).length_le
      rw [← hend] at this
      simpa using this
    exact ((hf.pushed s).eq_of_length_le hlen).symm
  · exact ((hf.streams.script s).ended_eq (hf.sent s) hx hr).symm

def silent (items : List DetokenizeItem) (texts : List String) : Prop := texts = items.map fun _ => ""

def asked : AsyncEngine := ((start Engine.tiny).submit [1, 2] { maxNewTokens := 1 }).getD (start Engine.tiny)

def added : AsyncEngine := AsyncEngine.handle { asked with commands := [] } (.add 0)

def stepped : AsyncEngine := added.engineStep (Engine.constant 7)

def served : AsyncEngine := stepped.pump 1 [""]

theorem served_run : Run (Engine.constant 7) silent (fun _ ev => ∀ fn, ev ≠ .call fn) (start Engine.tiny) served := by
  have h1 : Next (Engine.constant 7) silent (.submit [1, 2] { maxNewTokens := 1 })
    (start Engine.tiny) asked := .submit rfl
  have h2 : Next (Engine.constant 7) silent .take asked added := .take rfl rfl
  have h3 : Next (Engine.constant 7) silent .step added stepped :=
    .step (by decide +kernel) (.inl (.inl (by decide +kernel)))
  have h4 : Next (Engine.constant 7) silent (.pump 1) stepped served :=
    .pump (show ([""] : List String) = _ by decide +kernel)
  have hrun : Run (Engine.constant 7) silent (fun _ ev => ∀ fn, ev ≠ .call fn) (start Engine.tiny) added :=
    (Run.snoc Relation.ReflTransGen.refl h1 (by simp)).snoc h2 (by simp)
  exact (hrun.snoc h3 (by simp)).snoc h4 (by simp)

theorem exactly_once_served :
    (served.outputs 0).map StreamOutput.sent = [⟨[7], some .length, 1⟩] ∧ ExactlyOnce served 0 := by
  refine ⟨by decide +kernel, (exactly_once (fun items texts h => ?_) served_run 0).1⟩
  rw [h, List.length_map]

end AsyncEngine

end Server

end MiniServe
