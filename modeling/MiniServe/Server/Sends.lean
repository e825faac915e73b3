import MiniServe.Server.Serving

namespace MiniServe

namespace Server

namespace AsyncEngine

variable {a a' a'' : AsyncEngine} {s : Sid} {us us' : List Update} {u : Update} {l : Live} {model : Model}
  {c : EngineConfig} {ev : Event}

def liveStreams (a : AsyncEngine) : List Sid := a.live.map Live.stream

def adds (a : AsyncEngine) : List Sid := a.commands.filterMap Command.addOf

def Fresh (a : AsyncEngine) (s : Sid) : Prop := s ∈ a.adds ∨ a.numStreams ≤ s

def Failing (a : AsyncEngine) : Prop := ∃ e, a.thread = .failing e

section Sends

-- What the engine thread does for the streams: it begins with a fresh one once, sends while it is live, and ends it
-- with an update that says so.
structure Sends (a a' : AsyncEngine) (us : List Update) : Prop where
  last : us.Pairwise fun u v => u.stream = v.stream → u.finishReason = none
  from_live : ∀ u ∈ us, u.stream ∈ a.liveStreams ∨ a.Fresh u.stream
  ends : ∀ u ∈ us, u.finishReason ≠ none → u.stream ∉ a'.liveStreams
  goes_on : ∀ u ∈ us, u.finishReason = none → u.stream ∈ a'.liveStreams ∨
    ∃ v ∈ us, v.stream = u.stream ∧ v.finishReason ≠ none
  closes : ∀ s ∈ a.liveStreams, s ∈ a'.liveStreams ∨ ∃ v ∈ us, v.stream = s ∧ v.finishReason ≠ none
  opens : ∀ s ∈ a'.liveStreams, s ∈ a.liveStreams ∨ a.Fresh s
  fresh : ∀ s, a'.Fresh s → a.Fresh s
  used : ∀ u ∈ us, ¬ a'.Fresh u.stream
  aborts : ∀ s, ¬ a.Fresh s → .abort s ∈ a.commands ∨ a.Failing → .abort s ∈ a'.commands ∨
    a'.Failing ∨ s ∉ a'.liveStreams

theorem Sends.quiet (hl : a'.liveStreams = a.liveStreams)
    (hf : ∀ s, a'.Fresh s → a.Fresh s)
    (ha : ∀ s, .abort s ∈ a.commands ∨ a.Failing → .abort s ∈ a'.commands ∨ a'.Failing ∨ s ∉ a'.liveStreams) :
    Sends a a' [] where
  last := List.Pairwise.nil
  from_live := by simp
  ends := by simp
  goes_on := by simp
  closes := fun s hs => .inl (hl ▸ hs)
  opens := fun s hs => .inl (hl ▸ hs)
  fresh := hf
  used := by simp
  aborts := fun s _ => ha s

theorem Sends.refl (a : AsyncEngine) : Sends a a [] :=
  .quiet rfl (fun _ h => h) fun _ h => h.imp_right .inl

theorem Sends.not_fresh (h : Sends a a' us) (hs : ¬ a.Fresh s) : ¬ a'.Fresh s := fun hf => hs (h.fresh s hf)

theorem Sends.stays_closed (h : Sends a a' us) (hs : ¬ a.Fresh s) (hl : s ∉ a.liveStreams) :
    s ∉ a'.liveStreams := fun hm =>
  (h.opens s hm).elim hl hs

theorem Sends.trans (h1 : Sends a a' us) (h2 : Sends a' a'' us') : Sends a a'' (us ++ us') where
  last := by
    refine List.pairwise_append.mpr ⟨h1.last, h2.last, fun u hu v hv he => ?_⟩
    by_contra hr
    rcases h2.from_live v hv with hm | hm
    · exact h1.ends u hu hr (he ▸ hm)
    · exact h1.used u hu (he ▸ hm)
  from_live := fun u hu => by
    rcases List.mem_append.mp hu with hu | hu
    · exact h1.from_live u hu
    · rcases h2.from_live u hu with hm | hm
      · exact h1.opens _ hm
      · exact .inr (h1.fresh _ hm)
  ends := fun u hu hr => by
    rcases List.mem_append.mp hu with hu | hu
    · exact h2.stays_closed (h1.used u hu) (h1.ends u hu hr)
    · exact h2.ends u hu hr
  goes_on := fun u hu hr => by
    rcases List.mem_append.mp hu with hu | hu
    · rcases h1.goes_on u hu hr with hm | ⟨v, hv, hvs⟩
      · rcases h2.closes _ hm with hm | ⟨v, hv, hvs⟩
        · exact .inl hm
        · exact .inr ⟨v, List.mem_append_right _ hv, hvs⟩
      · exact .inr ⟨v, List.mem_append_left _ hv, hvs⟩
    · rcases h2.goes_on u hu hr with hm | ⟨v, hv, hvs⟩
      · exact .inl hm
      · exact .inr ⟨v, List.mem_append_right _ hv, hvs⟩
  closes := fun s hs => by
    rcases h1.closes s hs with hm | ⟨v, hv, hvs⟩
    · rcases h2.closes s hm with hm | ⟨v, hv, hvs⟩
      · exact .inl hm
      · exact .inr ⟨v, List.mem_append_right _ hv, hvs⟩
    · exact .inr ⟨v, List.mem_append_left _ hv, hvs⟩
  opens := fun s hs => by
    rcases h2.opens s hs with hm | hm
    · exact h1.opens s hm
    · exact .inr (h1.fresh s hm)
  fresh := fun s hs => h1.fresh s (h2.fresh s hs)
  used := fun u hu => by
    rcases List.mem_append.mp hu with hu | hu
    · exact h2.not_fresh (h1.used u hu)
    · exact h2.used u hu
  aborts := fun s hs hab => by
    rcases h1.aborts s hs hab with hm | hm | hm
    · exact h2.aborts s (h1.not_fresh hs) (.inl hm)
    · exact h2.aborts s (h1.not_fresh hs) (.inr hm)
    · exact .inr (.inr (h2.stays_closed (h1.not_fresh hs) hm))

end Sends

structure Sane (model : Model) (a : AsyncEngine) : Prop where
  adds_nodup : a.adds.Nodup
  adds_lt : ∀ s ∈ a.adds, s < a.numStreams
  live_nodup : a.liveStreams.Nodup
  live_old : ∀ s ∈ a.liveStreams, ¬ a.Fresh s
  exited : a.thread = .exited → a.live = []
  engine : a.thread = .running → a.engine.Sound
  known : ∀ l ∈ a.live, (a.engine.request l.rid).promptIds ≠ [] ∧ (a.engine.request l.rid).Cut
  proper : ∀ c fn, .call c fn ∈ a.commands → Proper model fn

theorem Sane.start (c : EngineConfig) : Sane model (start c) where
  adds_nodup := List.nodup_nil
  adds_lt := by simp [adds]
  live_nodup := List.nodup_nil
  live_old := by simp [liveStreams]
  exited := fun _ => rfl
  engine := fun _ => Engine.new_sound c
  known := by simp
  proper := by simp

theorem Sane.erase (h : Sane model a) (l : Live) : Sane model (a.forget l) where
  adds_nodup := h.adds_nodup
  adds_lt := h.adds_lt
  live_nodup := h.live_nodup.sublist (List.erase_sublist.map _)
  live_old := fun s hs => h.live_old s ((List.erase_sublist.map _).subset hs)
  exited := fun hx => by simp [forget, h.exited hx]
  engine := h.engine
  known := fun x hx => h.known x (List.mem_of_mem_erase hx)
  proper := h.proper

theorem Sane.close (h : Sane model a) (hl : l ∈ a.live) (hu : u.stream = l.stream) (hr : u.finishReason ≠ none) :
    Sends a (a.forget l) [u] := by
  have hnd : a.live.Nodup := h.live_nodup.of_map _
  have hm : l.stream ∈ a.liveStreams := List.mem_map_of_mem hl
  have hnot : l.stream ∉ (a.forget l).liveStreams := by
    intro hs
    obtain ⟨x, hx, he⟩ := List.mem_map.mp hs
    obtain ⟨hne, hx⟩ := hnd.mem_erase_iff.mp hx
    exact hne (List.inj_on_of_nodup_map h.live_nodup hx hl he)
  refine ⟨List.pairwise_singleton _ _, fun v hv => ?_, fun v hv _ => ?_, fun v hv hn => ?_,
    fun s hs => ?_, fun s hs => ?_,
    fun s hs => hs, fun v hv => ?_, fun s _ hab => hab.imp_right .inl⟩
  · exact .inl (List.mem_singleton.mp hv ▸ hu ▸ hm)
  · rw [List.mem_singleton.mp hv, hu]
    exact hnot
  · exact absurd (List.mem_singleton.mp hv ▸ hn) hr
  · obtain ⟨x, hx, rfl⟩ := List.mem_map.mp hs
    by_cases he : x = l
    · exact .inr ⟨u, List.mem_singleton_self u, by rw [hu, he], hr⟩
    · exact .inl (List.mem_map_of_mem ((List.mem_erase_of_ne he).mpr hx))
  · exact .inl ((List.erase_sublist.map _).subset hs)
  · rw [List.mem_singleton.mp hv, hu]
    exact h.live_old _ hm

theorem Sane.refuse {rest : List Command} {e : Engine} (h : Sane model a) (hc : a.commands = .add s :: rest)
    (hu : u.stream = s) (hr : u.finishReason ≠ none) : Sends a { a with commands := rest, engine := e } [u] := by
  have hadds : a.adds = s :: rest.filterMap Command.addOf := by simp [adds, hc, Command.addOf]
  have hs : s ∈ a.adds := hadds ▸ List.mem_cons_self
  have hnd := h.adds_nodup
  rw [hadds] at hnd
  have hlive : s ∉ a.liveStreams := fun hm => h.live_old s hm (.inl hs)
  refine ⟨List.pairwise_singleton _ _, fun v hv => ?_, fun v hv _ => ?_, fun v hv hn => ?_, fun t ht => .inl ht,
    fun t ht => .inl ht, fun t ht => ?_, fun v hv => ?_, fun t _ hab => ?_⟩
  · rw [List.mem_singleton.mp hv, hu]
    exact .inr (.inl hs)
  · rw [List.mem_singleton.mp hv, hu]
    exact hlive
  · exact absurd (List.mem_singleton.mp hv ▸ hn) hr
  · exact ht.imp_left fun hm => hadds ▸ List.mem_cons_of_mem _ hm
  · rw [List.mem_singleton.mp hv, hu]
    rintro (hm | hm)
    · exact (List.nodup_cons.mp hnd).1 hm
    · exact absurd (h.adds_lt s hs) (not_lt.mpr hm)
  · simpa [hc] using hab.imp_right .inl

theorem Sane.requeue {cs : List Command} (h : Sane model a)
    (hadds : (cs.filterMap Command.addOf).Sublist a.adds) (hp : ∀ c fn, .call c fn ∈ cs → Proper model fn) :
    Sane model { a with commands := cs } where
  adds_nodup := h.adds_nodup.sublist hadds
  adds_lt := fun s hs => h.adds_lt s (hadds.subset hs)
  live_nodup := h.live_nodup
  live_old := fun s hs hf => h.live_old s hs (hf.imp_left fun hm => hadds.subset hm)
  exited := h.exited
  engine := h.engine
  known := h.known
  proper := hp

theorem Sane.popped {cmd : Command} {rest : List Command} (h : Sane model a) (hc : a.commands = cmd :: rest) :
    Sane model { a with commands := rest } := by
  refine h.requeue ?_ fun c fn hm => h.proper c fn (hc ▸ List.mem_cons_of_mem _ hm)
  rw [adds, hc]
  exact (List.sublist_cons_self cmd rest).filterMap _

theorem Sends.popped {cmd : Command} {rest : List Command} (hc : a.commands = cmd :: rest) (ha : ∀ s, cmd ≠ .abort s) :
    Sends a { a with commands := rest } [] := by
  refine .quiet rfl (fun s hs => hs.imp_left fun hm => ?_) fun s hs => ?_
  · rw [adds, hc]
    exact ((List.sublist_cons_self cmd rest).filterMap _).subset hm
  · rcases hs with hs | hs
    · rw [hc] at hs
      exact .inl ((List.mem_cons.mp hs).resolve_left fun he => ha s he.symm)
    · exact .inr (.inl hs)

theorem Sane.elsewhere (h : Sane model a) (updates : List (List Update))
    (outputs : Sid → List StreamOutput) (dead : Bool)
    (resolved : List Cid) (requestOf : Sid → Option Rid) (stopping : Bool) :
    Sane model { a with updates, outputs, dead, resolved, requestOf, stopping } :=
  ⟨h.adds_nodup, h.adds_lt, h.live_nodup, h.live_old, h.exited, h.engine, h.known, h.proper⟩

theorem Sends.elsewhere (h : Sends a a' us) (updates : List (List Update))
    (outputs : Sid → List StreamOutput) (dead : Bool)
    (resolved : List Cid) (requestOf : Sid → Option Rid) (stopping : Bool) :
    Sends a { a' with updates, outputs, dead, resolved, requestOf, stopping } us :=
  ⟨h.last, h.from_live, h.ends, h.goes_on, h.closes, h.opens, h.fresh, h.used, h.aborts⟩

theorem Sane.advance {e : Engine} {th : Thread} (h : Sane model a) (hth : th = .exited → a.live = [])
    (hreads : ∀ r, (a.engine.request r).promptIds ≠ [] → (a.engine.request r).Cut → Engine.Reads a.engine e r)
    (hsound : th = .running → e.Sound) : Sane model { a with engine := e, thread := th } :=
  ⟨h.adds_nodup, h.adds_lt, h.live_nodup, h.live_old, hth, hsound, fun l hl => by
    obtain ⟨hne, hcut⟩ := h.known l hl
    have hr := hreads l.rid hne hcut
    exact ⟨hr.alike.ne_nil hne, hr.cut⟩, h.proper⟩

theorem Sends.advance {e : Engine} {th : Thread} (ht : a.thread = .running) :
    Sends a { a with engine := e, thread := th } [] :=
  .quiet rfl (fun _ hf => hf) fun s hs => hs.imp_right fun ⟨err, hf⟩ => absurd (ht.symm.trans hf) (by simp)

theorem Sends.steps (e : Engine) : Sends a { a with engine := e } [] :=
  .quiet rfl (fun _ hf => hf) fun _ hs => hs.imp_right .inl

section Thread

structure Served (model : Model) (a a' : AsyncEngine) (us : List Update) : Prop where
  updates : a'.updates.flatten = a.updates.flatten ++ us
  outputs : a'.outputs = a.outputs
  sends : Sends a a' us
  sane : Sane model a'

theorem Served.trans (h1 : Served model a a' us) (h2 : Served model a' a'' us') : Served model a a'' (us ++ us') where
  updates := by rw [h2.updates, h1.updates, List.append_assoc]
  outputs := h2.outputs.trans h1.outputs
  sends := h1.sends.trans h2.sends
  sane := h2.sane

theorem Served.quiet (hu : a'.updates = a.updates) (ho : a'.outputs = a.outputs) (h : Sends a a' [])
    (hs : Sane model a') :
    Served model a a' [] :=
  ⟨by rw [hu, List.append_nil], ho, h, hs⟩

theorem publish_flatten (a : AsyncEngine) (us : List Update) :
    (a.publish us).updates.flatten = a.updates.flatten ++ us := by
  unfold publish
  split
  · next h => simp [h]
  · simp

theorem Served.publish (hu : a'.updates = a.updates) (ho : a'.outputs = a.outputs) (h : Sends a a' us)
    (hs : Sane model a') :
    Served model a (a'.publish us) us := by
  refine ⟨by rw [publish_flatten, hu], ?_, ?_, ?_⟩ <;> obtain ⟨updates, he⟩ := publish_same a' us <;> rw [he]
  · exact ho
  · exact h.elsewhere _ _ _ _ _ _
  · exact hs.elsewhere _ _ _ _ _ _

theorem Sane.failAll (cause : Cause) (reason : FinishReason) (h : Sane model a) :
    Served model a (a.failAll cause reason) (a.live.map (failUpdate cause reason)) := by
  refine Served.publish rfl rfl ?_ ⟨h.adds_nodup, h.adds_lt, List.nodup_nil,
    by simp [liveStreams], fun _ => rfl, h.engine,
    by simp, h.proper⟩
  have hm : ∀ u ∈ a.live.map (failUpdate cause reason), u.stream ∈ a.liveStreams ∧ u.finishReason ≠ none := by
    intro u hu
    obtain ⟨l, hl, rfl⟩ := List.mem_map.mp hu
    exact ⟨List.mem_map_of_mem hl, by simp [failUpdate]⟩
  refine ⟨?_, fun u hu => .inl (hm u hu).1,
    by simp [liveStreams], fun u hu hn => absurd hn (hm u hu).2, fun s hs => .inr ?_,
    by simp [liveStreams], fun s hs => hs, fun u hu => h.live_old _ (hm u hu).1, fun s _ hab =>
      .inr (.inr (by simp [liveStreams]))⟩
  · refine List.pairwise_map.mpr ((List.pairwise_map.mp h.live_nodup).imp fun hne he => absurd he hne)
  · obtain ⟨l, hl, rfl⟩ := List.mem_map.mp hs
    exact ⟨_, List.mem_map_of_mem hl, rfl, by simp [failUpdate]⟩

theorem Sane.handleAdd {rest : List Command} (h : Sane model a) (ht : a.thread = .running)
    (hc : a.commands = .add s :: rest) :
    ∃ us, Served model a (AsyncEngine.handleAdd { a with commands := rest } s) us := by
  have he := h.engine ht
  have hpop := h.popped hc
  unfold AsyncEngine.handleAdd
  rcases a.engine.addRequest_cases (a.streams s).promptIds (a.streams s).params with
    ⟨err, d, hadd⟩ | ⟨q, d, hq, hrid, -, -, -, -, hadd⟩
  · simp only [hadd, Engine.addRequest_valueError hadd, if_true]
    refine ⟨_, Served.publish rfl rfl (h.refuse hc rfl (by simp)) ?_⟩
    exact hpop.advance (by simp [ht]) (fun r _ hcut => ⟨⟨rfl, rfl, rfl⟩, Request.Grows.refl _, hcut⟩)
      fun _ => he.rename (Nat.le_succ _)
  · simp only [hadd]
    have hadds : a.adds = s :: rest.filterMap Command.addOf := by simp [adds, hc, Command.addOf]
    have hs : s ∈ a.adds := hadds ▸ List.mem_cons_self
    have hlive : s ∉ a.liveStreams := fun hm => h.live_old s hm (.inl hs)
    have hnd := h.adds_nodup
    rw [hadds] at hnd
    refine ⟨[], Served.quiet rfl rfl ?_ ?_⟩
    · refine ⟨List.Pairwise.nil, by simp, by simp, by simp, fun t hm => .inl ?_, fun t hm => ?_, fun t hf => ?_, by simp,
        fun t _ hab => ?_⟩
      · simp only [liveStreams, List.map_append]
        exact List.mem_append_left _ hm
      · simp only [liveStreams, List.map_append, List.map_singleton, List.mem_append, List.mem_singleton] at hm
        rcases hm with hm | rfl
        · exact .inl hm
        · exact .inr (.inl hs)
      · exact hf.imp_left fun hm => hadds ▸ List.mem_cons_of_mem _ hm
      · simpa [hc] using hab.imp_right .inl
    · refine ⟨hpop.adds_nodup, hpop.adds_lt, ?_, fun t hm => ?_, by simp [ht], fun _ => (he.submit hq hrid).1,
        fun l hl => ?_, hpop.proper⟩
      · simp only [liveStreams, List.map_append, List.map_singleton]
        exact List.nodup_append.mpr ⟨h.live_nodup, List.nodup_singleton _, fun t hm x hx => by
          rw [List.mem_singleton.mp hx]
          exact fun e => hlive (e ▸ hm)⟩
      · simp only [liveStreams, List.map_append, List.map_singleton, List.mem_append, List.mem_singleton] at hm
        rcases hm with hm | rfl
        · exact hpop.live_old t hm
        · rintro (hf | hf)
          · exact (List.nodup_cons.mp hnd).1 hf
          · exact absurd (h.adds_lt t hs) (not_lt.mpr hf)
      · rcases List.mem_append.mp hl with hl | hl
        · obtain ⟨hne, hcut⟩ := h.known l hl
          have hread := (@Engine.Call.add model (fun _ => True) a.engine (a.streams s).promptIds (a.streams s).params
            trivial).reads he hne hcut
          rw [hadd] at hread
          exact ⟨hread.alike.ne_nil hne, hread.cut⟩
        · obtain rfl := List.mem_singleton.mp hl
          show (Function.update a.engine.scheduler.reqs q.rid q q.rid).promptIds ≠ [] ∧
            (Function.update a.engine.scheduler.reqs q.rid q q.rid).Cut
          rw [Function.update_self]
          exact ⟨hq.prompt, hq.cut⟩

theorem Sane.handleAbort {rest : List Command} (h : Sane model a) (ht : a.thread = .running)
    (hc : a.commands = .abort s :: rest) :
    ∃ us, Served model a (AsyncEngine.handleAbort { a with commands := rest } s) us := by
  have he := h.engine ht
  have hpop := h.popped hc
  have hadds : a.adds = rest.filterMap Command.addOf := by
    rw [adds, hc]
    rfl
  unfold AsyncEngine.handleAbort
  cases hfind : a.live.find? (fun l => l.stream = s) with
  | none =>
    refine ⟨[], Served.quiet rfl rfl (.quiet rfl (fun t hf => hf.imp_left fun hm => hadds ▸ hm) fun t hab => ?_) hpop⟩
    rcases hab with hab | hab
    · rw [hc] at hab
      rcases List.mem_cons.mp hab with hab | hab
      · refine .inr (.inr fun hm => ?_)
        obtain ⟨l, hl, hls⟩ := List.mem_map.mp hm
        have hnone := List.find?_eq_none.mp hfind l hl
        simp only [decide_eq_true_eq] at hnone
        exact hnone (hls.trans (Command.abort.inj hab))
      · exact .inl hab
    · exact .inr (.inl hab)
  | some l =>
    obtain rfl : l.stream = s := by simpa using List.find?_some hfind
    have hl : l ∈ a.live := List.mem_of_find?_eq_some hfind
    obtain ⟨e', hab, hs', hm, -⟩ := he.abort l.rid
    simp only [hab]
    have hadv : Sane model { a with commands := rest, engine := e' } :=
      hpop.advance (by simp [ht]) (fun r hr hcut => Engine.Reads.of_moves hm he.pool rfl rfl hr hcut) fun _ => hs'
    have hclose := hadv.close (u := ⟨l.stream, [], some .abort, l.sent, none⟩) hl rfl (by simp)
    refine ⟨_, Served.publish rfl rfl ⟨hclose.last, fun u hu => ?_, hclose.ends, hclose.goes_on, hclose.closes,
      fun t hm => .inl ((List.erase_sublist.map _).subset hm), fun t hf => hf.imp_left fun hm => hadds ▸ hm, hclose.used,
      fun t _ hab => ?_⟩ (hadv.erase l)⟩
    · rw [List.mem_singleton.mp hu]
      exact .inl (List.mem_map_of_mem hl)
    · rcases hab with hab | hab
      · rw [hc] at hab
        rcases List.mem_cons.mp hab with hab | hab
        · obtain rfl := Command.abort.inj hab
          exact .inr (.inr (hclose.ends _ (List.mem_singleton_self _) (by simp)))
        · exact .inl hab
      · exact .inr (.inl hab)

theorem Sane.handleCall {i : Cid} {fn : Engine → CallOutcome × Engine} {rest : List Command} (h : Sane model a)
    (ht : a.thread = .running) (hc : a.commands = .call i fn :: rest) :
    Served model a (AsyncEngine.handleCall { a with commands := rest } i fn) [] := by
  have he := h.engine ht
  have hcalls := h.proper i fn (by simp [hc]) a.engine
  have hpop := h.popped hc
  have hsend := Sends.popped hc (by simp)
  have hreads := fun r hr hcut => hcalls.reads (r := r) he hr hcut
  unfold AsyncEngine.handleCall
  split
  · next e hfn =>
    obtain rfl : (fn a.engine).2 = e := congrArg Prod.snd hfn
    exact Served.quiet rfl rfl (hsend.trans (.advance ht)) (hpop.advance (by simp) hreads (by simp))
  · next e _ hfn =>
    obtain rfl : (fn a.engine).2 = e := congrArg Prod.snd hfn
    have hadv : Sane model { a with commands := rest, engine := (fn a.engine).2 } :=
      hpop.advance (by simp [ht]) hreads fun _ => hcalls.sound he
    have hquiet : Sends a { a with commands := rest, engine := (fn a.engine).2 } [] := hsend.trans (.steps _)
    exact Served.quiet rfl rfl (hquiet.elsewhere _ _ _ _ _ _) (hadv.elsewhere _ _ _ _ _ _)

theorem Sane.collectRow (h : Sane model a) (us : List Update) (r : Rid) :
    ∃ sent a', a.collectRow r us = some (us ++ sent, a') ∧ Sends a a' sent ∧ Sane model a' := by
  unfold AsyncEngine.collectRow
  cases hfind : a.live.find? (fun l => l.rid = r) with
  | none => exact ⟨[], a, by simp, .refl a, h⟩
  | some l =>
    obtain rfl : l.rid = r := by simpa using List.find?_some hfind
    have hl : l ∈ a.live := List.mem_of_find?_eq_some hfind
    by_cases hf : (a.engine.request l.rid).state = .finished
    · obtain ⟨pre, tok, hout, -⟩ := (h.known l hl).2.finished hf
      have htok : (a.engine.request l.rid).outputIds.getLast? = some tok := by rw [hout, List.getLast?_concat]
      simp only [hf, if_true, htok]
      exact ⟨_, _, rfl, h.close hl rfl (by simp), h.erase l⟩
    · simp only [hf, if_false]
      let n := (a.engine.request l.rid).readyIds.length
      let live := a.live.map fun x => if x = l then { l with sent := n } else x
      have hstreams : live.map Live.stream = a.liveStreams := by
        rw [List.map_map]
        refine List.map_congr_left fun x _ => ?_
        by_cases e : x = l <;> simp [e]
      have hsends : ∀ sent : List Update, (∀ u ∈ sent, u.stream = l.stream ∧ u.finishReason = none) →
          Sends a { a with live } sent := by
        intro sent hsent
        have hm : l.stream ∈ a.liveStreams := List.mem_map_of_mem hl
        refine ⟨List.pairwise_of_forall_mem_list fun u hu v _ _ => (hsent u hu).2,
          fun u hu => .inl ((hsent u hu).1 ▸ hm),
          fun u hu hr => absurd (hsent u hu).2 hr, fun u hu _ => .inl ?_, fun t ht => .inl ?_, fun t ht => .inl ?_,
          fun t hf => hf, fun u hu => (hsent u hu).1 ▸ h.live_old _ hm, fun t _ hab => hab.imp_right .inl⟩
        · show u.stream ∈ live.map Live.stream
          rw [(hsent u hu).1, hstreams]
          exact hm
        · show t ∈ live.map Live.stream
          rw [hstreams]
          exact ht
        · rw [← hstreams]
          exact ht
      have hsane : Sane model { a with live } := by
        refine ⟨h.adds_nodup, h.adds_lt, ?_, fun t ht => h.live_old t (hstreams ▸ ht), fun hx => ?_,
          h.engine, fun x hx => ?_,
          h.proper⟩
        · show (live.map Live.stream).Nodup
          rw [hstreams]
          exact h.live_nodup
        · simp [live, h.exited hx]
        · obtain ⟨y, hy, rfl⟩ := List.mem_map.mp hx
          by_cases e : y = l
          · simpa [e] using h.known l hl
          · simpa [e] using h.known y hy
      by_cases hnew : (a.engine.request l.rid).readyIds.drop l.sent = []
      · exact ⟨[], _, by simp [hnew, live, n], hsends [] (by simp), hsane⟩
      · exact ⟨[⟨l.stream, (a.engine.request l.rid).readyIds.drop l.sent, none, n, none⟩], _, by simp [hnew, live, n],
          hsends _ (by simp), hsane⟩

theorem Sane.collect (rids : List Rid) (h : Sane model a) (us : List Update) :
    ∃ sent a', AsyncEngine.collect rids us a = (some (us ++ sent), a') ∧ Sends a a' sent ∧ Sane model a' := by
  induction rids generalizing a us with
  | nil => exact ⟨[], a, by simp [AsyncEngine.collect], .refl a, h⟩
  | cons r rest ih =>
    obtain ⟨sent1, a1, h1, hs1, hk1⟩ := h.collectRow us r
    obtain ⟨sent2, a2, h2, hs2, hk2⟩ := ih hk1 (us ++ sent1)
    exact ⟨sent1 ++ sent2, a2, by simp only [AsyncEngine.collect, h1, h2, List.append_assoc], hs1.trans hs2, hk2⟩

theorem Sane.engineStep (h : Sane model a) (ht : a.thread = .running) :
    ∃ us, Served model a (a.engineStep model) us := by
  have he := h.engine ht
  unfold AsyncEngine.engineStep
  obtain ⟨⟨out, e'⟩, hs⟩ : ∃ p, a.engine.step model = p := ⟨_, rfl⟩
  have hreads := fun r hr hc => he.step_reads (r := r) hs hr hc
  rw [hs]
  cases out with
  | error err => exact ⟨[], Served.quiet rfl rfl (.advance ht) (h.advance (by simp) hreads (by simp))⟩
  | ok out =>
    have hadv : Sane model { a with engine := e' } := h.advance (by simp [ht]) hreads fun _ => he.step_sound hs
    cases out with
    | none => exact ⟨[], Served.quiet rfl rfl (.steps e') hadv⟩
    | some b =>
      obtain ⟨sent, a1, h1, hs1, hk1⟩ := hadv.collect (b.rows.map Row.rid) []
      obtain ⟨hu1, ho1⟩ := collect_same (b.rows.map Row.rid) [] { a with engine := e' }
      rw [h1] at hu1 ho1
      rw [List.nil_append] at h1
      simp only [h1]
      exact ⟨sent, Served.publish hu1 ho1 (Sends.trans (.steps e') hs1) hk1⟩

theorem Sane.handleStop {rest : List Command} (h : Sane model a) (hc : a.commands = .stop :: rest) :
    ∃ us, Served model a (AsyncEngine.handle { a with commands := rest } .stop) us := by
  have hpop : Served model a { a with commands := rest } [] :=
    Served.quiet rfl rfl (Sends.popped hc (by simp)) (h.popped hc)
  have hfail := hpop.sane.failAll .shuttingDown .abort
  have hlive : (AsyncEngine.failAll { a with commands := rest } .shuttingDown .abort).live = [] := by
    rw [AsyncEngine.failAll, publish_live]
  have hend : Served model (AsyncEngine.failAll { a with commands := rest } .shuttingDown .abort)
      (AsyncEngine.handle { a with commands := rest } .stop) [] :=
    Served.quiet rfl rfl (.quiet rfl (fun _ hf => hf) fun s _ => .inr (.inr (by
      show s ∉ (AsyncEngine.failAll { a with commands := rest } .shuttingDown .abort).live.map Live.stream
      simp [hlive]))) (hfail.sane.advance (fun _ => hlive) (fun _ _ hcut => Engine.Reads.refl hcut) (by simp))
  exact ⟨_, (hpop.trans hfail).trans hend⟩

-- The commands that are left are answered, with nothing live and the queue taken away.
theorem Sane.drainAfterDeath (e : Option Error) (cs : List Command) (h : Sane model { a with commands := cs })
    (hl : a.live = []) (hc : a.commands = []) :
    ∃ us, Served model { a with commands := cs } (AsyncEngine.drainAfterDeath e cs a) us := by
  induction cs generalizing a with
  | nil =>
    have hself : { a with commands := [] } = a := by rw [← hc]
    rw [hself] at h ⊢
    exact ⟨[], Served.quiet rfl rfl (.refl a) h⟩
  | cons cmd rest ih =>
    have hquiet : cmd.addOf = none → Served model { a with commands := cmd :: rest } { a with commands := rest } [] := by
      intro hadd
      refine Served.quiet rfl rfl (.quiet rfl (fun s hf => hf.imp_left fun hm => ?_) fun s _ => ?_) (h.popped rfl)
      · show s ∈ (cmd :: rest).filterMap Command.addOf
        rw [List.filterMap_cons_none hadd]
        exact hm
      · exact .inr (.inr (by simp [liveStreams, hl]))
    simp only [AsyncEngine.drainAfterDeath]
    cases cmd with
    | add s =>
      have ha : a.answer e (.add s) =
          { a with updates := a.updates ++ [[⟨s, [], some .error, 0, some (.engineError e)⟩]] } := by
        simp [answer, AsyncEngine.publish]
      have hrefuse := h.refuse (e := a.engine) (u := ⟨s, [], some .error, 0, some (.engineError e)⟩) rfl rfl (by simp)
      have hserved : Served model { a with commands := .add s :: rest }
          (AsyncEngine.publish { a with commands := rest } [⟨s, [], some .error, 0, some (.engineError e)⟩])
          [⟨s, [], some .error, 0, some (.engineError e)⟩] := Served.publish rfl rfl hrefuse (h.popped rfl)
      simp only [AsyncEngine.publish, List.cons_ne_nil, if_false] at hserved
      rw [ha]
      obtain ⟨us, hrest⟩ := @ih { a with updates := a.updates ++ [[⟨s, [], some .error, 0, some (.engineError e)⟩]] }
        hserved.sane hl hc
      exact ⟨_, hserved.trans hrest⟩
    | call i fn =>
      have hcall := hquiet rfl
      have hset : Served model { a with commands := .call i fn :: rest }
          { a with commands := rest, resolved := a.resolved ++ [i] } [] :=
        ⟨hcall.updates, hcall.outputs, hcall.sends.elsewhere _ _ _ _ _ _, hcall.sane.elsewhere _ _ _ _ _ _⟩
      obtain ⟨us, hrest⟩ := ih (a := a.answer e (.call i fn)) hset.sane hl hc
      exact ⟨_, hset.trans hrest⟩
    | abort s =>
      obtain ⟨us, hrest⟩ := ih (hquiet rfl).sane hl hc
      exact ⟨_, (hquiet rfl).trans hrest⟩
    | stop =>
      obtain ⟨us, hrest⟩ := ih (hquiet rfl).sane hl hc
      exact ⟨_, (hquiet rfl).trans hrest⟩

theorem Sane.die (h : Sane model a) (e : Option Error) : ∃ us, Served model a (a.die e) us := by
  have hdead : Served model a { a with dead := true } [] :=
    Served.quiet rfl rfl ((Sends.refl a).elsewhere _ _ _ _ _ _) (h.elsewhere _ _ _ _ _ _)
  have hfail := hdead.sane.failAll (.engineError e) .error
  obtain ⟨a1, ha1⟩ : ∃ a1, AsyncEngine.failAll { a with dead := true } (.engineError e) .error = a1 := ⟨_, rfl⟩
  have hcmd : a1.commands = a.commands := by rw [← ha1, AsyncEngine.failAll, publish_commands]
  have hlive : a1.live = [] := by rw [← ha1, AsyncEngine.failAll, publish_live]
  rw [ha1] at hfail
  have hexit : Served model a1 { a1 with thread := .exited } [] :=
    Served.quiet rfl rfl (.quiet rfl (fun _ hf => hf) fun s _ => .inr (.inr (by simp [liveStreams, hlive])))
      (hfail.sane.advance (fun _ => hlive) (fun _ _ hcut => Engine.Reads.refl hcut) (by simp))
  have hself : ({ a1 with thread := .exited, commands := a.commands } : AsyncEngine) =
      { a1 with thread := .exited } := by
    rw [← hcmd]
  obtain ⟨us, hdrain⟩ := Sane.drainAfterDeath (a := { a1 with commands := [], thread := .exited }) e a.commands
    (hself ▸ hexit.sane) hlive rfl
  rw [AsyncEngine.die, ha1]
  exact ⟨_, ((hdead.trans hfail).trans (hself ▸ hexit)).trans hdrain⟩

theorem Sane.fault {e : Engine} (h : Sane model a) (ht : a.thread = .running) (hf : Fault model a.engine e) :
    Served model a (AsyncEngine.raise { a with engine := e } none) [] := by
  have he := h.engine ht
  refine Served.quiet rfl rfl (.advance ht) (h.advance (by simp) (fun r hr hc => ?_) (by simp))
  cases hf with
  | start => exact Engine.Reads.refl hc
  | scheduled hsch => exact he.scheduled_reads hsch rfl hr hc
  | launched hsch hl => exact he.launched_reads hsch hl hr hc

theorem Sane.enqueue (h : Sane model a) (cmd : Command) (hadd : cmd.addOf = none)
    (hp : ∀ c fn, cmd = .call c fn → Proper model fn) :
        Served model a { a with commands := a.commands ++ [cmd] } [] := by
  have hadds : (a.commands ++ [cmd]).filterMap Command.addOf = a.adds := by simp [adds, hadd]
  refine Served.quiet rfl rfl (.quiet rfl (fun s hf => hf.imp_left fun hm => hadds ▸ hm) fun s hab => ?_)
    (h.requeue (hadds ▸ List.Sublist.refl _) fun c fn hm => ?_)
  · exact hab.imp (List.mem_append_left _) .inl
  · rcases List.mem_append.mp hm with hm | hm
    · exact h.proper c fn hm
    · exact hp c fn (List.mem_singleton.mp hm).symm

theorem Sane.submit {promptIds : List Token} {params : SamplingParams} (h : Sane model a)
    (hs : a.submit promptIds params = some a') : Served model a a' [] := by
  unfold AsyncEngine.submit at hs
  split at hs
  · simp at hs
  · obtain rfl := Option.some.inj hs
    have hadds : (a.commands ++ [Command.add a.numStreams]).filterMap Command.addOf = a.adds ++ [a.numStreams] := by
      simp [adds, Command.addOf]
    have hfresh : ∀ s, s ∈ (a.commands ++ [Command.add a.numStreams]).filterMap Command.addOf ∨ a.numStreams + 1 ≤ s →
        a.Fresh s := by
      rintro s (hm | hm)
      · rw [hadds, List.mem_append, List.mem_singleton] at hm
        exact hm.imp_right fun e => e.ge
      · exact .inr (by omega)
    refine Served.quiet rfl rfl (.quiet rfl hfresh fun s hab => hab.imp (List.mem_append_left _) .inl)
      ⟨?_, fun s hm => ?_, h.live_nodup, fun s hm hf => h.live_old s hm (hfresh s hf), h.exited, h.engine, h.known,
        fun c fn hm => ?_⟩
    · simp only [adds, hadds]
      refine List.nodup_append.mpr ⟨h.adds_nodup, List.nodup_singleton _, fun s hs t ht => ?_⟩
      rw [List.mem_singleton.mp ht]
      exact Nat.ne_of_lt (h.adds_lt s hs)
    · simp only [adds, hadds, List.mem_append, List.mem_singleton] at hm
      rcases hm with hm | rfl
      · exact Nat.lt_succ_of_lt (h.adds_lt s hm)
      · exact Nat.lt_succ_self _
    · rcases List.mem_append.mp hm with hm | hm
      · exact h.proper c fn hm
      · simp at hm

theorem Sane.call {fn : Engine → CallOutcome × Engine} (h : Sane model a) (hp : Proper model fn)
    (hs : a.call fn = some a') : Served model a a' [] := by
  unfold AsyncEngine.call at hs
  split at hs
  · simp at hs
  · obtain rfl := Option.some.inj hs
    have henq := h.enqueue (.call a.numCalls fn) rfl fun c fn' e => by
      obtain ⟨-, rfl⟩ := Command.call.inj e
      exact hp
    exact ⟨henq.updates, henq.outputs, ⟨henq.sends.last, henq.sends.from_live, henq.sends.ends, henq.sends.goes_on,
      henq.sends.closes, henq.sends.opens, henq.sends.fresh, henq.sends.used, henq.sends.aborts⟩, ⟨henq.sane.adds_nodup,
      henq.sane.adds_lt, henq.sane.live_nodup, henq.sane.live_old, henq.sane.exited, henq.sane.engine, henq.sane.known,
      henq.sane.proper⟩⟩

theorem Sane.next (h : Sane model a) (hev : ∀ fn, ev = .call fn → Proper model fn)
    (hn : Next model (fun _ _ => False) ev a a') : ∃ us, Served model a a' us := by
  cases hn with
  | submit hs => exact ⟨[], h.submit hs⟩
  | abort hlt => exact ⟨[], h.enqueue (.abort _) rfl (by simp)⟩
  | call hc => exact ⟨[], h.call (hev _ rfl) hc⟩
  | stop =>
    have henq := h.enqueue .stop rfl (by simp)
    exact ⟨[], henq.updates, henq.outputs, henq.sends.elsewhere _ _ _ _ _ _, henq.sane.elsewhere _ _ _ _ _ _⟩
  | pump hp => exact absurd hp id
  | @take _ cmd rest ht hc =>
    cases cmd with
    | add s => exact h.handleAdd ht hc
    | abort s => exact h.handleAbort ht hc
    | call i fn => exact ⟨[], h.handleCall ht hc⟩
    | stop => exact h.handleStop hc
  | step ht hu => exact h.engineStep ht
  | fault ht hf => exact ⟨[], h.fault ht hf⟩
  | die ht => exact h.die _

end Thread

end AsyncEngine

end Server

end MiniServe
