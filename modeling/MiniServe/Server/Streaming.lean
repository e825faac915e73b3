import MiniServe.Lib.Transcript
import MiniServe.Server.AsyncEngine

namespace MiniServe

open Transcript

namespace Server

abbrev Sent := Transcript.Entry Token FinishReason

def Update.sent (u : Update) : Sent := ⟨u.newIds, u.finishReason, u.numOutputTokens⟩

def StreamOutput.sent (o : StreamOutput) : Sent := ⟨o.tokenIds, o.finishReason, o.numOutputTokens⟩

def sentOf (us : List Update) (s : Sid) : List Sent := (us.filter (fun u => u.stream = s)).map Update.sent

def Command.addOf : Command → Option Sid
  | .add s => some s
  | .abort _ => none
  | .call _ _ => none
  | .stop => none

namespace AsyncEngine

variable {a a' : AsyncEngine} {H : Sid → List Sent} {s : Sid} {us : List Update} {u : Update}

def history (a : AsyncEngine) (s : Sid) : List Sent := (a.outputs s).map StreamOutput.sent ++ sentOf a.updates.flatten s

section History

theorem sentOf_append (us us' : List Update) : sentOf (us ++ us') s = sentOf us s ++ sentOf us' s := by
  simp [sentOf]

theorem sentOf_self : sentOf [u] u.stream = [u.sent] := by simp [sentOf]

theorem history_cons (u : Update) (us : List Update) : H s ++ sentOf (u :: us) s =
    Function.update H u.stream (H u.stream ++ [u.sent]) s ++ sentOf us s := by
  by_cases e : s = u.stream
  · subst e
    simp [sentOf]
  · simp [sentOf, Ne.symm e, Function.update_of_ne e]

theorem history_publish (a : AsyncEngine) (us : List Update) (s : Sid) :
    (a.publish us).history s = a.history s ++ sentOf us s := by
  unfold publish
  split
  · next h => simp [h, sentOf]
  · simp [history, sentOf]

theorem publish_same (a : AsyncEngine) (us : List Update) : ∃ updates, a.publish us = { a with updates } := by
  unfold publish
  split
  · exact ⟨a.updates, rfl⟩
  · exact ⟨_, rfl⟩

@[simp] theorem publish_commands (a : AsyncEngine) (us : List Update) : (a.publish us).commands = a.commands := by
  unfold publish
  split <;> rfl

@[simp] theorem publish_live (a : AsyncEngine) (us : List Update) : (a.publish us).live = a.live := by
  unfold publish
  split <;> rfl

theorem submit_same {promptIds : List Token} {params : SamplingParams} (h : a.submit promptIds params = some a') :
    a'.updates = a.updates ∧ a'.outputs = a.outputs := by
  unfold submit at h
  split at h
  · simp at h
  · obtain rfl := Option.some.inj h
    exact ⟨rfl, rfl⟩

theorem collectRow_same {us' : List Update} {r : Rid} (h : a.collectRow r us = some (us', a')) :
    a'.updates = a.updates ∧ a'.outputs = a.outputs := by
  unfold collectRow at h
  split at h
  · obtain ⟨-, rfl⟩ := Prod.mk.inj (Option.some.inj h)
    exact ⟨rfl, rfl⟩
  · simp only at h
    split at h
    · split at h
      · simp at h
      · obtain ⟨-, rfl⟩ := Prod.mk.inj (Option.some.inj h)
        exact ⟨rfl, rfl⟩
    · obtain ⟨-, rfl⟩ := Prod.mk.inj (Option.some.inj h)
      exact ⟨rfl, rfl⟩

theorem collect_same (rids : List Rid) (us : List Update) (a : AsyncEngine) :
    (collect rids us a).2.updates = a.updates ∧ (collect rids us a).2.outputs = a.outputs := by
  induction rids generalizing us a with
  | nil => exact ⟨rfl, rfl⟩
  | cons r rest ih =>
    simp only [collect]
    split
    · exact ⟨rfl, rfl⟩
    · next us1 a1 h1 =>
      obtain ⟨hu, ho⟩ := collectRow_same h1
      obtain ⟨hu', ho'⟩ := ih us1 a1
      exact ⟨hu'.trans hu, ho'.trans ho⟩

theorem push_same (l : List (Update × String)) (a : AsyncEngine) : ∃ o, l.foldl push a = { a with outputs := o } := by
  induction l generalizing a with
  | nil => exact ⟨a.outputs, rfl⟩
  | cons p l ih => exact ih (a.push p)

theorem push_outputs (l : List (Update × String)) (a : AsyncEngine) :
    (l.foldl push a).outputs s = a.outputs s ++ (l.filter (fun p => p.1.stream = s)).map (fun p => a.output p.1 p.2) ∧
      (l.foldl push a).updates = a.updates := by
  induction l generalizing a with
  | nil => simp
  | cons p l ih =>
    obtain ⟨h1, h2⟩ := ih (a.push p)
    have hout : (a.push p).output = a.output := rfl
    rw [List.foldl_cons, h1, h2, hout]
    refine ⟨?_, rfl⟩
    by_cases hp : p.1.stream = s
    · subst hp
      simp [push]
    · simp [push, hp, Function.update_of_ne (Ne.symm hp)]

theorem sent_outputs (l : List (Update × String)) :
    ((l.filter (fun p => p.1.stream = s)).map (fun p => a.output p.1 p.2)).map StreamOutput.sent =
      sentOf (l.map Prod.fst) s := by
  rw [sentOf, List.filter_map, List.map_map, List.map_map]
  rfl

theorem history_pump {texts : List String} (n : Nat) (hlen : texts.length = (a.fetched n).length) :
    (a.pump n texts).history s = a.history s ∧ a.outputs s <+: (a.pump n texts).outputs s := by
  have hfst : ((a.fetched n).zip texts).map Prod.fst = a.fetched n := List.map_fst_zip (Nat.le_of_eq hlen.symm)
  obtain ⟨h1, h2⟩ := push_outputs (s := s) ((a.fetched n).zip texts) { a with updates := a.updates.drop n }
  refine ⟨?_, ?_⟩
  · have hsplit : a.updates.flatten = a.fetched n ++ (a.updates.drop n).flatten := by
      rw [fetched, ← List.flatten_append, List.take_append_drop]
    rw [history, pump, h1, h2, List.map_append, sent_outputs, hfst, history, hsplit, sentOf_append, List.append_assoc]
  · rw [pump, h1]
    exact List.prefix_append _ _

end History

def Ends (reason : Option FinishReason) : Prop := reason = some .stop ∨ reason = some .length

-- What has been sent, `H`, against the requests: of a stream whose request the engine has, the tokens read back
-- so far as far as `sent` goes.
structure Streams (a : AsyncEngine) (H : Sid → List Sent) : Prop where
  script : ∀ s, WellFormed (H s)
  unasked : ∀ s, a.requestOf s = none → tokens (H s) = [] ∧ ∀ x ∈ H s, x.reason = none ∨ x.reason = some .error
  told : ∀ s r, a.requestOf s = some r → tokens (H s) <+: (a.engine.request r).readyIds
  clean : ∀ s, ∀ x ∈ H s, x.reason ≠ some .stop → ∀ t ∈ x.ids, t ∉ (a.streams s).params.stopTokenIds
  full : ∀ s r, a.requestOf s = some r → ∀ x ∈ H s, Ends x.reason → (a.engine.request r).state = .finished ∧
    tokens (H s) = (a.engine.request r).outputIds ∧ (x.reason = some .stop →
      ∃ tok, (a.engine.request r).outputIds.getLast? = some tok ∧ tok ∈ (a.streams s).params.stopTokenIds)
  params : ∀ s r, a.requestOf s = some r → (a.engine.request r).params = (a.streams s).params ∧
    (a.engine.request r).promptIds ≠ [] ∧ (a.engine.request r).Cut
  live : ∀ l ∈ a.live, a.requestOf l.stream = some l.rid ∧ l.sent = (tokens (H l.stream)).length ∧ Open (H l.stream)
  streams_nodup : (a.live.map Live.stream).Nodup
  rids_nodup : (a.live.map Live.rid).Nodup
  adds : ∀ s ∈ a.commands.filterMap Command.addOf, s < a.numStreams ∧ H s = [] ∧ a.requestOf s = none
  adds_nodup : (a.commands.filterMap Command.addOf).Nodup
  later : ∀ s, a.numStreams ≤ s → H s = [] ∧ a.requestOf s = none
  calls : ∀ c fn, .call c fn ∉ a.commands
  engine : a.thread = .running → a.engine.Sound

namespace Streams

theorem start (c : EngineConfig) : Streams (start c) fun _ => [] where
  script := fun _ => WellFormed.nil
  unasked := fun _ _ => ⟨rfl, by simp⟩
  told := fun s r h => by simp at h
  clean := fun s x hx => by simp at hx
  full := fun s r h => by simp at h
  params := fun s r h => by simp at h
  live := fun l hl => by simp at hl
  streams_nodup := List.nodup_nil
  rids_nodup := List.nodup_nil
  adds := fun s hs => by simp at hs
  adds_nodup := List.nodup_nil
  later := fun _ _ => ⟨rfl, rfl⟩
  calls := fun c fn h => by simp at h
  engine := fun _ => Engine.new_sound c

theorem advance {e : Engine} {th : Thread} (h : Streams a H)
    (hreads : ∀ r, (a.engine.request r).promptIds ≠ [] → (a.engine.request r).Cut → Engine.Reads a.engine e r)
    (hsound : th = .running → e.Sound) : Streams { a with engine := e, thread := th } H where
  script := h.script
  unasked := h.unasked
  told := fun s r hr => by
    obtain ⟨-, hne, hcut⟩ := h.params s r hr
    exact (h.told s r hr).trans (hreads r hne hcut).grows.ready
  clean := h.clean
  full := fun s r hr x hx he => by
    obtain ⟨-, hne, hcut⟩ := h.params s r hr
    obtain ⟨hst, hfull⟩ := h.full s r hr x hx he
    have hsame := (hreads r hne hcut).grows.done (.inl hst)
    simp only [hsame]
    exact ⟨hst, hfull⟩
  params := fun s r hr => by
    obtain ⟨hpar, hne, hcut⟩ := h.params s r hr
    have hread := hreads r hne hcut
    exact ⟨hread.alike.2.1.trans hpar, hread.alike.ne_nil hne, hread.cut⟩
  live := h.live
  streams_nodup := h.streams_nodup
  rids_nodup := h.rids_nodup
  adds := h.adds
  adds_nodup := h.adds_nodup
  later := h.later
  calls := h.calls
  engine := hsound

theorem tell {l : Live} {x : Sent} {live' : List Live} (h : Streams a H) (hl : l ∈ a.live)
    (hcount : x.count = l.sent + x.ids.length)
    (htold : tokens (H l.stream) ++ x.ids <+: (a.engine.request l.rid).readyIds)
    (hclean : x.reason ≠ some .stop → ∀ t ∈ x.ids, t ∉ (a.streams l.stream).params.stopTokenIds)
    (hfull : Ends x.reason → (a.engine.request l.rid).state = .finished ∧
      tokens (H l.stream) ++ x.ids = (a.engine.request l.rid).outputIds ∧ (x.reason = some .stop →
        ∃ tok, (a.engine.request l.rid).outputIds.getLast? = some tok ∧ tok ∈ (a.streams l.stream).params.stopTokenIds))
    (hlive : ∀ l' ∈ live', (l' ∈ a.live ∧ l'.stream ≠ l.stream) ∨ (l' = { l with sent := x.count } ∧ x.reason = none))
    (hs : (live'.map Live.stream).Nodup) (hr : (live'.map Live.rid).Nodup) :
    Streams { a with live := live' } (Function.update H l.stream (H l.stream ++ [x])) := by
  obtain ⟨hreq, hsent, hopen⟩ := h.live l hl
  have hself : Function.update H l.stream (H l.stream ++ [x]) l.stream = H l.stream ++ [x] := Function.update_self _ _ _
  have hother : ∀ s, s ≠ l.stream → Function.update H l.stream (H l.stream ++ [x]) s = H s := fun s hne =>
    Function.update_of_ne hne _ _
  have hsome : ∀ s, a.requestOf s = none → s ≠ l.stream := by
    rintro s hn rfl
    rw [hreq] at hn
    simp at hn
  refine ⟨fun s => ?_, fun s hn => ?_, fun s r hsr => ?_, fun s y hy hy' => ?_, fun s r hsr y hy he => ?_, h.params,
    fun l' hl' => ?_, hs, hr, fun s hadd => ?_, h.adds_nodup, fun s hle => ?_, h.calls, h.engine⟩
  · by_cases e : s = l.stream
    · subst e
      rw [hself]
      exact (h.script _).tell hopen (by rw [hcount, hsent])
    · rw [hother s e]
      exact h.script s
  · rw [hother s (hsome s hn)]
    exact h.unasked s hn
  · by_cases e : s = l.stream
    · subst e
      obtain rfl : l.rid = r := Option.some.inj (hreq.symm.trans hsr)
      rw [hself, tokens_append, tokens_singleton]
      exact htold
    · rw [hother s e]
      exact h.told s r hsr
  · by_cases e : s = l.stream
    · subst e
      rw [hself] at hy
      rcases List.mem_append.mp hy with hy | hy
      · exact h.clean _ y hy hy'
      · obtain rfl := List.mem_singleton.mp hy
        exact hclean hy'
    · rw [hother s e] at hy
      exact h.clean s y hy hy'
  · by_cases e : s = l.stream
    · subst e
      obtain rfl : l.rid = r := Option.some.inj (hreq.symm.trans hsr)
      rw [hself] at hy ⊢
      rcases List.mem_append.mp hy with hy | hy
      · rcases he with he | he <;> rw [hopen y hy] at he <;> simp at he
      · obtain rfl := List.mem_singleton.mp hy
        rw [tokens_append, tokens_singleton]
        exact hfull he
    · rw [hother s e] at hy ⊢
      exact h.full s r hsr y hy he
  · rcases hlive l' hl' with ⟨hm, hne⟩ | ⟨rfl, hnone⟩
    · rw [hother _ hne]
      exact h.live l' hm
    · refine ⟨hreq, ?_, ?_⟩
      · show x.count = (tokens (Function.update H l.stream (H l.stream ++ [x]) l.stream)).length
        rw [hself, tokens_append, tokens_singleton, List.length_append, hcount, hsent]
      · show Open (Function.update H l.stream (H l.stream ++ [x]) l.stream)
        rw [hself]
        intro y hy
        rcases List.mem_append.mp hy with hy | hy
        · exact hopen y hy
        · rw [List.mem_singleton.mp hy]; exact hnone
  · obtain ⟨h1, h2, h3⟩ := h.adds s hadd
    exact ⟨h1, by rw [hother s (hsome s h3)]; exact h2, h3⟩
  · obtain ⟨h1, h2⟩ := h.later s hle
    exact ⟨by rw [hother s (hsome s h2)]; exact h1, h2⟩

theorem elsewhere (h : Streams a H) (updates : List (List Update)) (outputs : Sid → List StreamOutput) (dead : Bool)
    (resolved : List Cid) (stopping : Bool) :
    Streams { a with updates, outputs, dead, resolved, stopping } H :=
  ⟨h.script, h.unasked, h.told, h.clean, h.full, h.params, h.live, h.streams_nodup, h.rids_nodup, h.adds, h.adds_nodup,
    h.later, h.calls, h.engine⟩

theorem halt (h : Streams a H) {th : Thread} (ht : th ≠ .running) : Streams { a with thread := th } H :=
  h.advance (fun _ _ hc => Engine.Reads.refl hc) fun hr => absurd hr ht

theorem requeue {cs : List Command} (h : Streams a H)
    (hadds : (cs.filterMap Command.addOf).Sublist (a.commands.filterMap Command.addOf))
    (hcalls : ∀ c fn, .call c fn ∉ cs) : Streams { a with commands := cs } H :=
  ⟨h.script, h.unasked, h.told, h.clean, h.full, h.params, h.live, h.streams_nodup, h.rids_nodup,
    fun s hs => h.adds s (hadds.subset hs), h.adds_nodup.sublist hadds, h.later, hcalls, h.engine⟩

theorem submit {promptIds : List Token} {params : SamplingParams} (h : Streams a H)
    (hs : a.submit promptIds params = some a') : Streams a' H := by
  have hne : ∀ s r, a.requestOf s = some r → s ≠ a.numStreams := by
    rintro s r hr rfl
    rw [(h.later _ (Nat.le_refl _)).2] at hr
    simp at hr
  have hother : ∀ s, s ≠ a.numStreams →
      Function.update a.streams a.numStreams ⟨promptIds, params⟩ s = a.streams s := fun s hs =>
    Function.update_of_ne hs _ _
  unfold AsyncEngine.submit at hs
  split at hs
  · simp at hs
  · obtain rfl := Option.some.inj hs
    have hadds : (a.commands ++ [Command.add a.numStreams]).filterMap Command.addOf =
        a.commands.filterMap Command.addOf ++ [a.numStreams] := by simp [Command.addOf]
    refine ⟨h.script, h.unasked, h.told, fun s x hx hr => ?_, fun s r hsr x hx he => ?_, fun s r hsr => ?_, h.live,
      h.streams_nodup, h.rids_nodup, fun s hs => ?_, ?_,
      fun s hle => h.later s (Nat.le_of_succ_le hle), fun c fn hc => ?_,
      h.engine⟩
    · have hs : s ≠ a.numStreams := by
        rintro rfl
        rw [(h.later _ (Nat.le_refl _)).1] at hx
        simp at hx
      simp only [hother s hs]
      exact h.clean s x hx hr
    · simp only [hother s (hne s r hsr)]
      exact h.full s r hsr x hx he
    · simp only [hother s (hne s r hsr)]
      exact h.params s r hsr
    · simp only [hadds, List.mem_append, List.mem_singleton] at hs
      rcases hs with hs | rfl
      · obtain ⟨h1, h2⟩ := h.adds s hs
        exact ⟨Nat.lt_succ_of_lt h1, h2⟩
      · exact ⟨Nat.lt_succ_self _, h.later _ (Nat.le_refl _)⟩
    · simp only [hadds]
      refine List.nodup_append.mpr ⟨h.adds_nodup, List.nodup_singleton _, fun s hs t ht => ?_⟩
      have := (h.adds s hs).1
      rw [List.mem_singleton.mp ht]
      exact Nat.ne_of_lt this
    · rcases List.mem_append.mp hc with hc | hc
      · exact h.calls c fn hc
      · simp at hc

theorem refuse (h : Streams a H) (hH : H s = []) (hreq : a.requestOf s = none) (hlt : s < a.numStreams)
    (hadd : s ∉ a.commands.filterMap Command.addOf) : Streams a (Function.update H s [⟨[], some .error, 0⟩]) := by
  have hother : ∀ t, t ≠ s → Function.update H s [⟨[], some .error, 0⟩] t = H t :=
    fun t ht => Function.update_of_ne ht _ _
  have hsome : ∀ t r, a.requestOf t = some r → t ≠ s := by
    rintro t r hr rfl
    rw [hreq] at hr
    simp at hr
  refine ⟨fun t => ?_, fun t hn => ?_, fun t r hr => ?_, fun t x hx hx' => ?_, fun t r hr => ?_,
    h.params, fun l hl => ?_,
    h.streams_nodup, h.rids_nodup, fun t ht => ?_, h.adds_nodup, fun t hle => ?_, h.calls, h.engine⟩
  · by_cases e : t = s
    · subst e
      rw [Function.update_self]
      exact WellFormed.nil.tell (by simp [Open]) (by simp)
    · rw [hother t e]; exact h.script t
  · by_cases e : t = s
    · subst e
      rw [Function.update_self]
      exact ⟨rfl, by simp⟩
    · rw [hother t e]; exact h.unasked t hn
  · rw [hother t (hsome t r hr)]; exact h.told t r hr
  · by_cases e : t = s
    · subst e
      rw [Function.update_self, List.mem_singleton] at hx
      simp [hx]
    · rw [hother t e] at hx; exact h.clean t x hx hx'
  · rw [hother t (hsome t r hr)]; exact h.full t r hr
  · rw [hother _ (hsome _ _ (h.live l hl).1)]; exact h.live l hl
  · rw [hother t fun e => hadd (e ▸ ht)]; exact h.adds t ht
  · rw [hother t fun e => absurd hlt (by rw [← e]; exact not_lt.mpr hle)]; exact h.later t hle

theorem accept {r : Rid} {e : Engine} {q : Request} (h : Streams a H) (hH : H s = []) (hreq : a.requestOf s = none)
    (hlt : s < a.numStreams) (hadd : s ∉ a.commands.filterMap Command.addOf) (hsound : a.thread = .running → e.Sound)
    (hblank : a.engine.request r = Request.blank r) (hin : e.request r = q) (hq : q.Fresh)
    (hpar : q.params = (a.streams s).params) (hsame : ∀ x, x ≠ r → e.request x = a.engine.request x) :
    Streams
      { a with engine := e, live := a.live ++ [⟨r, s, 0⟩], requestOf := Function.update a.requestOf s (some r) }
      H := by
  have hne : ∀ t x, a.requestOf t = some x → t ≠ s ∧ x ≠ r := by
    intro t x hx
    refine ⟨?_, ?_⟩
    · rintro rfl
      rw [hreq] at hx
      simp at hx
    · rintro rfl
      have := (h.params t x hx).2.1
      rw [hblank] at this
      exact this rfl
  have hsplit : ∀ t x, Function.update a.requestOf s (some r) t = some x → (t = s ∧ x = r) ∨
      (a.requestOf t = some x ∧ e.request x = a.engine.request x) := by
    intro t x hx
    by_cases e : t = s
    · subst e
      rw [Function.update_self] at hx
      exact .inl ⟨rfl, (Option.some.inj hx).symm⟩
    · rw [Function.update_of_ne e] at hx
      exact .inr ⟨hx, hsame x (hne t x hx).2⟩
  have hkeep : ∀ t, t ≠ s → Function.update a.requestOf s (some r) t = a.requestOf t := fun t ht =>
    Function.update_of_ne ht _ _
  refine ⟨h.script, fun t hn => ?_, fun t x hx => ?_, h.clean, fun t x hx y hy he => ?_,
    fun t x hx => ?_, fun l hl => ?_, ?_,
    ?_, fun t ht => ?_, h.adds_nodup, fun t hle => ?_, h.calls, hsound⟩
  · have ht : t ≠ s := by
      rintro rfl
      simp at hn
    exact h.unasked t ((hkeep t ht).symm.trans hn)
  · rcases hsplit t x hx with ⟨rfl, rfl⟩ | ⟨hx, he⟩
    · rw [hH]; exact List.nil_prefix
    · show _ <+: (e.request x).readyIds
      rw [he]; exact h.told t x hx
  · rcases hsplit t x hx with ⟨rfl, rfl⟩ | ⟨hx, heq⟩
    · rw [hH] at hy; simp at hy
    · simp only [heq]; exact h.full t x hx y hy he
  · rcases hsplit t x hx with ⟨rfl, rfl⟩ | ⟨hx, heq⟩
    · simp only [hin]; exact ⟨hpar, hq.prompt, hq.cut⟩
    · simp only [heq]; exact h.params t x hx
  · rcases List.mem_append.mp hl with hl | hl
    · obtain ⟨h1, h2⟩ := h.live l hl
      exact ⟨(hkeep _ (hne _ _ h1).1).trans h1, h2⟩
    · obtain rfl := List.mem_singleton.mp hl
      refine ⟨Function.update_self _ _ _, ?_, ?_⟩
      · simp only [hH]; rfl
      · simp [hH, Open]
  · simp only [List.map_append, List.map_singleton]
    refine List.nodup_append.mpr ⟨h.streams_nodup, List.nodup_singleton _, fun t ht x hx => ?_⟩
    obtain ⟨l, hl, rfl⟩ := List.mem_map.mp ht
    rw [List.mem_singleton.mp hx]
    exact (hne _ _ (h.live l hl).1).1
  · simp only [List.map_append, List.map_singleton]
    refine List.nodup_append.mpr ⟨h.rids_nodup, List.nodup_singleton _, fun t ht x hx => ?_⟩
    obtain ⟨l, hl, rfl⟩ := List.mem_map.mp ht
    rw [List.mem_singleton.mp hx]
    exact (hne _ _ (h.live l hl).1).2
  · obtain ⟨h1, h2, h3⟩ := h.adds t ht
    exact ⟨h1, h2, (hkeep t fun e => hadd (e ▸ ht)).trans h3⟩
  · obtain ⟨h1, h2⟩ := h.later t hle
    exact ⟨h1, (hkeep t fun e => absurd hlt (by rw [← e]; exact not_lt.mpr hle)).trans h2⟩

theorem erase_live {l l' : Live} (h : Streams a H) (hl : l ∈ a.live) (hl' : l' ∈ a.live.erase l) :
    l' ∈ a.live ∧ l'.stream ≠ l.stream := by
  have hnd : a.live.Nodup := h.streams_nodup.of_map _
  obtain ⟨hne, hm⟩ := hnd.mem_erase_iff.mp hl'
  exact ⟨hm, fun he => hne (List.inj_on_of_nodup_map h.streams_nodup hm hl he)⟩

theorem erase_nodup {l : Live} (h : Streams a H) :
    ((a.live.erase l).map Live.stream).Nodup ∧ ((a.live.erase l).map Live.rid).Nodup :=
  ⟨h.streams_nodup.sublist (List.erase_sublist.map _), h.rids_nodup.sublist (List.erase_sublist.map _)⟩

theorem close {l : Live} {reason : FinishReason} (h : Streams a H) (hl : l ∈ a.live) (hr : ¬ Ends (some reason)) :
    Streams { a with live := a.live.erase l }
    (Function.update H l.stream (H l.stream ++ [⟨[], some reason, l.sent⟩])) := by
  obtain ⟨hreq, -, -⟩ := h.live l hl
  refine h.tell hl rfl ?_ (fun _ t ht => ?_) (fun he => absurd he hr)
    (fun l' hl' => .inl (h.erase_live hl hl')) h.erase_nodup.1
    h.erase_nodup.2
  · rw [List.append_nil]
    exact h.told _ _ hreq
  · simp at ht

theorem fail {cause : Cause} {reason : FinishReason} (hr : ¬ Ends (some reason)) (h : Streams a H) :
    Streams { a with live := [] } fun s => H s ++ sentOf (a.live.map (failUpdate cause reason)) s := by
  obtain ⟨ls, hls⟩ : ∃ ls, a.live = ls := ⟨_, rfl⟩
  rw [hls]
  induction ls generalizing a H with
  | nil =>
    have : { a with live := [] } = a := by rw [← hls]
    simpa [this, sentOf] using h
  | cons l rest ih =>
    have hl : l ∈ a.live := by simp [hls]
    have hc := h.close hl hr
    have he : a.live.erase l = rest := by simp [hls]
    rw [he] at hc
    have hrest := ih hc rfl
    have hsent : ∀ s, H s ++ sentOf ((l :: rest).map (failUpdate cause reason)) s =
        Function.update H l.stream (H l.stream ++ [⟨[], some reason, l.sent⟩]) s ++
          sentOf (rest.map (failUpdate cause reason)) s := fun s =>
      history_cons (failUpdate cause reason l) _
    simp only [hsent]
    exact hrest

theorem unsent {l : Live} (h : Streams a H) (hl : l ∈ a.live) :
    tokens (H l.stream) ++ (a.engine.request l.rid).readyIds.drop l.sent = (a.engine.request l.rid).readyIds := by
  obtain ⟨hreq, hsent, -⟩ := h.live l hl
  rw [hsent]
  exact List.prefix_iff_eq_append.mp (h.told _ _ hreq)

theorem unsent_begins {l : Live} (h : Streams a H) (hl : l ∈ a.live) :
    tokens (H l.stream) ++ (a.engine.request l.rid).readyIds.drop l.sent <+: (a.engine.request l.rid).readyIds := by
  rw [h.unsent hl]

theorem unsent_length {l : Live} (h : Streams a H) (hl : l ∈ a.live) : (a.engine.request l.rid).readyIds.length =
    l.sent + ((a.engine.request l.rid).readyIds.drop l.sent).length := by
  have := congrArg List.length (h.unsent hl)
  rw [List.length_append, ← (h.live l hl).2.1] at this
  exact this.symm

theorem send {l : Live} (h : Streams a H) (hl : l ∈ a.live) (hf : (a.engine.request l.rid).state ≠ .finished) :
    let ready := (a.engine.request l.rid).readyIds
    Streams { a with live := a.live.map fun x => if x = l then { l with sent := ready.length } else x }
      (Function.update H l.stream (H l.stream ++ [⟨ready.drop l.sent, none, ready.length⟩])) := by
  intro ready
  obtain ⟨hreq, -, -⟩ := h.live l hl
  obtain ⟨hpar, -, hcut⟩ := h.params _ _ hreq
  let f : Live → Live := fun x => if x = l then { l with sent := ready.length } else x
  have hstream : (a.live.map f).map Live.stream = a.live.map Live.stream := by
    rw [List.map_map]
    refine List.map_congr_left fun x _ => ?_
    show (f x).stream = x.stream
    by_cases e : x = l <;> simp [f, e]
  have hrid : (a.live.map f).map Live.rid = a.live.map Live.rid := by
    rw [List.map_map]
    refine List.map_congr_left fun x _ => ?_
    show (f x).rid = x.rid
    by_cases e : x = l <;> simp [f, e]
  refine h.tell hl (h.unsent_length hl) (h.unsent_begins hl) (fun _ t ht => ?_) (fun he => ?_)
    (fun l' hl' => ?_) (hstream ▸ h.streams_nodup) (hrid ▸ h.rids_nodup)
  · rw [← hpar]
    exact hcut.unfinished hf t (List.mem_of_mem_drop ht)
  · simp [Ends] at he
  · obtain ⟨x, hx, rfl⟩ := List.mem_map.mp hl'
    by_cases e : x = l
    · exact .inr ⟨by simp [e], rfl⟩
    · exact .inl ⟨by simpa [e] using hx,
        by simpa [e] using fun he => e (List.inj_on_of_nodup_map h.streams_nodup hx hl he)⟩

theorem send_nothing {l : Live} (h : Streams a H) (hl : l ∈ a.live)
    (hnew : (a.engine.request l.rid).readyIds.drop l.sent = []) :
    (a.live.map fun x => if x = l then { l with sent := (a.engine.request l.rid).readyIds.length } else x) = a.live := by
  have hlen := h.unsent_length hl
  rw [hnew, List.length_nil, Nat.add_zero] at hlen
  refine (List.map_congr_left fun x _ => ?_).trans (List.map_id _)
  by_cases e : x = l
  · simp [e, hlen]
  · simp [e]

theorem finish {l : Live} {tok : Token} (h : Streams a H) (hl : l ∈ a.live)
    (hf : (a.engine.request l.rid).state = .finished) (htok : (a.engine.request l.rid).outputIds.getLast? = some tok) :
    let q := a.engine.request l.rid
    Streams { a with live := a.live.erase l } (Function.update H l.stream (H l.stream ++
      [⟨q.readyIds.drop l.sent, some (if tok ∈ q.params.stopTokenIds then .stop else .length),
        q.readyIds.length⟩])) := by
  intro q
  obtain ⟨hreq, -, -⟩ := h.live l hl
  obtain ⟨hpar, -, hcut⟩ := h.params _ _ hreq
  obtain ⟨pre, tok', hout, hp, hpre⟩ := hcut.finished hf
  obtain rfl : tok' = tok := by
    rw [hout, List.getLast?_concat] at htok
    exact Option.some.inj htok
  have hready : q.readyIds = q.outputIds := by simp [q, Request.readyIds, hp]
  refine h.tell hl (h.unsent_length hl) (h.unsent_begins hl) (fun hr t ht => ?_)
    (fun _ => ⟨hf, (h.unsent hl).trans hready, fun hr => ⟨tok', htok, ?_⟩⟩) (fun l' hl' => .inl (h.erase_live hl hl'))
    h.erase_nodup.1 h.erase_nodup.2
  · have hstop : tok' ∉ q.params.stopTokenIds := fun hs => hr (by simp [hs])
    have ht : t ∈ q.readyIds := List.mem_of_mem_drop ht
    rw [hready, show q.outputIds = _ from hout] at ht
    rw [← hpar]
    rcases List.mem_append.mp ht with ht | ht
    · exact hpre t ht
    · rw [List.mem_singleton.mp ht]; exact hstop
  · by_contra hs
    rw [← hpar] at hs
    simp [q, hs] at hr

theorem collectRow {us : List Update} (h : Streams a fun s => H s ++ sentOf us s) (r : Rid) :
    ∃ us' a', a.collectRow r us = some (us', a') ∧ Streams a' fun s => H s ++ sentOf us' s := by
  unfold AsyncEngine.collectRow
  cases hfind : a.live.find? (fun l => l.rid = r) with
  | none => exact ⟨us, a, rfl, h⟩
  | some l =>
    obtain rfl : l.rid = r := by simpa using List.find?_some hfind
    have hl : l ∈ a.live := List.mem_of_find?_eq_some hfind
    have hsent : ∀ u : Update, u.stream = l.stream →
        Function.update (fun s => H s ++ sentOf us s) l.stream (H l.stream ++ sentOf us l.stream ++ [u.sent]) =
          fun s => H s ++ sentOf (us ++ [u]) s := by
      intro u hu
      funext s
      by_cases e : s = l.stream
      · subst e
        simp [sentOf, hu]
      · simp [sentOf, hu, Ne.symm e, Function.update_of_ne e]
    by_cases hf : (a.engine.request l.rid).state = .finished
    · obtain ⟨pre, tok, hout, -⟩ := (h.params _ _ (h.live l hl).1).2.2.finished hf
      have htok : (a.engine.request l.rid).outputIds.getLast? = some tok := by rw [hout, List.getLast?_concat]
      have hfin := h.finish hl hf htok
      simp only [hf, if_true, htok]
      refine ⟨_, _, rfl, ?_⟩
      rw [← hsent _ rfl]
      exact hfin
    · simp only [hf, if_false]
      refine ⟨_, _, rfl, ?_⟩
      by_cases hnew : (a.engine.request l.rid).readyIds.drop l.sent = []
      · rw [if_pos hnew, h.send_nothing hl hnew]
        exact h
      · rw [if_neg hnew, ← hsent _ rfl]
        exact h.send hl hf

theorem collect (rids : List Rid) {us : List Update} (h : Streams a fun s => H s ++ sentOf us s) :
    ∃ us' a', AsyncEngine.collect rids us a = (some us', a') ∧ Streams a' fun s => H s ++ sentOf us' s := by
  induction rids generalizing a us with
  | nil => exact ⟨us, a, rfl, h⟩
  | cons r rest ih =>
    obtain ⟨us1, a1, h1, hs1⟩ := h.collectRow r
    obtain ⟨us2, a2, h2, hs2⟩ := ih hs1
    exact ⟨us2, a2, by simp only [AsyncEngine.collect, h1, h2], hs2⟩

end Streams

end AsyncEngine

end Server

end MiniServe
