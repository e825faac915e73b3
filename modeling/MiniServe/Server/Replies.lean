import MiniServe.Server.App
import MiniServe.Server.Texts

namespace MiniServe

namespace Server

namespace Choice

def content : Choice → List Char
  | .delta _ d _ => (d.content.getD "").toList
  | .message _ _ c _ => c.toList
  | .text _ c _ => c.toList

def role : Choice → Option String
  | .delta _ d _ => d.role
  | .message _ r _ _ => some r
  | .text _ _ _ => none

def finishReason : Choice → Option FinishReason
  | .delta _ _ r => r
  | .message _ _ _ r => r
  | .text _ _ r => r

end Choice

namespace Envelope

def content (obj : Envelope) : List Char := obj.choices.flatMap Choice.content

def roles (obj : Envelope) : List String := obj.choices.filterMap Choice.role

def reasons (obj : Envelope) : List FinishReason := obj.choices.filterMap Choice.finishReason

end Envelope

-- The objects of a response, one or many, tell this text with these reasons and usages, the role at their head.
structure Tells (fmt : Format) (objs : List Envelope) (text : List Char) (reasons : List FinishReason)
    (usages : List Usage) :
    Prop where
  content : objs.flatMap Envelope.content = text
  roles : objs.flatMap Envelope.roles = if fmt.chat ∧ objs ≠ [] then ["assistant"] else []
  leads : ∀ obj ∈ objs.tail, obj.roles = []
  reasons : objs.flatMap Envelope.reasons = reasons
  usages : objs.filterMap Envelope.usage = usages
  headers : ∀ obj ∈ objs, obj.id = fmt.id ∧ obj.created = fmt.created ∧ obj.model = fmt.model

namespace Handler

variable (h : Handler)

-- All that it sends, unless its client leaves before.
def reply : List SseEvent := h.events ++ h.unsent

def Answers (text : List Char) (reason : FinishReason) (u : Usage) : Prop :=
  if h.stream then ∃ objs, h.reply = objs.map .data ++ [.done] ∧
    Tells h.fmt objs text [reason] (if h.includeUsage then [u] else [])
  else ∃ obj, h.response = some (.json obj) ∧ Tells h.fmt [obj] text [reason] [u]

def Refuses (status : Nat) (message : Message) : Prop :=
  if h.stream then ∃ objs text, h.reply = objs.map .data ++ [.error { message, type := "server_error" }, .done] ∧
    Tells h.fmt objs text [] []
  else h.response = some (errorResponse status message "server_error")

structure Reading (got : List StreamOutput) : Prop where
  unfinished : h.finished = false
  goes_on : ∀ o ∈ got, o.finishReason = none
  streamed : h.stream = true → ∃ objs, h.reply = objs.map .data ∧ Tells h.fmt objs (textOf got) [] [] ∧
    (h.first = true ↔ objs = [])
  collected : h.stream = false → h.parts = got.map StreamOutput.text ∧
    (h.response = none ∨ h.response = some (.empty clientClosed))

structure Done (got : List StreamOutput) : Prop where
  finished : h.finished = true
  ended : h.stream = false → h.ended = true
  last : ∃ pre o reason, got = pre ++ [o] ∧ (∀ x ∈ pre, x.finishReason = none) ∧ o.finishReason = some reason ∧
    (AsyncEngine.Ends (some reason) → h.Answers (textOf got) reason (usage o)) ∧
    (reason = .abort → h.Refuses 503 o.message) ∧ (reason = .error → h.Refuses 500 o.message)

def Reads (got : List StreamOutput) : Prop := h.Reading got ∨ h.Done got

end Handler

section Reply

variable {fmt : Format} {objs : List Envelope} {obj : Envelope} {text : List Char} {reasons : List FinishReason}
  {usages : List Usage} {h : Handler} {got : List StreamOutput} {out : StreamOutput}

theorem Tells.nil : Tells fmt [] [] [] [] := ⟨rfl, by simp, by simp, rfl, rfl, by simp⟩

theorem Tells.snoc (h : Tells fmt objs text reasons usages) (obj : Envelope)
    (hroles : obj.roles = if fmt.chat ∧ objs = [] then ["assistant"] else [])
    (hid : obj.id = fmt.id ∧ obj.created = fmt.created ∧ obj.model = fmt.model) :
    Tells fmt (objs ++ [obj]) (text ++ obj.content) (reasons ++ obj.reasons) (usages ++ obj.usage.toList) where
  content := by simp [h.content]
  roles := by
    rw [List.flatMap_append, List.flatMap_singleton, h.roles, hroles]
    cases objs with
    | nil => simp
    | cons o rest => simp
  leads := by
    cases objs with
    | nil => simp
    | cons o rest =>
      intro x hx
      rcases List.mem_append.mp hx with hx | hx
      · exact h.leads x hx
      · rw [List.mem_singleton.mp hx, hroles]
        simp
  reasons := by simp [h.reasons]
  usages := by
    rw [List.filterMap_append, h.usages]
    cases hu : obj.usage <;> simp [hu]
  headers := fun x hx => by
    rcases List.mem_append.mp hx with hx | hx
    · exact h.headers x hx
    · rw [List.mem_singleton.mp hx]
      exact hid

theorem chunk_content (fmt : Format) (text : String) (reason : Option FinishReason) (first : Bool) :
    (fmt.chunk text reason first).content = text.toList := by
  unfold Format.chunk Format.envelope Envelope.content
  cases fmt.chat with
  | false => simp [Choice.content]
  | true =>
    by_cases ht : text = ""
    · cases first <;> simp [Choice.content, ht]
    · simp [Choice.content, ht]

theorem chunk_roles (fmt : Format) (text : String) (reason : Option FinishReason) (first : Bool) :
    (fmt.chunk text reason first).roles = if fmt.chat ∧ first then ["assistant"] else [] := by
  unfold Format.chunk Format.envelope Envelope.roles
  cases fmt.chat <;> cases first <;> simp [Choice.role]

theorem chunk_reasons (fmt : Format) (text : String) (reason : Option FinishReason) (first : Bool) :
    (fmt.chunk text reason first).reasons = reason.toList := by
  unfold Format.chunk Format.envelope Envelope.reasons
  cases fmt.chat <;> cases reason <;> simp [Choice.finishReason]

theorem Tells.begins {more : List Envelope} (h : Tells fmt (objs ++ more) text [] []) :
    ∃ said, said <+: text ∧ Tells fmt objs said [] [] := by
  obtain ⟨hcontent, hroles, hleads, hreasons, husages, hheaders⟩ := h
  rw [List.flatMap_append] at hcontent hroles hreasons
  rw [List.filterMap_append] at husages
  refine ⟨_, ⟨_, hcontent⟩, rfl, ?_, ?_, (List.append_eq_nil_iff.mp hreasons).1, (List.append_eq_nil_iff.mp husages).1,
    fun obj hobj => hheaders obj (List.mem_append_left _ hobj)⟩
  · cases objs with
    | nil => simp
    | cons o rest =>
      have hnone : ∀ obj ∈ rest ++ more, obj.roles = [] := hleads
      have hmore : more.flatMap Envelope.roles = [] :=
        List.flatMap_eq_nil_iff.mpr fun obj hobj => hnone obj (List.mem_append_right _ hobj)
      rw [hmore, List.append_nil] at hroles
      simpa using hroles
  · cases objs with
    | nil => simp
    | cons o rest => exact fun obj hobj => hleads obj (List.mem_append_left more hobj)

theorem Tells.chunk {first : Bool} (h : Tells fmt objs text reasons usages)
    (hfirst : first = true ↔ objs = []) (new : String)
    (reason : Option FinishReason) :
    Tells fmt (objs ++ [fmt.chunk new reason first]) (text ++ new.toList) (reasons ++ reason.toList) usages := by
  have hs := h.snoc (fmt.chunk new reason first) (by rw [chunk_roles]; simp [hfirst]) ⟨rfl, rfl, rfl⟩
  rw [chunk_content, chunk_reasons] at hs
  simpa [Format.chunk, Format.envelope] using hs

theorem Tells.usageChunk (h : Tells fmt objs text reasons usages) (hne : objs ≠ []) (last : StreamOutput) :
    Tells fmt (objs ++ [fmt.usageChunk last]) text reasons (usages ++ [usage last]) := by
  have hs := h.snoc (fmt.usageChunk last)
    (by simp [Format.usageChunk, Format.envelope, Envelope.roles, hne]) ⟨rfl, rfl, rfl⟩
  simpa [Format.usageChunk, Format.envelope, Envelope.content, Envelope.reasons] using hs

theorem tells_complete (fmt : Format) (text : String) {last : StreamOutput} {reason : FinishReason}
    (hr : last.finishReason = some reason) : Tells fmt [fmt.complete text last] text.toList [reason] [usage last] := by
  refine ⟨?_, ?_, by simp, ?_, by simp [Format.complete], ?_⟩ <;>
    cases hc : fmt.chat <;>
    simp [Format.complete, Format.envelope, Envelope.content, Envelope.roles, Envelope.reasons,
      Choice.content, Choice.role,
      Choice.finishReason, hr, hc, Format.id]

theorem textOf_concat (got : List StreamOutput) (out : StreamOutput) :
    textOf (got ++ [out]) = textOf got ++ out.text.toList := by
  simp [textOf]

theorem textOf_join (got : List StreamOutput) : (String.join (got.map StreamOutput.text)).toList = textOf got := by
  simp [textOf, String.toList_join, List.flatMap_map]

theorem Handler.Reading.start (fmt : Format) (stream includeUsage : Bool) :
    Handler.Reading { fmt, stream, includeUsage } [] :=
  ⟨rfl, by simp, fun _ => ⟨[], rfl, Tells.nil, by simp⟩, fun _ => ⟨rfl, .inl rfl⟩⟩

theorem Handler.Reading.close (hr : h.Reading got) : Handler.Reading { h with ended := true } got :=
  ⟨hr.unfinished, hr.goes_on, hr.streamed, hr.collected⟩

theorem Handler.Reading.disconnect (hr : h.Reading got) (n : Nat) :
    Handler.Reading { h with disconnected := some n } got :=
  ⟨hr.unfinished, hr.goes_on, hr.streamed, hr.collected⟩

theorem Handler.Reading.dropped (hr : h.Reading got) : h.dropped.Reading got := by
  unfold Handler.dropped
  by_cases hs : h.stream = true
  · rw [if_pos hs]
    exact hr.close
  · rw [if_neg hs]
    have hs : h.stream = false := by simpa using hs
    exact ⟨hr.unfinished, hr.goes_on, hr.streamed, fun _ => ⟨(hr.collected hs).1, .inr rfl⟩⟩

theorem Handler.Done.close (hd : h.Done got) : Handler.Done { h with ended := true } got :=
  ⟨hd.finished, fun _ => rfl, hd.last⟩

theorem Handler.Done.disconnect (hd : h.Done got) (n : Nat) : Handler.Done { h with disconnected := some n } got :=
  ⟨hd.finished, hd.ended, hd.last⟩

theorem Handler.sent_reply (h : Handler) : h.sent.reply = h.reply := by
  unfold Handler.sent Handler.reply
  cases hu : h.unsent with
  | nil => simp only [hu]
  | cons e rest => simp only [List.append_assoc, List.singleton_append]

structure Handler.Kept (h h' : Handler) : Prop where
  fmt : h'.fmt = h.fmt
  stream : h'.stream = h.stream
  includeUsage : h'.includeUsage = h.includeUsage
  numGot : h'.numGot = h.numGot
  finished : h'.finished = h.finished
  disconnected : h'.disconnected = h.disconnected
  first : h'.first = h.first
  parts : h'.parts = h.parts
  response : h'.response = h.response
  ended : h'.ended = h.ended

theorem Handler.sent_kept (h : Handler) : h.Kept h.sent := by
  unfold Handler.sent
  split <;> exact ⟨rfl, rfl, rfl, rfl, rfl, rfl, rfl, rfl, rfl, rfl⟩

theorem Handler.Reads.sent (hr : h.Reads got) : h.sent.Reads got := by
  have hk := h.sent_kept
  refine hr.imp (fun hr => ?_) fun hd => ?_
  · refine ⟨hk.finished ▸ hr.unfinished, hr.goes_on, fun hs => ?_, fun hs => ?_⟩
    · rw [h.sent_reply, hk.fmt, hk.first]
      exact hr.streamed (hk.stream ▸ hs)
    · rw [hk.parts, hk.response]
      exact hr.collected (hk.stream ▸ hs)
  · obtain ⟨pre, o, reason, h1, h2, h3, h4⟩ := hd.last
    refine ⟨hk.finished ▸ hd.finished, fun hs => ?_, pre, o, reason, h1, h2, h3, ?_⟩
    · rw [hk.ended]
      exact hd.ended (hk.stream ▸ hs)
    · simp only [Handler.Answers, Handler.Refuses, h.sent_reply, hk.fmt, hk.stream, hk.includeUsage, hk.response] at h4 ⊢
      exact h4

section Sse

variable (he : h.reply = objs.map .data) (ht : Tells h.fmt objs (textOf got) [] []) (hf : h.first = true ↔ objs = [])

include he ht

theorem sse_refuses {reason : FinishReason} (hs : h.stream = true) (hr : out.finishReason = some reason)
    (hre : reason = .abort ∨ reason = .error) (status : Nat) : (h.sse out).Refuses status out.message := by
  have hcond : out.finishReason = some .abort ∨ out.finishReason = some .error := by
    rcases hre with rfl | rfl
    · exact .inl hr
    · exact .inr hr
  unfold Handler.sse Handler.Refuses
  simp only [hcond, if_true, hs]
  exact ⟨objs, _, by simp only [Handler.reply, ← List.append_assoc] at he ⊢; rw [he], ht⟩

include hf

theorem sse_next (hn : out.finishReason = none) : ∃ objs, (h.sse out).reply = objs.map .data ∧
    Tells h.fmt objs (textOf (got ++ [out])) [] [] ∧ ((h.sse out).first = true ↔ objs = []) := by
  rw [textOf_concat]
  unfold Handler.sse
  simp only [hn, reduceCtorEq, or_self, if_false, and_true, if_true]
  by_cases hc : out.text ≠ "" ∨ h.first = true
  · simp only [hc, if_true]
    exact ⟨objs ++ [h.fmt.chunk out.text none h.first],
      by simp [Handler.reply, ← he], ht.chunk hf out.text none, by simp⟩
  · simp only [hc, if_false]
    have hempty : out.text = "" := by
      by_contra hne
      exact hc (.inl hne)
    refine ⟨objs, he, ?_, hf⟩
    rw [hempty]
    simpa using ht

theorem sse_answers {reason : FinishReason} (hs : h.stream = true) (hr : out.finishReason = some reason)
    (hre : AsyncEngine.Ends (some reason)) : (h.sse out).Answers (textOf (got ++ [out])) reason (usage out) := by
  have hcond : ¬ (out.finishReason = some .abort ∨ out.finishReason = some .error) := by
    rw [hr]
    rcases hre with hre | hre <;> rw [hre] <;> simp
  -- The text first, when there is any.
  obtain ⟨objs1, unsent1, first1, he1, hu1, ht1, hf1⟩ : ∃ objs1 unsent1 first1,
      (if out.text ≠ "" ∨ (h.first ∧ out.finishReason = none) then
        { h with unsent := h.unsent ++ [.data (h.fmt.chunk out.text none h.first)], first := false } else h) =
      { h with unsent := unsent1, first := first1 } ∧ h.events ++ unsent1 = objs1.map .data ∧
      Tells h.fmt objs1 (textOf (got ++ [out])) [] [] ∧ (first1 = true ↔ objs1 = []) := by
    rw [textOf_concat]
    by_cases hc : out.text = ""
    · refine ⟨objs, h.unsent, h.first, by simp [hc, hr], he, ?_, hf⟩
      rw [hc]
      simpa using ht
    · refine ⟨objs ++ [h.fmt.chunk out.text none h.first], h.unsent ++
        [.data (h.fmt.chunk out.text none h.first)], false,
        ?_, ?_, ht.chunk hf out.text none, by simp⟩
      · simp only [hc, ne_eq, not_false_eq_true, true_or, if_true]
      · rw [← List.append_assoc, show h.events ++ h.unsent = objs.map .data from he, List.map_append, List.map_singleton]
  have hsse : h.sse out = { h with
      unsent := unsent1 ++ [.data (h.fmt.chunk "" out.finishReason first1)] ++
        (if h.includeUsage then [.data (h.fmt.usageChunk out)] else []) ++ [.done]
      first := first1 } := by
    have hnone : ¬ out.finishReason = none := by simp [hr]
    unfold Handler.sse
    rw [if_neg hcond]
    simp only [hnone, if_false] at he1 ⊢
    simp only [he1]
  have ht2 := ht1.chunk hf1 "" out.finishReason
  rw [String.toList_empty, List.append_nil, hr] at ht2
  rw [hsse, Handler.Answers, if_pos hs, hr]
  simp only [Handler.reply, ← List.append_assoc, hu1]
  cases hu : h.includeUsage with
  | false => exact ⟨_, by simp, ht2⟩
  | true => exact ⟨_, by simp, ht2.usageChunk (by simp) out⟩

end Sse

theorem collect_done {reason : FinishReason} (hs : h.stream = false) (hparts : h.parts = got.map StreamOutput.text)
    (hr : out.finishReason = some reason) :
    (AsyncEngine.Ends (some reason) → (h.collect out).Answers (textOf (got ++ [out])) reason (usage out)) ∧
      (reason = .abort → (h.collect out).Refuses 503 out.message) ∧
      (reason = .error → (h.collect out).Refuses 500 out.message) := by
  have hjoin : (String.join (h.parts ++ [out.text])).toList = textOf (got ++ [out]) := by
    rw [hparts, ← textOf_join, List.map_append, List.map_singleton]
  unfold Handler.collect Handler.Answers Handler.Refuses
  simp only [hr, reduceCtorEq, if_false, hs, Bool.false_eq_true]
  refine ⟨fun hre => ?_, ?_, ?_⟩
  · have htell := tells_complete h.fmt (String.join (h.parts ++ [out.text])) hr
    rw [hjoin] at htell
    refine ⟨_, ?_, htell⟩
    rcases hre with hre | hre <;> rw [Option.some.inj hre] <;> simp
  · rintro rfl
    simp
  · rintro rfl
    simp

structure Handler.Same (h h' : Handler) : Prop where
  fmt : h'.fmt = h.fmt
  stream : h'.stream = h.stream
  numGot : h'.numGot = h.numGot
  finished : h'.finished = h.finished
  disconnected : h'.disconnected = h.disconnected

theorem sse_same (h : Handler) (out : StreamOutput) : h.Same (h.sse out) := by
  unfold Handler.sse
  by_cases hc : out.finishReason = some .abort ∨ out.finishReason = some .error
  · rw [if_pos hc]
    exact ⟨rfl, rfl, rfl, rfl, rfl⟩
  · rw [if_neg hc]
    cases hr : out.finishReason with
    | none => by_cases ht : out.text ≠ "" ∨ h.first = true <;> simp [ht] <;> exact ⟨rfl, rfl, rfl, rfl, rfl⟩
    | some reason => by_cases ht : out.text = "" <;> simp [ht] <;> exact ⟨rfl, rfl, rfl, rfl, rfl⟩

theorem collect_same (h : Handler) (out : StreamOutput) : h.Same (h.collect out) := by
  unfold Handler.collect
  cases hr : out.finishReason <;> exact ⟨rfl, rfl, rfl, rfl, rfl⟩

def Handler.counted (h : Handler) (out : StreamOutput) : Handler :=
  { h with numGot := h.numGot + 1, finished := h.finished || out.finishReason.isSome }

theorem got_same (h : Handler) (out : StreamOutput) : (h.counted out).Same (h.got out) := by
  have hgot : h.got out = if h.stream then (h.counted out).sse out else (h.counted out).collect out := rfl
  rw [hgot]
  split
  · exact sse_same (h.counted out) out
  · exact collect_same (h.counted out) out

theorem Handler.Reading.next (hr : h.Reading got) (hn : out.finishReason = none) :
    (h.got out).Reading (got ++ [out]) := by
  have hsame := got_same h out
  have hopen : ∀ o ∈ got ++ [out], o.finishReason = none := by
    intro o ho
    rcases List.mem_append.mp ho with ho | ho
    · exact hr.goes_on o ho
    · rw [List.mem_singleton.mp ho]
      exact hn
  refine ⟨?_, hopen, fun hs => ?_, fun hs => ?_⟩
  · rw [hsame.finished]
    simp [Handler.counted, hr.unfinished, hn]
  · have hs' : h.stream = true := hsame.stream.symm.trans hs
    have hgot : h.got out = (h.counted out).sse out := if_pos hs'
    obtain ⟨objs, he, ht, hf⟩ := hr.streamed hs'
    rw [hsame.fmt, hgot]
    exact sse_next (h := h.counted out) he ht hf hn
  · have hs' : h.stream = false := hsame.stream.symm.trans hs
    have hgot : h.got out = (h.counted out).collect out := if_neg (by simp [hs'])
    obtain ⟨hparts, hresp⟩ := hr.collected hs'
    rw [hgot, Handler.collect]
    simp only [hn, if_true]
    exact ⟨by simp [Handler.counted, hparts], hresp⟩

theorem Handler.Reading.finish {reason : FinishReason} (hr : h.Reading got) (hend : out.finishReason = some reason) :
    (h.got out).Done (got ++ [out]) := by
  have hsame := got_same h out
  refine ⟨?_, fun hs => ?_, got, out, reason, rfl, hr.goes_on, hend, ?_⟩
  · rw [hsame.finished]
    simp [Handler.counted, hend]
  · have hs' : h.stream = false := hsame.stream.symm.trans hs
    have hgot : h.got out = (h.counted out).collect out := if_neg (by simp [hs'])
    rw [hgot, Handler.collect]
    simp only [hend, reduceCtorEq, if_false]
  · by_cases hs : h.stream = true
    · have hgot : h.got out = (h.counted out).sse out := if_pos hs
      obtain ⟨objs, he, ht, hf⟩ := hr.streamed hs
      rw [hgot]
      exact ⟨sse_answers (h := h.counted out) he ht hf hs hend,
        fun hre => sse_refuses (h := h.counted out) he ht hs hend (.inl hre) 503,
        fun hre => sse_refuses (h := h.counted out) he ht hs hend (.inr hre) 500⟩
    · have hgot : h.got out = (h.counted out).collect out := if_neg hs
      have hs : h.stream = false := by simpa using hs
      rw [hgot]
      exact collect_done (h := h.counted out) hs (hr.collected hs).1 hend

theorem Handler.Reads.reading (hr : h.Reads got) (hidle : h.Idle) : h.Reading got :=
  hr.resolve_right fun hd => Bool.false_ne_true (hidle.2.1.symm.trans hd.finished)

end Reply

namespace Http

open Serving AsyncEngine

variable {tok : Tokenizer} {model : Model} {c : EngineConfig} {app : App} {x x' : Http} {act : Act} {s : Sid}
  {hd : Handler}

def Speaks (tok : Tokenizer) : Act → Prop
  | .serve (.pump _ decode) => Honest tok decode
  | _ => True

-- Every handler has told its client what it got from its stream, the first so many of its outputs.
structure Sound (model : Model) (c : EngineConfig) (x : Http) : Prop where
  steady : Steady model x.sv
  shadowed : Shadowed model c x.sv
  known : ∀ s, x.handlers s ≠ none ↔ s < x.sv.srv.numStreams
  behind : ∀ s h, x.handlers s = some h → h.numGot ≤ (x.sv.srv.outputs s).length
  reads : ∀ s h, x.handlers s = some h → h.Reads ((x.sv.srv.outputs s).take h.numGot)

theorem Sound.start (c : EngineConfig) : Sound model c (Http.start c) where
  steady := Steady.start c
  shadowed := Shadowed.start c
  known := fun s => by simp
  behind := fun s h hs => by simp at hs
  reads := fun s h hs => by simp at hs

theorem outputs_prefix {mv : Move} {sv sv' : Serving} (hsteady : Steady model sv) (hcall : Calling model sv mv)
    (h : Serves model mv sv sv') (s : Sid) : sv.srv.outputs s <+: sv'.srv.outputs s := by
  cases h with
  | thread hn =>
    obtain ⟨us, hserved⟩ := hsteady.served hcall hn
    simp only [hserved.outputs]
    exact List.prefix_rfl
  | pump n decode =>
    unfold Serving.pump
    split
    · rw [AsyncEngine.pump, (push_outputs _ _).1]
      exact List.prefix_append _ _
    · rw [AsyncEngine.pumpFailed, (push_outputs _ _).1]
      exact List.prefix_append _ _

theorem Sound.serves {mv : Move} {sv : Serving} (h : Sound model c x) (hmv : NoCalls mv)
    (hs : Serves model mv x.sv sv) (hnum : sv.srv.numStreams = x.sv.srv.numStreams) : Sound model c { x with sv } := by
  have hpre := outputs_prefix h.steady hmv.calling hs
  refine ⟨h.steady.serves hmv.calling hs, h.shadowed.serves h.steady hmv hs, fun s => ?_,
    fun s hd hh => ?_, fun s hd hh => ?_⟩
  · rw [hnum]
    exact h.known s
  · exact (h.behind s hd hh).trans (hpre s).length_le
  · obtain ⟨rest, hrest⟩ := hpre s
    rw [← hrest, List.take_append_of_le_length (h.behind s hd hh)]
    exact h.reads s hd hh

theorem Sound.abortUnless (h : Sound model c x) {old : Handler} (hs : x.handlers s = some old) (finished : Bool) :
    Sound model c (x.abortUnless s finished) := by
  unfold Http.abortUnless
  split
  · exact h
  · have hlt := (h.known s).mp (by simp [hs])
    have hcalls : NoCalls (.thread (.abort s)) := by simp [NoCalls]
    exact h.serves hcalls (.thread (.abort hlt)) rfl

theorem update_cases {handlers : Sid → Option Handler} {t : Sid} {new : Handler}
    (h : Function.update handlers s (some new) t = some hd) : (t = s ∧ new = hd) ∨ (t ≠ s ∧ handlers t = some hd) := by
  by_cases ht : t = s
  · subst ht
    exact .inl ⟨rfl, by simpa using h⟩
  · rw [Function.update_of_ne ht] at h
    exact .inr ⟨ht, h⟩

theorem Sound.put (h : Sound model c x) {old new : Handler} (hs : x.handlers s = some old)
    (hle : new.numGot ≤ (x.sv.srv.outputs s).length) (hr : new.Reads ((x.sv.srv.outputs s).take new.numGot)) :
    Sound model c (x.put s new) := by
  refine ⟨h.steady, h.shadowed, fun t => ?_, fun t hd hh => ?_, fun t hd hh => ?_⟩
  · by_cases ht : t = s
    · subst ht
      have hlt := (h.known t).mp (by simp [hs])
      simp [Http.put, hlt]
    · simp only [Http.put, Function.update_of_ne ht]
      exact h.known t
  · rcases update_cases hh with ⟨rfl, rfl⟩ | ⟨-, hh⟩
    · exact hle
    · exact h.behind t hd hh
  · rcases update_cases hh with ⟨rfl, rfl⟩ | ⟨-, hh⟩
    · exact hr
    · exact h.reads t hd hh

theorem abortUnless_outputs (x : Http) (s : Sid) (finished : Bool) :
    (x.abortUnless s finished).sv.srv.outputs = x.sv.srv.outputs ∧ (x.abortUnless s finished).handlers = x.handlers := by
  unfold Http.abortUnless
  split <;> exact ⟨rfl, rfl⟩

theorem Sound.stop (h : Sound model c x) {old new : Handler} (hs : x.handlers s = some old) (finished : Bool)
    (hnum : new.numGot ≤ (x.sv.srv.outputs s).length) (hr : new.Reads ((x.sv.srv.outputs s).take new.numGot)) :
    Sound model c ((x.abortUnless s finished).put s new) := by
  obtain ⟨ho, hh⟩ := abortUnless_outputs x s finished
  refine (h.abortUnless hs finished).put (by rw [hh]; exact hs) ?_ ?_
  · rw [ho]
    exact hnum
  · rw [ho]
    exact hr

theorem Sound.resume (h : Sound model c x) {old new : Handler} (hs : x.handlers s = some old)
    (hnum : new.numGot ≤ (x.sv.srv.outputs s).length) (hr : new.Reads ((x.sv.srv.outputs s).take new.numGot)) :
    Sound model c (x.resume s new) := by
  unfold Http.resume
  split
  · exact h.stop hs new.finished hnum (hr.imp Handler.Reading.close Handler.Done.close)
  · exact h.put hs hnum hr

theorem Sound.generate {post : Post} {promptIds : List Token} {hex : String} {created : Nat} (h : Sound model c x)
    (hg : x.generate app post promptIds hex created = .ok x') : Sound model c x' := by
  unfold Http.generate at hg
  split at hg
  · simp at hg
  · next params _ =>
    split at hg
    · simp at hg
    · next srv hsub =>
      obtain rfl := Except.ok.inj hg
      have hnext : Serves model (.thread (.submit promptIds params)) x.sv ⟨srv, x.sv.states⟩ := .thread (.submit hsub)
      have hcalls : NoCalls (.thread (.submit promptIds params)) := by simp [NoCalls]
      have hsteady := h.steady.serves hcalls.calling hnext
      have hshadowed := h.shadowed.serves h.steady hcalls hnext
      have hpre := outputs_prefix h.steady hcalls.calling hnext
      have hnum : srv.numStreams = x.sv.srv.numStreams + 1 := by
        unfold AsyncEngine.submit at hsub
        split at hsub
        · simp at hsub
        · rw [← Option.some.inj hsub]
      refine ⟨hsteady, hshadowed, fun s => ?_, fun s hd hh => ?_, fun s hd hh => ?_⟩
      · show Function.update x.handlers x.sv.srv.numStreams _ s ≠ none ↔ s < srv.numStreams
        rw [hnum]
        by_cases hs : s = x.sv.srv.numStreams
        · simp [hs]
        · rw [Function.update_of_ne hs, h.known s]
          exact ⟨Nat.lt_succ_of_lt, fun hlt => lt_of_le_of_ne (Nat.lt_succ_iff.mp hlt) hs⟩
      · rcases update_cases hh with ⟨rfl, rfl⟩ | ⟨-, hh⟩
        · exact Nat.zero_le _
        · exact (h.behind s hd hh).trans (hpre s).length_le
      · rcases update_cases hh with ⟨rfl, rfl⟩ | ⟨-, hh⟩
        · exact .inl (Handler.Reading.start _ _ _)
        · obtain ⟨rest, hrest⟩ := hpre s
          rw [← hrest, List.take_append_of_le_length (h.behind s hd hh)]
          exact h.reads s hd hh

theorem own_numStreams {mv : Move} {sv sv' : Serving} (hown : Own mv) (h : Serves model mv sv sv') :
    sv'.srv.numStreams = sv.srv.numStreams := by
  cases h with
  | @thread _ ev a hn =>
    cases hn with
    | submit hs => exact absurd hown id
    | abort hlt => exact absurd hown id
    | call hc => exact absurd hown id
    | stop => rfl
    | pump hp => exact absurd hp id
    | @take _ cmd rest ht hc => exact (handle_keeps cmd { sv.srv with commands := rest }).numStreams
    | step ht hu => exact (engineStep_keeps model sv.srv).numStreams
    | fault ht hf => rfl
    | @die _ e ht => exact (die_keeps e sv.srv).numStreams
  | pump n decode =>
    unfold Serving.pump
    split
    · exact (pump_keeps n _ sv.srv).numStreams
    · exact (pumpFailed_keeps n sv.srv).numStreams

theorem own_noCalls {mv : Move} (hown : Own mv) : NoCalls mv := by
  cases mv with
  | pump n decode => trivial
  | thread ev =>
    rintro fn rfl
    exact hown

theorem Sound.acts (h : Sound model c x) (ha : Acts app model act x x') : Sound model c x' := by
  cases ha with
  | serve hown hs => exact h.serves (own_noCalls hown) hs (own_numStreams hown hs)
  | generate hg => exact h.generate hg
  | @sent _ s hd hh hrun hu =>
    refine h.put hh ?_ ?_
    · rw [hd.sent_kept.numGot]
      exact h.behind s hd hh
    · rw [hd.sent_kept.numGot]
      exact (h.reads s hd hh).sent
  | @got _ s hd out hh hidle hdis hout =>
    have hr := (h.reads s hd hh).reading hidle
    have hlt : hd.numGot < (x.sv.srv.outputs s).length := (List.getElem?_eq_some_iff.mp hout).1
    have htake : (x.sv.srv.outputs s).take (hd.got out).numGot = (x.sv.srv.outputs s).take hd.numGot ++ [out] := by
      rw [(got_same hd out).numGot]
      show (x.sv.srv.outputs s).take (hd.numGot + 1) = _
      rw [List.take_add_one, hout]
      rfl
    refine h.resume hh ?_ ?_
    · rw [(got_same hd out).numGot]
      exact hlt
    · rw [htake]
      cases hfin : out.finishReason with
      | none => exact .inl (hr.next hfin)
      | some reason => exact .inr (hr.finish hfin)
  | @dropped _ s hd hh hidle hdis =>
    have hnum : hd.dropped.numGot = hd.numGot := by
      unfold Handler.dropped
      split <;> rfl
    refine h.resume hh ?_ ?_
    · rw [hnum]
      exact h.behind s hd hh
    · rw [hnum]
      exact .inl ((h.reads s hd hh).reading hidle).dropped
  | @disconnect _ s hd hh hrun hdis =>
    exact h.stop hh hd.finished (h.behind s hd hh)
      ((h.reads s hd hh).imp (fun hr => hr.disconnect _) fun hr => hr.disconnect _)
  | @close _ s hd hh hrun =>
    exact h.stop hh hd.finished (h.behind s hd hh) ((h.reads s hd hh).imp Handler.Reading.close Handler.Done.close)

theorem Run.sound {ok : Act → Prop} (h : Http.Run app model ok (Http.start c) x) : Sound model c x := by
  induction h with
  | refl => exact Sound.start c
  | tail _ hn ih =>
    obtain ⟨act, -, ha⟩ := hn
    exact ih.acts ha

inductive Moved (model : Model) (ok : Move → Prop) (sv sv' : Serving) : Prop
  | same (h : sv' = sv)
  | serves {mv : Move} (hmv : ok mv) (h : Serves model mv sv sv')

theorem Moved.abortUnless {ok : Move → Prop} (h : Sound model c x) (hs : x.handlers s = some hd) (finished : Bool)
    (hok : ok (.thread (.abort s))) : Moved model ok x.sv (x.abortUnless s finished).sv := by
  unfold Http.abortUnless
  split
  · exact .same rfl
  · exact .serves hok (.thread (.abort ((h.known s).mp (by simp [hs]))))

theorem Moved.resume {ok : Move → Prop} (h : Sound model c x) (hs : x.handlers s = some hd) (new : Handler)
    (hok : ok (.thread (.abort s))) : Moved model ok x.sv (x.resume s new).sv := by
  unfold Http.resume
  split
  · exact Moved.abortUnless h hs new.finished hok
  · exact .same rfl

theorem Sound.moved {ok : Move → Prop} (h : Sound model c x) (ha : Acts app model act x x')
    (hserve : ∀ mv, act = .serve mv → Own mv → ok mv)
    (hsubmit : ∀ promptIds params, ok (.thread (.submit promptIds params)))
    (habort : ∀ s, ok (.thread (.abort s))) : Moved model ok x.sv x'.sv := by
  cases ha with
  | serve hown hs => exact .serves (hserve _ rfl hown) hs
  | @generate _ _ post promptIds hex created hg =>
    unfold Http.generate at hg
    split at hg
    · simp at hg
    · next params _ =>
      split at hg
      · simp at hg
      · next srv hsub =>
        obtain rfl := Except.ok.inj hg
        exact .serves (hsubmit promptIds params) (.thread (.submit hsub))
  | got hs hidle hd hout => exact Moved.resume h hs _ (habort _)
  | sent hs hrun hu => exact .same rfl
  | dropped hs hidle hd => exact Moved.resume h hs _ (habort _)
  | disconnect hs hrun hd => exact Moved.abortUnless h hs _ (habort _)
  | close hs hrun => exact Moved.abortUnless h hs _ (habort _)

theorem Run.sounds (h : Http.Run app model (Speaks tok) (Http.start c) x) : Sounds tok model c x.sv := by
  induction h with
  | refl => exact ⟨Texts.start c, fun k o ho => by simp at ho, Shadowed.start c⟩
  | @tail x x' h1 hn ih =>
    obtain ⟨act, hact, ha⟩ := hn
    have hsound : Sound model c x := Run.sound h1
    have hmoved : Moved model (Serving.Speaks tok) x.sv x'.sv := by
      refine hsound.moved ha (fun mv he hown => ?_) (fun p q => by simp [Serving.Speaks]) fun s => by
        simp [Serving.Speaks]
      subst he
      cases mv with
      | pump n decode => exact hact
      | thread ev => exact own_noCalls hown
    have hnext := (hsound.acts ha).shadowed
    cases hmoved with
    | same he =>
      rw [he] at hnext ⊢
      exact ⟨ih.texts, ih.measured, hnext⟩
    | serves hmv hs =>
      exact ⟨ih.texts.serves hsound.steady hmv hs, ih.measured.serves hsound.steady hmv.calling hs, hnext⟩

end Http

end Server

end MiniServe
