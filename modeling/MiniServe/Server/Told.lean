import MiniServe.Server.Replies

namespace MiniServe

open Transcript

-- The tokens of a finished request that become text: a final stop token does not.
def Request.textIds (q : Request) : List Token :=
  match q.outputIds.getLast? with
  | none => q.outputIds
  | some tok => if tok ∈ q.params.stopTokenIds then q.outputIds.dropLast else q.outputIds

namespace Server

open AsyncEngine Serving

variable {tok : Tokenizer} {model : Model} {c : EngineConfig} {app : App} {x : Http} {s : Sid} {h : Handler}
  {a b : AsyncEngine} {got pre : List StreamOutput} {o : StreamOutput} {r : Rid} {reason : FinishReason}

theorem masks_eq {l l' : List StreamOutput} (h : List.Forall₂ Masks l l') (hne : ∀ o ∈ l, o.finishReason ≠ some .error) :
    l = l' := by
  induction h with
  | nil => rfl
  | cons hm _ ih =>
    have hrest := ih fun o ho => hne o (List.mem_cons_of_mem _ ho)
    rcases hm with rfl | hm
    · rw [hrest]
    · exact absurd (by rw [hm]) (hne _ List.mem_cons_self)

-- Outputs without an error are those of the run in which no batch raised.
theorem AsyncEngine.Shown.unmasked (h : Shown a b) (hgot : got <+: a.outputs s)
    (hne : ∀ o ∈ got, o.finishReason ≠ some .error) :
    got <+: b.outputs s := by
  have hm := List.forall₂_take got.length (h.masks s)
  rw [← List.prefix_iff_eq_take.mp hgot] at hm
  rw [masks_eq hm hne]
  exact List.take_prefix _ _

theorem AsyncEngine.Shown.engine (h : Shown a b) : b.engine = a.engine := by
  rw [h.same]
  rfl

theorem AsyncEngine.Shown.requestOf (h : Shown a b) : b.requestOf = a.requestOf := by
  rw [h.same]
  rfl

theorem tokens_got_begins (hgot : got <+: b.outputs s) :
    got.flatMap StreamOutput.tokenIds <+: tokens (b.history s) := by
  obtain ⟨rest, hrest⟩ := hgot
  rw [← tokens_sent, history, ← hrest, List.map_append, List.append_assoc, tokens_append]
  exact List.prefix_append _ _

theorem textIds_open_eq {stop : List Token} (hopen : ∀ o ∈ got, o.finishReason = none) :
    got.flatMap (StreamOutput.textIds stop) = got.flatMap StreamOutput.tokenIds :=
  List.flatMap_congr fun o ho => StreamOutput.textIds_open (hopen o ho)

theorem decode_prefix {said ids : List Token} (hsaid : said <+: ids) (hc : Utf8.Complete (said.flatMap tok.bytes)) :
    tok.decode said <+: tok.decode ids := by
  obtain ⟨rest, rfl⟩ := hsaid
  rw [Tokenizer.decode, Tokenizer.decode, List.flatMap_append, hc.decodeLossy_append]
  exact List.prefix_append _ _

theorem Serving.Sounds.tells_begun {sv : Serving} (h : Sounds tok model c sv) (hgot : got <+: sv.srv.outputs s)
    (hopen : ∀ o ∈ got, o.finishReason = none) :
    textOf got = [] ∨ ∃ r, sv.srv.requestOf s = some r ∧
    textOf got <+: tok.decode (sv.srv.engine.request r).readyIds := by
  obtain ⟨b, hrun, hb⟩ := h.shadowed
  have hstreams := run_streams hrun
  have hreq := hb.requestOf
  obtain ⟨said, hsaid, hcomplete, htext⟩ := (h.texts s).begins got hgot hopen
  rw [textIds_open_eq hopen] at hsaid
  have htok := tokens_got_begins (hb.unmasked hgot fun o ho => by simp [hopen o ho])
  cases hr : sv.srv.requestOf s with
  | none =>
    have hnone := (hstreams.unasked s (hreq ▸ hr)).1
    rw [hnone] at htok
    rw [List.prefix_nil.mp htok] at hsaid
    rw [htext, List.prefix_nil.mp hsaid]
    exact .inl rfl
  | some r =>
    have htold := hstreams.told s r (hreq ▸ hr)
    rw [hb.engine] at htold
    rw [htext]
    exact .inr ⟨r, rfl, decode_prefix (hsaid.trans (htok.trans htold)) hcomplete⟩

theorem textIds_whole {q : Request} {stop : List Token} (hids : (pre ++ [o]).flatMap StreamOutput.tokenIds = q.outputIds)
    (hopen : ∀ x ∈ pre, x.finishReason = none) (hstop : q.params.stopTokenIds = stop)
    (hclean : ∀ x ∈ pre ++ [o], x.finishReason ≠ some .stop → ∀ t ∈ x.tokenIds, t ∉ stop)
    (hlast : o.finishReason = some .stop → ∃ t, q.outputIds.getLast? = some t ∧ t ∈ stop) :
    (pre ++ [o]).flatMap (StreamOutput.textIds stop) = q.textIds := by
  have hpre : ∀ t ∈ pre.flatMap StreamOutput.tokenIds, t ∉ stop := by
    intro t ht
    obtain ⟨x, hx, htx⟩ := List.mem_flatMap.mp ht
    exact hclean x (List.mem_append_left _ hx) (by simp [hopen x hx]) t htx
  rw [List.flatMap_append, List.flatMap_singleton] at hids
  rw [List.flatMap_append, List.flatMap_singleton, textIds_open_eq hopen, Request.textIds, hstop]
  by_cases hr : o.finishReason = some .stop
  · obtain ⟨t, ht, hts⟩ := hlast hr
    have hne : o.tokenIds ≠ [] := by
      intro hnil
      rw [hnil, List.append_nil] at hids
      rw [← hids] at ht
      exact hpre t (List.mem_of_getLast? ht) hts
    have hto : o.tokenIds.getLast? = some t := by
      rw [← ht, ← hids, List.getLast?_append_of_ne_nil _ hne]
    rw [ht]
    simp only [StreamOutput.textIds, hto, hr, hts, and_self, if_true]
    rw [← hids, List.dropLast_append_of_ne_nil hne]
  · have hto : o.textIds stop = o.tokenIds := by
      unfold StreamOutput.textIds
      split
      · rfl
      · rw [if_neg fun hc => hr hc.1]
    rw [hto, hids]
    cases ht : q.outputIds.getLast? with
    | none => rfl
    | some t =>
      have hmem := List.mem_of_getLast? ht
      rw [← hids] at hmem
      have hnot : t ∉ stop := by
        rcases List.mem_append.mp hmem with hmem | hmem
        · exact hpre t hmem
        · exact hclean o (by simp) hr t hmem
      simp [hnot]

theorem Serving.Sounds.tells_whole {sv : Serving} (h : Sounds tok model c sv) (hgot : pre ++ [o] <+: sv.srv.outputs s)
    (hopen : ∀ x ∈ pre, x.finishReason = none) (hr : o.finishReason = some reason) (hend : Ends (some reason)) :
    ∃ r, sv.srv.requestOf s = some r ∧ (sv.srv.engine.request r).state = .finished ∧
      textOf (pre ++ [o]) = tok.decode (sv.srv.engine.request r).textIds ∧
      (reason = .stop ↔ ∃ t, (sv.srv.engine.request r).outputIds.getLast? = some t ∧
        t ∈ (sv.srv.streams s).params.stopTokenIds) ∧
      usage o = ⟨(sv.srv.streams s).promptIds.length, (sv.srv.engine.request r).outputIds.length,
        (sv.srv.streams s).promptIds.length + (sv.srv.engine.request r).outputIds.length⟩ := by
  obtain ⟨b, hrun, hb⟩ := h.shadowed
  have hstreams := run_streams hrun
  have hreq := hb.requestOf
  have hne : ∀ x ∈ pre ++ [o], x.finishReason ≠ some .error := by
    intro x hx
    rcases List.mem_append.mp hx with hx | hx
    · simp [hopen x hx]
    · rw [List.mem_singleton.mp hx, hr]
      rcases hend with hend | hend <;> rw [hend] <;> simp
  have hb' := hb.unmasked hgot hne
  have honce := hstreams.exactlyOnce s
  have hat : (pre ++ [o])[pre.length]? = some o := List.getElem?_concat_length
  have hat' : (b.outputs s)[pre.length]? = some o := by
    obtain ⟨rest, hrest⟩ := hb'
    rw [← hrest, List.getElem?_append_left (by simp), hat]
  have hlen : (pre ++ [o]).length = (b.outputs s).length := by
    rw [List.length_append, List.length_singleton]
    exact honce.once pre.length o hat' (by simp [hr])
  have hall : pre ++ [o] = b.outputs s := hb'.eq_of_length hlen
  have hall' : pre ++ [o] = sv.srv.outputs s := hgot.eq_of_length (hlen.trans (hb.masks s).length_eq.symm)
  have ho : o ∈ b.outputs s := List.mem_of_getElem? hat'
  have hsent : ∀ x ∈ pre ++ [o], x.sent ∈ b.history s := fun x hx =>
    (b.pushed_begins s).subset (List.mem_map_of_mem (hall ▸ hx))
  obtain ⟨r, hreqr⟩ : ∃ r, b.requestOf s = some r := by
    cases hn : b.requestOf s with
    | some r => exact ⟨r, rfl⟩
    | none =>
      have := (hstreams.unasked s hn).2 _ (hsent o (by simp))
      rw [show o.sent.reason = some reason from hr] at this
      rcases hend with hend | hend <;> simp [hend] at this
  obtain ⟨hst, hids, hstop⟩ :=
    hstreams.full s r hreqr o.sent (hsent o (by simp)) (show Ends o.finishReason from hr ▸ hend)
  rw [← (hstreams.script s).ended_eq (b.pushed_begins s) (List.mem_map_of_mem ho)
    (show o.finishReason ≠ none by simp [hr]),
    tokens_sent, ← hall] at hids
  rw [hb.engine] at hst hids hstop
  obtain ⟨hpar, -⟩ := hstreams.params s r hreqr
  rw [hb.engine, hb.streams] at hpar
  rw [hb.streams] at hstop
  have hclean := fun x hx => hstreams.clean s x.sent (hsent x hx)
  rw [hb.streams] at hclean
  have hr' : o.finishReason = some .stop ↔ reason = .stop := by simp [hr]
  refine ⟨r, hreq ▸ hreqr, hst, ?_, ?_, ?_⟩
  · rw [hall', (h.texts s).ends pre o hall'.symm hopen (hr ▸ hend), ← hall']
    rw [textIds_whole hids hopen (congrArg SamplingParams.stopTokenIds hpar) hclean hstop]
  · refine ⟨fun hs => hstop (hr'.mpr hs), fun hlast => ?_⟩
    obtain ⟨o', ho', hs'⟩ := honce.stop_iff.mpr (by rw [← hall, hids, hb.streams]; exact hlast)
    rw [← hall] at ho'
    rcases List.mem_append.mp ho' with ho' | ho'
    · simp [hopen o' ho'] at hs'
    · rw [List.mem_singleton.mp ho'] at hs'
      exact hr'.mp hs'
  · have hcount := honce.counts pre.length o hat'
    rw [← hall, List.take_of_length_le (by simp), hids] at hcount
    rw [usage, hcount, h.measured s o (hall' ▸ by simp)]

-- What the client of a handler is told: of a request that goes on the beginning of its text, of one that has finished
-- the whole of it with the reason and the usage, and of any other one that it failed. Of these two replies a client that
-- leaves before all is sent has been sent a beginning.
structure Told (tok : Tokenizer) (x : Http) (s : Sid) (h : Handler) : Prop where
  streamed : h.finished = false → h.stream = true → ∃ objs text, h.events = objs.map .data ∧
    Tells h.fmt objs text [] [] ∧
    (text = [] ∨ ∃ r, x.sv.srv.requestOf s = some r ∧ text <+: tok.decode (x.sv.srv.engine.request r).readyIds)
  collected : h.finished = false → h.stream = false → h.response = none ∨ h.response = some (.empty clientClosed)
  ended : h.finished = true → h.stream = false → h.ended = true
  whole : h.finished = true → ∃ o reason, (x.sv.srv.outputs s)[h.numGot - 1]? = some o ∧ o.finishReason = some reason ∧
    (Ends (some reason) → ∃ r, x.sv.srv.requestOf s = some r ∧ (x.sv.srv.engine.request r).state = .finished ∧
      (reason = .stop ↔ ∃ t, (x.sv.srv.engine.request r).outputIds.getLast? = some t ∧
        t ∈ (x.sv.srv.streams s).params.stopTokenIds) ∧
      h.Answers (tok.decode (x.sv.srv.engine.request r).textIds) reason ⟨(x.sv.srv.streams s).promptIds.length,
        (x.sv.srv.engine.request r).outputIds.length,
        (x.sv.srv.streams s).promptIds.length + (x.sv.srv.engine.request r).outputIds.length⟩) ∧
    (reason = .abort → h.Refuses 503 o.message) ∧ (reason = .error → h.Refuses 500 o.message)

namespace Http

theorem Sound.told (h : Sound model c x) (hsounds : Sounds tok model c x.sv) {hd : Handler}
    (hs : x.handlers s = some hd) : Told tok x s hd := by
  have hgot := List.take_prefix hd.numGot (x.sv.srv.outputs s)
  have hbehind := h.behind s hd hs
  cases h.reads s hd hs with
  | inl hr =>
    refine ⟨fun _ hst => ?_, fun _ hst => (hr.collected hst).2, fun hf => ?_, fun hf => ?_⟩
    · obtain ⟨objs, he, ht, -⟩ := hr.streamed hst
      obtain ⟨objs, more, rfl, hevents, -⟩ := List.append_eq_map_iff.mp he
      obtain ⟨said, hsaid, ht⟩ := ht.begins
      refine ⟨objs, said, hevents.symm, ht, ?_⟩
      rcases hsounds.tells_begun hgot hr.goes_on with hnone | ⟨r, hr, htext⟩
      · rw [hnone] at hsaid
        exact .inl (List.prefix_nil.mp hsaid)
      · exact .inr ⟨r, hr, hsaid.trans htext⟩
    · simp [hr.unfinished] at hf
    · simp [hr.unfinished] at hf
  | inr hdone =>
    refine ⟨fun hf => ?_, fun hf => ?_, fun _ hst => hdone.ended hst, fun _ => ?_⟩
    · simp [hdone.finished] at hf
    · simp [hdone.finished] at hf
    · obtain ⟨pre, o, reason, hlast, hopen, hreason, hans, habort, herror⟩ := hdone.last
      have hlen := congrArg List.length hlast
      rw [List.length_take, min_eq_left hbehind, List.length_append, List.length_singleton] at hlen
      rw [hlast] at hgot hans
      have hat : (x.sv.srv.outputs s)[hd.numGot - 1]? = some o := by
        obtain ⟨rest, hrest⟩ := hgot
        rw [hlen, Nat.add_sub_cancel, ← hrest, List.getElem?_append_left (by simp), List.getElem?_concat_length]
      refine ⟨o, reason, hat, hreason, fun hend => ?_, habort, herror⟩
      obtain ⟨r, h1, h2, h3, h4, h5⟩ := hsounds.tells_whole hgot hopen hreason hend
      have hans := hans hend
      rw [h3, h5] at hans
      exact ⟨r, h1, h2, h4, hans⟩

theorem responses_tell_output (h : Http.Run app model (Speaks tok) (Http.start c) x) {hd : Handler}
    (hs : x.handlers s = some hd) : Told tok x s hd :=
  (Run.sound h).told (Run.sounds h) hs

def letter : Tokenizer := ⟨fun _ => [97]⟩

def tinyApp : App := ⟨"tiny", 4, []⟩

def tinyPost : Post where
  body := .completion { maxTokens := some 1, prompt := .ids [1, 2] }
  stream := true
  streamOptions := some { includeUsage := true }

def posted : Http := ((Http.start Engine.tiny).generate tinyApp tinyPost [1, 2] "0" 0).toOption.getD
    (Http.start Engine.tiny)

def admitted : Http := { posted with sv := ⟨AsyncEngine.handle { posted.sv.srv with commands := [] } (.add 0), ∅⟩ }

def stepped : Http := { admitted with sv := ⟨admitted.sv.srv.engineStep (Engine.constant 7), ∅⟩ }

def pumped : Http := { stepped with sv := stepped.sv.pump 1 fun _ ids => some (letter.decode ids) }

def lastOutput : StreamOutput := ⟨"a", [7], some .length, 2, 1, none⟩

def lastReply : Handler := (tinyApp.handler tinyPost "0" 0).got lastOutput

def replied : Http := pumped.resume 0 lastReply

def sending : Http := (replied.put 0 lastReply.sent).put 0 lastReply.sent.sent

def allSent : Http := (sending.put 0 lastReply.sent.sent.sent).put 0 lastReply.sent.sent.sent.sent

theorem replied_run : Http.Run tinyApp (Engine.constant 7) (Speaks letter) (Http.start Engine.tiny) replied := by
  have h1 : Acts tinyApp (Engine.constant 7) (.generate tinyPost [1, 2] "0" 0) (Http.start Engine.tiny) posted :=
    .generate rfl
  have h2 : Acts tinyApp (Engine.constant 7) (.serve (.thread .take)) posted admitted :=
    .serve trivial (.thread (.take rfl rfl))
  have h3 : Acts tinyApp (Engine.constant 7) (.serve (.thread .step)) admitted stepped :=
    .serve trivial (.thread (.step (by decide +kernel) (.inl (.inl (by decide +kernel)))))
  have h4 : Acts tinyApp (Engine.constant 7) (.serve (.pump 1 fun _ ids => some (letter.decode ids))) stepped pumped :=
    .serve trivial (.pump 1 _)
  have h5 : Acts tinyApp (Engine.constant 7) (.got 0) pumped replied :=
    .got rfl ⟨rfl, rfl, rfl⟩ (by decide +kernel) (by decide +kernel)
  have hspeaks : Speaks letter (.serve (.pump 1 fun _ ids => some (letter.decode ids))) := fun _ _ => .inr rfl
  have hstart : Http.Run tinyApp (Engine.constant 7) (Speaks letter) (Http.start Engine.tiny) (Http.start Engine.tiny) :=
    Relation.ReflTransGen.refl
  exact ((((hstart.next h1 trivial).next h2 trivial).next h3 trivial).next h4 hspeaks).next h5 trivial

theorem sending_run : Http.Run tinyApp (Engine.constant 7) (Speaks letter) (Http.start Engine.tiny) sending := by
  have h1 : Acts tinyApp (Engine.constant 7) (.sent 0) replied (replied.put 0 lastReply.sent) :=
    .sent rfl rfl (by decide +kernel)
  have h2 : Acts tinyApp (Engine.constant 7) (.sent 0) (replied.put 0 lastReply.sent) sending :=
    .sent rfl rfl (by decide +kernel)
  exact (replied_run.next h1 trivial).next h2 trivial

theorem allSent_run : Http.Run tinyApp (Engine.constant 7) (Speaks letter) (Http.start Engine.tiny) allSent := by
  have h1 : Acts tinyApp (Engine.constant 7) (.sent 0) sending (sending.put 0 lastReply.sent.sent.sent) :=
    .sent rfl rfl (by decide +kernel)
  have h2 : Acts tinyApp (Engine.constant 7) (.sent 0) (sending.put 0 lastReply.sent.sent.sent) allSent :=
    .sent rfl rfl (by decide +kernel)
  exact (sending_run.next h1 trivial).next h2 trivial

-- All four events sent, and only the first two, the client having left then.
theorem responses_tell_output_replied :
    (lastReply.sent.sent.sent.sent.events =
        [.data (Format.chunk ⟨false, "tiny", "0", 0⟩ "a" none true),
          .data (Format.chunk ⟨false, "tiny", "0", 0⟩ "" (some .length) false),
          .data (Format.usageChunk ⟨false, "tiny", "0", 0⟩ lastOutput), .done] ∧
      Told letter allSent 0 lastReply.sent.sent.sent.sent) ∧
    (lastReply.sent.sent.events = lastReply.sent.sent.sent.sent.events.take 2 ∧
      Told letter (sending.close 0 lastReply.sent.sent) 0 { lastReply.sent.sent with ended := true }) := by
  have hleft : Acts tinyApp (Engine.constant 7)
    (.close 0) sending (sending.close 0 lastReply.sent.sent) := .close rfl rfl
  exact ⟨⟨by decide +kernel, responses_tell_output allSent_run rfl⟩, by decide +kernel,
    responses_tell_output (sending_run.next hleft trivial) rfl⟩

end Http

end Server

end MiniServe
