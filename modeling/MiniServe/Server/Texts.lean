import MiniServe.Server.Raised

namespace MiniServe

namespace IncrementalDetokenizer

theorem tryStep_honest {tok : Tokenizer} {before text : List Token → Option (List Char)} {d d' : IncrementalDetokenizer}
    {newIds : List Token} {finished : Bool} {t : List Char}
    (hb : ∀ ids, before ids = none ∨ before ids = some (tok.decode ids))
    (ht : ∀ ids, text ids = none ∨ text ids = some (tok.decode ids))
    (h : d.tryStep before text newIds finished = (some t, d')) : d.step tok newIds finished = (t, d') := by
  simp only [tryStep] at h
  simp only [step]
  split at h
  · next hread =>
    obtain ⟨h1, h2⟩ := Prod.mk.inj h
    rw [if_pos hread, ← Option.some.inj h1, h2]
  · next hread =>
    rw [if_neg hread]
    split at h
    · next u v hu hv =>
      obtain rfl : u = tok.decode _ := Option.some.inj (hu.symm.trans ((hb _).resolve_left (by simp [hu])))
      obtain rfl : v = tok.decode _ := Option.some.inj (hv.symm.trans ((ht _).resolve_left (by simp [hv])))
      split at h
      · next hc =>
        obtain ⟨h1, h2⟩ := Prod.mk.inj h
        rw [if_pos hc, ← Option.some.inj h1, h2]
      · next hc =>
        obtain ⟨h1, h2⟩ := Prod.mk.inj h
        rw [if_neg hc, ← Option.some.inj h1, h2]
    · simp at h

end IncrementalDetokenizer

namespace Server

-- A tokenizer whose decodes may raise, and otherwise return what it stands for.
def Honest (tok : Tokenizer) (decode : Decode) : Prop :=
    ∀ i ids, decode i ids = none ∨ decode i ids = some (tok.decode ids)

def States.stateOf (st : States) (k : Sid) : IncrementalDetokenizer := (st.lookup k).getD {}

namespace StreamOutput

def textIds (stop : List Token) (o : StreamOutput) : List Token :=
  match o.tokenIds.getLast? with
  | none => o.tokenIds
  | some tok => if o.finishReason = some .stop ∧ tok ∈ stop then o.tokenIds.dropLast else o.tokenIds

theorem textIds_open {stop : List Token} {o : StreamOutput} (h : o.finishReason = none) :
    o.textIds stop = o.tokenIds := by
  unfold textIds
  split
  · rfl
  · simp [h]

end StreamOutput

def textOf (os : List StreamOutput) : List Char := os.flatMap fun o => o.text.toList

-- What has been pushed to a stream says what its tokens say, up to where the detokenizer holds text back.
structure Spoken (tok : Tokenizer) (stop : List Token) (d : IncrementalDetokenizer) (os : List StreamOutput) : Prop where
  goes_on : (∀ o ∈ os, o.finishReason = none) →
    IncrementalDetokenizer.Window tok d (textOf os) ∧ d.ids = os.flatMap (StreamOutput.textIds stop)
  begins : ∀ pre, pre <+: os → (∀ o ∈ pre, o.finishReason = none) →
    ∃ said, said <+: pre.flatMap (StreamOutput.textIds stop) ∧
    Utf8.Complete (said.flatMap tok.bytes) ∧ textOf pre = tok.decode said
  ends : ∀ pre o, os = pre ++ [o] → (∀ x ∈ pre, x.finishReason = none) → AsyncEngine.Ends o.finishReason →
    textOf os = tok.decode (os.flatMap (StreamOutput.textIds stop))

section Batch

variable {tok : Tokenizer} {stop : List Token} {d d' : IncrementalDetokenizer} {os : List StreamOutput}
  {o : StreamOutput} {decode : Decode} {i : Nat} {items : List DetokenizeItem} {it : DetokenizeItem}
  {st st' : States} {k : Sid} {texts : List (List Char)} {text : List Char} {res : Option (List (List Char))}
  {a : AsyncEngine} {us : List Update}

theorem Spoken.nil : Spoken tok stop {} [] := by
  refine ⟨fun _ => ⟨IncrementalDetokenizer.window_empty tok, rfl⟩, fun pre hpre _ => ?_, fun pre o h => by simp at h⟩
  rw [List.prefix_nil.mp hpre]
  exact ⟨[], List.prefix_rfl, Utf8.complete_nil, rfl⟩

theorem Spoken.push (h : Spoken tok stop d os)
    (hstep : d.step tok (o.textIds stop) o.finishReason.isSome = (o.text.toList, d'))
    {e : IncrementalDetokenizer} (he : o.finishReason = none → e = d') : Spoken tok stop e (os ++ [o]) := by
  have htext : textOf (os ++ [o]) = textOf os ++ o.text.toList := by simp [textOf]
  have hids : (os ++ [o]).flatMap (StreamOutput.textIds stop) =
      os.flatMap (StreamOutput.textIds stop) ++ o.textIds stop := by
    simp
  have hgoes : (∀ x ∈ os ++ [o], x.finishReason = none) →
      IncrementalDetokenizer.Window tok e (textOf (os ++ [o])) ∧
          e.ids = (os ++ [o]).flatMap (StreamOutput.textIds stop) := by
    intro hopen
    have hnone : o.finishReason = none := hopen o (by simp)
    obtain ⟨hw, hd⟩ := h.goes_on fun x hx => hopen x (List.mem_append_left _ hx)
    obtain ⟨hw', -⟩ := hw.step (o.textIds stop)
    have hids' := IncrementalDetokenizer.step_ids tok d (o.textIds stop) false
    rw [hnone] at hstep
    rw [Option.isSome_none] at hstep
    rw [hstep] at hw' hids'
    rw [he hnone, htext, hids, ← hd]
    exact ⟨hw', hids'⟩
  refine ⟨hgoes, fun pre hpre hopen => ?_, fun pre o' heq hpre hend => ?_⟩
  · rcases List.prefix_concat_iff.mp hpre with rfl | hpre
    · obtain ⟨hw, hd⟩ := hgoes hopen
      exact ⟨_, hd ▸ List.take_prefix e.read e.ids, hw.closes, hw.text_eq⟩
    · exact h.begins pre hpre hopen
  · obtain ⟨rfl, h1⟩ := List.append_inj' heq rfl
    obtain rfl := List.singleton_inj.mp h1
    have hsome : o.finishReason.isSome = true := by
      rcases hend with hend | hend <;> simp [hend]
    obtain ⟨hw, hd⟩ := h.goes_on hpre
    have hfin := hw.finish (o.textIds stop)
    rw [hsome] at hstep
    rw [hstep, hd] at hfin
    rw [htext, hids]
    exact hfin

theorem Spoken.failed {e : IncrementalDetokenizer} {errors : List StreamOutput} (h : Spoken tok stop e os)
    (herr : ∀ o ∈ errors, o.finishReason = some .error) (hne : errors ≠ []) : Spoken tok stop d (os ++ errors) := by
  refine ⟨fun hopen => ?_, fun pre hpre hopen => ?_, fun pre o heq _ hend => ?_⟩
  · obtain ⟨o, ho⟩ := List.exists_mem_of_ne_nil errors hne
    have hnone := hopen o (List.mem_append_right _ ho)
    rw [herr o ho] at hnone
    simp at hnone
  · rcases List.prefix_or_prefix_of_prefix hpre (List.prefix_append os errors) with hpre' | ⟨rest, rfl⟩
    · exact h.begins pre hpre' hopen
    · cases rest with
      | nil => exact h.begins _ (by simp) hopen
      | cons o rest =>
        have ho : o ∈ errors := ((List.prefix_append_right_inj os).mp hpre).subset List.mem_cons_self
        have hnone := hopen o (by simp)
        rw [herr o ho] at hnone
        simp at hnone
  · have hlast : (os ++ errors).getLast? = some o := by rw [heq, List.getLast?_concat]
    rw [List.getLast?_append_of_ne_nil _ hne] at hlast
    rcases hend with hend | hend <;> rw [herr o (List.mem_of_getLast? hlast)] at hend <;> simp at hend

theorem stateOf_insert_self : States.stateOf (AList.insert k d st) k = d := by
  simp [States.stateOf]

theorem detokenizeItem_stateOf (hon : Honest tok decode) (h : detokenizeItem decode i it st = (some text, st')) :
    ∃ d', (st.stateOf it.key).step tok it.newIds it.finished = (text, d') ∧
    (it.finished = false → st'.stateOf it.key = d') := by
  unfold detokenizeItem at h
  split at h
  · simp at h
  · next t d' hstep =>
    obtain ⟨h1, h2⟩ := Prod.mk.inj h
    obtain rfl := Option.some.inj h1
    refine ⟨d', IncrementalDetokenizer.tryStep_honest (hon _) (hon _) hstep, fun hf => ?_⟩
    rw [← h2, hf]
    exact stateOf_insert_self

theorem detokenizeItem_lookup {res : Option (List Char)}
    (h : detokenizeItem decode i it st = (res, st')) (hk : it.key ≠ k) :
    st'.lookup k = st.lookup k := by
  have hne : k ≠ it.key := hk.symm
  unfold detokenizeItem at h
  split at h
  · obtain ⟨-, rfl⟩ := Prod.mk.inj h
    exact AList.lookup_insert_ne hne
  · obtain ⟨-, rfl⟩ := Prod.mk.inj h
    split
    · rw [AList.lookup_erase_ne hne, AList.lookup_insert_ne hne]
    · exact AList.lookup_insert_ne hne

theorem detokenize_lookup (h : detokenize decode i items st = (res, st')) (hk : ∀ it ∈ items, it.key ≠ k) :
    st'.lookup k = st.lookup k := by
  induction items generalizing i st res with
  | nil =>
    obtain ⟨-, rfl⟩ := Prod.mk.inj h
    rfl
  | cons it items ih =>
    have hit := hk it List.mem_cons_self
    have hrest := fun x hx => hk x (List.mem_cons_of_mem it hx)
    unfold detokenize at h
    cases h1 : detokenizeItem decode i it st with
    | mk r st1 =>
      have hl := detokenizeItem_lookup h1 hit
      cases r with
      | none =>
        simp only [h1] at h
        obtain ⟨-, rfl⟩ := Prod.mk.inj h
        exact hl
      | some text =>
        simp only [h1] at h
        cases h2 : detokenize decode (i + 1) items st1 with
        | mk r2 st2 =>
          have hst : st2 = st' := by
            cases r2 <;> simp only [h2] at h <;> exact (Prod.mk.inj h).2
          exact (ih (hst ▸ h2) hrest).trans hl

theorem textIds_output (a : AsyncEngine) (u : Update) (text : String) :
    (a.output u text).textIds (a.streams u.stream).params.stopTokenIds = a.textIds u := rfl

theorem Spoken.batch (hon : Honest tok decode) (h : detokenize decode i (us.map a.item) st = (some texts, st'))
    (hs : Spoken tok (a.streams k).params.stopTokenIds (st.stateOf k) os) :
    Spoken tok (a.streams k).params.stopTokenIds (st'.stateOf k)
      (os ++ ((us.zip (texts.map String.ofList)).filter fun p => p.1.stream = k).map fun p => a.output p.1 p.2) := by
  induction us generalizing i st texts os with
  | nil =>
    obtain ⟨-, rfl⟩ := Prod.mk.inj h
    simpa using hs
  | cons u us ih =>
    obtain ⟨text, texts', st1, h1, h2, rfl⟩ := detokenize_cons h
    by_cases hk : u.stream = k
    · subst hk
      obtain ⟨d', hstep, hd'⟩ := detokenizeItem_stateOf hon h1
      have hpush : Spoken tok (a.streams u.stream).params.stopTokenIds (st1.stateOf u.stream)
          (os ++ [a.output u (String.ofList text)]) := by
        have htext : (a.output u (String.ofList text)).text.toList = text := String.toList_ofList
        have hspoken : (st.stateOf u.stream).step tok
            ((a.output u (String.ofList text)).textIds (a.streams u.stream).params.stopTokenIds)
            (a.output u (String.ofList text)).finishReason.isSome =
                ((a.output u (String.ofList text)).text.toList, d') := by
          rw [textIds_output, htext]
          exact hstep
        refine hs.push hspoken fun hn => hd' ?_
        show Option.isSome u.finishReason = false
        rw [show u.finishReason = none from hn]
        rfl
      have := ih h2 hpush
      simpa using this
    · have hl := detokenizeItem_lookup h1 (k := k) hk
      have hst : st1.stateOf k = st.stateOf k := by rw [States.stateOf, hl, States.stateOf]
      have := ih h2 (hst ▸ hs)
      simpa [hk] using this

end Batch

namespace Serving

open AsyncEngine

variable {tok : Tokenizer} {sv sv' : Serving} {model : Model} {mv : Move} {c : EngineConfig} {b : AsyncEngine}
  {decode : Decode} {n : Nat}

def Texts (tok : Tokenizer) (sv : Serving) : Prop :=
  ∀ k, Spoken tok (sv.srv.streams k).params.stopTokenIds (sv.states.stateOf k) (sv.srv.outputs k)

def Speaks (tok : Tokenizer) : Move → Prop
  | .thread ev => ∀ fn, ev ≠ .call fn
  | .pump _ decode => Honest tok decode

theorem Speaks.calling (h : Speaks tok mv) : Calling model sv mv := by
  cases mv with
  | thread ev => exact Server.calling h
  | pump n decode => trivial

theorem Texts.pump (h : Texts tok sv) (hon : Honest tok decode) (n : Nat) : Texts tok (sv.pump n decode) := by
  intro k
  unfold Serving.pump
  split
  · next texts st hd =>
    obtain ⟨ho, -⟩ := push_outputs (s := k) ((sv.srv.fetched n).zip (texts.map String.ofList))
      { sv.srv with updates := sv.srv.updates.drop n }
    have hk := pump_keeps n (texts.map String.ofList) sv.srv
    simp only [hk.streams]
    rw [AsyncEngine.pump, ho]
    exact (h k).batch hon hd
  · next st hd =>
    have hk := pumpFailed_keeps n sv.srv
    obtain ⟨ho, -⟩ := push_outputs (s := k) (((sv.srv.fetched n).map failed).map fun u => (u, "")) { sv.srv with
      updates := sv.srv.updates.drop n
      commands := sv.srv.commands ++ (sv.srv.fetched n).filterMap abortOf }
    simp only [hk.streams]
    rw [AsyncEngine.pumpFailed, ho]
    by_cases hmem : ∃ u ∈ sv.srv.fetched n, u.stream = k
    · refine (h k).failed (fun o ho => ?_) fun hnil => ?_
      · obtain ⟨p, hp, rfl⟩ := List.mem_map.mp ho
        obtain ⟨v, hv, rfl⟩ := List.mem_map.mp (List.mem_of_mem_filter hp)
        obtain ⟨u, -, rfl⟩ := List.mem_map.mp hv
        rfl
      · obtain ⟨u, hu, hk⟩ := hmem
        have hp : (failed u, "") ∈ (((sv.srv.fetched n).map failed).map fun u => (u, "")) :=
          List.mem_map_of_mem (List.mem_map_of_mem hu)
        have hnone := List.filter_eq_nil_iff.mp (List.map_eq_nil_iff.mp hnil) _ hp
        exact hnone (decide_eq_true hk)
    · have hnone : ((((sv.srv.fetched n).map failed).map fun u => (u, "")).filter fun p => p.1.stream = k) = [] := by
        refine List.filter_eq_nil_iff.mpr fun p hp hpk => hmem ?_
        obtain ⟨v, hv, rfl⟩ := List.mem_map.mp hp
        obtain ⟨u, hu, rfl⟩ := List.mem_map.mp hv
        exact ⟨u, hu, of_decide_eq_true hpk⟩
      have hl : st.lookup k = sv.states.lookup k := detokenize_lookup hd fun it hit hik => by
        obtain ⟨u, hu, rfl⟩ := mem_items.mp hit
        exact hmem ⟨u, hu, hik⟩
      have hst : st.stateOf k = sv.states.stateOf k := by rw [States.stateOf, hl, States.stateOf]
      rw [hnone, List.map_nil, List.append_nil, hst]
      exact h k

theorem next_streams {ev : Event} {a a' : AsyncEngine} (h : Next model (fun _ _ => False) ev a a') (k : Sid) :
    a'.streams k = a.streams k ∨ k = a.numStreams := by
  cases h with
  | submit hs =>
    unfold AsyncEngine.submit at hs
    split at hs
    · simp at hs
    · rw [← Option.some.inj hs]
      by_cases hk : k = a.numStreams
      · exact .inr hk
      · exact .inl (Function.update_of_ne hk _ _)
  | abort hlt => exact .inl rfl
  | call hc =>
    unfold AsyncEngine.call at hc
    split at hc
    · simp at hc
    · rw [← Option.some.inj hc]
      exact .inl rfl
  | stop => exact .inl rfl
  | pump hp => exact absurd hp id
  | @take _ cmd rest ht hc => exact .inl (congrFun (handle_keeps cmd { a with commands := rest }).streams k)
  | step ht hu => exact .inl (congrFun (engineStep_keeps model a).streams k)
  | fault ht hf => exact .inl rfl
  | @die _ e ht => exact .inl (congrFun (die_keeps e a).streams k)

theorem Texts.serves (h : Texts tok sv) (hsteady : Steady model sv) (hmv : Speaks tok mv) (hs : Serves model mv sv sv') :
    Texts tok sv' := by
  cases hs with
  | @thread sv ev a hn =>
    obtain ⟨us, hserved⟩ := hsteady.served hmv.calling hn
    intro k
    simp only [hserved.outputs]
    rcases next_streams hn k with hk | rfl
    · rw [hk]
      exact h k
    · have hnone : sv.srv.outputs sv.srv.numStreams = [] := by
        refine List.eq_nil_iff_forall_not_mem.mpr fun o ho => ?_
        exact hsteady.ordered.pushed _ o ho (.inr le_rfl)
      have hk := h sv.srv.numStreams
      rw [hnone] at hk ⊢
      refine ⟨hk.goes_on, fun pre hpre _ => ?_, fun pre o heq => by simp at heq⟩
      rw [List.prefix_nil.mp hpre]
      exact ⟨[], List.prefix_rfl, Utf8.complete_nil, rfl⟩
  | pump n decode => exact h.pump hmv n

def Measured (sv : Serving) : Prop :=
  ∀ k, ∀ o ∈ sv.srv.outputs k, o.numPromptTokens = (sv.srv.streams k).promptIds.length

theorem pump_outputs {o : StreamOutput} {k : Sid} (h : o ∈ (sv.pump n decode).srv.outputs k) :
    o ∈ sv.srv.outputs k ∨ o.numPromptTokens = (sv.srv.streams k).promptIds.length := by
  unfold Serving.pump at h
  split at h
  · rw [AsyncEngine.pump, (push_outputs _ _).1] at h
    rcases List.mem_append.mp h with h | h
    · exact .inl h
    · obtain ⟨p, hp, rfl⟩ := List.mem_map.mp h
      have hk := of_decide_eq_true (List.mem_filter.mp hp).2
      exact .inr (congrArg (fun s => (sv.srv.streams s).promptIds.length) hk)
  · rw [AsyncEngine.pumpFailed, (push_outputs _ _).1] at h
    rcases List.mem_append.mp h with h | h
    · exact .inl h
    · obtain ⟨p, hp, rfl⟩ := List.mem_map.mp h
      have hk := of_decide_eq_true (List.mem_filter.mp hp).2
      exact .inr (congrArg (fun s => (sv.srv.streams s).promptIds.length) hk)

theorem pump_streams (n : Nat) (decode : Decode) (sv : Serving) : (sv.pump n decode).srv.streams = sv.srv.streams := by
  unfold Serving.pump
  split
  · exact (pump_keeps n _ sv.srv).streams
  · exact (pumpFailed_keeps n sv.srv).streams

theorem Measured.serves (h : Measured sv) (hsteady : Steady model sv) (hcall : Calling model sv mv)
    (hs : Serves model mv sv sv') : Measured sv' := by
  intro k o ho
  cases hs with
  | @thread sv ev a hn =>
    obtain ⟨us, hserved⟩ := hsteady.served hcall hn
    simp only [hserved.outputs] at ho
    rcases next_streams hn k with hk | rfl
    · rw [hk]
      exact h k o ho
    · exact absurd (.inr le_rfl) (hsteady.ordered.pushed _ o ho)
  | pump n decode =>
    rw [pump_streams]
    exact (pump_outputs ho).elim (h k o) id

theorem Texts.start (c : EngineConfig) : Texts tok ⟨Server.start c, ∅⟩ := by
  intro k
  exact Spoken.nil

theorem anyTexts_length (items : List DetokenizeItem) (texts : List String) (h : AnyTexts items texts) :
    texts.length = items.length := h

theorem run_streams (h : Server.Run model AnyTexts NoCall (Server.start c) b) : Streams b b.history :=
  (AsyncEngine.Run.follows anyTexts_length (Streams.start c) h).streams

theorem fetched_lt (h : Streams b b.history) {u : Update} (hu : u ∈ b.fetched n) : u.stream < b.numStreams := by
  by_contra hge
  have hnone := (h.later u.stream (not_lt.mp hge)).1
  have hm : u.sent ∈ b.history u.stream := by
    refine List.mem_append_right _ (List.mem_map_of_mem (List.mem_filter.mpr ⟨?_, decide_eq_true rfl⟩))
    rw [flatten_fetched n]
    exact List.mem_append_left _ hu
  rw [hnone] at hm
  simp at hm

def NoCalls : Move → Prop
  | .thread ev => ∀ fn, ev ≠ .call fn
  | .pump _ _ => True

theorem NoCalls.calling (h : NoCalls mv) : Calling model sv mv := by
  cases mv with
  | thread ev => exact Server.calling h
  | pump n decode => trivial

-- Beside the server, a run of it in which no batch raised.
def Shadowed (model : Model) (c : EngineConfig) (sv : Serving) : Prop :=
  ∃ b, Server.Run model AnyTexts NoCall (Server.start c) b ∧ Shown sv.srv b

theorem Shadowed.start (c : EngineConfig) : Shadowed model c ⟨Server.start c, ∅⟩ :=
  ⟨Server.start c, Relation.ReflTransGen.refl, rfl, fun _ => List.Forall₂.nil⟩

theorem Shadowed.serves (h : Shadowed model c sv) (hsteady : Steady model sv) (hmv : NoCalls mv)
    (hs : Serves model mv sv sv') : Shadowed model c sv' := by
  obtain ⟨b, hrun, hb⟩ := h
  cases hs with
  | @thread sv ev a hn =>
    obtain ⟨us, hserved⟩ := hsteady.served hmv.calling hn
    obtain ⟨hn', hb'⟩ := hb.next hn hserved.outputs
    exact ⟨_, hrun.snoc hn' hmv, hb'⟩
  | pump n decode =>
    unfold Serving.pump
    split
    · next texts st hd =>
      have hlen : AnyTexts ((b.fetched n).map b.item) (texts.map String.ofList) := by
        have := detokenize_length hd
        rw [AnyTexts, hb.fetched, List.length_map, List.length_map, this, Serving.items, List.length_map]
      exact ⟨_, hrun.snoc (.pump hlen) (by simp [NoCall]), hb.pump n⟩
    · obtain ⟨b', hrun', hb'⟩ := hb.pumpFailed fun u hu => fetched_lt (run_streams hrun) hu
      exact ⟨b', hrun.trans hrun', hb'⟩

structure Sounds (tok : Tokenizer) (model : Model) (c : EngineConfig) (sv : Serving) : Prop where
  texts : Texts tok sv
  measured : Measured sv
  shadowed : Shadowed model c sv

end Serving

end Server

end MiniServe
