import MiniServe.Server.DecodingStates

namespace MiniServe

namespace Server

namespace AsyncEngine

variable {a a' b : AsyncEngine} {s : Sid} {n : Nat} {model : Model} {ev : Event} {c : EngineConfig}
  {detokenize : List DetokenizeItem → List String → Prop}

section Showing

variable (o : Sid → List StreamOutput)

def showing (a : AsyncEngine) : AsyncEngine := { a with outputs := o }

theorem publish_showing (us : List Update) (a : AsyncEngine) : (a.showing o).publish us = (a.publish us).showing o := by
  unfold publish
  split <;> rfl

theorem handleAdd_showing (s : Sid) (a : AsyncEngine) : (a.showing o).handleAdd s = (a.handleAdd s).showing o := by
  simp only [handleAdd, showing]
  split
  · split
    · exact publish_showing o _ { a with engine := _ }
    · rfl
  · rfl

theorem handleAbort_showing (s : Sid) (a : AsyncEngine) : (a.showing o).handleAbort s = (a.handleAbort s).showing o := by
  simp only [handleAbort, showing]
  split
  · rfl
  · split
    · rfl
    · exact publish_showing o _ (forget { a with engine := _ } _)

theorem handleCall_showing (i : Cid) (fn : Engine → CallOutcome × Engine) (a : AsyncEngine) :
    (a.showing o).handleCall i fn = (a.handleCall i fn).showing o := by
  simp only [handleCall, showing]
  split <;> rfl

theorem failAll_showing (cause : Cause) (reason : FinishReason) (a : AsyncEngine) :
    (a.showing o).failAll cause reason = (a.failAll cause reason).showing o :=
  publish_showing o _ { a with live := [] }

theorem handle_showing (cmd : Command) (a : AsyncEngine) : (a.showing o).handle cmd = (a.handle cmd).showing o := by
  cases cmd with
  | add s => exact handleAdd_showing o s a
  | abort s => exact handleAbort_showing o s a
  | call i fn => exact handleCall_showing o i fn a
  | stop =>
    simp only [handle, failAll_showing]
    rfl

theorem collectRow_showing (us : List Update) (r : Rid) (a : AsyncEngine) :
    (a.showing o).collectRow r us = (a.collectRow r us).map fun p => (p.1, p.2.showing o) := by
  simp only [collectRow, showing]
  split
  · rfl
  · next l _ =>
    by_cases hf : (a.engine.request r).state = .finished
    · simp only [hf, if_true]
      split <;> rfl
    · simp only [hf, if_false]
      rfl

theorem collect_showing (rids : List Rid) (us : List Update) (a : AsyncEngine) :
    collect rids us (a.showing o) = ((collect rids us a).1, (collect rids us a).2.showing o) := by
  induction rids generalizing us a with
  | nil => rfl
  | cons r rest ih =>
    simp only [collect, collectRow_showing]
    cases a.collectRow r us with
    | none => rfl
    | some p => exact ih p.1 p.2

theorem engineStep_showing (model : Model) (a : AsyncEngine) :
    (a.showing o).engineStep model = (a.engineStep model).showing o := by
  have he : (a.showing o).engine = a.engine := rfl
  simp only [engineStep, he]
  cases a.engine.step model with
  | mk out e =>
    cases out with
    | error err => rfl
    | ok out =>
      cases out with
      | none => rfl
      | some b =>
        have hc := collect_showing o (b.rows.map Row.rid) [] { a with engine := e }
        have hself : ({ a.showing o with engine := e } : AsyncEngine) =
          ({ a with engine := e } : AsyncEngine).showing o := rfl
        simp only [hself, hc]
        cases collect (b.rows.map Row.rid) [] { a with engine := e } with
        | mk us a1 =>
          cases us with
          | none => rfl
          | some us => exact publish_showing o us a1

theorem answer_showing (e : Option Error) (cmd : Command) (a : AsyncEngine) :
    (a.showing o).answer e cmd = (a.answer e cmd).showing o := by
  cases cmd with
  | add s => exact publish_showing o _ a
  | abort s => rfl
  | call i fn => rfl
  | stop => rfl

theorem drainAfterDeath_showing (e : Option Error) (cs : List Command) (a : AsyncEngine) :
    drainAfterDeath e cs (a.showing o) = (drainAfterDeath e cs a).showing o := by
  induction cs generalizing a with
  | nil => rfl
  | cons cmd rest ih =>
    simp only [drainAfterDeath, answer_showing]
    exact ih (a.answer e cmd)

theorem die_showing (e : Option Error) (a : AsyncEngine) : (a.showing o).die e = (a.die e).showing o := by
  have hf := failAll_showing o (.engineError e) .error { a with dead := true }
  simp only [showing] at hf
  simp only [die, showing, hf]
  exact drainAfterDeath_showing o e a.commands
    { failAll { a with dead := true } (.engineError e) .error with commands := [], thread := .exited }

theorem next_showing (h : Next model (fun _ _ => False) ev a a') :
    Next model detokenize ev (a.showing o) (a'.showing o) := by
  cases h with
  | submit hs =>
    refine .submit ?_
    unfold AsyncEngine.submit at hs ⊢
    split at hs
    · simp at hs
    · next hd =>
      have hd' : ¬ (a.showing o).dead = true := hd
      rw [if_neg hd', ← Option.some.inj hs]
      rfl
  | abort hlt => exact .abort hlt
  | call hc =>
    refine .call ?_
    unfold AsyncEngine.call at hc ⊢
    split at hc
    · simp at hc
    · next hd =>
      have hd' : ¬ (a.showing o).dead = true := hd
      rw [if_neg hd', ← Option.some.inj hc]
      rfl
  | stop => exact .stop
  | pump hp => exact absurd hp id
  | @take _ cmd rest ht hc =>
    rw [← handle_showing o cmd { a with commands := rest }]
    exact .take ht hc
  | step ht hu =>
    rw [← engineStep_showing]
    exact .step ht hu
  | fault ht hf => exact .fault ht hf
  | die ht =>
    rw [← die_showing]
    exact .die ht

end Showing

section Keeps

structure Keeps (a a' : AsyncEngine) : Prop where
  streams : a'.streams = a.streams
  numStreams : a'.numStreams = a.numStreams
  commands : a'.commands = a.commands

theorem Keeps.trans {a'' : AsyncEngine} (h1 : Keeps a a') (h2 : Keeps a' a'') : Keeps a a'' :=
  ⟨h2.streams.trans h1.streams, h2.numStreams.trans h1.numStreams, h2.commands.trans h1.commands⟩

theorem publish_keeps (us : List Update) (h : Keeps a a') : Keeps a (a'.publish us) := by
  obtain ⟨updates, he⟩ := publish_same a' us
  rw [he]
  exact ⟨h.streams, h.numStreams, h.commands⟩

theorem handle_keeps (cmd : Command) (a : AsyncEngine) : Keeps a (a.handle cmd) := by
  cases cmd with
  | add s =>
    simp only [handle, handleAdd]
    split
    · split
      · exact publish_keeps _ ⟨rfl, rfl, rfl⟩
      · exact ⟨rfl, rfl, rfl⟩
    · exact ⟨rfl, rfl, rfl⟩
  | abort s =>
    simp only [handle, handleAbort]
    split
    · exact ⟨rfl, rfl, rfl⟩
    · split
      · exact ⟨rfl, rfl, rfl⟩
      · exact publish_keeps _ ⟨rfl, rfl, rfl⟩
  | call i fn =>
    simp only [handle, handleCall]
    split <;> exact ⟨rfl, rfl, rfl⟩
  | stop =>
    have hfail : Keeps a (a.failAll .shuttingDown .abort) := publish_keeps _ ⟨rfl, rfl, rfl⟩
    exact ⟨hfail.streams, hfail.numStreams, hfail.commands⟩

theorem collectRow_keeps {us us' : List Update} {r : Rid} (h : a.collectRow r us = some (us', a')) : Keeps a a' := by
  unfold collectRow at h
  split at h
  · obtain ⟨-, rfl⟩ := Prod.mk.inj (Option.some.inj h)
    exact ⟨rfl, rfl, rfl⟩
  · next l _ =>
    by_cases hf : (a.engine.request r).state = .finished
    · simp only [hf, if_true] at h
      split at h
      · simp at h
      · obtain ⟨-, rfl⟩ := Prod.mk.inj (Option.some.inj h)
        exact ⟨rfl, rfl, rfl⟩
    · simp only [hf, if_false] at h
      obtain ⟨-, rfl⟩ := Prod.mk.inj (Option.some.inj h)
      exact ⟨rfl, rfl, rfl⟩

theorem collect_keeps (rids : List Rid) (us : List Update) (a : AsyncEngine) : Keeps a (collect rids us a).2 := by
  induction rids generalizing us a with
  | nil => exact ⟨rfl, rfl, rfl⟩
  | cons r rest ih =>
    simp only [collect]
    cases h : a.collectRow r us with
    | none => exact ⟨rfl, rfl, rfl⟩
    | some p => exact (collectRow_keeps h).trans (ih p.1 p.2)

theorem engineStep_keeps (model : Model) (a : AsyncEngine) : Keeps a (a.engineStep model) := by
  unfold engineStep
  split
  · exact ⟨rfl, rfl, rfl⟩
  · exact ⟨rfl, rfl, rfl⟩
  · next b e _ =>
    have hc := collect_keeps (b.rows.map Row.rid) [] { a with engine := e }
    split
    · next a1 h1 =>
      rw [h1] at hc
      exact ⟨hc.streams, hc.numStreams, hc.commands⟩
    · next us a1 h1 =>
      rw [h1] at hc
      exact publish_keeps us ⟨hc.streams, hc.numStreams, hc.commands⟩

theorem drainAfterDeath_keeps (e : Option Error) (cs : List Command) (a : AsyncEngine) :
    Keeps a (drainAfterDeath e cs a) := by
  induction cs generalizing a with
  | nil => exact ⟨rfl, rfl, rfl⟩
  | cons cmd rest ih =>
    have hans : Keeps a (a.answer e cmd) := by
      cases cmd with
      | add s => exact publish_keeps _ ⟨rfl, rfl, rfl⟩
      | abort s => exact ⟨rfl, rfl, rfl⟩
      | call i fn => exact ⟨rfl, rfl, rfl⟩
      | stop => exact ⟨rfl, rfl, rfl⟩
    exact hans.trans (ih _)

theorem die_keeps (e : Option Error) (a : AsyncEngine) : Keeps { a with commands := [] } (a.die e) := by
  have hfail : Keeps a (failAll { a with dead := true } (.engineError e) .error) := publish_keeps _ ⟨rfl, rfl, rfl⟩
  let a1 : AsyncEngine :=
    { failAll { a with dead := true } (.engineError e) .error with commands := [], thread := .exited }
  have hend : Keeps { a with commands := [] } a1 := ⟨hfail.streams, hfail.numStreams, rfl⟩
  exact hend.trans (drainAfterDeath_keeps e a.commands a1)

theorem pump_keeps (n : Nat) (texts : List String) (a : AsyncEngine) : Keeps a (a.pump n texts) := by
  obtain ⟨outputs, ho⟩ := push_same ((a.fetched n).zip texts) { a with updates := a.updates.drop n }
  rw [pump, ho]
  exact ⟨rfl, rfl, rfl⟩

theorem pumpFailed_keeps (n : Nat) (a : AsyncEngine) :
    Keeps { a with commands := a.commands ++ (a.fetched n).filterMap abortOf } (a.pumpFailed n) := by
  obtain ⟨outputs, ho⟩ := push_same (((a.fetched n).map failed).map fun u => (u, "")) { a with
    updates := a.updates.drop n
    commands := a.commands ++ (a.fetched n).filterMap abortOf }
  rw [pumpFailed, ho]
  exact ⟨rfl, rfl, rfl⟩

end Keeps

section Shown

def Masks (o o' : StreamOutput) : Prop :=
  o = o' ∨ o = { o' with text := "", finishReason := some .error, error := some .detokenization }

-- `b` is what `a` would be had no batch raised.
structure Shown (a b : AsyncEngine) : Prop where
  same : b = a.showing b.outputs
  masks : ∀ s, List.Forall₂ Masks (a.outputs s) (b.outputs s)

def AnyTexts (items : List DetokenizeItem) (texts : List String) : Prop := texts.length = items.length

def NoCall (_ : AsyncEngine) (ev : Event) : Prop := ∀ fn, ev ≠ .call fn

theorem Shown.next (h : Shown a b) (hn : Next model (fun _ _ => False) ev a a') (ho : a'.outputs = a.outputs) :
    Next model AnyTexts ev b (a'.showing b.outputs) ∧ Shown a' (a'.showing b.outputs) := by
  constructor
  · have hn' : Next model AnyTexts ev (a.showing b.outputs) (a'.showing b.outputs) := next_showing b.outputs hn
    rw [← h.same] at hn'
    exact hn'
  · refine ⟨rfl, fun s => ?_⟩
    rw [ho]
    exact h.masks s

theorem Shown.fetched (h : Shown a b) (n : Nat) : b.fetched n = a.fetched n := by
  rw [h.same]
  rfl

theorem Shown.streams (h : Shown a b) : b.streams = a.streams := by
  rw [h.same]
  rfl

theorem output_eq (h : b.streams = a.streams) : b.output = a.output := by
  funext u text
  simp only [output, h]

theorem Shown.pump {texts : List String} (h : Shown a b) (n : Nat) : Shown (a.pump n texts) (b.pump n texts) := by
  obtain ⟨oa, ha⟩ := push_same ((a.fetched n).zip texts) { a with updates := a.updates.drop n }
  obtain ⟨ob, hb⟩ := push_same ((b.fetched n).zip texts) { b with updates := b.updates.drop n }
  refine ⟨?_, fun s => ?_⟩
  · simp only [AsyncEngine.pump, ha, hb]
    rw [h.same]
    rfl
  · have hout : AsyncEngine.output { b with updates := b.updates.drop n } =
        AsyncEngine.output { a with updates := a.updates.drop n } := output_eq h.streams
    rw [AsyncEngine.pump, AsyncEngine.pump, (push_outputs _ _).1, (push_outputs _ _).1, h.fetched, hout]
    refine List.rel_append (h.masks s) ?_
    exact List.forall₂_same.mpr fun _ _ => .inl rfl

theorem run_aborts (us : List Update) (hlt : ∀ u ∈ us, u.stream < a.numStreams) :
    Run model AnyTexts NoCall a { a with commands := a.commands ++ us.filterMap abortOf } := by
  induction us generalizing a with
  | nil =>
    rw [List.filterMap_nil, List.append_nil]
    exact Relation.ReflTransGen.refl
  | cons u us ih =>
    have hrest := fun v hv => hlt v (List.mem_cons_of_mem _ hv)
    cases hr : u.finishReason with
    | some reason =>
      have hskip : (u :: us).filterMap abortOf = us.filterMap abortOf := by simp [abortOf, hr]
      rw [hskip]
      exact ih hrest
    | none =>
      have habort : (u :: us).filterMap abortOf = .abort u.stream :: us.filterMap abortOf := by simp [abortOf, hr]
      have hfirst : Next model AnyTexts (.abort u.stream) a (a.abort u.stream) := .abort (hlt u List.mem_cons_self)
      have htail := @ih (a.abort u.stream) hrest
      have hcmds : (a.abort u.stream).commands ++ us.filterMap abortOf = a.commands ++ (u :: us).filterMap abortOf := by
        rw [habort, AsyncEngine.abort, List.append_assoc, List.singleton_append]
      rw [hcmds] at htail
      exact Relation.ReflTransGen.head ⟨_, by simp [NoCall], hfirst⟩ htail

-- A batch that raises is, for everyone else, one that went through and some aborts.
theorem Shown.pumpFailed (h : Shown a b) (hlt : ∀ u ∈ b.fetched n, u.stream < b.numStreams) :
    ∃ b', Run model AnyTexts NoCall b b' ∧ Shown (a.pumpFailed n) b' := by
  let texts : List String := (b.fetched n).map fun _ => ""
  have hnext : Next model AnyTexts (.pump n) b (b.pump n texts) := by
    refine .pump ?_
    simp [AnyTexts, texts]
  have hnum : (b.pump n texts).numStreams = b.numStreams := (pump_pumped n texts b).numStreams
  have hrun : Run model AnyTexts NoCall b { b.pump n texts with
      commands := (b.pump n texts).commands ++ (b.fetched n).filterMap abortOf } :=
    Relation.ReflTransGen.head ⟨_, by simp [NoCall], hnext⟩ (run_aborts _ fun u hu => by
      rw [hnum]
      exact hlt u hu)
  refine ⟨_, hrun, ?_, fun s => ?_⟩
  · obtain ⟨oa, ha⟩ := push_same (((a.fetched n).map failed).map fun u => (u, "")) { a with
      updates := a.updates.drop n
      commands := a.commands ++ (a.fetched n).filterMap abortOf }
    obtain ⟨ob, hb⟩ := push_same ((b.fetched n).zip texts) { b with updates := b.updates.drop n }
    simp only [AsyncEngine.pump, AsyncEngine.pumpFailed, ha, hb]
    rw [h.fetched, h.same]
    rfl
  · have hzip : (b.fetched n).zip texts = (a.fetched n).map fun u => (u, "") := by
      simp only [texts, h.fetched]
      rw [← List.zip_map', List.map_id']
    show List.Forall₂ _ _ ((b.pump n texts).outputs s)
    have hout : AsyncEngine.output { b with updates := b.updates.drop n } = AsyncEngine.output { a with
        updates := a.updates.drop n
        commands := a.commands ++ (a.fetched n).filterMap abortOf } := output_eq h.streams
    rw [AsyncEngine.pump, AsyncEngine.pumpFailed, (push_outputs _ _).1, (push_outputs _ _).1, hzip, hout]
    refine List.rel_append (h.masks s) ?_
    simp only [List.filter_map, List.map_map, List.forall₂_map_left_iff, List.forall₂_map_right_iff]
    exact List.forall₂_same.mpr fun u _ => .inr rfl

end Shown

end AsyncEngine

end Server

end MiniServe
