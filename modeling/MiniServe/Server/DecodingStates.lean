import MiniServe.Server.Sends

namespace MiniServe

namespace Server

section Backend

variable {decode : Decode} {i : Nat} {it : DetokenizeItem} {items done rest : List DetokenizeItem} {st st' st1 : States}
  {text : List Char} {texts : List (List Char)} {k : Sid}

theorem mem_detokenizeItem_ok (h : detokenizeItem decode i it st = (some text, st')) :
    k ∈ st' ↔ if it.finished then k ≠ it.key ∧ k ∈ st else k = it.key ∨ k ∈ st := by
  unfold detokenizeItem at h
  split at h
  · simp at h
  · obtain ⟨-, rfl⟩ := Prod.mk.inj h
    by_cases hf : it.finished
    · simp only [hf, if_true, AList.mem_erase, AList.mem_insert]
      exact and_congr_right fun hne => or_iff_right hne
    · simp [hf]

theorem mem_detokenizeItem_raised (h : detokenizeItem decode i it st = (none, st')) : k ∈ st' ↔ k = it.key ∨ k ∈ st := by
  unfold detokenizeItem at h
  split at h
  · obtain ⟨-, rfl⟩ := Prod.mk.inj h
    exact AList.mem_insert _
  · simp at h

theorem detokenize_raised (h : detokenize decode i items st = (none, st')) :
    ∃ done it rest texts st1, items = done ++ it :: rest ∧ detokenize decode i done st = (some texts, st1) ∧
      detokenizeItem decode (i + done.length) it st1 = (none, st') := by
  induction items generalizing i st with
  | nil => simp [detokenize] at h
  | cons it items ih =>
    unfold detokenize at h
    cases hit : detokenizeItem decode i it st with
    | mk res st1 =>
      cases res with
      | none =>
        rw [hit] at h
        obtain ⟨-, rfl⟩ := Prod.mk.inj h
        exact ⟨[], it, items, [], st, rfl, rfl, hit⟩
      | some text =>
        simp only [hit] at h
        cases hrest : detokenize decode (i + 1) items st1 with
        | mk res st2 =>
          cases res with
          | some texts => simp [hrest] at h
          | none =>
            rw [hrest] at h
            obtain ⟨-, rfl⟩ := Prod.mk.inj h
            obtain ⟨done, it', rest, texts, st3, rfl, h1, h2⟩ := ih hrest
            refine ⟨it :: done, it', rest, text :: texts, st3, rfl, by simp only [detokenize, hit, h1], ?_⟩
            rw [List.length_cons, Nat.add_comm done.length 1, ← Nat.add_assoc]
            exact h2

theorem detokenize_cons (h : detokenize decode i (it :: items) st = (some texts, st')) :
    ∃ text texts' st1, detokenizeItem decode i it st = (some text, st1) ∧
      detokenize decode (i + 1) items st1 = (some texts', st') ∧ texts = text :: texts' := by
  unfold detokenize at h
  cases hit : detokenizeItem decode i it st with
  | mk res st1 =>
    cases res with
    | none => simp [hit] at h
    | some text =>
      simp only [hit] at h
      cases hrest : detokenize decode (i + 1) items st1 with
      | mk res st2 =>
        cases res with
        | none => simp [hrest] at h
        | some texts' =>
          rw [hrest] at h
          obtain ⟨h1, rfl⟩ := Prod.mk.inj h
          exact ⟨text, texts', st1, rfl, hrest, (Option.some.inj h1).symm⟩

theorem detokenize_stops (h1 : detokenize decode i done st = (some texts, st1))
    (h2 : detokenizeItem decode (i + done.length) it st1 = (none, st')) :
    detokenize decode i (done ++ it :: rest) st = (none, st') := by
  induction done generalizing i st texts with
  | nil =>
    obtain ⟨-, rfl⟩ := Prod.mk.inj h1
    simp only [List.nil_append, detokenize, show detokenizeItem decode i it st = (none, st') from h2]
  | cons x done ih =>
    obtain ⟨text, texts', st2, hx, hrest, -⟩ := detokenize_cons h1
    have hlen : i + (x :: done).length = i + 1 + done.length := by
      rw [List.length_cons]
      omega
    rw [hlen] at h2
    simp only [List.cons_append, detokenize, hx, ih hrest h2]

theorem detokenize_length (h : detokenize decode i items st = (some texts, st')) : texts.length = items.length := by
  induction items generalizing i st texts with
  | nil =>
    obtain ⟨h1, -⟩ := Prod.mk.inj h
    rw [← Option.some.inj h1]
    rfl
  | cons it items ih =>
    obtain ⟨text, texts', st1, -, h2, rfl⟩ := detokenize_cons h
    rw [List.length_cons, List.length_cons, ih h2]

theorem detokenize_other (h : detokenize decode i items st = (some texts, st')) (hk : ∀ it ∈ items, it.key ≠ k) :
    k ∈ st' ↔ k ∈ st := by
  induction items generalizing i st texts with
  | nil =>
    obtain ⟨-, rfl⟩ := Prod.mk.inj h
    rfl
  | cons it items ih =>
    obtain ⟨text, texts', st1, h1, h2, -⟩ := detokenize_cons h
    have hne : k ≠ it.key := (hk it List.mem_cons_self).symm
    rw [ih h2 fun x hx => hk x (List.mem_cons_of_mem _ hx), mem_detokenizeItem_ok h1]
    by_cases hf : it.finished <;> simp [hf, hne]

theorem detokenize_open (h : detokenize decode i items st = (some texts, st'))
    (hk : ∀ it ∈ items, it.key = k → it.finished = false) : k ∈ st' ↔ k ∈ st ∨ ∃ it ∈ items, it.key = k := by
  induction items generalizing i st texts with
  | nil =>
    obtain ⟨-, rfl⟩ := Prod.mk.inj h
    simp
  | cons it items ih =>
    obtain ⟨text, texts', st1, h1, h2, -⟩ := detokenize_cons h
    rw [ih h2 fun x hx => hk x (List.mem_cons_of_mem _ hx), mem_detokenizeItem_ok h1]
    by_cases he : it.key = k
    · simp [hk it List.mem_cons_self he, he]
    · by_cases hf : it.finished <;> simp [hf, he, Ne.symm he]

theorem detokenize_closed (h : detokenize decode i (done ++ it :: rest) st = (some texts, st')) (hf : it.finished = true)
    (hk : ∀ x ∈ rest, x.key ≠ it.key) : it.key ∉ st' := by
  induction done generalizing i st texts with
  | nil =>
    obtain ⟨text, texts', st1, h1, h2, -⟩ := detokenize_cons h
    rw [detokenize_other h2 hk, mem_detokenizeItem_ok h1]
    simp [hf]
  | cons x done ih =>
    obtain ⟨text, texts', st1, -, h2, -⟩ := detokenize_cons h
    exact ih h2

structure Raises (decode : Decode) (items : List DetokenizeItem) (st : States) (done : List DetokenizeItem)
    (it : DetokenizeItem) (rest : List DetokenizeItem) : Prop where
  items : items = done ++ it :: rest
  raises : ∃ texts st1, detokenize decode 0 done st = (some texts, st1) ∧
    (detokenizeItem decode done.length it st1).1 = none

-- From where the batch is left on, no request ends that has a state by then.
def Clean (decode : Decode) (items : List DetokenizeItem) (st : States) : Prop :=
  ∀ done it rest, Raises decode items st done it rest →
    ∀ v ∈ it :: rest, v.finished = true → v.key ∉ st ∧ ∀ x ∈ done ++ [it], x.key ≠ v.key

def Lasts (items : List DetokenizeItem) : Prop := items.Pairwise fun x y => x.key = y.key → x.finished = false

theorem Lasts.after (h : Lasts (done ++ it :: rest)) (hf : it.finished = true) : ∀ x ∈ rest, x.key ≠ it.key := by
  intro x hx he
  have hnot := (List.pairwise_cons.mp (List.pairwise_append.mp h).2.1).1 x hx he.symm
  rw [hf] at hnot
  simp at hnot

theorem Lasts.before (h : Lasts (done ++ it :: rest)) {v : DetokenizeItem} (hv : v ∈ it :: rest) :
    ∀ x ∈ done, x.key = v.key → x.finished = false :=
  fun x hx => (List.pairwise_append.mp h).2.2 x hx v hv

theorem detokenize_left (hlast : Lasts items) (hclean : Clean decode items st)
    (hk : k ∈ (detokenize decode 0 items st).2) :
    (∀ it ∈ items, it.key = k → it.finished = false) ∧ (k ∈ st ∨ ∃ it ∈ items, it.key = k) := by
  cases hd : detokenize decode 0 items st with
  | mk res st' =>
    rw [hd] at hk
    cases res with
    | some texts =>
      have hopen : ∀ it ∈ items, it.key = k → it.finished = false := by
        rintro it hit rfl
        by_contra hf
        obtain ⟨done, rest, rfl⟩ := List.append_of_mem hit
        have hf : it.finished = true := by simpa using hf
        exact detokenize_closed hd hf (hlast.after hf) hk
      exact ⟨hopen, (detokenize_open hd hopen).mp hk⟩
    | none =>
      obtain ⟨done, it, rest, texts, st1, rfl, h1, h2⟩ := detokenize_raised hd
      rw [Nat.zero_add] at h2
      have hraise : Raises decode (done ++ it :: rest) st done it rest := ⟨rfl, texts, st1, h1, by rw [h2]⟩
      have hsplit := (mem_detokenizeItem_raised h2).mp hk
      have hopen : ∀ v ∈ done ++ it :: rest, v.key = k → v.finished = false := by
        rintro v hv rfl
        by_contra hf
        have hf : v.finished = true := by simpa using hf
        rcases List.mem_append.mp hv with hv | hv
        · obtain ⟨d1, d2, rfl⟩ := List.append_of_mem hv
          have hlast : Lasts (d1 ++ v :: (d2 ++ it :: rest)) := by simpa using hlast
          have hafter := hlast.after hf
          rcases hsplit with he | hm
          · exact hafter it (by simp) he.symm
          · exact detokenize_closed h1 hf (fun x hx => hafter x (List.mem_append_left _ hx)) hm
        · obtain ⟨hnot, hother⟩ := hclean done it rest hraise v hv hf
          rcases hsplit with he | hm
          · exact hother it (by simp) he.symm
          · exact hnot ((detokenize_other h1 fun x hx => hother x (List.mem_append_left _ hx)).mp hm)
      refine ⟨hopen, ?_⟩
      rcases hsplit with he | hm
      · exact .inr ⟨it, by simp, he.symm⟩
      · refine ((detokenize_open h1 fun x hx => hopen x (List.mem_append_left _ hx)).mp hm).imp_right ?_
        rintro ⟨x, hx, he⟩
        exact ⟨x, List.mem_append_left _ hx, he⟩

theorem clean_of_total (h : ∀ i ids, decode i ids ≠ none) : Clean decode items st := by
  rintro done it rest ⟨-, texts, st1, -, hraise⟩
  exfalso
  unfold detokenizeItem at hraise
  split at hraise
  · next d hd =>
    unfold IncrementalDetokenizer.tryStep at hd
    simp only at hd
    split at hd
    · simp at hd
    · split at hd
      · split at hd <;> simp at hd
      · next hnot =>
        obtain ⟨before, hb⟩ := Option.ne_none_iff_exists'.mp (h (2 * done.length) _)
        obtain ⟨text, ht⟩ := Option.ne_none_iff_exists'.mp (h (2 * done.length + 1) _)
        exact hnot before text hb ht
  · simp at hraise

theorem detokenize_leaks (hlast : Lasts items) (hclean : ¬ Clean decode items st) :
    ∃ v ∈ items, v.finished = true ∧ v.key ∈ (detokenize decode 0 items st).2 ∧
    (detokenize decode 0 items st).1 = none := by
  unfold Clean at hclean
  push Not at hclean
  obtain ⟨done, it, rest, ⟨rfl, texts, st1, h1, h2⟩, v, hv, hf, hstate⟩ := hclean
  obtain ⟨st', h2⟩ : ∃ st', detokenizeItem decode done.length it st1 = (none, st') := ⟨_, Prod.ext h2 rfl⟩
  have hd : detokenize decode 0 (done ++ it :: rest) st = (none, st') :=
    detokenize_stops h1 (by rw [Nat.zero_add]; exact h2)
  refine ⟨v, List.mem_append_right _ hv, hf, ?_, by rw [hd]⟩
  rw [hd, mem_detokenizeItem_raised h2]
  by_cases he : v.key = it.key
  · exact .inl he
  · refine .inr ((detokenize_open h1 (hlast.before hv)).mpr ?_)
    by_cases hst : v.key ∈ st
    · exact .inl hst
    · obtain ⟨x, hx, hxv⟩ := hstate hst
      rcases List.mem_append.mp hx with hx | hx
      · exact .inr ⟨x, hx, hxv⟩
      · exact absurd (List.mem_singleton.mp hx ▸ hxv).symm he

end Backend

section Pump

namespace AsyncEngine

variable {a a' : AsyncEngine} {n : Nat} {texts : List String} {us : List Update} {s : Sid} {model : Model}

structure Pumped (a : AsyncEngine) (n : Nat) (a' : AsyncEngine) : Prop where
  updates : a'.updates = a.updates.drop n
  live : a'.live = a.live
  adds : a'.adds = a.adds
  numStreams : a'.numStreams = a.numStreams
  thread : a'.thread = a.thread
  commands : ∀ cmd ∈ a.commands, cmd ∈ a'.commands
  outputs : ∀ s, ∀ o ∈ a'.outputs s, o ∈ a.outputs s ∨ ∃ u ∈ a.fetched n, u.stream = s ∧
    (o.finishReason ≠ none → u.finishReason ≠ none ∨ .abort s ∈ a'.commands)
  sane : ∀ model, Sane model a → Sane model a'

theorem pump_pumped (n : Nat) (texts : List String) (a : AsyncEngine) : Pumped a n (a.pump n texts) := by
  obtain ⟨outputs, ho⟩ := push_same ((a.fetched n).zip texts) { a with updates := a.updates.drop n }
  have hpump : a.pump n texts = { a with updates := a.updates.drop n, outputs } := ho
  refine ⟨by rw [hpump], by rw [hpump], by rw [hpump]; rfl, by rw [hpump], by rw [hpump], fun cmd hm => by
    rw [hpump]; exact hm,
    fun s o hm => ?_, fun model h => by rw [hpump]; exact h.elsewhere _ _ _ _ _ _⟩
  rw [AsyncEngine.pump, (push_outputs _ _).1] at hm
  rcases List.mem_append.mp hm with hm | hm
  · exact .inl hm
  · obtain ⟨p, hp, rfl⟩ := List.mem_map.mp hm
    obtain ⟨hp, hs⟩ := List.mem_filter.mp hp
    exact .inr ⟨p.1, (List.of_mem_zip hp).1, by simpa using hs, .inl⟩

theorem pumpFailed_pumped (n : Nat) (a : AsyncEngine) : Pumped a n (a.pumpFailed n) := by
  have hadds : ∀ us : List Update, (us.filterMap abortOf).filterMap Command.addOf = [] := by
    intro us
    refine List.filterMap_eq_nil_iff.mpr fun cmd hm => ?_
    obtain ⟨u, -, hu⟩ := List.mem_filterMap.mp hm
    unfold abortOf at hu
    split at hu
    · rw [← Option.some.inj hu]
      rfl
    · simp at hu
  have hcalls : ∀ us : List Update, ∀ c fn, .call c fn ∉ us.filterMap abortOf := by
    intro us c fn hm
    obtain ⟨u, -, hu⟩ := List.mem_filterMap.mp hm
    unfold abortOf at hu
    split at hu <;> simp at hu
  obtain ⟨outputs, ho⟩ := push_same (((a.fetched n).map failed).map fun u => (u, "")) { a with
    updates := a.updates.drop n
    commands := a.commands ++ (a.fetched n).filterMap abortOf }
  have hpump : a.pumpFailed n = { a with
      updates := a.updates.drop n
      commands := a.commands ++ (a.fetched n).filterMap abortOf
      outputs } := ho
  have hadd : (a.commands ++ (a.fetched n).filterMap abortOf).filterMap Command.addOf = a.adds := by
    rw [List.filterMap_append, hadds, List.append_nil]
    rfl
  refine ⟨by rw [hpump], by rw [hpump], by rw [hpump]; exact hadd, by rw [hpump], by rw [hpump],
    fun cmd hm => by rw [hpump]; exact List.mem_append_left _ hm, fun s o hm => ?_, fun model h => ?_⟩
  · rw [AsyncEngine.pumpFailed, (push_outputs _ _).1] at hm
    rcases List.mem_append.mp hm with hm | hm
    · exact .inl hm
    · obtain ⟨p, hp, rfl⟩ := List.mem_map.mp hm
      obtain ⟨hp, hs⟩ := List.mem_filter.mp hp
      rw [List.map_map] at hp
      obtain ⟨u, hu, rfl⟩ := List.mem_map.mp hp
      have hs : u.stream = s := of_decide_eq_true hs
      refine .inr ⟨u, hu, hs, fun _ => ?_⟩
      cases hr : u.finishReason with
      | some reason => exact .inl (by simp)
      | none =>
        refine .inr ?_
        rw [hpump]
        refine List.mem_append_right _ (List.mem_filterMap.mpr ⟨u, hu, ?_⟩)
        simp only [abortOf, hr, hs]
  · rw [hpump]
    have hq : Sane model { a with commands := a.commands ++ (a.fetched n).filterMap abortOf } :=
      h.requeue (hadd ▸ List.Sublist.refl _) fun c fn hm =>
        (List.mem_append.mp hm).elim (h.proper c fn) fun hm => absurd hm (hcalls _ c fn)
    exact hq.elsewhere _ _ _ _ _ _

structure Ordered (a : AsyncEngine) : Prop where
  last : a.updates.flatten.Pairwise fun u v => u.stream = v.stream → u.finishReason = none
  ended : ∀ u ∈ a.updates.flatten, u.finishReason ≠ none → u.stream ∉ a.liveStreams
  goes_on : ∀ u ∈ a.updates.flatten, u.finishReason = none → u.stream ∈ a.liveStreams ∨
    ∃ v ∈ a.updates.flatten, v.stream = u.stream ∧ v.finishReason ≠ none
  used : ∀ u ∈ a.updates.flatten, ¬ a.Fresh u.stream
  pushed : ∀ s, ∀ o ∈ a.outputs s, ¬ a.Fresh s
  told : ∀ s, (∃ o ∈ a.outputs s, o.finishReason ≠ none) → s ∈ a.liveStreams → .abort s ∈ a.commands ∨ a.Failing

theorem Ordered.start (c : EngineConfig) : Ordered (start c) :=
  ⟨List.Pairwise.nil, by simp, by simp, by simp, by simp, by simp⟩

theorem Ordered.served (h : Ordered a) (hs : Served model a a' us) : Ordered a' := by
  have hS := hs.sends
  refine ⟨?_, fun u hu hr => ?_, fun u hu hr => ?_, fun u hu => ?_, fun s o ho => ?_, fun s ho hl => ?_⟩
  · rw [hs.updates]
    refine List.pairwise_append.mpr ⟨h.last, hS.last, fun u hu v hv he => ?_⟩
    by_contra hr
    rcases hS.from_live v hv with hm | hm
    · exact h.ended u hu hr (he ▸ hm)
    · exact h.used u hu (he ▸ hm)
  · rw [hs.updates] at hu
    rcases List.mem_append.mp hu with hu | hu
    · exact hS.stays_closed (h.used u hu) (h.ended u hu hr)
    · exact hS.ends u hu hr
  · rw [hs.updates] at hu ⊢
    rcases List.mem_append.mp hu with hu | hu
    · rcases h.goes_on u hu hr with hm | ⟨v, hv, hvs⟩
      · rcases hS.closes _ hm with hm | ⟨v, hv, hvs⟩
        · exact .inl hm
        · exact .inr ⟨v, List.mem_append_right _ hv, hvs⟩
      · exact .inr ⟨v, List.mem_append_left _ hv, hvs⟩
    · rcases hS.goes_on u hu hr with hm | ⟨v, hv, hvs⟩
      · exact .inl hm
      · exact .inr ⟨v, List.mem_append_right _ hv, hvs⟩
  · rw [hs.updates] at hu
    rcases List.mem_append.mp hu with hu | hu
    · exact hS.not_fresh (h.used u hu)
    · exact hS.used u hu
  · rw [hs.outputs] at ho
    exact hS.not_fresh (h.pushed s o ho)
  · rw [hs.outputs] at ho
    obtain ⟨o, hm, hr⟩ := ho
    have hnot := h.pushed s o hm
    have hlive := (hS.opens s hl).resolve_right hnot
    rcases hS.aborts s hnot (h.told s ⟨o, hm, hr⟩ hlive) with h1 | h1 | h1
    · exact .inl h1
    · exact .inr h1
    · exact absurd hl h1

theorem flatten_fetched (n : Nat) (a : AsyncEngine) : a.updates.flatten = a.fetched n ++ (a.updates.drop n).flatten := by
  rw [fetched, ← List.flatten_append, List.take_append_drop]

theorem Pumped.fresh (h : Pumped a n a') : a'.Fresh s ↔ a.Fresh s := by
  unfold Fresh
  rw [h.adds, h.numStreams]

theorem Ordered.pumped (h : Ordered a) (hp : Pumped a n a') : Ordered a' := by
  have hlive : a'.liveStreams = a.liveStreams := by rw [liveStreams, hp.live, liveStreams]
  have hsplit := flatten_fetched n a
  have hsub : ∀ u ∈ a'.updates.flatten, u ∈ a.updates.flatten := fun u hu => by
    rw [hp.updates] at hu
    rw [hsplit]
    exact List.mem_append_right _ hu
  have hlast := h.last
  rw [hsplit] at hlast
  have hfetched : ∀ u ∈ a.fetched n, u ∈ a.updates.flatten := fun u hu => hsplit ▸ List.mem_append_left _ hu
  refine ⟨?_, fun u hu hr => ?_, fun u hu hr => ?_, fun u hu hf => ?_, fun s o ho hf => ?_, fun s ho hl => ?_⟩
  · rw [hp.updates]
    exact (List.pairwise_append.mp hlast).2.1
  · rw [hlive]
    exact h.ended u (hsub u hu) hr
  · rw [hlive]
    refine (h.goes_on u (hsub u hu) hr).imp_right ?_
    rintro ⟨v, hv, hvs, hvr⟩
    rw [hp.updates] at hu ⊢
    rw [hsplit] at hv
    rcases List.mem_append.mp hv with hv | hv
    · exact absurd ((List.pairwise_append.mp hlast).2.2 v hv u hu hvs) hvr
    · exact ⟨v, hv, hvs, hvr⟩
  · exact h.used u (hsub u hu) (hp.fresh.mp hf)
  · have hf := hp.fresh.mp hf
    rcases hp.outputs s o ho with ho | ⟨u, hu, rfl, -⟩
    · exact h.pushed s o ho hf
    · exact h.used u (hfetched u hu) hf
  · rw [hlive] at hl
    obtain ⟨o, ho, hr⟩ := ho
    rcases hp.outputs s o ho with ho | ⟨u, hu, rfl, hend⟩
    · refine (h.told s ⟨o, ho, hr⟩ hl).imp (hp.commands _) ?_
      rintro ⟨e, he⟩
      exact ⟨e, hp.thread.trans he⟩
    · rcases hend hr with hur | hab
      · exact absurd hl (h.ended u (hfetched u hu) hur)
      · exact .inl hab

end AsyncEngine

end Pump

namespace Serving

open AsyncEngine

variable {sv sv' sv'' : Serving} {n : Nat} {decode : Decode} {model : Model} {c : EngineConfig} {mv : Move} {k : Sid}

def Held (sv : Serving) : Prop :=
  ∀ s ∈ sv.states, s ∈ sv.srv.liveStreams ∨ ∃ v ∈ sv.srv.updates.flatten, v.stream = s ∧ v.finishReason ≠ none

theorem pump_srv (n : Nat) (decode : Decode) (sv : Serving) : Pumped sv.srv n (sv.pump n decode).srv := by
  unfold pump
  split
  · exact pump_pumped _ _ _
  · exact pumpFailed_pumped _ _

theorem pump_states (n : Nat) (decode : Decode) (sv : Serving) :
    (sv.pump n decode).states = (detokenize decode 0 (sv.items n) sv.states).2 := by
  unfold pump
  split <;> next h => rw [h]

theorem mem_items {it : DetokenizeItem} : it ∈ sv.items n ↔ ∃ u ∈ sv.srv.fetched n, sv.srv.item u = it := List.mem_map

theorem lasts_items (h : Ordered sv.srv) (n : Nat) : Lasts (sv.items n) := by
  have hlast := h.last
  rw [flatten_fetched n] at hlast
  refine List.pairwise_map.mpr ((List.pairwise_append.mp hlast).1.imp fun hr he => ?_)
  show Option.isSome _ = false
  rw [hr he]
  rfl

theorem Held.pump (h : Held sv) (ho : Ordered sv.srv) (hclean : Clean decode (sv.items n) sv.states) :
    Held (sv.pump n decode) := by
  intro s hs
  rw [pump_states] at hs
  have hP := pump_srv n decode sv
  have hlive : (sv.pump n decode).srv.liveStreams = sv.srv.liveStreams := by rw [liveStreams, hP.live, liveStreams]
  obtain ⟨hopen, hwas⟩ := detokenize_left (lasts_items ho n) hclean hs
  -- Its last update is not among those taken.
  have hrest : (∃ v ∈ sv.srv.updates.flatten, v.stream = s ∧ v.finishReason ≠ none) →
      ∃ v ∈ (sv.pump n decode).srv.updates.flatten, v.stream = s ∧ v.finishReason ≠ none := by
    rintro ⟨v, hv, rfl, hr⟩
    rw [flatten_fetched n] at hv
    rw [hP.updates]
    rcases List.mem_append.mp hv with hv | hv
    · have hnot := hopen (sv.srv.item v) (mem_items.mpr ⟨v, hv, rfl⟩) rfl
      exact absurd (Option.isSome_eq_false_iff.mp hnot) (by simpa using hr)
    · exact ⟨v, hv, rfl, hr⟩
  rw [hlive]
  rcases hwas with hst | ⟨it, hit, rfl⟩
  · exact (h s hst).imp_right hrest
  · obtain ⟨u, hu, rfl⟩ := mem_items.mp hit
    have hr : u.finishReason = none := by
      have hnot := hopen _ hit rfl
      simpa [AsyncEngine.item] using hnot
    have hm : u ∈ sv.srv.updates.flatten := by
      rw [flatten_fetched n]
      exact List.mem_append_left _ hu
    exact (ho.goes_on u hm hr).imp_right hrest

theorem Held.served {a : AsyncEngine} {us : List Update} (h : Held sv) (hs : Served model sv.srv a us) :
    Held ⟨a, sv.states⟩ := by
  intro s hm
  simp only [hs.updates]
  rcases h s hm with hl | ⟨v, hv, hvs⟩
  · rcases hs.sends.closes s hl with hl | ⟨v, hv, hvs⟩
    · exact .inl hl
    · exact .inr ⟨v, List.mem_append_right _ hv, hvs⟩
  · exact .inr ⟨v, List.mem_append_left _ hv, hvs⟩

structure Steady (model : Model) (sv : Serving) : Prop where
  sane : Sane model sv.srv
  ordered : Ordered sv.srv

theorem Steady.start (c : EngineConfig) : Steady model ⟨Server.start c, ∅⟩ := ⟨Sane.start c, Ordered.start c⟩

theorem Steady.served (h : Steady model sv) {ev : Event} {a : AsyncEngine} (hcall : Calling model sv (.thread ev))
    (hn : Next model (fun _ _ => False) ev sv.srv a) : ∃ us, Served model sv.srv a us :=
  h.sane.next (fun fn he => by
    subst he
    exact hcall) hn

theorem Steady.serves (h : Steady model sv) (hcall : Calling model sv mv) (hs : Serves model mv sv sv') :
    Steady model sv' := by
  cases hs with
  | thread hn =>
    obtain ⟨us, hserved⟩ := h.served hcall hn
    exact ⟨hserved.sane, h.ordered.served hserved⟩
  | pump n decode =>
    have hP := pump_srv n decode sv
    exact ⟨hP.sane model h.sane, h.ordered.pumped hP⟩

-- Whenever a batch raises, no request ends in what is left of it that has a state by then.
def Cleanly (sv : Serving) : Move → Prop
  | .thread _ => True
  | .pump n decode => Clean decode (sv.items n) sv.states

theorem Held.serves (h : Held sv) (hsteady : Steady model sv) (hcall : Calling model sv mv) (hclean : sv.Cleanly mv)
    (hs : Serves model mv sv sv') : Held sv' := by
  cases hs with
  | thread hn =>
    obtain ⟨us, hserved⟩ := hsteady.served hcall hn
    exact h.served hserved
  | pump n decode => exact h.pump hsteady.ordered hclean

theorem Run.steady {ok : Serving → Move → Prop} (hok : ∀ sv mv, ok sv mv → Calling model sv mv)
    (h : Run model ok sv sv') (hs : Steady model sv) : Steady model sv' := by
  induction h with
  | refl => exact hs
  | tail _ hn ih =>
    obtain ⟨mv, hmv, hn⟩ := hn
    exact ih.serves (hok _ _ hmv) hn

theorem Run.held (h : Run model (fun sv mv => Calling model sv mv ∧ sv.Cleanly mv) ⟨Server.start c, ∅⟩ sv) :
    Held sv := by
  have hsteady := fun x (hx : Run model (fun sv mv => Calling model sv mv ∧ sv.Cleanly mv) ⟨Server.start c, ∅⟩ x) =>
    Run.steady (fun _ _ hmv => hmv.1) hx (Steady.start c)
  induction h with
  | refl =>
    intro s hm
    exact absurd hm (AList.notMem_empty s)
  | tail h1 hn ih =>
    obtain ⟨mv, hmv, hn⟩ := hn
    exact ih.serves (hsteady _ h1) hmv.1 hmv.2 hn

-- Every stream has been sent a terminal output, the engine thread has handled all aborts, and the pump what came of
-- them; once the thread has exited, nothing more is handled.
structure Settled (sv : Serving) : Prop where
  told : ∀ s < sv.srv.numStreams, ∃ o ∈ sv.srv.outputs s, o.finishReason ≠ none
  aborts : sv.srv.thread = .exited ∨ (sv.srv.thread = .running ∧ ∀ s, .abort s ∉ sv.srv.commands)
  updates : sv.srv.updates = []

theorem numStates_eq_zero (h : ∀ s, s ∉ sv.states) : sv.numStates = 0 := by
  unfold numStates States.numStates
  cases he : sv.states.entries with
  | nil => rfl
  | cons x l =>
    refine absurd (AList.mem_keys.mpr ?_) (h x.1)
    simp [AList.keys, he]

theorem numStates_ne_zero (h : k ∈ sv.states) : sv.numStates ≠ 0 := by
  unfold numStates States.numStates
  intro h0
  have hk := AList.mem_keys.mp h
  rw [AList.keys, List.eq_nil_of_length_eq_zero h0] at hk
  simp at hk

theorem Settled.not_live (h : Settled sv) (hsteady : Steady model sv) : k ∉ sv.srv.liveStreams := by
  intro hl
  have hold := hsteady.sane.live_old k hl
  have hlt : k < sv.srv.numStreams := by
    by_contra hge
    exact hold (.inr (not_lt.mp hge))
  rcases h.aborts with hx | ⟨hrun, hnone⟩
  · simp [liveStreams, hsteady.sane.exited hx] at hl
  · rcases hsteady.ordered.told k (h.told k hlt) hl with hab | ⟨e, he⟩
    · exact hnone k hab
    · rw [hrun] at he
      simp at he

theorem Held.none (h : Held sv) (hsteady : Steady model sv) (hset : Settled sv) : sv.numStates = 0 := by
  refine numStates_eq_zero fun s hs => ?_
  rcases h s hs with hl | ⟨v, hv, -⟩
  · exact hset.not_live hsteady hl
  · simp [hset.updates] at hv

structure Gone (sv : Serving) (k : Sid) : Prop where
  used : ¬ sv.srv.Fresh k
  ended : k ∉ sv.srv.liveStreams
  silent : ∀ u ∈ sv.srv.updates.flatten, u.stream ≠ k

theorem Gone.serves (h : Gone sv k) (hk : k ∈ sv.states) (hsteady : Steady model sv) (hcall : Calling model sv mv)
    (hs : Serves model mv sv sv') : Gone sv' k ∧ k ∈ sv'.states := by
  cases hs with
  | thread hn =>
    obtain ⟨us, hserved⟩ := hsteady.served hcall hn
    refine ⟨⟨hserved.sends.not_fresh h.used, hserved.sends.stays_closed h.used h.ended, fun u hu => ?_⟩, hk⟩
    simp only [hserved.updates] at hu
    rcases List.mem_append.mp hu with hu | hu
    · exact h.silent u hu
    · rintro rfl
      exact (hserved.sends.from_live u hu).elim h.ended h.used
  | pump n decode =>
    have hP := pump_srv n decode sv
    have hlive : (sv.pump n decode).srv.liveStreams = sv.srv.liveStreams := by rw [liveStreams, hP.live, liveStreams]
    have hother : ∀ it ∈ sv.items n, it.key ≠ k := by
      intro it hit
      obtain ⟨u, hu, rfl⟩ := mem_items.mp hit
      refine h.silent u ?_
      rw [flatten_fetched n]
      exact List.mem_append_left _ hu
    refine ⟨⟨fun hf => h.used (hP.fresh.mp hf), hlive ▸ h.ended, fun u hu => h.silent u ?_⟩, ?_⟩
    · rw [hP.updates] at hu
      rw [flatten_fetched n]
      exact List.mem_append_right _ hu
    · rw [pump_states]
      cases hd : detokenize decode 0 (sv.items n) sv.states with
      | mk res st' =>
        cases res with
        | some texts => exact (detokenize_other hd hother).mpr hk
        | none =>
          obtain ⟨done, it, rest, texts, st1, hitems, h1, h2⟩ := detokenize_raised hd
          refine (mem_detokenizeItem_raised h2).mpr (.inr ((detokenize_other h1 fun x hx => hother x ?_).mpr hk))
          rw [hitems]
          exact List.mem_append_left _ hx

theorem Gone.run (h : Gone sv k) (hk : k ∈ sv.states) (hsteady : Steady model sv)
    (hrun : Run model (Calling model) sv sv') : Gone sv' k ∧ k ∈ sv'.states := by
  have hsteady' := fun x (hx : Run model (Calling model) sv x) => Run.steady (fun _ _ hmv => hmv) hx hsteady
  induction hrun with
  | refl => exact ⟨h, hk⟩
  | tail h1 hn ih =>
    obtain ⟨mv, hmv, hn⟩ := hn
    exact ih.1.serves ih.2 (hsteady' _ h1) hmv hn

theorem leaked (hsteady : Steady model sv) (hclean : ¬ Clean decode (sv.items n) sv.states) :
    ∃ k, Gone (sv.pump n decode) k ∧ k ∈ (sv.pump n decode).states := by
  obtain ⟨it, hit, hf, hk, -⟩ := detokenize_leaks (lasts_items hsteady.ordered n) hclean
  obtain ⟨u, hu, rfl⟩ := mem_items.mp hit
  have hr : u.finishReason ≠ none := by
    intro hr
    simp [AsyncEngine.item, hr] at hf
  have hP := pump_srv n decode sv
  have hlive : (sv.pump n decode).srv.liveStreams = sv.srv.liveStreams := by rw [liveStreams, hP.live, liveStreams]
  have hsplit := flatten_fetched n sv.srv
  have hm : u ∈ sv.srv.updates.flatten := hsplit ▸ List.mem_append_left _ hu
  refine ⟨u.stream, ⟨fun hfr => hsteady.ordered.used u hm (hP.fresh.mp hfr), hlive ▸ hsteady.ordered.ended u hm hr,
    fun v hv he => ?_⟩, pump_states n decode sv ▸ hk⟩
  have hlast := hsteady.ordered.last
  rw [hsplit] at hlast
  rw [hP.updates] at hv
  exact hr ((List.pairwise_append.mp hlast).2.2 u hu v hv he.symm)

theorem states_end_with_requests (model : Model) (c : EngineConfig) :
    (∀ sv, Run model (fun sv mv => Calling model sv mv ∧ sv.Cleanly mv) ⟨Server.start c, ∅⟩ sv → Settled sv →
      sv.numStates = 0) ∧
    ∀ sv sv' n decode, Run model (Calling model) ⟨Server.start c, ∅⟩ sv → ¬ sv.Cleanly (.pump n decode) →
      Run model (Calling model) (sv.pump n decode) sv' → sv'.numStates ≠ 0 := by
  refine ⟨fun sv h hset => ?_, fun sv sv' n decode h hclean h' => ?_⟩
  · exact (Run.held h).none (Run.steady (fun _ _ hmv => hmv.1) h (Steady.start c)) hset
  · have hsteady := Run.steady (fun _ _ hmv => hmv) h (Steady.start c)
    obtain ⟨k, hgone, hk⟩ := leaked hsteady hclean
    have hnext : Steady model (sv.pump n decode) :=
      hsteady.serves (show Calling model sv (.pump n decode) from trivial) (.pump n decode)
    exact numStates_ne_zero (hgone.run hk hnext h').2

def broken : Decode := fun _ _ => none

def lost : Serving := Serving.pump ⟨stepped, ∅⟩ 1 broken

theorem stepped_run {ok : Serving → Move → Prop} (hok : ∀ sv ev, (∀ fn, ev ≠ .call fn) → ok sv (.thread ev)) :
    Run (Engine.constant 7) ok ⟨Server.start Engine.tiny, ∅⟩ ⟨stepped, ∅⟩ := by
  have h1 : Next (Engine.constant 7) (fun _ _ => False) (.submit [1, 2] { maxNewTokens := 1 })
    (Server.start Engine.tiny) asked :=
    .submit rfl
  have h2 : Next (Engine.constant 7) (fun _ _ => False) .take asked added := .take rfl rfl
  have h3 : Next (Engine.constant 7) (fun _ _ => False) .step added stepped :=
    .step (by decide +kernel) (.inl (.inl (by decide +kernel)))
  have hrun : Run (Engine.constant 7) ok ⟨Server.start Engine.tiny, ∅⟩ ⟨asked, ∅⟩ :=
    Run.snoc Relation.ReflTransGen.refl (.thread h1) (hok _ _ (by simp))
  exact (hrun.snoc (.thread h2) (hok _ _ (by simp))).snoc (.thread h3) (hok _ _ (by simp))

theorem lost_settled : Settled lost where
  told := fun s hs => by
    have hs : s < 1 := hs
    obtain rfl : s = 0 := by omega
    exact ⟨⟨"", [7], some .error, 2, 1, some .detokenization⟩, by decide +kernel, by decide⟩
  aborts := .inr ⟨by decide +kernel, fun s hs => by
    have hnone : lost.srv.commands = [] := rfl
    simp [hnone] at hs⟩
  updates := by decide +kernel

theorem state_outlives_request :
    ¬ ∀ sv, Run (Engine.constant 7) (Calling (Engine.constant 7)) ⟨Server.start Engine.tiny, ∅⟩ sv →
    Settled sv → sv.numStates = 0 := by
  intro h
  have hcall : Calling (Engine.constant 7) ⟨stepped, ∅⟩ (.pump 1 broken) := trivial
  have hrun : Run (Engine.constant 7) (Calling (Engine.constant 7)) ⟨Server.start Engine.tiny, ∅⟩ lost :=
    (stepped_run fun _ _ => calling).snoc (.pump 1 broken) hcall
  have hone : lost.numStates = 1 := by decide +kernel
  rw [h lost hrun lost_settled] at hone
  simp at hone

def letters : Decode := fun _ ids => some (ids.map fun _ => 'a')

def kept : Serving := Serving.pump ⟨stepped, ∅⟩ 1 letters

theorem kept_settled : Settled kept where
  told := fun s hs => by
    have hs : s < 1 := hs
    obtain rfl : s = 0 := by omega
    exact ⟨⟨"a", [7], some .length, 2, 1, none⟩, by decide +kernel, by decide⟩
  aborts := .inr ⟨by decide +kernel, fun s hs => by
    have hnone : kept.srv.commands = [] := rfl
    simp [hnone] at hs⟩
  updates := by decide +kernel

theorem states_end_with_requests_kept : (kept.srv.outputs 0).map StreamOutput.text = ["a"] ∧ kept.numStates = 0 ∧
    lost.numStates ≠ 0 := by
  have hclean : Cleanly ⟨stepped, ∅⟩ (.pump 1 letters) := clean_of_total (by simp [letters])
  have hleak : ¬ Cleanly ⟨stepped, ∅⟩ (.pump 1 broken) := by
    intro hc
    have hitem : Serving.items ⟨stepped, ∅⟩ 1 = [⟨0, [7], true⟩] := by decide +kernel
    have hraise : Raises broken (Serving.items ⟨stepped, ∅⟩ 1) ∅ [] ⟨0, [7], true⟩ [] := ⟨hitem, [], ∅, rfl, rfl⟩
    exact (hc [] _ [] hraise _ List.mem_cons_self rfl).2 _ List.mem_cons_self rfl
  have hrun : Run (Engine.constant 7) (fun sv mv => Calling (Engine.constant 7) sv mv ∧ sv.Cleanly mv)
      ⟨Server.start Engine.tiny, ∅⟩ kept :=
    (stepped_run fun _ _ hev => ⟨calling hev, trivial⟩).snoc (.pump 1 letters) ⟨trivial, hclean⟩
  obtain ⟨h1, h2⟩ := states_end_with_requests (Engine.constant 7) Engine.tiny
  exact ⟨by decide +kernel, h1 kept hrun kept_settled,
    h2 ⟨stepped, ∅⟩ lost 1 broken (stepped_run fun _ _ => calling) hleak Relation.ReflTransGen.refl⟩

end Serving

end Server

end MiniServe
