import MiniServe.Engine.Placeholder

namespace MiniServe

namespace Pool

variable {p p' : Pool} {sample : Option (Rid → Token)} {r : Rid} {q : Request}

-- The tokens sampled so far, the ones in flight included, fit the device's dtype.
structure Longs (p : Pool) : Prop where
  outputs : ∀ r, ∀ t ∈ (p.reqs r).outputIds, IsLong t
  entries : ∀ x ∈ p.older ++ p.newer, IsLong x.2.1

theorem Longs.put (h : p.Longs) (hq : ∀ t ∈ q.outputIds, IsLong t) (x : Rid) :
    ∀ t ∈ (Function.update p.reqs r q x).outputIds, IsLong t := by
  by_cases hx : x = r
  · subst hx
    rw [Function.update_self]
    exact hq
  · rw [Function.update_of_ne hx]
    exact h.outputs x

theorem Longs.sampled (h : p.Longs) (r : Rid) : ∀ t ∈ (p.reqs r).sampled.outputIds, IsLong t := by
  intro t ht
  rcases List.mem_append.mp ht with ht | ht
  · exact h.outputs r t ht
  · exact List.mem_singleton.mp ht ▸ placeholder_long

theorem Longs.filled {tok : Token} {k : Nat} (h : p.Longs) (hx : (r, tok, some k) ∈ p.older) :
    ∀ t ∈ ((p.reqs r).filled k tok).outputIds, IsLong t := by
  intro t ht
  rcases List.mem_or_eq_of_mem_set ht with ht | rfl
  · exact h.outputs r t ht
  · exact h.entries _ (List.mem_append_left _ hx)

theorem dropPending_subset (hq : ∀ t ∈ q.outputIds, IsLong t) : ∀ t ∈ q.dropPending.outputIds, IsLong t := by
  intro t ht
  rw [Request.dropPending_outputIds] at ht
  exact hq t (List.mem_of_mem_take ht)

theorem Longs.popped {x : Entry} {rest : List Entry} (h : p.Longs) (ho : p.older = x :: rest) :
    ∀ y ∈ rest ++ p.newer, IsLong y.2.1 := by
  intro y hy
  apply h.entries
  rw [ho]
  exact List.mem_cons_of_mem _ hy

theorem Longs.pushed {x : Entry} (h : p.Longs) (hx : IsLong x.2.1) :
    ∀ y ∈ p.older ++ (p.newer ++ [x]), IsLong y.2.1 := by
  intro y hy
  rw [← List.append_assoc] at hy
  rcases List.mem_append.mp hy with hy | hy
  · exact h.entries y hy
  · exact List.mem_singleton.mp hy ▸ hx

theorem Move.longs (h : Move sample p p') (hf : ∀ f, sample = some f → ∀ r, IsLong (f r)) (hp : p.Longs) : p'.Longs := by
  cases h with
  | submit hb hr hq => exact ⟨hp.put (by simp [hq.output]), hp.entries⟩
  | lookup hr h1 h2 => exact ⟨hp.put (hp.outputs _), hp.entries⟩
  | enter hr hn h => exact ⟨hp.put (hp.outputs _), hp.entries⟩
  | preempt hr ho hn h => exact ⟨hp.put (hp.outputs _), hp.entries⟩
  | evict h => exact ⟨hp.outputs, hp.entries⟩
  | extend hs hr ho hn hc hstart hpos hroom hpre h => exact ⟨hp.put (hp.outputs _), hp.entries⟩
  | chunk hs ho hpre hlt htok h => exact ⟨hp.put (hp.outputs _), hp.pushed (hf _ hs _)⟩
  | first hs ho hpre heq htok h => exact ⟨hp.put (hp.sampled _), hp.pushed (hf _ hs _)⟩
  | again hs ho hdec hlen htok => exact ⟨hp.put (hp.sampled _), hp.pushed (hf _ hs _)⟩
  | skip ho h => exact ⟨hp.outputs, hp.popped ho⟩
  | fill ho hop hd hr hk hst => exact ⟨hp.put (hp.filled (ho ▸ List.mem_cons_self)), hp.popped ho⟩
  | finish ho hop hd hr hk h =>
    exact ⟨hp.put (dropPending_subset (hp.filled (ho ▸ List.mem_cons_self))), hp.popped ho⟩
  | abort hop hr h => exact ⟨hp.put (dropPending_subset (hp.outputs _)), hp.entries⟩
  | turn ho hop =>
    refine ⟨hp.outputs, fun x hx => hp.entries x ?_⟩
    simpa [ho] using hx

theorem Moves.longs (h : Moves sample p p') (hf : ∀ f, sample = some f → ∀ r, IsLong (f r)) (hp : p.Longs) :
    p'.Longs := by
  induction h with
  | refl => exact hp
  | tail _ hm ih => exact hm.longs hf ih

theorem Moves.longs_none (h : Moves none p p') (hp : p.Longs) : p'.Longs := h.longs (by simp) hp

end Pool

namespace Engine

variable {e e' : Engine} {model : Model} {c : EngineConfig} {ok : List Token → Prop} {b : Batch} {s : Scheduler}

theorem Stepped.longs (h : Stepped model e e') (hm : model.Long) (hl : e.pool.Longs) : e'.pool.Longs := by
  cases h with
  | idle hsch hm hd he1 hk hi => exact hm.longs_none hl
  | launch hsch hb hids hs hL hp hd he2 hk =>
    have hl1 := hL.opens.longs_none (hs.longs_none hl)
    have hl2 := hL.settles.longs (fun f hf r => Option.some.inj hf ▸ hm _ _ _ _) hl1
    exact hp.longs_none hl2

theorem Reachable.longs (h : Reachable model c ok e) (hm : model.Long) : e.pool.Longs := by
  induction h with
  | init => exact ⟨fun r t ht => absurd ht List.not_mem_nil, fun x hx => absurd hx List.not_mem_nil⟩
  | @add e prompt params h hp ih =>
    rcases e.addRequest_cases prompt params with ⟨err, d, he⟩ | ⟨q, d, hq, hrid, -, -, -, -, he⟩
    · rw [he]
      exact ⟨ih.outputs, ih.entries⟩
    · rw [he]
      exact (h.sound.submit hq hrid).2.longs (by simp) ih
  | @abort e e' r h ha ih =>
    obtain ⟨e1, h1, -, hmoves, -⟩ := h.sound.abort r
    obtain rfl : e1 = e' := Except.ok.inj (h1.symm.trans ha)
    exact hmoves.longs_none ih
  | step h hs ih =>
    rcases h.sound.step_cases model with ⟨s, -, h1⟩ | ⟨b, s, err, -, -, h1⟩ | ⟨out', e1, h1, -, hst, -⟩
    · rw [hs] at h1
      simp at h1
    · rw [hs] at h1
      simp at h1
    · rw [hs] at h1
      obtain rfl := (Prod.mk.inj h1).2
      exact hst.longs hm ih
  | raised h hs ih => exact (h.sound.schedule_eq hs).1.step.moves.longs_none ih

theorem Reachable.imp {ok' : List Token → Prop} (h : Reachable model c ok e) (himp : ∀ p, ok p → ok' p) :
    Reachable model c ok' e := by
  induction h with
  | init => exact .init
  | add h hp ih => exact .add ih (himp _ hp)
  | abort h ha ih => exact .abort ih ha
  | step h hs ih => exact .step ih hs
  | raised h hs ih => exact .raised ih hs

theorem Reachable.unmarked (h : Reachable model c Plain e) : Reachable model c (fun prompt => placeholder ∉ prompt) e :=
  h.imp fun _ hp => hp.1

theorem Sound.scheduled_longs (he : e.Sound) (hl : e.pool.Longs) (hs : e.scheduler.schedule = (.ok (some b), s))
    (hp : ∀ row ∈ b.rows, ∀ id ∈ (e.request row.rid).promptIds, IsLong id) :
    ∀ id ∈ b.rows.flatMap (ModelRunner.rowIds s), IsLong id := by
  intro id hid
  obtain ⟨row, hrow, hid⟩ := List.mem_flatMap.mp hid
  have hl' : (s.openPool [] e.entries []).Longs := (he.schedule_eq hs).1.step.moves.longs_none hl
  rcases List.mem_append.mp (rowIds_subset id hid) with hid | hid
  · rw [(he.scheduled_prompt hs hrow).2] at hid
    exact hp row hrow id hid
  · exact hl'.outputs row.rid id hid

theorem Sound.accepts {err : Error} (he : e.Sound) (hl : e.pool.Longs) (hs : e.scheduler.schedule = (.ok (some b), s))
    (hp : ∀ row ∈ b.rows, Plain (e.request row.rid).promptIds) : ¬ Refused s b e.inflight err := by
  rintro (hfill | ⟨-, -, id, hid, hn⟩)
  · rw [(he.fills hs fun row hrow => (hp row hrow).1).filled] at hfill
    simp at hfill
  · exact hn (he.scheduled_longs hl hs (fun row hrow => (hp row hrow).2) id hid)

theorem Reachable.accepts {err : Error} (h : Reachable model c Plain e) (hm : model.Long)
    (hs : e.scheduler.schedule = (.ok (some b), s)) : ¬ Refused s b e.inflight err :=
  h.sound.accepts (h.longs hm) hs fun _ hrow => h.prompts _ (h.sound.scheduled_prompt hs hrow).1

end Engine

end MiniServe
