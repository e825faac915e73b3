import MiniServe.Engine.Invariants

namespace MiniServe

open KVCacheManager

section Inflight

variable {es : List Entry} {x : Entry} {r : Rid}

def inflightTokens (es : List Entry) (r : Rid) : List Token :=
  es.filterMap fun x => if x.1 = r then x.2.2.map fun _ => x.2.1 else none

theorem inflightTokens_append (es es' : List Entry) (r : Rid) :
    inflightTokens (es ++ es') r = inflightTokens es r ++ inflightTokens es' r := List.filterMap_append

theorem inflightTokens_length (es : List Entry) (r : Rid) : (inflightTokens es r).length = (slotsOf es r).length := by
  induction es with
  | nil => rfl
  | cons x es ih =>
    simp only [inflightTokens, slotsOf, List.filterMap_cons] at ih ⊢
    by_cases h : x.1 = r
    · cases hs : x.2.2 with
      | none => simpa [h, hs] using ih
      | some k => simpa [h, hs] using ih
    · simpa [h] using ih

theorem mem_inflightTokens {tok : Token} : tok ∈ inflightTokens es r ↔ ∃ k, (r, tok, some k) ∈ es := by
  simp only [inflightTokens, List.mem_filterMap]
  constructor
  · rintro ⟨⟨r', tok', slot⟩, hx, h⟩
    split at h
    · next e =>
      simp only at e h
      cases slot with
      | none => simp at h
      | some k =>
        simp only [Option.map_some, Option.some.injEq] at h
        exact ⟨k, by rw [← e, ← h]; exact hx⟩
    · simp at h
  · rintro ⟨k, hx⟩
    exact ⟨_, hx, by simp⟩

end Inflight

theorem lookup_of_mem {l : List (Rid × Token)} {r : Rid} {tok : Token} (hn : (l.map Prod.fst).Nodup)
    (h : (r, tok) ∈ l) : l.lookup r = some tok := by
  induction l with
  | nil => simp at h
  | cons x l ih =>
    obtain ⟨hx, hn⟩ := List.nodup_cons.mp hn
    rcases List.mem_cons.mp h with rfl | h
    · simp
    · have hne : (r == x.1) = false := by
        rw [beq_eq_false_iff_ne]
        rintro rfl
        exact hx (List.mem_map.mpr ⟨_, h, rfl⟩)
      rw [List.lookup_cons, hne]
      exact ih hn h

namespace Launched

variable {L : Launched} {r : Rid} {tok : Token} {k : Nat}

theorem entries_rids (h : L.Whole) : L.entries.map Prod.fst = L.batch.rows.map Row.rid := by
  rw [entries, List.map_fst_zip]
  simp [h.1, h.2]

theorem lookup_ok (h : L.Whole) (hn : (L.entries.map Prod.fst).Nodup) (hx : (r, tok, some k) ∈ L.entries) :
    L.lookup r = .ok tok := by
  rw [entries_rids h] at hn
  have hkeys : (L.rowTokens.map Prod.fst).Nodup := by
    rw [rowTokens, List.map_fst_zip (by simp [h.1])]
    exact hn
  have hmem : (r, tok) ∈ L.rowTokens := by
    obtain ⟨i, hi⟩ := List.mem_iff_getElem?.mp hx
    simp only [entries, List.getElem?_zip_eq_some] at hi
    exact List.mem_iff_getElem?.mpr ⟨i, by rw [rowTokens, List.getElem?_zip_eq_some]; exact ⟨hi.1, hi.2.1⟩⟩
  have hrev : L.rowTokens.reverse.lookup r = some tok := by
    refine lookup_of_mem ?_ (List.mem_reverse.mpr hmem)
    rw [List.map_reverse]
    exact List.nodup_reverse.mpr hkeys
  simp [lookup, hrev]

end Launched

namespace Pool

variable {p p' : Pool} {sample : Option (Rid → Token)} {r : Rid}

-- What a request is: everything the requests of the engine keep from submission to the end.
def Alike (q q' : Request) : Prop := q'.promptIds = q.promptIds ∧ q'.params = q.params ∧ q'.seed = q.seed

theorem Alike.trans {q q' q'' : Request} (h1 : Alike q q') (h2 : Alike q' q'') : Alike q q'' :=
  ⟨h2.1.trans h1.1, h2.2.1.trans h1.2.1, h2.2.2.trans h1.2.2⟩

theorem Alike.ne_nil {q q' : Request} (h : Alike q q') (hq : q.promptIds ≠ []) : q'.promptIds ≠ [] := by
  rw [h.1]; exact hq

theorem Move.alike (h : Move sample p p') (hr : (p.reqs r).promptIds ≠ []) : Alike (p.reqs r) (p'.reqs r) := by
  have hput : ∀ (x : Rid) (q : Request), Alike (p.reqs x) q → Alike (p.reqs r) (Function.update p.reqs x q r) := by
    intro x q hq
    by_cases e : r = x
    · subst e; rw [Function.update_self]; exact hq
    · rw [Function.update_of_ne e]; exact ⟨rfl, rfl, rfl⟩
  cases h with
  | @submit x q hb hx hq =>
    have hne : r ≠ x := by
      rintro rfl
      exact hr (by rw [hb]; rfl)
    show Alike _ (Function.update p.reqs x q r)
    rw [Function.update_of_ne hne]
    exact ⟨rfl, rfl, rfl⟩
  | lookup hr h1 h2 => exact hput _ _ ⟨rfl, rfl, rfl⟩
  | enter hr hn h => exact hput _ _ ⟨rfl, rfl, rfl⟩
  | preempt hr ho hn h => exact hput _ _ ⟨rfl, rfl, rfl⟩
  | evict h => exact ⟨rfl, rfl, rfl⟩
  | extend hf hr ho hn hc hstart hpos hroom hpre h => exact hput _ _ ⟨rfl, rfl, rfl⟩
  | chunk hf ho hpre hlt htok h => exact hput _ _ ⟨rfl, rfl, rfl⟩
  | first hf ho hpre heq htok h => exact hput _ _ ⟨rfl, rfl, rfl⟩
  | again hf ho hdec hlen htok => exact hput _ _ ⟨rfl, rfl, rfl⟩
  | skip ho h => exact ⟨rfl, rfl, rfl⟩
  | fill ho hop hd hr hk hst => exact hput _ _ ⟨rfl, rfl, rfl⟩
  | finish ho hop hd hr hk h => exact hput _ _ (by simp [Alike, Request.dropped, Request.filled])
  | abort hop hr h => exact hput _ _ (by simp [Alike, Request.dropped])
  | turn ho hop => exact ⟨rfl, rfl, rfl⟩

theorem Moves.alike (h : Moves sample p p') (hr : (p.reqs r).promptIds ≠ []) : Alike (p.reqs r) (p'.reqs r) := by
  induction h with
  | refl => exact ⟨rfl, rfl, rfl⟩
  | tail _ hm ih =>
    exact ih.trans (hm.alike (ih.ne_nil hr))

end Pool

namespace Request

variable {q : Request} {slots : List Nat}

theorem Pending.not_mem_tokens (h : q.Pending slots) (hp : placeholder ∉ q.promptIds) (h0 : q.numPending = 0) :
    placeholder ∉ q.tokens := by
  obtain ⟨ready, ho, hr, -⟩ := h
  simp only [h0, List.replicate_zero, List.append_nil] at ho
  rw [tokens, List.mem_append, not_or, ho]
  exact ⟨hp, hr⟩

theorem Pending.last (h : q.Pending slots) (h1 : q.numPending = 1) : q.tokens.drop (q.seqLen - 1) = [placeholder] := by
  obtain ⟨ready, ho, -, -⟩ := h
  rw [h1] at ho
  have hlen : q.seqLen - 1 = (q.promptIds ++ ready).length := by
    simp only [seqLen, ho, List.length_append, List.replicate_one, List.length_singleton]
    omega
  rw [tokens, ho, ← List.append_assoc, hlen, List.drop_left]
  rfl

end Request

theorem ModelRunner.fillRows_plain {b : Batch} {ids : List Token} {prev : Option Launched} (hn : b.numDecode = 0)
    (h : placeholder ∉ ids) : fillRows b ids prev = .ok ids := by
  simp only [fillRows, hn, List.take_zero, List.count_nil]
  rw [if_neg (not_not.mpr (List.count_eq_zero.mpr h).symm)]
  rfl

namespace Engine

variable {e : Engine} {model : Model} {c : EngineConfig} {s : Scheduler} {b : Batch} {row : Row} {es : List Entry}

def inputRow (es : List Entry) (s : Scheduler) (row : Row) : List Token :=
  (ModelRunner.rowIds s row).map fun id => if id = placeholder then (inflightTokens es row.rid).headD 0 else id

theorem inputRow_eq (h : placeholder ∉ ModelRunner.rowIds s row) : inputRow es s row = ModelRunner.rowIds s row := by
  refine (List.map_congr_left fun id hid => ?_).trans (List.map_id _)
  have : id ≠ placeholder := fun e => h (e ▸ hid)
  simp [this]

theorem rowIds_subset : ∀ id ∈ ModelRunner.rowIds s row, id ∈ (s.reqs row.rid).tokens := by
  intro id hid
  rw [ModelRunner.rowIds, Request.tokenSlice_eq] at hid
  exact List.mem_of_mem_drop (List.mem_of_mem_take hid)

section Fill

variable (hs : (s.pool [] es).Sound) (hb : s.BatchFits b)
  (hp : ∀ row ∈ b.rows, placeholder ∉ (s.reqs row.rid).promptIds)

include hs hb

theorem row_pending (hrow : row ∈ b.rows) :
    (s.reqs row.rid).Pending (slotsOf es row.rid) ∧ (s.reqs row.rid).numPending ≤ 1 := by
  have hl : row.rid ∈ s.running ++ [] := by simpa using (hb.rows row hrow).mem
  have hd := hs.not_done (.inl hl)
  have := hs.pending row.rid hd
  simp only [Scheduler.pool, List.append_nil] at this
  exact ⟨this, hs.numPending_le_one rfl hd⟩

theorem decode_ids (hrow : row ∈ b.rows) (hst : (s.reqs row.rid).state = .decode) :
    ∃ id, ModelRunner.rowIds s row = [id] ∧ ((s.reqs row.rid).numPending = 1 → id = placeholder) := by
  have hr := hb.rows row hrow
  have hlen : row.len = 1 := by
    rcases hr.kind with h | h
    · rw [hst] at h; simp at h
    · exact h.2
  have hc := decode_row_complete hs hb hrow hst
  obtain ⟨hpend, -⟩ := row_pending hs hb hrow
  have hslice : ModelRunner.rowIds s row = (s.reqs row.rid).tokens.drop ((s.reqs row.rid).seqLen - 1) := by
    have hstart : row.start = (s.reqs row.rid).seqLen - 1 := by omega
    rw [ModelRunner.rowIds, Request.tokenSlice_eq, hlen, hstart]
    refine List.take_of_length_le ?_
    rw [List.length_drop, Request.tokens_length]
    omega
  have hone : (ModelRunner.rowIds s row).length = 1 := by
    rw [hslice, List.length_drop, Request.tokens_length]
    omega
  obtain ⟨id, hid⟩ := List.length_eq_one_iff.mp hone
  refine ⟨id, hid, fun h1 => ?_⟩
  rw [hslice, hpend.last h1] at hid
  exact (List.cons_eq_cons.mp hid).1.symm

include hp

theorem placeholder_row (hrow : row ∈ b.rows) (hmem : placeholder ∈ ModelRunner.rowIds s row) :
    row ∈ b.rows.take b.numDecode ∧ ∃ tok k, (row.rid, tok, some k) ∈ es ∧ inflightTokens es row.rid = [tok] := by
  obtain ⟨hpend, hle⟩ := row_pending hs hb hrow
  have h1 : (s.reqs row.rid).numPending = 1 := by
    have h0 : (s.reqs row.rid).numPending ≠ 0 := fun h0 =>
      hpend.not_mem_tokens (hp row hrow) h0 (rowIds_subset _ hmem)
    omega
  refine ⟨?_, ?_⟩
  · rw [← List.take_append_drop b.numDecode b.rows] at hrow
    refine (List.mem_append.mp hrow).resolve_right fun hd => ?_
    have hst := hb.prefill row hd
    have hl : row.rid ∈ s.running ++ [] := by simpa using (hb.rows row (List.mem_of_mem_drop hd)).mem
    rcases (Scheduler.pool_active hs hl).phase with h | h
    · omega
    · rw [hst] at h; simp at h
  · have hlen : (inflightTokens es row.rid).length = 1 := by
      rw [inflightTokens_length, hpend.length, h1]
    obtain ⟨tok, htok⟩ := List.length_eq_one_iff.mp hlen
    obtain ⟨k, hk⟩ := mem_inflightTokens.mp (htok ▸ List.mem_singleton_self tok : tok ∈ inflightTokens es row.rid)
    exact ⟨tok, k, hk, htok⟩

theorem flatMap_no_placeholder : placeholder ∉ (b.rows.drop b.numDecode).flatMap (ModelRunner.rowIds s) := by
  intro h
  obtain ⟨row, hrow, hmem⟩ := List.mem_flatMap.mp h
  have hrow' := List.mem_of_mem_drop hrow
  obtain ⟨htake, -⟩ := placeholder_row hs hb hp hrow' hmem
  have h1 := hb.decode row htake
  rw [hb.prefill row hrow] at h1
  simp at h1

omit hp in
theorem length_decode_ids {rows : List Row} (hsub : rows ⊆ b.rows.take b.numDecode) :
    (rows.flatMap (ModelRunner.rowIds s)).length = rows.length := by
  induction rows with
  | nil => rfl
  | cons row rows ih =>
    have hrow := hsub List.mem_cons_self
    obtain ⟨id, hid, -⟩ := decode_ids hs hb (List.mem_of_mem_take hrow) (hb.decode row hrow)
    have ih := ih fun x hx => hsub (List.mem_cons_of_mem _ hx)
    rw [List.flatMap_cons, List.length_append, hid, ih, List.length_singleton, List.length_cons]
    omega

theorem fillInputs_ok {L : Launched} {rows : List Row} (hL : L.Whole) (hes : L.entries = es)
    (hsub : rows ⊆ b.rows.take b.numDecode) (rest : List Token) :
    ModelRunner.fillInputs L rows (rows.flatMap (ModelRunner.rowIds s) ++ rest) =
      .ok (rows.flatMap (inputRow es s) ++ rest) := by
  induction rows with
  | nil => cases rest <;> rfl
  | cons row rows ih =>
    have hrow := hsub List.mem_cons_self
    have hrow' := List.mem_of_mem_take hrow
    obtain ⟨id, hid, -⟩ := decode_ids hs hb hrow' (hb.decode row hrow)
    have ih := ih fun x hx => hsub (List.mem_cons_of_mem _ hx)
    have hin : inputRow es s row = [if id = placeholder then (inflightTokens es row.rid).headD 0 else id] := by
      simp [inputRow, hid]
    have htok : (if id = placeholder then L.lookup row.rid else .ok id) =
        .ok (if id = placeholder then (inflightTokens es row.rid).headD 0 else id) := by
      by_cases he : id = placeholder
      · obtain ⟨-, tok, k, hk, hone⟩ := placeholder_row hs hb hp hrow' (by rw [hid, he]; exact List.mem_singleton_self _)
        have hnd : (L.entries.map Prod.fst).Nodup := hes ▸ hs.older_once
        rw [if_pos he, if_pos he, hone, L.lookup_ok hL hnd (hes ▸ hk)]
        rfl
      · rw [if_neg he, if_neg he]
    simp only [List.flatMap_cons, hid, hin, List.cons_append, List.nil_append, ModelRunner.fillInputs]
    rw [htok, ih]

theorem fillRows_ok {prev : Option Launched} (hprev : ∀ L, prev = some L → L.Whole)
    (hes : inflightEntries prev = es) :
    ModelRunner.fillRows b (b.rows.flatMap (ModelRunner.rowIds s)) prev = .ok (b.rows.flatMap (inputRow es s)) := by
  have hsplit : b.rows.flatMap (ModelRunner.rowIds s) = (b.rows.take b.numDecode).flatMap (ModelRunner.rowIds s) ++
      (b.rows.drop b.numDecode).flatMap (ModelRunner.rowIds s) := by
    rw [← List.flatMap_append, List.take_append_drop]
  have hsplit' : b.rows.flatMap (inputRow es s) = (b.rows.take b.numDecode).flatMap (inputRow es s) ++
      (b.rows.drop b.numDecode).flatMap (ModelRunner.rowIds s) := by
    rw [← List.take_append_drop b.numDecode b.rows, List.flatMap_append]
    simp only [List.take_append_drop]
    congr 1
    refine List.flatMap_congr fun row hrow => inputRow_eq fun hmem => ?_
    exact flatMap_no_placeholder hs hb hp (List.mem_flatMap.mpr ⟨row, hrow, hmem⟩)
  have hlen : ((b.rows.take b.numDecode).flatMap (ModelRunner.rowIds s)).length = b.numDecode := by
    rw [length_decode_ids hs hb (List.Subset.refl _), List.length_take]
    exact Nat.min_eq_left hb.numDecode_le
  have hzero : ((b.rows.drop b.numDecode).flatMap (ModelRunner.rowIds s)).count placeholder = 0 :=
    List.count_eq_zero_of_not_mem (flatMap_no_placeholder hs hb hp)
  have htake : (b.rows.flatMap (ModelRunner.rowIds s)).take b.numDecode =
      (b.rows.take b.numDecode).flatMap (ModelRunner.rowIds s) := by
    rw [hsplit, List.take_left' hlen]
  unfold ModelRunner.fillRows
  simp only [htake]
  rw [if_neg (by rw [hsplit, List.count_append, hzero]; simp)]
  by_cases hnone : ((b.rows.take b.numDecode).flatMap (ModelRunner.rowIds s)).count placeholder = 0
  · rw [if_pos hnone, hsplit, hsplit']
    congr 2
    refine (List.flatMap_congr fun row hrow => inputRow_eq fun hmem => ?_).symm
    exact List.count_eq_zero.mp hnone (List.mem_flatMap.mpr ⟨row, hrow, hmem⟩)
  · rw [if_neg hnone]
    have hmem : placeholder ∈ (b.rows.take b.numDecode).flatMap (ModelRunner.rowIds s) :=
      List.count_pos_iff.mp (Nat.pos_of_ne_zero hnone)
    obtain ⟨row, hrow, hid⟩ := List.mem_flatMap.mp hmem
    obtain ⟨-, tok, k, hk, -⟩ := placeholder_row hs hb hp (List.mem_of_mem_take hrow) hid
    cases prev with
    | none => simp [inflightEntries, ← hes] at hk
    | some L =>
      rw [hsplit, hsplit']
      exact fillInputs_ok hs hb hp (hprev L rfl) hes (List.Subset.refl _) _

end Fill

section Discipline

variable {e' : Engine} {ok : List Token → Prop} {r : Rid}

theorem Stepped.alike (h : Stepped model e e') (hr : (e.request r).promptIds ≠ []) :
    Pool.Alike (e.request r) (e'.request r) := by
  cases h with
  | idle hsch hm => exact hm.alike hr
  | launch hsch hb hids hs hL hp =>
    have h1 := (hs.trans hL.opens).alike hr
    have h2 := hL.settles.alike (h1.ne_nil hr)
    exact (h1.trans h2).trans (hp.alike ((h1.trans h2).ne_nil hr))

theorem Sound.promptIds_ne (he : e.Sound) (hr : r ∈ e.requests) : (e.request r).promptIds ≠ [] := by
  refine he.pool.prompt ?_
  simpa [Scheduler.openPool, Scheduler.pool] using he.mem_queues.mp hr

-- What held of a request when it was accepted holds of it until it ends, if it is about nothing that changes.
theorem Reachable.kept {P : Scheduler → Request → Prop} (h : Reachable model c ok e)
    (hP : ∀ {s s' q q'}, Scheduler.Same s s' → Pool.Alike q q' → P s q → P s' q')
    (hadd : ∀ {s : Scheduler} {q : Request}, ok q.promptIds →
      s.blocksFor (q.maxLen + s.tokensPerStep - 1) ≤ s.kv.allocator.numBlocks → P s q) :
    ∀ r ∈ e.requests, P e.scheduler (e.request r) := by
  have hkeep : ∀ {e e' : Engine}, e.Sound → Scheduler.Same e.scheduler e'.scheduler →
      (∀ r, (e.request r).promptIds ≠ [] → Pool.Alike (e.request r) (e'.request r)) →
      (∀ x ∈ e'.requests, x ∈ e.requests) → (∀ r ∈ e.requests, P e.scheduler (e.request r)) →
      ∀ r ∈ e'.requests, P e'.scheduler (e'.request r) := by
    intro e e' he hsame hm hsub hok r hr
    exact hP hsame (hm r (he.promptIds_ne (hsub r hr))) (hok r (hsub r hr))
  induction h with
  | init => simp [new]
  | @add e prompt params h hp ih =>
    rcases e.addRequest_cases prompt params with ⟨err, d, he⟩ | ⟨q, d, hq, hrid, hpr, -, -, hfit, he⟩
    · rw [he]; exact ih
    · rw [he]
      intro r hr
      have hsame : Scheduler.Same e.scheduler
          { e.scheduler.set q.rid q with waiting := e.scheduler.waiting ++ [q.rid] } :=
        ⟨rfl, rfl, rfl, rfl, rfl, rfl, rfl, rfl⟩
      refine hP hsame ⟨rfl, rfl, rfl⟩ ?_
      show P e.scheduler (Function.update e.scheduler.reqs q.rid q r)
      by_cases hx : r = q.rid
      · subst hx
        rw [Function.update_self]
        exact hadd (hpr ▸ hp) hfit
      · rw [Function.update_of_ne hx]
        exact ih r ((List.mem_append.mp hr).resolve_right (by simpa using hx))
  | @abort e e' r h ha ih =>
    obtain ⟨e1, h1, -, hm, hk⟩ := h.sound.abort r
    obtain rfl : e1 = e' := Except.ok.inj (h1.symm.trans ha)
    exact hkeep h.sound hk.same (fun r hr => hm.alike hr)
      (advanced_of e h.sound (List.Perm.refl _) (Scheduler.Same.refl _) rfl h.sound.requests hk).requests ih
  | step h hs ih =>
    rcases h.sound.step_cases model with ⟨s, -, h1⟩ | ⟨b, s, err, -, -, h1⟩ | ⟨out', e1, h1, -, hst, hadv⟩
    · rw [hs] at h1; simp at h1
    · rw [hs] at h1; simp at h1
    · rw [hs] at h1
      obtain rfl := (Prod.mk.inj h1).2
      exact hkeep h.sound hadv.same (fun r hr => hst.alike hr) hadv.requests ih
  | @raised e s err h hs ih =>
    obtain ⟨hS, -⟩ := h.sound.schedule
    rw [hs] at hS
    let e' : Engine := { e with scheduler := s }
    have hm : Pool.Moves none e.pool e'.pool := hS.step.moves
    exact hkeep h.sound hS.step.same (fun r hr => hm.alike hr) (fun _ hx => hx) ih

theorem Reachable.prompts (h : Reachable model c ok e) : ∀ r ∈ e.requests, ok (e.request r).promptIds :=
  h.kept (P := fun _ q => ok q.promptIds) (fun _ ha hq => ha.1 ▸ hq) fun hok _ => hok

structure Fills (e : Engine) (s : Scheduler) (b : Batch) : Prop where
  filled : ModelRunner.fillRows b (b.rows.flatMap (ModelRunner.rowIds s)) e.inflight =
    .ok (b.rows.flatMap (inputRow e.entries s))
  kept : ∀ row ∈ b.rows, ∀ (i : Nat) id, (ModelRunner.rowIds s row)[i]? = some id → id ≠ placeholder →
    (inputRow e.entries s row)[i]? = some id
  replaced : ∀ row ∈ b.rows, ∀ i : Nat, (ModelRunner.rowIds s row)[i]? = some placeholder →
    row ∈ b.rows.take b.numDecode ∧ (s.reqs row.rid).state = .decode ∧
      ∃ L tok k, e.inflight = some L ∧ (row.rid, tok, some k) ∈ L.entries ∧
        (inputRow e.entries s row)[i]? = some tok

theorem mem_entries {x : Entry} : x ∈ e.entries ↔ ∃ L, e.inflight = some L ∧ x ∈ L.entries := by
  unfold entries
  cases e.inflight with
  | none => simp [inflightEntries]
  | some L => simp [inflightEntries]

theorem Sound.scheduled_prompt (he : e.Sound) (hs : e.scheduler.schedule = (.ok (some b), s)) (hrow : row ∈ b.rows) :
    row.rid ∈ e.requests ∧ (s.reqs row.rid).promptIds = (e.request row.rid).promptIds := by
  obtain ⟨hS, -⟩ := he.schedule_eq hs
  have hreq : row.rid ∈ e.requests :=
    (he.toCore.scheduled hS).requests.mem_iff.mpr (List.mem_append_left _ ((hS.batch b rfl).rows row hrow).mem)
  have halike := hS.step.moves.alike (r := row.rid) (he.promptIds_ne hreq)
  exact ⟨hreq, halike.1⟩

theorem Sound.fills (he : e.Sound) (hs : e.scheduler.schedule = (.ok (some b), s))
    (hp : ∀ row ∈ b.rows, placeholder ∉ (e.request row.rid).promptIds) : Fills e s b := by
  obtain ⟨hS, -⟩ := he.schedule_eq hs
  have hpool : (s.pool [] e.entries).Sound := (he.toCore.scheduled hS).pool
  have hb : s.BatchFits b := hS.batch b rfl
  have hp' : ∀ row ∈ b.rows, placeholder ∉ (s.reqs row.rid).promptIds := by
    intro row hrow
    rw [(he.scheduled_prompt hs hrow).2]
    exact hp row hrow
  refine ⟨fillRows_ok hpool hb hp' he.rows rfl, fun row hrow i id hid hne => ?_, fun row hrow i hid => ?_⟩
  · simp [inputRow, hid, hne]
  · obtain ⟨h1, tok, k, hk, hone⟩ := placeholder_row hpool hb hp' hrow (List.mem_of_getElem? hid)
    obtain ⟨L, hL, hmem⟩ := mem_entries.mp hk
    exact ⟨h1, hb.decode row h1, L, tok, k, hL, hmem, by simp [inputRow, hid, hone]⟩

def lagging : Engine :=
  (Engine.step ((new { tiny with overlap := true }).addRequest [1, 2] { maxNewTokens := 2 }).2 (constant 7)).2

end Discipline

end Engine

end MiniServe
