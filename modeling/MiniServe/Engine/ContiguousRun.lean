import MiniServe.Engine.ContiguousPass

namespace MiniServe

namespace Contiguous

open ModelRunner
open MiniServe.Engine (inflightEntries)

section Fill

variable {L : Launched} {prev : Option Launched} {b : Batch} {rows : List Row} {f g : Row → List Token}

theorem fillInputs_ok (h : ∀ row ∈ rows, ∃ id tok, f row = [id] ∧ g row = [tok] ∧
    (if id = placeholder then L.lookup row.rid else .ok id) = .ok tok) :
    fillInputs L rows (rows.flatMap f) = .ok (rows.flatMap g) := by
  induction rows with
  | nil => rfl
  | cons row rows ih =>
    obtain ⟨id, tok, hf, hg, htok⟩ := h row List.mem_cons_self
    have ih := ih fun x hx => h x (List.mem_cons_of_mem _ hx)
    simp only [List.flatMap_cons, hf, hg, List.cons_append, List.nil_append, fillInputs]
    rw [htok, ih]

-- A row of a decode batch puts in its last token, or the placeholder that the step before has the token for.
structure Fills (prev : Option Launched) (row : Row) (id tok : Token) : Prop where
  read : id ≠ placeholder → id = tok
  hole : id = placeholder → ∃ L, prev = some L ∧ L.lookup row.rid = .ok tok

theorem fillRows_decode (hn : b.numDecode = b.rows.length)
    (h : ∀ row ∈ b.rows, ∃ id tok, f row = [id] ∧ g row = [tok] ∧ Fills prev row id tok) :
    fillRows b (b.rows.flatMap f) prev = .ok (b.rows.flatMap g) := by
  have hlen : (b.rows.flatMap f).length = b.numDecode := by
    rw [List.length_flatMap, hn, List.map_congr_left (g := fun _ => 1), List.map_const', List.sum_replicate, smul_eq_mul,
      Nat.mul_one]
    intro row hrow
    obtain ⟨id, tok, hf, -⟩ := h row hrow
    rw [hf]
    rfl
  simp only [fillRows]
  rw [List.take_of_length_le hlen.le, if_neg (not_not.mpr rfl), List.take_of_length_le hn.ge]
  by_cases hzero : (b.rows.flatMap f).count placeholder = 0
  · rw [if_pos hzero]
    congr 1
    refine List.flatMap_congr fun row hrow => ?_
    obtain ⟨id, tok, hf, hg, hfill⟩ := h row hrow
    have hne : id ≠ placeholder := by
      rintro rfl
      exact List.count_eq_zero.mp hzero (List.mem_flatMap.mpr ⟨row, hrow, by rw [hf]; exact List.mem_singleton_self _⟩)
    rw [hf, hg, hfill.read hne]
  · rw [if_neg hzero]
    obtain ⟨row, hrow, hmem⟩ := List.mem_flatMap.mp (List.count_pos_iff.mp (Nat.pos_of_ne_zero hzero))
    obtain ⟨id, tok, hf, -, hfill⟩ := h row hrow
    rw [hf, List.mem_singleton] at hmem
    obtain ⟨L, rfl, -⟩ := hfill.hole hmem.symm
    refine fillInputs_ok fun x hx => ?_
    obtain ⟨id, tok, hf, hg, hfill⟩ := h x hx
    refine ⟨id, tok, hf, hg, ?_⟩
    by_cases hid : id = placeholder
    · obtain ⟨L', hL', hlook⟩ := hfill.hole hid
      rw [if_pos hid, Option.some.inj hL']
      exact hlook
    · rw [if_neg hid, hfill.read hid]

end Fill

namespace Engine

variable {model : Model} {e e' : Engine} {r : Rid}

def entries (e : Engine) : List Entry := inflightEntries e.inflight

structure Ready (model : Model) (e : Engine) : Prop where
  sound : Sound model e e.entries
  whole : ∀ L, e.inflight = some L → L.Whole
  once : (e.entries.map Prod.fst).Nodup
  long : model.Long
  plain : e.overlap = false → e.inflight = none

namespace Ready

variable (h : Ready model e)

include h

theorem not_done (hr : r ∈ e.queued) : ¬ (e.request r).isDone := by
  rcases List.mem_append.mp hr with hr | hr
  · simp [Request.isDone, (h.sound.runs r hr).state]
  · simp [Request.isDone, (h.sound.waits r hr).state]

theorem numPending_le_one (hr : r ∈ e.queued) : (e.request r).numPending ≤ 1 := by
  rw [← (h.sound.pending r (h.not_done hr)).length]
  exact slotsOf_length h.once r

theorem inflight_nil (hr : r ∈ e.queued) (h0 : (e.request r).numPending = 0) :
    inflightTokens e.entries r = [] ∧ (e.request r).readyIds = (e.request r).outputIds := by
  constructor
  · rw [← List.length_eq_zero_iff, inflightTokens_length, (h.sound.pending r (h.not_done hr)).length, h0]
  · rw [Request.readyIds, h0, Nat.sub_zero, List.take_length]

theorem truth_waiting (hr : r ∈ e.scheduler.waiting) :
    e.truth e.entries r = (e.request r).promptIds ∧ (e.request r).tokens = (e.request r).promptIds := by
  have hw := h.sound.waits r hr
  obtain ⟨h1, h2⟩ := h.inflight_nil (List.mem_append_right _ hr) hw.numPending
  constructor
  · rw [truth, outputs, h1, h2, hw.output, List.append_nil, List.append_nil]
  · rw [Request.tokens, hw.output, List.append_nil]

theorem seqLen_pos (hr : r ∈ e.queued) : 1 ≤ (e.request r).seqLen := by
  have hp : (e.request r).promptIds ≠ [] := by
    rcases List.mem_append.mp hr with hr | hr
    · exact (h.sound.runs r hr).prompt
    · exact (h.sound.waits r hr).prompt
  have := List.length_pos_iff.mpr hp
  simp only [Request.seqLen]
  omega

theorem prompt_plain (hr : r ∈ e.queued) : Plain (e.request r).promptIds := by
  rcases List.mem_append.mp hr with hr | hr
  · exact (h.sound.runs r hr).plain
  · exact (h.sound.waits r hr).plain

theorem tokens_long (hr : r ∈ e.queued) : ∀ id ∈ (e.request r).tokens, IsLong id := by
  intro id hid
  have hd := h.not_done hr
  rw [(h.sound.pending r hd).tokens_eq] at hid
  rcases List.mem_append.mp hid with hid | hid
  · rcases List.mem_append.mp hid with hid | hid
    · exact (h.prompt_plain hr).2 id hid
    · have hout : id ∈ e.outputs e.entries r := List.mem_append_left _ hid
      rw [(h.sound.told r).output hd] at hout
      obtain ⟨l, rfl⟩ := Generate.mem_stream hout
      exact h.long _ _ _ _
  · exact List.eq_of_mem_replicate hid ▸ placeholder_long

-- The last token of a running request, as the engine has it and as the step in flight has it.
theorem last_token (hr : r ∈ e.scheduler.running) :
    ∃ id tok, (e.request r).tokens.drop ((e.request r).seqLen - 1) = [id] ∧
      (e.truth e.entries r).drop ((e.request r).seqLen - 1) = [tok] ∧ (id ≠ placeholder → id = tok) ∧
      (id = placeholder → ∃ L, e.inflight = some L ∧ L.lookup r = .ok tok) := by
  have hq : r ∈ e.queued := List.mem_append_left _ hr
  have hpend := h.sound.pending r (h.not_done hq)
  have hplain := (h.sound.runs r hr).plain.1
  have hpos := h.seqLen_pos hq
  by_cases h0 : (e.request r).numPending = 0
  · obtain ⟨h1, h2⟩ := h.inflight_nil hq h0
    have htruth : e.truth e.entries r = (e.request r).tokens := by
      rw [truth, outputs, h1, h2, List.append_nil, Request.tokens]
    have hone : ((e.request r).tokens.drop ((e.request r).seqLen - 1)).length = 1 := by
      rw [List.length_drop, Request.tokens_length]
      omega
    obtain ⟨id, hid⟩ := List.length_eq_one_iff.mp hone
    have hne : id ≠ placeholder := by
      rintro rfl
      refine hpend.not_mem_tokens hplain h0 (List.mem_of_mem_drop (i := (e.request r).seqLen - 1) ?_)
      rw [hid]
      exact List.mem_singleton_self _
    exact ⟨id, id, hid, by rw [htruth]; exact hid, fun _ => rfl, fun he => absurd he hne⟩
  · have h1 : (e.request r).numPending = 1 := by
      have := h.numPending_le_one hq
      omega
    have hlen : (inflightTokens e.entries r).length = 1 := by rw [inflightTokens_length, hpend.length, h1]
    obtain ⟨tok, htok⟩ := List.length_eq_one_iff.mp hlen
    have htotal := h.sound.truth_length (h.not_done hq)
    have htruth : e.truth e.entries r = ((e.request r).promptIds ++ (e.request r).readyIds) ++ [tok] := by
      rw [truth, outputs, htok, List.append_assoc]
    have hcut : (e.request r).seqLen - 1 = ((e.request r).promptIds ++ (e.request r).readyIds).length := by
      rw [← htotal, htruth, List.length_append, List.length_singleton, Nat.add_sub_cancel]
    refine ⟨placeholder, tok, hpend.last h1,
      by rw [htruth, hcut, List.drop_left], fun hne => absurd rfl hne, fun _ => ?_⟩
    obtain ⟨k, hk⟩ := mem_inflightTokens.mp (htok ▸ List.mem_singleton_self tok : tok ∈ inflightTokens e.entries r)
    have hfly : e.inflight ≠ none := by
      intro hnone
      rw [entries, hnone] at hk
      exact absurd hk List.not_mem_nil
    obtain ⟨L, hL⟩ := Option.ne_none_iff_exists'.mp hfly
    have hentries : e.entries = L.entries := by
      rw [entries, hL]
      rfl
    exact ⟨L, hL, L.lookup_ok (h.whole L hL) (hentries ▸ h.once) (hentries ▸ hk)⟩

theorem runnable_waiting (hr : r ∈ e.scheduler.waiting) : Runnable e e.entries r := by
  have hw := h.sound.waits r hr
  have hq : r ∈ e.queued := List.mem_append_right _ hr
  refine ⟨hq, hw.plain, hw.prompt, h.not_done hq, ?_⟩
  rw [hw.output]
  exact (e.request r).params.maxNewTokens_pos

theorem runnable_running (hr : r ∈ e.scheduler.running) (hd : (e.request r).decodes) : Runnable e e.entries r := by
  have hruns := h.sound.runs r hr
  have hq : r ∈ e.queued := List.mem_append_left _ hr
  exact ⟨hq, hruns.plain, hruns.prompt, h.not_done hq, not_le.mp hd.2⟩

section Prefill

variable {new : List Rid} {s1 : Scheduler} (hnd : new.Nodup) (hE : e.scheduler.Entered s1 new)

include hE

omit h in
theorem entered_waiting (hr : r ∈ new) : r ∈ e.scheduler.waiting := hE.waiting.mem_iff.mp (List.mem_append_left _ hr)

theorem wholeRow_eq (hr : r ∈ new) : s1.wholeRow r = ⟨r, 0, (e.request r).promptIds.length⟩ := by
  have hw := h.sound.waits r (entered_waiting hE hr)
  have hreq : s1.reqs r = { e.request r with state := .prefill } := hE.inside r hr
  rw [Scheduler.wholeRow, hreq]
  simp only [hw.cached, Request.seqLen, hw.output, List.length_nil, Nat.add_zero, Nat.sub_zero]

theorem whole_ids (hr : r ∈ new) :
    (s1.reqs r).tokenSlice 0 (e.request r).promptIds.length = (e.request r).promptIds := by
  have hreq : s1.reqs r = { e.request r with state := .prefill } := hE.inside r hr
  have htokens : (s1.reqs r).tokens = (e.request r).promptIds := by
    rw [hreq]
    exact (h.truth_waiting (entered_waiting hE hr)).2
  rw [Request.tokenSlice_eq, htokens, List.drop_zero, List.take_length]

include hnd

theorem prepare_prefill : let b : Batch := ⟨.prefill, new.map s1.wholeRow, [], 0⟩
    let e1 : Engine := { e with scheduler := { s1 with running := s1.running ++ new }, launched := some b }
    allocateRows b.rows e1 = .ok (e1.allocated new) ∧ Prepared e (e1.allocated new) e.entries b new e.inflight := by
  intro b e1
  have hrids : b.rows.map Row.rid = new := by
    rw [List.map_map]
    exact List.map_id _
  have hwait : ∀ r ∈ new, r ∈ e.scheduler.waiting := fun r hr => entered_waiting hE hr
  have hrow : ∀ row ∈ b.rows, ∃ r ∈ new, row = ⟨r, 0, (e.request r).promptIds.length⟩ := by
    intro row hrow
    obtain ⟨r, hr, rfl⟩ := List.mem_map.mp hrow
    exact ⟨r, hr, h.wholeRow_eq hE hr⟩
  have hnone : ∀ row ∈ b.rows, e1.caches row.rid = none := by
    intro row hmem
    obtain ⟨r, hr, rfl⟩ := hrow row hmem
    exact (h.sound.waits r (hwait r hr)).cache
  have halloc := allocateRows_ok (hrids.symm ▸ hnd) hnone
  rw [hrids] at halloc
  have hreq : ∀ r ∈ new, (e1.allocated new).request r = { e.request r with state := .prefill } := hE.inside
  have hother : ∀ r, r ∉ new → (e1.allocated new).caches r = e.caches r := fun r hr =>
    overlay_not_mem (f := fun r => some (ContiguousKVCache.new (e1.request r).maxLen)) hr
  have hcache : ∀ r ∈ new, (e1.allocated new).caches r = some (.new (e1.request r).maxLen) := fun r hr =>
    overlay_mem (f := fun r => some (ContiguousKVCache.new (e1.request r).maxLen)) hr
  have hids : ∀ row ∈ b.rows, (e1.allocated new).rowIds row = (e.truth e.entries row.rid).drop row.start := by
    intro row hmem
    obtain ⟨r, hr, rfl⟩ := hrow row hmem
    exact (h.whole_ids hE hr).trans (h.truth_waiting (hwait r hr)).1.symm
  refine ⟨halloc, hnd, fun r hr => h.runnable_waiting (hwait r hr), hrids, fun r hr => ⟨.prefill, .inl rfl, hreq r hr⟩,
    fun r hr => ⟨hE.outside r hr, hother r hr⟩, ?_, rfl, rfl, fun r => ?_, fun r hr => ?_, fun row hmem => ?_,
    fun row hmem => ?_, Nat.zero_le _, fun id hid => ?_, ?_⟩
  · show ((s1.running ++ new) ++ s1.waiting).Perm _
    rw [List.append_assoc, hE.running]
    exact hE.waiting.append_left _
  · show r ∈ s1.running ++ new ↔ _
    rw [hE.running, List.mem_append]
  · exact hE.waiting.mem_iff.mp (List.mem_append_right _ hr)
  · obtain ⟨r, hr, rfl⟩ := hrow row hmem
    have htruth := (h.truth_waiting (hwait r hr)).1
    have hlen := h.sound.truth_length (h.not_done (List.mem_append_right _ (hwait r hr)))
    have hprompt := (h.sound.waits r (hwait r hr)).prompt
    refine ⟨List.length_pos_iff.mpr hprompt, ?_, ?_, fun _ => rfl, ?_, ?_⟩
    · rw [htruth]
      exact Nat.zero_add _
    · rw [hlen, hreq r hr]
      rfl
    · exact hcache r hr
    · rw [hreq r hr, htruth]
      exact Nat.le_add_right _ _
  · rw [hids row hmem]
    obtain ⟨r, hr, rfl⟩ := hrow row hmem
    exact congrArg List.length (h.truth_waiting (hwait r hr)).1
  · obtain ⟨row, hmem, hid⟩ := List.mem_flatMap.mp hid
    rw [hids row hmem] at hid
    obtain ⟨r, hr, rfl⟩ := hrow row hmem
    have hid : id ∈ e.truth e.entries r := hid
    rw [(h.truth_waiting (hwait r hr)).1] at hid
    exact (h.sound.waits r (hwait r hr)).plain.2 id hid
  · rw [← List.flatMap_congr hids]
    apply fillRows_plain rfl
    intro hmem
    obtain ⟨row, hrow', hid⟩ := List.mem_flatMap.mp hmem
    obtain ⟨r, hr, rfl⟩ := hrow row hrow'
    rw [hids _ hrow'] at hid
    have hid : placeholder ∈ e.truth e.entries r := hid
    rw [(h.truth_waiting (hwait r hr)).1] at hid
    exact (h.sound.waits r (hwait r hr)).plain.1 hid

end Prefill

section Decode

variable {s1 : Scheduler} (hE : e.scheduler.Entered s1 [])

include hE

theorem prepare_decode : let rids := e.scheduler.running.filter fun r => (e.scheduler.reqs r).decodes
    let b : Batch := ⟨.decode, rids.map s1.decodeRow, [], rids.length⟩
    Prepared e { e with scheduler := s1, launched := some b } e.entries b rids e.inflight := by
  intro rids b
  let e1 : Engine := { e with scheduler := s1, launched := some b }
  have hsame : ∀ r, e1.request r = e.request r := fun r => hE.outside r List.not_mem_nil
  have hwaiting : s1.waiting.Perm e.scheduler.waiting := hE.waiting
  have hrun : ∀ r ∈ rids, r ∈ e.scheduler.running ∧ (e.request r).decodes := by
    intro r hr
    obtain ⟨h1, h2⟩ := List.mem_filter.mp hr
    exact ⟨h1, of_decide_eq_true h2⟩
  have hrow : ∀ row ∈ b.rows, ∃ r ∈ rids, row = ⟨r, (e.request r).seqLen - 1, 1⟩ := by
    intro row hrow
    obtain ⟨r, hr, rfl⟩ := List.mem_map.mp hrow
    refine ⟨r, hr, ?_⟩
    rw [Scheduler.decodeRow, show s1.reqs r = _ from hsame r]
  have hids : ∀ r ∈ rids, e1.rowIds ⟨r, (e.request r).seqLen - 1, 1⟩ =
      (e.request r).tokens.drop ((e.request r).seqLen - 1) := by
    intro r hr
    have hpos := h.seqLen_pos (List.mem_append_left _ (hrun r hr).1)
    show (e1.request r).tokenSlice _ 1 = _
    rw [hsame, Request.tokenSlice_eq]
    apply List.take_of_length_le
    show ((e.request r).tokens.drop ((e.request r).seqLen - 1)).length ≤ 1
    rw [List.length_drop, Request.tokens_length]
    omega
  have hlast : ∀ row ∈ b.rows, ∃ id tok, e1.rowIds row = [id] ∧ (e.truth e.entries row.rid).drop row.start = [tok] ∧
      Fills e.inflight row id tok := by
    intro row hmem
    obtain ⟨r, hr, rfl⟩ := hrow row hmem
    obtain ⟨id, tok, h1, h2, h3, h4⟩ := h.last_token (hrun r hr).1
    exact ⟨id, tok, (hids r hr).trans h1, h2, h3, h4⟩
  refine ⟨List.Nodup.filter _ (List.nodup_append.mp h.sound.nodup).1,
    fun r hr => h.runnable_running (hrun r hr).1 (hrun r hr).2, ?_,
    fun r hr => ⟨.decode, .inr rfl, ?_⟩, fun r _ => ⟨hsame r, rfl⟩, ?_, rfl, rfl, fun r => ?_,
      fun r hr => hwaiting.mem_iff.mp hr,
    fun row hmem => ?_, fun row hmem => ?_, ?_, fun id hid => ?_, ?_⟩
  · rw [List.map_map]
    exact List.map_id _
  · have hst := (h.sound.runs r (hrun r hr).1).state
    rw [← hst]
    exact hsame r
  · show (s1.running ++ s1.waiting).Perm _
    rw [hE.running]
    exact hwaiting.append_left _
  · show r ∈ s1.running ↔ _
    rw [hE.running]
    exact ⟨.inl, fun hr => hr.elim id fun hr => (hrun r hr).1⟩
  · obtain ⟨r, hr, rfl⟩ := hrow row hmem
    have hq : r ∈ e.queued := List.mem_append_left _ (hrun r hr).1
    have hpos := h.seqLen_pos hq
    have hlen := h.sound.truth_length (h.not_done hq)
    have hruns := h.sound.runs r (hrun r hr).1
    have htake : (e.truth e.entries r).take ((e.request r).seqLen - 1) = (e.truth e.entries r).dropLast := by
      rw [List.dropLast_eq_take, hlen]
    refine ⟨le_rfl, ?_, ?_, fun h1 => absurd h1 (lt_irrefl 1), ?_, ?_⟩
    · show (e.request r).seqLen - 1 + 1 = _
      rw [hlen, Nat.sub_add_cancel hpos]
    · rw [hlen]
      exact congrArg Request.seqLen (hsame r)
    · show e.caches r = some ⟨((e.truth e.entries r).take ((e.request r).seqLen - 1)).zipIdx, (e1.request r).maxLen⟩
      rw [htake, hsame]
      exact hruns.cache
    · show (e.truth e.entries r).length ≤ (e1.request r).maxLen
      rw [hlen, hsame]
      exact Nat.add_le_add_left (not_le.mp (hrun r hr).2.2).le _
  · obtain ⟨id, tok, h1, -⟩ := hlast row hmem
    obtain ⟨r, -, rfl⟩ := hrow row hmem
    exact congrArg List.length h1
  · exact (List.length_map ..).ge
  · obtain ⟨row, hmem, hid⟩ := List.mem_flatMap.mp hid
    obtain ⟨r, hr, rfl⟩ := hrow row hmem
    rw [hids r hr] at hid
    exact h.tokens_long (List.mem_append_left _ (hrun r hr).1) id (List.mem_of_mem_drop hid)
  · exact fillRows_decode (List.length_map ..).symm hlast

end Decode

end Ready

end Engine

end Contiguous

end MiniServe
