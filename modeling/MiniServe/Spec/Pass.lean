import MiniServe.Spec.Verdict

namespace MiniServe

open KVCacheManager Generate

namespace Pool

variable {p : Pool} {model : Model} {d : Device} {feed : Row → List Token}

theorem Content.written (hs : p.Sound) (hc : Content model d none p)
    (hlen : ∀ row ∈ p.opened, (feed row).length = row.len) :
    Content model (ModelRunner.write d (p.writes feed)) none p := by
  refine ⟨fun r hr pos hw => ?_, fun key b hk => hs.writable.write_cell hlen hk (hc.cells key b hk), hc.told,
    fun f hf => by simp at hf⟩
  rw [hs.writable.write_below hlen hr hw.1 (hw.2 rfl)]
  exact hc.tables r hr pos hw

theorem Sound.fed {row : Row} (hs : p.Sound) (hlen : ∀ row ∈ p.opened, (feed row).length = row.len)
    (hrow : row ∈ p.opened) : Judged.Fed (ModelRunner.write d (p.writes feed)) p row (feed row) :=
  fun _ hi => hs.writable.write_row hlen hrow hi

end Pool

namespace Target

variable {model : Target} {q : Request}

def nextGreedy (model : Target) (prompt out : List Token) : Token := model.greedy (cellsOf (prompt ++ out))

theorem nextAfter_greedy (hq : q.params.isGreedy) (out : List Token) :
    model.nextAfter q out = model.nextGreedy q.promptIds out :=
  model.next_greedy _ _ _ _ hq

-- The output of a request under plain decoding: up to its first stop token, or to its last allowed one.
def decode (model : Target) (prompt : List Token) (params : SamplingParams) : List Token :=
  cutAt params.stopTokenIds (stream (model.nextGreedy prompt) params.maxNewTokens)

theorem output_greedy (hq : q.params.isGreedy) : model.output q = model.decode q.promptIds q.params := by
  unfold Model.output decode
  rw [show model.nextAfter q = model.nextGreedy q.promptIds from funext (nextAfter_greedy hq)]

end Target

namespace ModelRunner

open Pool Pool.Judged

variable {model : Target} {s s' : Scheduler} {d : Device} {rows opened : List Row} {row : Row} {tb : BlockTable}
  {proposals : List Token} {older newer : List Entry}

theorem chosenRow_chooses (h : Judged (s.openPool opened older newer) row tb) (hq : (s.reqs row.rid).params.isGreedy)
    (hc : Content model.toModel d none (s.openPool opened older newer))
    (hlen : row.len = proposals.length + 1)
    (hfed : Fed d (s.openPool opened older newer) row ((s.reqs row.rid).outputIds.getLast?.getD 0 :: proposals)) :
    Chooses (model.nextAfter (s.reqs row.rid)) (s.reqs row.rid).outputIds proposals (chosenRow model s d row) := by
  obtain ⟨hl, hcov, hseq, -, -⟩ := h.facts
  have hstart : (s.reqs row.rid).tokens.length = row.start + 1 := by
    rw [Request.tokens_length]
    exact hseq.symm
  -- Position by position the pass reads the sequence and the proposals back through the table.
  have hread : ∀ pos < row.start + row.len, d ((s.openPool opened older newer).rowSlot row.rid pos) =
      ((s.reqs row.rid).tokens ++ proposals)[pos]?.map (·, pos) := by
    intro pos hpos
    by_cases hlt : pos < row.start
    · have hw : Written none (s.openPool opened older newer) row.rid pos := by
        refine ⟨?_, fun _ other hm hrid => ?_⟩
        · simp only [Request.covered, h.cache]
          omega
        · obtain rfl := h.unique hm hrid
          exact hlt
      have htruth : (s.openPool opened older newer).truth row.rid = (s.reqs row.rid).tokens := by
        rw [Pool.truth, h.outputs]
        rfl
      rw [hc.tables row.rid hl pos hw, htruth, List.getElem?_append_left (by omega)]
    · obtain ⟨i, rfl⟩ := Nat.exists_eq_add_of_le (not_lt.mp hlt)
      rw [hfed i (by omega)]
      congr 1
      cases i with
      | zero =>
        rw [Nat.add_zero, List.getElem?_append_left (by omega)]
        exact h.last_token
      | succ i =>
        rw [List.getElem?_append_right (by omega), hstart, List.getElem?_cons_succ]
        congr 1
        omega
  unfold Chooses chosenRow
  rw [hlen]
  refine List.map_congr_left fun j hj => ?_
  rw [List.mem_range] at hj
  rw [Target.nextAfter_greedy hq, Target.nextGreedy]
  congr 1
  refine List.ext_getElem? fun pos => ?_
  rw [List.getElem?_map, cellsOf, List.getElem?_map, List.getElem?_zipIdx, Nat.zero_add, ← List.append_assoc]
  have htake : (s.reqs row.rid).promptIds ++ (s.reqs row.rid).outputIds ++ proposals.take j =
      ((s.reqs row.rid).tokens ++ proposals).take (row.start + j + 1) := by
    have hsub : row.start + j + 1 - (s.reqs row.rid).tokens.length = j := by omega
    have hall : (s.reqs row.rid).tokens.take (row.start + j + 1) = (s.reqs row.rid).tokens :=
      List.take_of_length_le (by omega)
    rw [List.take_append, hsub, hall]
    rfl
  rw [htake]
  by_cases hpos : pos < row.start + j + 1
  · rw [List.getElem?_range hpos, List.getElem?_take_of_lt hpos, Option.map_some, List.getElem?_eq_getElem (by
      rw [List.length_append, hstart]; omega)]
    have := hread pos (by omega)
    rw [List.getElem?_eq_getElem (by rw [List.length_append, hstart]; omega)] at this
    exact congrArg some this
  · rw [List.getElem?_eq_none (by simpa using hpos), List.getElem?_eq_none (by rw [List.length_take]; omega)]
    rfl

theorem verify_ok {feed : Row → List Token} (hs : (s.pool [] older).Sound) (hrows : ∀ row ∈ rows, s.RowOpens row)
    (hnd : (rows.map Row.rid).Nodup) (hav : s.rowCosts rows ≤ s.kv.numAvailable)
    (hlen : ∀ row ∈ rows, (feed row).length = row.len) (hlong : ∀ row ∈ rows, ∀ id ∈ (feed row).head?, IsLong id)
    (model : Target) (d : Device) :
    ∃ s1, reserve s rows = (.ok (), s1) ∧ Pool.Moves none (s.pool [] older) (s1.openPool rows older []) ∧
      Scheduler.Reserved s s1 rows ∧ verify model s d rows (rows.map feed) =
        .ok ⟨s1, write d ((s1.openPool rows older []).writes feed),
          rows.map (chosenRow model s1 (write d ((s1.openPool rows older []).writes feed)))⟩ := by
  obtain ⟨s1, hres, hmoves, hR⟩ := Scheduler.reserve_ok hs hrows hnd hav
  have hslots : rowSlots s1 rows = .ok (rows.flatMap (s1.openPool rows older []).rowSlots) :=
    Scheduler.rowSlots_ok (hmoves.sound hs) (List.Subset.refl _)
  refine ⟨s1, hres, hmoves, hR, ?_⟩
  have hwrites := Pool.writes_eq (p := s1.openPool rows older []) hlen
  simp only [Scheduler.openPool] at hwrites
  have hall : ¬ ∃ id ∈ (rows.map feed).filterMap List.head?, ¬ IsLong id := by
    rintro ⟨id, hid, hn⟩
    obtain ⟨l, hl, hid⟩ := List.mem_filterMap.mp hid
    obtain ⟨row, hrow, rfl⟩ := List.mem_map.mp hl
    exact hn (hlong row hrow id hid)
  simp only [verify, hres, hslots]
  rw [if_neg hall]
  simp only [← List.flatMap_def, Scheduler.openPool, hwrites]

theorem verify_longs {ids : List (List Token)} {v : Verified} (h : verify model s d rows ids = .ok v) :
    ∀ l ∈ ids, ∀ id ∈ l.head?, IsLong id := by
  intro l hl id hid
  unfold verify at h
  split at h
  · simp at h
  · split at h
    · simp at h
    · split at h
      · simp at h
      · next hall =>
        by_contra hn
        exact hall ⟨id, List.mem_filterMap.mpr ⟨l, hl, hid⟩, hn⟩

end ModelRunner

end MiniServe
