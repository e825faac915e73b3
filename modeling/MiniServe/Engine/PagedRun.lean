import MiniServe.Engine.PagedPass
import MiniServe.Engine.Output

namespace MiniServe

open KVCacheManager PackedTables

namespace ModelRunner

variable {s s1 : Scheduler} {b : Batch} {older : List Entry} {prev : Option Launched} {fill : List (Nat × Token)}

def passInput (s s1 : Scheduler) (b : Batch) (slots : List Int) (fill : List (Nat × Token)) : PassInput where
  ids := b.rows.flatMap (rowIds s)
  pos := b.rows.flatMap rowPositions
  slots := slots
  tables := sizedTables s1 b.rows
  seqLens := b.rows.map Row.len
  fill := fill

theorem rowIds_length {row : Row} (h : s.RowFits row) : (rowIds s row).length = row.len := by
  have := h.le
  rw [rowIds, Request.tokenSlice_eq, List.length_take, List.length_drop, Request.tokens_length]
  omega

theorem ids_length (hb : s.BatchFits b) : (b.rows.flatMap (rowIds s)).length = (b.rows.map Row.len).sum := by
  rw [List.length_flatMap]
  congr 1
  apply List.map_congr_left
  intro row hrow
  exact rowIds_length (hb.rows row hrow)

theorem numDecode_le_ids (hb : s.BatchFits b) : b.numDecode ≤ (b.rows.flatMap (rowIds s)).length := by
  rw [ids_length hb]
  have h := List.card_nsmul_le_sum (b.rows.map Row.len) 1 fun n hn => by
    obtain ⟨row, hrow, rfl⟩ := List.mem_map.mp hn
    exact (hb.rows row hrow).pos
  rw [List.length_map, smul_eq_mul, Nat.mul_one] at h
  exact hb.numDecode_le.trans h

theorem row_table {row : Row} (hs1 : (s1.openPool b.rows older []).Sound) (hrow : row ∈ b.rows) :
    row.rid ∈ (s1.openPool b.rows older []).live ∧ ∃ t, (s1.reqs row.rid).cache = some t ∧
    t.numTokens = row.start + row.len := by
  obtain ⟨hl, hopen⟩ := hs1.opened row hrow
  obtain ⟨t, ht⟩ := Option.ne_none_iff_exists'.mp (hs1.kv.held row.rid hl).cache
  refine ⟨hl, t, ht, ?_⟩
  have hcov := hopen.covered
  rw [Request.covered, show ((s1.openPool b.rows older []).reqs row.rid).cache = some t from ht] at hcov
  exact hcov

theorem passInput_wellFormed (hb : s.BatchFits b) (hs1 : (s1.openPool b.rows older []).Sound)
    (ht : (s1.openPool b.rows older []).Trim) (hfill : fillIdx b (b.rows.flatMap (rowIds s)) prev = .ok fill) :
    (passInput s s1 b (b.rows.flatMap (s1.openPool b.rows older []).rowSlots) fill).WellFormed
      s1.kv.allocator.numBlocks s1.kv.blockSize := by
  have hbs : 0 < s1.kv.blockSize := blockSize_pos
  have htable : ∀ t ∈ sizedTables s1 b.rows, ∃ row ∈ b.rows, (s1.reqs row.rid).cache = some t.table ∧
      t.blockSize = s1.kv.blockSize ∧ t.table.numTokens = row.start + row.len := by
    intro t hmem
    obtain ⟨row, hrow, rfl⟩ := List.mem_map.mp hmem
    obtain ⟨-, tb, htb, hnum⟩ := row_table hs1 hrow
    exact ⟨row, hrow, by simp [htb], rfl, by simpa [htb] using hnum⟩
  have hheld : ∀ t ∈ sizedTables s1 b.rows, t.table.numTokens ≤ t.table.blocks.length * s1.kv.blockSize ∧
      t.table.blocks.Nodup ∧ (∀ blk ∈ t.table.blocks, 0 ≤ blk ∧ blk < s1.kv.allocator.numBlocks) ∧
      t.table.Paged s1.kv.blockSize := by
    intro t hmem
    obtain ⟨row, hrow, hc, -, hnum⟩ := htable t hmem
    have hl := (row_table hs1 hrow).1
    have hh := hs1.kv.held row.rid hl
    have hcap := hh.capacity
    have hnd := hh.nodup
    have hrange := hh.range
    have htrim := ht row.rid hl
    simp only [Request.Trim, Scheduler.openPool, Scheduler.pool, Request.covered, Request.tableBlocks,
      hc] at hcap hnd hrange htrim
    have hpos := (hb.rows row hrow).pos
    exact ⟨hcap, hnd, hrange, (BlockTable.paged_iff hcap).mpr ⟨by omega, htrim⟩⟩
  have hids := ids_length hb
  refine
    { sized := fun t hmem => ?_
      paged := fun t hmem => (hheld t hmem).2.2.2
      capacity := fun t hmem => (hheld t hmem).1
      distinct := fun t hmem => (hheld t hmem).2.1
      allocated := fun t hmem => (hheld t hmem).2.2.1
      lens := ?_
      covers := fun y hy => ?_
      ids := hids
      pos := ?_
      slots := ?_
      fill := fun y hy => ?_ }
  · obtain ⟨-, -, -, hsize, -⟩ := htable t hmem
    exact hsize
  · simp [passInput, sizedTables]
  · simp only [passInput, sizedTables, List.zip_map'] at hy
    obtain ⟨row, hrow, rfl⟩ := List.mem_map.mp hy
    obtain ⟨-, tb, htb, hnum⟩ := row_table hs1 hrow
    have hpos := (hb.rows row hrow).pos
    simp only [htb, Option.getD_some, hnum]
    omega
  · show (b.rows.flatMap rowPositions).length = _
    rw [show (passInput s s1 b _ fill).ids = b.rows.flatMap (rowIds s) from rfl, hids, List.length_flatMap]
    congr 1
    apply List.map_congr_left
    intro row _
    exact Pool.rowPositions_length
  · show (b.rows.flatMap (s1.openPool b.rows older []).rowSlots).length = _
    rw [show (passInput s s1 b _ fill).ids = b.rows.flatMap (rowIds s) from rfl, hids, List.length_flatMap]
    congr 1
    apply List.map_congr_left
    intro row _
    exact Pool.rowSlots_length
  · exact (fillIdx_lt hfill y hy).trans_le (numDecode_le_ids hb)

end ModelRunner

theorem PassInput.WellFormed.slotAt_lt {N bs pos : Nat} {x : PassInput} {t : SizedTable}
    (h : x.WellFormed N bs) (hbs : 0 < bs)
    (ht : t ∈ x.tables) (hpos : pos < t.table.numTokens) : t.table.slotAt bs pos < (N : Int) * bs := by
  have hidx : pos / bs < t.table.blocks.length :=
    Nat.div_lt_of_lt_mul (by rw [Nat.mul_comm]; exact hpos.trans_le (h.capacity t ht))
  have hblk := (h.allocated t ht _ (List.getElem_mem hidx)).2
  have hmod := Nat.mod_lt pos hbs
  have hle : (t.table.blocks[pos / bs] + 1) * bs ≤ N * bs := Int.mul_le_mul_of_nonneg_right (by omega) (by omega)
  rw [add_mul, one_mul] at hle
  rw [BlockTable.slotAt, List.getD_eq_getElem?_getD, List.getElem?_eq_getElem hidx, Option.getD_some]
  omega

structure Kernels.Sound (N bs : Nat) (k : Kernels) : Prop where
  packed : k.packed.Sized
  graphs : ∀ g, k.graphs = some g → ∃ maxBs, DecodeGraphs.Reach maxBs 1 N bs g
  captured : k.useCudaGraph = true → k.graphs ≠ none

namespace ModelRunner

variable {s : Scheduler} {b : Batch} {older : List Entry} {prev : Option Launched} {K : PagedKernel} {k : Kernels}
  {N bs : Nat} {x : PassInput} {d d' : Device} {phase : Phase} {model : Model}

theorem runPass_cases (hx : x.WellFormed N bs) (hbs : 1 ≤ bs) (hK : K.Documented) (hk : k.Sound N bs)
    (hone : phase = .decode → ∀ n ∈ x.seqLens, n = 1) (hne : x.tables ≠ []) :
    ∃ k', k'.Sound N bs ∧ ((∃ e, x.TooLarge N e ∧ runPass K (N + 1) bs phase x d k = (.error e, k')) ∨
      ∃ w, (∀ id ∈ x.ids, IsLong id) ∧ runPass K (N + 1) bs phase x d k = (.ok (w, x.histories bs w), k') ∧
        SameBelow (N * bs) (x.device d) w) := by
  have heager : ∃ k', k'.Sound N bs ∧
      ((∃ e, x.TooLarge N e ∧ runEager K (N + 1) bs (phase ≠ .decode) x d k = (.error e, k')) ∨
        ∃ w, (∀ id ∈ x.ids, IsLong id) ∧
          runEager K (N + 1) bs (phase ≠ .decode) x d k = (.ok (w, x.histories bs w), k') ∧
          SameBelow (N * bs) (x.device d) w) := by
    have hp : decide (phase ≠ .decode) = true ∨ ∀ n ∈ x.seqLens, n = 1 := by
      by_cases h : phase = .decode
      · exact .inr (hone h)
      · exact .inl (by simpa using h)
    obtain ⟨packed, hs, hrun⟩ := hx.runEager (d := d) hK hk.packed hp
    refine ⟨{ k with packed }, ⟨hs, hk.graphs, hk.captured⟩, ?_⟩
    rcases hrun with hrun | ⟨hlong, hrun⟩
    · exact .inl hrun
    · exact .inr ⟨_, hlong, hrun, SameBelow.refl _ _⟩
  by_cases hgraph : phase = .decode ∧ k.useCudaGraph = true
  · obtain ⟨g, hg⟩ := Option.ne_none_iff_exists'.mp (hk.captured hgraph.2)
    obtain ⟨maxBs, hreach⟩ := hk.graphs g hg
    simp only [runPass, if_pos hgraph, hg, hreach.maxBatch]
    by_cases hle : x.tables.length ≤ maxBs
    · rw [if_pos hle]
      obtain ⟨g', hreach', hrun⟩ := hx.runGraph (d := d) (k := k) (hone hgraph.1) hK hreach hbs
        ⟨List.length_pos_iff.mpr hne, hle⟩
      refine ⟨{ k with graphs := some g' }, ⟨hk.packed, fun g hg => ?_, fun _ => by simp⟩, hrun⟩
      obtain rfl := Option.some.inj hg
      exact ⟨maxBs, hreach'⟩
    · rw [if_neg hle]
      exact heager
  · rw [runPass, if_neg hgraph]
    exact heager

theorem sampled_eq {s1 : Scheduler} {slots : List Int} {fill : List (Nat × Token)}
    (hx : (passInput s s1 b slots fill).WellFormed N bs) (hbs : 0 < bs) (hsize : s1.kv.blockSize = bs)
    (hd : SameBelow (N * bs) d d') :
    List.zipWith (sampleFrom model s1) b.rows ((passInput s s1 b slots fill).histories bs d') =
      b.rows.map (sampleRow model s1 d) := by
  have hh : (passInput s s1 b slots fill).histories bs d' =
      b.rows.map fun row => history d' bs ((s1.reqs row.rid).cache.getD .empty) := List.map_map
  rw [hh, List.zipWith_map_right]
  have hrow : ∀ row ∈ b.rows, sampleFrom model s1 row (history d' bs ((s1.reqs row.rid).cache.getD .empty)) =
      sampleRow model s1 d row := by
    intro row hrow
    have hmem : (⟨(s1.reqs row.rid).cache.getD .empty, s1.kv.blockSize⟩ : SizedTable) ∈
      (passInput s s1 b slots fill).tables :=
      List.mem_map_of_mem hrow
    have hhist := hd.history fun pos hpos => hx.slotAt_lt hbs hmem hpos
    rw [sampleFrom, sampleRow, hsize, ← hhist]
  rw [List.zipWith_self]
  exact List.map_congr_left hrow

theorem forwardPaged_eq {s1 : Scheduler} {slots : List Int} {fill : List (Nat × Token)}
    (hfill : fillIdx b (b.rows.flatMap (rowIds s)) prev = .ok fill) (hagree : startsAgree s b.rows)
    (hres : reserve s b.rows = (.ok (), s1)) (hslots : rowSlots s1 b.rows = .ok slots) :
    forwardPaged K model s d b prev k =
      match runPass K (s1.kv.allocator.numBlocks + 1) s1.kv.blockSize b.phase (passInput s s1 b slots fill) d k with
      | (.error e, k) => (.error e, k)
      | (.ok (d, hs), k) => (.ok ⟨s1, d, List.zipWith (sampleFrom model s1) b.rows hs⟩, k) := by
  simp only [forwardPaged, hfill, hagree, not_true_eq_false, if_false, hres, hslots]
  rfl

theorem decode_lens {s1 : Scheduler} {slots : List Int} {fill : List (Nat × Token)} (hb : s.BatchFits b)
    (hp : b.phase = .decode) : ∀ n ∈ (passInput s s1 b slots fill).seqLens, n = 1 := by
  intro n hn
  obtain ⟨row, hrow, rfl⟩ := List.mem_map.mp hn
  have hdec := hb.decode row (by rw [hb.phase.mp hp, List.take_length]; exact hrow)
  rcases (hb.rows row hrow).kind with h | h
  · rw [h] at hdec
    simp at hdec
  · exact h.2

structure PassOf (s : Scheduler) (b : Batch) (prev : Option Launched) (x : PassInput) : Prop where
  fill : fillIdx b x.ids prev = .ok x.fill
  ids : x.ids = b.rows.flatMap (rowIds s)
  pos : x.pos = b.rows.flatMap rowPositions
  slots : rowSlots (reserve s b.rows).2 b.rows = .ok x.slots
  tables : x.tables = sizedTables (reserve s b.rows).2 b.rows
  seqLens : x.seqLens = b.rows.map Row.len

-- The pass on the device gives the tokens of the pass on whole histories, whichever path it takes.
theorem forwardPaged_cases {ids : List Token} (model : Model) (hs : (s.pool [] older).Sound) (hb : s.BatchFits b)
    (htrim : (s.pool [] older).Trim) (hfit : s.costs s.running ≤ s.kv.numAvailable)
    (hids : fillRows b (b.rows.flatMap (rowIds s)) prev = .ok ids) (hK : K.Documented)
    (hk : k.Sound s.kv.allocator.numBlocks s.kv.blockSize)
    (hd : SameBelow (s.kv.allocator.numBlocks * s.kv.blockSize) d d') :
    ∃ k', k'.Sound s.kv.allocator.numBlocks s.kv.blockSize ∧
      ((∃ x e, PassOf s b prev x ∧ x.TooLarge s.kv.allocator.numBlocks e ∧
          forwardPaged K model s d' b prev k = (.error e, k')) ∨
        (∀ id ∈ b.rows.flatMap (rowIds s), IsLong id) ∧ ∃ pass w, forward model s d b prev = .ok pass ∧
          forwardPaged K model s d' b prev k = (.ok { pass with device := w }, k') ∧
          SameBelow (s.kv.allocator.numBlocks * s.kv.blockSize) pass.device w) := by
  have hopens := fun row hrow => (hb.rows row hrow).opens hs
  obtain ⟨s1, hres, hmoves, hR⟩ := Scheduler.reserve_ok hs hopens hb.nodup ((hb.rowCosts_le hs).trans hfit)
  have hs1 := hmoves.sound hs
  have hslots := Scheduler.rowSlots_ok hs1 (List.Subset.refl b.rows)
  have hagree := Engine.startsAgree hs hb
  have hfill := fillRows_eq b prev hb.numDecode_le (numDecode_le_ids hb)
  cases hidx : fillIdx b (b.rows.flatMap (rowIds s)) prev with
  | error e =>
    rw [hids, hidx] at hfill
    simp [Except.map] at hfill
  | ok fill =>
    rw [hids, hidx] at hfill
    obtain rfl : ids = setAll fill (b.rows.flatMap (rowIds s)) := Except.ok.inj hfill
    have hx := passInput_wellFormed hb hs1 (hmoves.trim hs htrim) hidx
    rw [hR.same.numBlocks, hR.same.blockSize] at hx
    have hbs : 0 < s.kv.blockSize := blockSize_pos
    have hne : (passInput s s1 b (b.rows.flatMap (s1.openPool b.rows older []).rowSlots) fill).tables ≠ [] := by
      simpa [passInput, sizedTables] using hb.nonempty
    obtain ⟨k', hk', hrun⟩ := runPass_cases (d := d') hx hbs hK hk (decode_lens hb) hne
    have hforward : forwardPaged K model s d' b prev k = _ := forwardPaged_eq hidx hagree hres hslots
    rw [hR.same.numBlocks, hR.same.blockSize] at hforward
    let x := passInput s s1 b (b.rows.flatMap (s1.openPool b.rows older []).rowSlots) fill
    have hpass : PassOf s b prev x := by
      have hend : (reserve s b.rows).2 = s1 := by rw [hres]
      exact ⟨hidx, rfl, rfl, by rw [hend]; exact hslots, by rw [hend]; rfl, rfl⟩
    refine ⟨k', hk', ?_⟩
    rcases hrun with ⟨e, he, hrun⟩ | ⟨w, hlong, hrun, hw⟩
    · rw [hforward, hrun]
      exact .inl ⟨x, e, hpass, he, rfl⟩
    · right
      have hraw : ¬ ∃ id ∈ b.rows.flatMap (rowIds s), ¬ IsLong id := fun ⟨id, hid, hn⟩ => hn (hlong id hid)
      have hsame := hd.write.trans hw
      refine ⟨hlong, ⟨s1, x.device d, b.rows.map (sampleRow model s1 (x.device d))⟩, w, ?_, ?_, hsame⟩
      · simp only [forward, hids, hagree, not_true_eq_false, if_false, hres, hslots]
        rw [if_neg hraw]
        rfl
      · rw [hforward, hrun]
        simp only [sampled_eq hx hbs hR.same.blockSize hsame]
        rfl

end ModelRunner

end MiniServe
