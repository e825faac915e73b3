import MiniServe.Engine.ContentMoves

namespace MiniServe

open KVCacheManager Generate

namespace ModelRunner

variable {d : Device} {slot : Int} {cell : Token × Nat} {writes : List (Int × Token × Nat)}

theorem write_other (h : slot ∉ writes.map Prod.fst) : write d writes slot = d slot := by
  induction writes generalizing d with
  | nil => rfl
  | cons w writes ih =>
    obtain ⟨hne, h⟩ := not_or.mp (List.mem_cons.not.mp h)
    rw [write, ih h, Function.update_of_ne hne]

theorem write_mem (hn : (writes.map Prod.fst).Nodup) (h : (slot, cell) ∈ writes) :
    write d writes slot = some cell := by
  induction writes generalizing d with
  | nil => simp at h
  | cons w writes ih =>
    obtain ⟨hw, hn⟩ := List.nodup_cons.mp hn
    rcases List.mem_cons.mp h with rfl | h
    · rw [write, write_other hw, Function.update_self]
    · exact ih hn h

theorem zip_flatMap {α β γ : Type} {l : List γ} {f : γ → List α} {g : γ → List β}
    (h : ∀ c ∈ l, (f c).length = (g c).length) :
    (l.flatMap f).zip (l.flatMap g) = l.flatMap fun c => (f c).zip (g c) := by
  induction l with
  | nil => rfl
  | cons c l ih =>
    rw [List.flatMap_cons, List.flatMap_cons, List.zip_append (h c List.mem_cons_self), List.flatMap_cons,
      ih fun x hx => h x (List.mem_cons_of_mem _ hx)]

end ModelRunner

namespace Pool

variable {p : Pool} {d : Device} {feed : Row → List Token} {row : Row} {r : Rid} {pos : Nat}

def rowWrites (p : Pool) (feed : Row → List Token) (row : Row) : List (Int × Token × Nat) :=
  (p.rowSlots row).zip ((feed row).zip (ModelRunner.rowPositions row))

def writes (p : Pool) (feed : Row → List Token) : List (Int × Token × Nat) := p.opened.flatMap (p.rowWrites feed)

theorem rowSlots_length : (p.rowSlots row).length = row.len := by simp [rowSlots]

theorem rowPositions_length : (ModelRunner.rowPositions row).length = row.len := by simp [ModelRunner.rowPositions]

theorem writes_eq (hlen : ∀ row ∈ p.opened, (feed row).length = row.len) :
    (p.opened.flatMap p.rowSlots).zip ((p.opened.flatMap feed).zip (p.opened.flatMap ModelRunner.rowPositions)) =
      p.writes feed := by
  rw [ModelRunner.zip_flatMap fun row hrow => by rw [hlen row hrow, rowPositions_length]]
  refine ModelRunner.zip_flatMap fun row hrow => ?_
  rw [rowSlots_length, List.length_zip, hlen row hrow, rowPositions_length, Nat.min_self]

section Writes

variable (hlen : ∀ row ∈ p.opened, (feed row).length = row.len)

include hlen

theorem writes_keys : (p.writes feed).map Prod.fst = p.opened.flatMap p.rowSlots := by
  rw [writes, List.map_flatMap]
  refine List.flatMap_congr fun row hrow => List.map_fst_zip ?_
  rw [rowSlots_length, List.length_zip, hlen row hrow, rowPositions_length, Nat.min_self]

theorem mem_writes {i : Nat} {tok : Token} (hrow : row ∈ p.opened) (hi : (feed row)[i]? = some tok) :
    (p.rowSlot row.rid (row.start + i), tok, row.start + i) ∈ p.writes feed := by
  have hi' : i < row.len := by
    rw [← hlen row hrow]
    exact (List.getElem?_eq_some_iff.mp hi).1
  refine List.mem_flatMap.mpr ⟨row, hrow, List.mem_of_getElem? (i := i) ?_⟩
  rw [rowWrites, List.getElem?_zip_eq_some]
  refine ⟨by simp [rowSlots, hi'], ?_⟩
  rw [List.getElem?_zip_eq_some]
  exact ⟨hi, by simp [ModelRunner.rowPositions, hi']⟩

theorem Writable.write_row {i : Nat} (hs : p.Writable) (hrow : row ∈ p.opened) (hi : i < row.len) :
    ModelRunner.write d (p.writes feed) (p.rowSlot row.rid (row.start + i)) =
      (feed row)[i]?.map (·, row.start + i) := by
  have hi' : i < (feed row).length := by rw [hlen row hrow]; exact hi
  rw [List.getElem?_eq_getElem hi', Option.map_some]
  refine ModelRunner.write_mem ?_ (mem_writes hlen hrow (List.getElem?_eq_getElem hi'))
  rw [writes_keys hlen]
  exact hs.rowSlots_nodup

theorem Writable.write_below (hs : p.Writable) (hr : r ∈ p.live) (hpos : pos < (p.reqs r).covered)
    (hbelow : ∀ row ∈ p.opened, row.rid = r → pos < row.start) :
    ModelRunner.write d (p.writes feed) (p.rowSlot r pos) = d (p.rowSlot r pos) := by
  refine ModelRunner.write_other ?_
  rw [writes_keys hlen]
  intro hmem
  obtain ⟨row, hrow, hmem⟩ := List.mem_flatMap.mp hmem
  obtain ⟨x, hx, he⟩ := List.mem_map.mp hmem
  obtain ⟨h1, h2, h3⟩ := hs.opened_pos hrow hx
  obtain ⟨hrid, rfl⟩ := hs.rowSlot_inj h1 hr h2 hpos h3 he
  have := hbelow row hrow hrid.symm
  rw [List.mem_range'_1] at hx
  omega

theorem Writable.write_cell {key : List Token} {b : Int} (hs : p.Writable) (hk : (key, b) ∈ p.kv.cachedCells)
    (h : CellHolds d p.kv.blockSize key b) : CellHolds (ModelRunner.write d (p.writes feed)) p.kv.blockSize key b := by
  intro pos h1 h2
  rw [ModelRunner.write_other, h pos h1 h2]
  rw [writes_keys hlen]
  intro hmem
  obtain ⟨row, hrow, hmem⟩ := List.mem_flatMap.mp hmem
  obtain ⟨x, hx, he⟩ := List.mem_map.mp hmem
  obtain ⟨h3, h4, h5⟩ := hs.opened_pos hrow hx
  have hbs := @blockSize_pos p.kv
  have hlt := Nat.mod_lt pos hbs
  have hb : p.blockAt row.rid x = b := by
    rw [← rowSlot_block, he, Int.add_comm, Int.add_mul_ediv_right _ _ (by omega),
      Int.ediv_eq_zero_of_lt (by omega) (by omega), zero_add]
  refine (hs.block_private h3 h4 h5).2.1 ?_
  rw [hb]
  cases ht : p.kv.tree with
  | none => simp [cachedCells, ht] at hk
  | some t =>
    rw [cachedBlocks_some ht, treeBlocks, ← @cells_snd p.kv.blockSize []]
    simp only [cachedCells, ht] at hk
    exact List.mem_map_of_mem (f := Prod.snd) hk

end Writes

variable {model : Model} {f : Rid → Token}

theorem history_eq (hs : p.Sound) (hr : r ∈ p.live) (hcov : (p.reqs r).covered = (p.truth r).length)
    (h : ∀ pos < (p.reqs r).covered, d (p.rowSlot r pos) = (p.truth r)[pos]?.map (·, pos)) :
    ModelRunner.history d p.kv.blockSize ((p.reqs r).cache.getD .empty) = cellsOf (p.truth r) := by
  obtain ⟨tb, htb⟩ := Option.ne_none_iff_exists'.mp (hs.kv.held r hr).cache
  simp only [Request.covered, htb] at hcov h
  refine List.ext_getElem? fun pos => ?_
  simp only [ModelRunner.history, cellsOf, List.getElem?_map, List.getElem?_zipIdx, Nat.zero_add, htb,
    Option.getD_some]
  by_cases hpos : pos < tb.numTokens
  · have := h pos hpos
    simp only [rowSlot, htb, Option.getD_some] at this
    rw [List.getElem?_range hpos, Option.map_some, this]
    rw [List.getElem?_eq_getElem (by omega)]
    rfl
  · rw [List.getElem?_eq_none (by simpa using hpos), List.getElem?_eq_none (by omega)]
    rfl

-- Running a batch: every row is fed its request's tokens, and what it reads back through its table is its
-- request's sequence up to the row's end.
theorem Content.run (hs : p.Sound) (hc : Content model d none p)
    (hlen : ∀ row ∈ p.opened, (feed row).length = row.len)
    (hfeed : ∀ row ∈ p.opened, ∀ i < row.len, (feed row)[i]? = (p.truth row.rid)[row.start + i]?)
    (hf : ∀ row ∈ p.opened, f row.rid = model.next (ModelRunner.history (ModelRunner.write d (p.writes feed))
      p.kv.blockSize ((p.reqs row.rid).cache.getD .empty)) (p.reqs row.rid).params (p.reqs row.rid).seed
      (p.reqs row.rid).seqLen) :
    Content model (ModelRunner.write d (p.writes feed)) (some f) p := by
  have htable : ∀ r ∈ p.live, ∀ pos < (p.reqs r).covered,
      ModelRunner.write d (p.writes feed) (p.rowSlot r pos) = (p.truth r)[pos]?.map (·, pos) := by
    intro r hr pos hpos
    by_cases hbelow : ∀ row ∈ p.opened, row.rid = r → pos < row.start
    · rw [hs.writable.write_below hlen hr hpos hbelow]
      exact hc.tables r hr pos ⟨hpos, fun _ => hbelow⟩
    · simp only [not_forall, not_lt] at hbelow
      obtain ⟨row, hrow, rfl, hle⟩ := hbelow
      have hcov := (hs.opened row hrow).2.covered
      obtain ⟨i, rfl⟩ := Nat.exists_eq_add_of_le hle
      rw [hs.writable.write_row hlen hrow (by omega), hfeed row hrow i (by omega)]
  refine ⟨fun r hr pos hw => htable r hr pos hw.1,
    fun key b hk => hs.writable.write_cell hlen hk (hc.cells key b hk), hc.told,
    fun f' hf' row hrow hcomp => ?_⟩
  obtain rfl := Option.some.inj hf'
  obtain ⟨hl, hopen⟩ := hs.opened row hrow
  have hd := hs.not_done (.inl hl)
  have hcov : (p.reqs row.rid).covered = (p.truth row.rid).length := by
    rw [hs.truth_length hd, hopen.covered, hcomp]
  rw [hf row hrow, history_eq hs hl hcov (htable row.rid hl), Model.nextAfter, hs.outputs_length hd]
  rfl

end Pool

end MiniServe
