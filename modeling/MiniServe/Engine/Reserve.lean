import MiniServe.Engine.Schedule

namespace MiniServe

open KVCacheManager

namespace Scheduler

variable {s s' : Scheduler} {older newer : List Entry} {opened rows : List Row} {row : Row} {r : Rid}

def openPool (s : Scheduler) (opened : List Row) (older newer : List Entry) : Pool :=
  { s.pool [] older with opened := opened, newer := newer }

structure RowOpens (s : Scheduler) (row : Row) : Prop where
  mem : row.rid ∈ s.running
  start : (s.reqs row.rid).covered = row.start
  pos : 1 ≤ row.len
  room : (s.reqs row.rid).outputIds.length < (s.reqs row.rid).params.maxNewTokens
  le : (s.reqs row.rid).state = .prefill ∨ s.kv.tree.isSome → row.start + row.len ≤ (s.reqs row.rid).seqLen

def rowCost (s : Scheduler) (row : Row) : Int := (s.table row.rid).need s.kv.blockSize row.len

def rowCosts (s : Scheduler) (rows : List Row) : Int := (rows.map s.rowCost).sum

theorem RowFits.opens (h : s.RowFits row) (hs : (s.pool [] older).Sound) : s.RowOpens row := by
  refine ⟨h.mem, h.start, h.pos, ?_, fun _ => h.le⟩
  rcases h.kind with hst | ⟨hd, -⟩
  · have hact := pool_active hs (by simpa using h.mem : row.rid ∈ s.running ++ [])
    rcases hact.phase with hp | hp
    · exact hact.room hp.2.2
    · rw [hst] at hp; simp at hp
  · exact not_le.mp hd.2

theorem RowFits.rowCost_le (h : s.RowFits row) (hs : (s.pool [] older).Sound) : s.rowCost row ≤ s.cost row.rid := by
  have hm : row.rid ∈ s.running ++ [] := by simpa using h.mem
  have hbs := @blockSize_pos s.kv
  rcases h.kind with hst | ⟨hd, hlen⟩
  · rw [cost_of_prefill hst, prefillRest_eq hs hm hst]
    refine BlockTable.need_mono hbs ?_
    have h1 := h.start
    have h2 := h.le
    omega
  · rw [cost_of_decode hd.1, decodeCost, if_pos hd]
    refine BlockTable.need_mono hbs ?_
    have := s.tokensPerStep_pos
    omega

-- Distinct rows of running requests, each charged at most its request's cost, cost at most what all of
-- them are charged.
theorem sum_le_costs {f : Row → Int} (hs : (s.pool [] older).Sound) (hnd : (rows.map Row.rid).Nodup)
    (hmem : ∀ row ∈ rows, row.rid ∈ s.running) (hf : ∀ row ∈ rows, f row ≤ s.cost row.rid) :
    (rows.map f).sum ≤ s.costs s.running := by
  have hsp : (rows.map Row.rid).Subperm s.running := by
    refine List.subperm_of_subset hnd fun x hx => ?_
    obtain ⟨row, hrow, rfl⟩ := List.mem_map.mp hx
    exact hmem row hrow
  obtain ⟨l, hperm, hsub⟩ := hsp
  calc (rows.map f).sum ≤ (rows.map fun row => s.cost row.rid).sum := List.sum_le_sum hf
    _ = ((rows.map Row.rid).map s.cost).sum := by rw [List.map_map]; rfl
    _ = (l.map s.cost).sum := (hperm.symm.map s.cost).sum_eq
    _ ≤ s.costs s.running := by
      refine List.Sublist.sum_le_sum (hsub.map s.cost) fun x hx => ?_
      obtain ⟨y, hy, rfl⟩ := List.mem_map.mp hx
      exact cost_nonneg hs (by simpa using hy)

theorem rowNeed_ok (hc : (s.reqs row.rid).cache ≠ none) : ModelRunner.rowNeed s row = .ok (s.rowCost row) := by
  obtain ⟨tb, htb⟩ := Option.ne_none_iff_exists'.mp hc
  have : ¬ (row.len : Int) < 0 := by omega
  simp [ModelRunner.rowNeed, htb, BlockTable.blocksNeeded, rowCost, table, this]

theorem rowsNeed_ok (hc : ∀ row ∈ rows, (s.reqs row.rid).cache ≠ none) :
    ModelRunner.rowsNeed s rows = .ok (s.rowCosts rows) := by
  induction rows with
  | nil => rfl
  | cons row rows ih =>
    have h1 := rowNeed_ok (hc row List.mem_cons_self)
    have h2 := ih fun x hx => hc x (List.mem_cons_of_mem _ hx)
    simp [ModelRunner.rowsNeed, h1, h2, rowCosts]

structure Reserved (s s' : Scheduler) (rows : List Row) : Prop where
  same : Same s s'
  running : s'.running = s.running
  waiting : s'.waiting = s.waiting
  reqs : ∀ x, ∃ c, s'.reqs x = { s.reqs x with cache := c }
  other : ∀ x, x ∉ rows.map Row.rid → s'.reqs x = s.reqs x

theorem Reserved.refl (s : Scheduler) : Reserved s s [] :=
  ⟨Same.refl s, rfl, rfl, fun x => ⟨(s.reqs x).cache, rfl⟩, fun _ _ => rfl⟩

theorem Reserved.seqLen (h : Reserved s s' rows) (x : Rid) : (s'.reqs x).seqLen = (s.reqs x).seqLen := by
  obtain ⟨c, hc⟩ := h.reqs x
  rw [hc]; rfl

theorem Reserved.state (h : Reserved s s' rows) (x : Rid) : (s'.reqs x).state = (s.reqs x).state := by
  obtain ⟨c, hc⟩ := h.reqs x
  rw [hc]

theorem Reserved.outputIds (h : Reserved s s' rows) (x : Rid) : (s'.reqs x).outputIds = (s.reqs x).outputIds := by
  obtain ⟨c, hc⟩ := h.reqs x
  rw [hc]

theorem Reserved.trans {s'' : Scheduler} {rows' : List Row} (h1 : Reserved s s' rows) (h2 : Reserved s' s'' rows') :
    Reserved s s'' (rows ++ rows') := by
  refine ⟨h1.same.trans h2.same, h2.running.trans h1.running, h2.waiting.trans h1.waiting, fun x => ?_, fun x hx => ?_⟩
  · obtain ⟨c1, e1⟩ := h1.reqs x
    obtain ⟨c2, e2⟩ := h2.reqs x
    exact ⟨c2, by rw [e2, e1]⟩
  · rw [List.map_append, List.mem_append, not_or] at hx
    rw [h2.other x hx.2, h1.other x hx.1]

theorem appendRow_ok (hs : (s.openPool opened older newer).Sound) (hrow : s.RowOpens row)
    (ho : row.rid ∉ opened.map Row.rid) (hn : row.rid ∉ newer.map Prod.fst)
    (hfree : s.rowCost row ≤ s.kv.allocator.numFree) :
    ∃ s', ModelRunner.appendRow s row = .ok s' ∧
      Pool.Move none (s.openPool opened older newer) (s'.openPool (opened ++ [row]) older newer) ∧
      Reserved s s' [row] ∧ (s'.kv.allocator.numFree : Int) = s.kv.allocator.numFree - s.rowCost row := by
  have hm : row.rid ∈ s.running ++ [] := by simpa using hrow.mem
  obtain ⟨tb, htb⟩ := Option.ne_none_iff_exists'.mp (hs.kv.held row.rid hm).cache
  simp only [openPool, pool] at htb
  have htab : s.table row.rid = tb := table_eq htb
  have hstart : tb.numTokens = row.start := by
    have := hrow.start
    rwa [Request.covered, htb] at this
  have hneed : tb.need s.kv.blockSize row.len ≤ s.kv.allocator.numFree := by
    rw [← htab]; exact hfree
  obtain ⟨new, tb', a', happ, hext⟩ := hs.kv.extend (n := row.len) hm htb
    (fun ht => by rw [hstart]; exact hrow.le (.inr ht)) hneed
  simp only [openPool, pool] at happ hext
  refine ⟨s.put row.rid ({ s.kv with allocator := a' }, { s.reqs row.rid with cache := some tb' }), ?_, ?_, ?_, ?_⟩
  · simp [ModelRunner.appendRow, htb, happ]
  · exact Pool.Move.extend (p := s.openPool opened older newer) rfl hm ho hn htb hstart hrow.pos hrow.room
      (fun h => hrow.le (.inl h)) hext
  · refine ⟨⟨rfl, rfl, rfl, rfl, rfl, hext.numBlocks, hext.blockSize, rfl⟩, rfl, rfl, fun x => ?_, fun x hx => ?_⟩
    · by_cases e : x = row.rid
      · subst e
        exact ⟨some tb', by simp [put]⟩
      · exact ⟨(s.reqs x).cache, by simp [put, Function.update_of_ne e]⟩
    · have e : x ≠ row.rid := by simpa using hx
      simp [put, Function.update_of_ne e]
  · rw [rowCost, htab]
    exact hext.free

theorem RowOpens.reserved {other : Row} (h : s.RowOpens other) (hr : Reserved s s' rows)
    (hne : other.rid ∉ rows.map Row.rid) : s'.RowOpens other := by
  have e := hr.other _ hne
  refine ⟨hr.running ▸ h.mem, ?_, h.pos, ?_, ?_⟩
  · rw [e]; exact h.start
  · rw [e]; exact h.room
  · rw [e, hr.same.radix]; exact h.le

theorem rowCost_reserved {other : Row} (hr : Reserved s s' rows) (hne : other.rid ∉ rows.map Row.rid) :
    s'.rowCost other = s.rowCost other := by
  unfold rowCost table
  rw [hr.other _ hne, hr.same.blockSize]

theorem appendRows_ok (hs : (s.openPool opened older newer).Sound) (hrows : ∀ row ∈ rows, s.RowOpens row)
    (hnd : ((opened ++ rows).map Row.rid).Nodup) (hn : ∀ row ∈ rows, row.rid ∉ newer.map Prod.fst)
    (hfree : s.rowCosts rows ≤ s.kv.allocator.numFree) :
    ∃ s', ModelRunner.appendRows rows s = .ok s' ∧
      Pool.Moves none (s.openPool opened older newer) (s'.openPool (opened ++ rows) older newer) ∧
      Reserved s s' rows := by
  induction rows generalizing s opened with
  | nil => exact ⟨s, rfl, by simpa using Pool.Moves.refl _, Reserved.refl s⟩
  | cons row rows ih =>
    have hcost : s.rowCosts (row :: rows) = s.rowCost row + s.rowCosts rows := by simp [rowCosts]
    have hpos : 0 ≤ s.rowCosts rows := List.sum_nonneg fun x hx => by
      obtain ⟨y, -, rfl⟩ := List.mem_map.mp hx
      exact BlockTable.need_nonneg _ _
    have hnd' : (opened.map Row.rid ++ row.rid :: rows.map Row.rid).Nodup := by simpa using hnd
    have ho : row.rid ∉ opened.map Row.rid := fun h =>
      List.disjoint_of_nodup_append hnd' h List.mem_cons_self
    have hrest : ∀ x ∈ rows, x.rid ∉ [row].map Row.rid := by
      intro x hx
      have := (List.nodup_cons.mp (List.nodup_append.mp hnd').2.1).1
      simp only [List.map_cons, List.map_nil, List.mem_singleton]
      exact fun e => this (e ▸ List.mem_map_of_mem hx)
    obtain ⟨s1, happ, hmove, hres, hfree1⟩ := appendRow_ok hs (hrows row List.mem_cons_self) ho
      (hn row List.mem_cons_self) (by omega)
    have hcosts : s1.rowCosts rows = s.rowCosts rows := by
      unfold rowCosts
      rw [List.map_congr_left fun x hx => rowCost_reserved hres (hrest x hx)]
    obtain ⟨s2, h1, h2, h3⟩ := ih (hmove.sound hs)
      (fun x hx => (hrows x (List.mem_cons_of_mem _ hx)).reserved hres (hrest x hx))
      (by simpa using hnd) (fun x hx => hn x (List.mem_cons_of_mem _ hx)) (by rw [hcosts]; omega)
    refine ⟨s2, ?_, ?_, hres.trans h3⟩
    · simp [ModelRunner.appendRows, happ, h1]
    · have := hmove.moves.trans h2
      simpa using this

theorem reserve_ok (hs : (s.pool [] older).Sound) (hrows : ∀ row ∈ rows, s.RowOpens row)
    (hnd : (rows.map Row.rid).Nodup) (hav : s.rowCosts rows ≤ s.kv.numAvailable) :
    ∃ s', ModelRunner.reserve s rows = (.ok (), s') ∧
      Pool.Moves none (s.pool [] older) (s'.openPool rows older []) ∧ Reserved s s' rows := by
  have hcache : ∀ row ∈ rows, (s.reqs row.rid).cache ≠ none := fun row hrow =>
    (pool_held hs (by simpa using (hrows row hrow).mem)).cache
  obtain ⟨kv', hev, hok, -⟩ := hs.kv.reserve (s.rowCosts rows)
  obtain ⟨hres, hfree⟩ := hok hav
  let s1 : Scheduler := { s with kv := kv' }
  have hmove : Pool.Move none (s.pool [] older) (s1.openPool [] older []) := Pool.Move.evict hev
  have hres1 : Reserved s s1 [] :=
    ⟨⟨rfl, rfl, rfl, rfl, rfl, hev.frame.numBlocks, hev.frame.blockSize, hev.frame.radix⟩, rfl, rfl,
      fun x => ⟨(s.reqs x).cache, rfl⟩, fun _ _ => rfl⟩
  have hcosts : s1.rowCosts rows = s.rowCosts rows := by
    unfold rowCosts
    rw [List.map_congr_left fun x _ => rowCost_reserved hres1 (by simp)]
  have hrows1 : ∀ row ∈ rows, s1.RowOpens row := fun x hx => (hrows x hx).reserved hres1 (by simp)
  obtain ⟨s2, h1, h2, h3⟩ := appendRows_ok (hmove.sound hs) hrows1 (by simpa using hnd) (by simp)
    (by rw [hcosts]; exact hfree)
  refine ⟨s2, ?_, ?_, by simpa using hres1.trans h3⟩
  · simp only [pool] at hres
    simp only [ModelRunner.reserve, rowsNeed_ok hcache, hres]
    rw [h1]
  · have := hmove.moves.trans h2
    simpa using this

theorem BatchFits.rowCosts_le {b : Batch} (h : s.BatchFits b) (hs : (s.pool [] older).Sound) :
    s.rowCosts b.rows ≤ s.costs s.running :=
  sum_le_costs hs h.nodup (fun row hrow => (h.rows row hrow).mem) fun row hrow => (h.rows row hrow).rowCost_le hs

end Scheduler

end MiniServe
