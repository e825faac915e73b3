import MiniServe.Engine.Content

namespace MiniServe

open KVCacheManager Generate

namespace Told

variable {model : Model} {q q' : Request} {out : List Token} {k : Nat} {tok : Token}

theorem restate (h : Told model q out) (ha : Pool.Alike q q') (ho : q'.outputIds = q.outputIds)
    (hn : q'.numPending = q.numPending) (hd : ¬ q.isDone) (hd' : ¬ q'.isDone) : Told model q' out where
  output := fun _ => by rw [Model.nextAfter_alike ha, ho]; exact h.output hd
  room := fun _ => by rw [ho, ha.2.1]; exact h.room hd
  ready := fun _ => by
    simp only [Request.readyIds, ho, hn, ha.2.1]
    exact h.ready hd
  finished := fun h => absurd (.inl h) hd'
  aborted := fun h => absurd (.inr h) hd'

theorem sampled {slots : List Nat} (h : Told model q out) (hp : q.Pending slots) (ha : Pool.Alike q q')
    (ho : q'.outputIds = q.outputIds ++ [placeholder]) (hn : q'.numPending = q.numPending + 1) (hd : ¬ q.isDone)
    (hd' : ¬ q'.isDone) (hroom : q.outputIds.length < q.params.maxNewTokens) (htok : tok = model.nextAfter q out) :
    Told model q' (out ++ [tok]) := by
  have hout := h.output hd
  refine ⟨fun _ => ?_, fun _ => ?_, fun _ => ?_, fun h => absurd (.inl h) hd', fun h => absurd (.inr h) hd'⟩
  · rw [Model.nextAfter_alike ha, ho, List.length_append, List.length_singleton, stream, ← hout, htok]
  · rw [ho, ha.2.1, List.length_append, List.length_singleton]
    exact hroom
  · have hr : q'.readyIds = q.readyIds := by
      rw [← hp.readyIds_sampled]
      simp only [Request.readyIds, Request.sampled, ho, hn]
    rw [hr, ha.2.1]
    exact h.ready hd

theorem filled {slots : List Nat} (h : Told model q out) (hp : q.Pending (k :: slots)) (hd : ¬ q.isDone)
    (hs : tok ∉ q.params.stopTokenIds) : Told model (q.filled k tok) out := by
  have hd' : ¬ (q.filled k tok).isDone := hd
  refine ⟨fun _ => ?_, fun _ => ?_, fun _ => ?_, fun h => absurd (.inl h) hd', fun h => absurd (.inr h) hd'⟩
  · have hlen : (q.filled k tok).outputIds.length = q.outputIds.length := by simp [Request.filled]
    rw [hlen]
    exact h.output hd
  · simp only [Request.filled, List.length_set]
    exact h.room hd
  · rw [hp.readyIds_filled]
    intro t ht
    rcases List.mem_append.mp ht with ht | ht
    · exact h.ready hd t ht
    · rw [List.mem_singleton.mp ht]; exact hs

theorem ready_begins (h : Told model q out) (hd : ¬ q.isDone)
    (hr : q.readyIds <+: out) : q.readyIds <+: model.output q := by
  refine prefix_cutAt ?_ (h.ready hd)
  rw [h.output hd] at hr
  exact hr.trans (stream_begins (h.room hd))

theorem finishes {slots : List Nat} {rest : List Token} (h : Told model q out) (hp : q.Pending (k :: slots))
    (hd : ¬ q.isDone) (hout : out = q.readyIds ++ tok :: rest)
    (hk : q.params.maxNewTokens ≤ k + 1 ∨ tok ∈ q.params.stopTokenIds) : q.readyIds ++ [tok] = model.output q := by
  obtain ⟨hkn, hpos⟩ := hp.head
  have hlen : q.readyIds.length = k := by
    rw [Request.readyIds, List.length_take]
    omega
  have hroom := h.room hd
  have hpre : q.readyIds ++ [tok] <+: stream (model.nextAfter q) q.outputIds.length := by
    rw [← h.output hd, hout]
    exact ⟨rest, by simp⟩
  have heq : q.readyIds ++ [tok] = stream (model.nextAfter q) (q.readyIds.length + 1) := by
    have := List.prefix_iff_eq_take.mp hpre
    rw [List.length_append, List.length_singleton, stream_take (by omega)] at this
    exact this
  exact cutAt_stream heq (by omega) (h.ready hd) (by rw [hlen]; exact hk)

end Told

namespace Pool

variable {p p' : Pool} {model : Model} {d : Device} {sample : Option (Rid → Token)} {r : Rid} {q : Request}
  {kv' : KVCacheManager}

theorem Content.told_live (hc : Content model d sample p) (hin : p'.reqs r = q) (ha : Alike (p.reqs r) q)
    (ho : q.outputIds = (p.reqs r).outputIds) (hn : q.numPending = (p.reqs r).numPending)
    (hd : ¬ (p.reqs r).isDone) (hd' : ¬ q.isDone) (hold : p'.older = p.older)
    (hnew : p'.newer = p.newer) : Told model (p'.reqs r) (p'.outputs r) := by
  have hout : p'.outputs r = p.outputs r := by
    simp only [outputs, hin, Request.readyIds, ho, hn, hold, hnew]
  rw [hin, hout]
  exact (hc.told r).restate ha ho hn hd hd'

theorem content_submit (hs : p.Sound) (hc : Content model d sample p) (hb : p.reqs r = Request.blank r)
    (hr : r ∉ p.live ++ p.waiting) (hq : q.Fresh) :
    Content model d sample { p.put r p.kv q with waiting := p.waiting ++ [r] } := by
  have hl : r ∉ p.live := fun h => hr (List.mem_append_left _ h)
  have hslots : inflightTokens (p.older ++ p.newer) r = [] := by
    have hp := (hs.pending r (by simp [hb, Request.blank, Request.isDone])).length
    rw [← inflightTokens_length] at hp
    exact List.length_eq_zero_iff.mp (hp.trans (by simp [hb, Request.blank]))
  have hd : ¬ q.isDone := by simp [Request.isDone, hq.state]
  refine hc.change r rfl (fun x hx => Function.update_of_ne hx _ _) (fun _ _ => rfl) (fun x hx _ => hx)
    (fun _ _ => Iff.rfl) (fun _ _ h => .inl h) (fun h => absurd h hl) ?_ fun row hrow e => ?_
  · have hself : ({ p.put r p.kv q with waiting := p.waiting ++ [r] } : Pool).reqs r = q := Function.update_self _ _ _
    have hready : q.readyIds = [] := by simp [Request.readyIds, hq.output]
    rw [outputs, hself, hready]
    refine ⟨fun _ => ?_, fun _ => ?_, fun _ => ?_, fun h => absurd (.inl h) hd, fun h => absurd (.inr h) hd⟩
    · rw [hq.output]; exact hslots
    · rw [hq.output]; exact Nat.zero_le _
    · rw [hready]; simp
  · exact absurd (e ▸ (hs.opened row hrow).1) hl

theorem content_lookup {kv1 kv2 : KVCacheManager} {blocks : List Int} {node : Option Nat} (hs : p.Sound)
    (hc : Content model d sample p) (hr : r ∈ p.waiting) (h1 : Acquired p.kv kv1 p.reqs p.live r blocks node)
    (h2 : Forgotten kv1 kv2 (Function.update p.reqs r ((p.reqs r).acquired p.kv.blockSize blocks node)) (r :: p.live) r
      { (p.reqs r).dropped with numCachedTokens := 0 }) :
    Content model d sample (p.put r kv2 { (p.reqs r).dropped with numCachedTokens := 0 }) := by
  have hl := hs.not_mem_live hr
  have hd := hs.not_done (.inr hr)
  refine hc.change r (h2.frame.blockSize.trans h1.frame.blockSize)
    (fun x hx => Function.update_of_ne hx _ _) (fun _ _ => rfl)
    (fun x hx _ => hx) (fun _ _ => Iff.rfl) (fun key b h => .inl ?_) (fun h => absurd h hl) ?_ fun row hrow e => ?_
  · rw [← h1.cells, ← h2.cells]
    exact h
  · exact hc.told_live put_self ⟨rfl, rfl, rfl⟩ rfl rfl hd hd rfl rfl
  · exact absurd (e ▸ (hs.opened row hrow).1) hl

theorem content_enter {blocks : List Int} {node : Option Nat} (hs : p.Sound) (hc : Content model d sample p)
    (hr : r ∈ p.waiting) (hn : (p.reqs r).numPending = 0) (h : Acquired p.kv kv' p.reqs p.live r blocks node) :
    Content model d sample { p.put r kv' { (p.reqs r).acquired p.kv.blockSize blocks node with state := .prefill } with
      live := p.live ++ [r]
      waiting := p.waiting.erase r } := by
  have hl := hs.not_mem_live hr
  have hd := hs.not_done (.inr hr)
  have hbs := @blockSize_pos p.kv
  refine hc.change r h.frame.blockSize (fun x hx => Function.update_of_ne hx _ _) (fun _ _ => rfl)
    (fun x hx e => (List.mem_append.mp hx).resolve_right (by simpa using e)) (fun _ _ => Iff.rfl)
    (fun key b hk => .inl (h.cells ▸ hk)) (fun _ pos hw => ?_) ?_ fun row hrow e => ?_
  · -- A position of the cached prefix: the tree's cell of its block holds the request's own token there.
    have hpos : pos < blocks.length * p.kv.blockSize := by
      have := hw.1
      simpa [put, Request.covered, Request.acquired] using this
    have hlt : pos / p.kv.blockSize < blocks.length := (Nat.div_lt_iff_lt_mul hbs).mpr hpos
    have hcell := hc.cells _ _ (h.found _ _ (List.getElem?_eq_getElem hlt))
    have hseq : blocks.length * p.kv.blockSize ≤ (p.reqs r).seqLen := by
      have := h.bound
      omega
    have hle : (pos / p.kv.blockSize + 1) * p.kv.blockSize ≤ blocks.length * p.kv.blockSize :=
      Nat.mul_le_mul_right _ hlt
    have hmod := Nat.div_add_mod' pos p.kv.blockSize
    have hlt' := Nat.mod_lt pos hbs
    have hlen : ((p.reqs r).tokens.take ((pos / p.kv.blockSize + 1) * p.kv.blockSize)).length =
        pos / p.kv.blockSize * p.kv.blockSize + p.kv.blockSize := by
      rw [List.length_take, Request.tokens_length, Nat.min_eq_left (hle.trans hseq), Nat.succ_mul]
    have hat := hcell pos (by omega) (by omega)
    have hslot : rowSlot { p.put r kv' { (p.reqs r).acquired p.kv.blockSize blocks node with state := .prefill } with
        live := p.live ++ [r]
        waiting := p.waiting.erase r } r pos = blocks[pos / p.kv.blockSize] * p.kv.blockSize +
          (pos % p.kv.blockSize : Nat) := by
      simp only [rowSlot, put, Function.update_self, Request.acquired, Option.getD_some, BlockTable.slotAt,
        h.frame.blockSize]
      rw [List.getD_eq_getElem?_getD, List.getElem?_eq_getElem hlt, Option.getD_some]
    rw [hslot, hat, List.getElem?_take_of_lt (by rw [Nat.succ_mul]; omega)]
    have htruth : truth { p.put r kv' { (p.reqs r).acquired p.kv.blockSize blocks node with state := .prefill } with
        live := p.live ++ [r]
        waiting := p.waiting.erase r } r = p.truth r := by
      simp only [truth, outputs, put, Function.update_self, Request.acquired]
      rfl
    have hwhole := hs.take_prefix (n := (p.reqs r).seqLen) hd (by omega)
    rw [List.take_of_length_le (by rw [Request.tokens_length])] at hwhole
    rw [htruth, hwhole.eq_of_length (by rw [hs.truth_length hd, Request.tokens_length])]
  · exact hc.told_live (Function.update_self _ _ _) ⟨rfl, rfl, rfl⟩ rfl rfl hd (by simp [Request.isDone]) rfl rfl
  · exact absurd (e ▸ (hs.opened row hrow).1) hl

theorem content_preempt (hs : p.Sound) (hc : Content model d sample p) (hr : r ∈ p.live)
    (ho : r ∉ p.opened.map Row.rid) (hn : p.newer = [])
    (h : Released p.kv kv' (Function.update p.reqs r { p.reqs r with state := .waiting }) p.live r
      { (p.reqs r).dropped with state := .waiting }) :
    Content model d sample { p.put r kv' { (p.reqs r).dropped with
        state := .waiting
        numPreemptions := (p.reqs r).numPreemptions + 1 } with
      live := p.live.erase r
      waiting := r :: p.waiting } := by
  have hd := hs.not_done (.inl hr)
  have hbs := @blockSize_pos p.kv
  have hw : ∀ pos < (p.reqs r).covered, Written sample p r pos := fun pos hpos =>
    ⟨hpos, fun _ row hrow e => absurd (e ▸ List.mem_map_of_mem hrow) ho⟩
  have hcov : (p.reqs r).covered + (p.reqs r).numPending ≤ (p.reqs r).seqLen := by
    have h1 := hs.numPending_le_one hn hd
    rcases (hs.active r hr ho).phase with ⟨-, h2, h3⟩ | ⟨-, h2, -⟩ <;> omega
  refine hc.change r h.frame.blockSize (fun x hx => Function.update_of_ne hx _ _) (fun _ _ => rfl)
    (fun x hx _ => List.mem_of_mem_erase hx) (fun _ _ => Iff.rfl) (fun key b hk => ?_)
    (fun h => absurd h hs.kv.nodup.not_mem_erase) ?_ fun row hrow e => ?_
  · rcases h.cells _ hk with hk | ⟨i, b', hi, hb, he⟩
    · exact .inl hk
    · rw [Function.update_self] at hi hb he
      obtain ⟨rfl, rfl⟩ := Prod.mk.inj he
      have hle : (i + 1) * p.kv.blockSize ≤ (p.reqs r).covered := (Nat.le_div_iff_mul_le hbs).mp hi
      refine .inr (hc.own_cell hr hw hi hb (hs.take_prefix hd (by omega)) ?_)
      show ((p.reqs r).tokens.take _).length = _
      rw [List.length_take, Request.tokens_length]
      omega
  · exact hc.told_live (Function.update_self _ _ _) ⟨rfl, rfl, rfl⟩ rfl rfl hd (by simp [Request.isDone]) rfl rfl
  · exact absurd (e ▸ List.mem_map_of_mem hrow) ho

theorem content_evict (hc : Content model d sample p) (h : Evicted p.kv kv' p.reqs p.live) :
    Content model d sample { p with kv := kv' } := by
  refine ⟨fun x hx pos hw => ?_, fun key b hk => ?_, hc.told, hc.sampled⟩
  · have := hc.tables x hx pos hw
    simp only [rowSlot, h.frame.blockSize] at this ⊢
    exact this
  · show CellHolds d kv'.blockSize key b
    rw [h.frame.blockSize]
    exact hc.cells key b (h.cells hk)

theorem content_extend {row : Row} {tb tb' : BlockTable} (hs : p.Sound) (hc : Content model d none p)
    (hr : row.rid ∈ p.live) (hcache : (p.reqs row.rid).cache = some tb) (hstart : tb.numTokens = row.start)
    (ho : row.rid ∉ p.opened.map Row.rid) (h : Extended p.kv kv' p.reqs p.live row.rid tb tb' row.len) :
    Content model d none
      { p.put row.rid kv' { p.reqs row.rid with cache := some tb' } with opened := p.opened ++ [row] } := by
  have hd := hs.not_done (.inl hr)
  refine hc.change row.rid h.blockSize (fun x hx => Function.update_of_ne hx _ _) (fun _ _ => rfl) (fun x hx _ => hx)
    (fun x hx => ?_) (fun key b hk => .inl ?_) (fun _ pos hw => ?_) ?_ fun _ _ _ => rfl
  · rw [List.mem_append, List.mem_singleton]
    exact or_iff_left fun e => hx (e ▸ rfl)
  · simpa [cachedCells, h.tree, h.blockSize] using hk
  · -- The device has only what the table held before it grew.
    have hlt : pos < row.start := hw.2 rfl row (by simp) rfl
    have hlt' : pos < (p.reqs row.rid).covered := by
      simp only [Request.covered, hcache]
      omega
    have hold := hc.tables row.rid hr pos ⟨hlt', fun _ x hx e => absurd (e ▸ List.mem_map_of_mem hx) ho⟩
    have hcap := (hs.kv.held row.rid hr).capacity
    simp only [Request.tableBlocks, hcache] at hcap
    have hidx : pos / p.kv.blockSize < tb.blocks.length :=
      (Nat.div_lt_iff_lt_mul blockSize_pos).mpr (by omega)
    have hslot : rowSlot { p.put row.rid kv' { p.reqs row.rid with cache := some tb' } with opened := p.opened ++ [row] }
        row.rid pos = p.rowSlot row.rid pos := by
      obtain ⟨new, hnew⟩ := h.blocks
      simp only [rowSlot, put, Function.update_self, hcache, Option.getD_some, BlockTable.slotAt, h.blockSize]
      rw [← hnew, List.getD_eq_getElem?_getD, List.getElem?_append_left hidx, ← List.getD_eq_getElem?_getD]
    rw [hslot, hold]
    simp only [truth, outputs, put, Function.update_self]
    rfl
  · exact hc.told_live (Function.update_self _ _ _) ⟨rfl, rfl, rfl⟩ rfl rfl hd hd rfl rfl

section Settle

variable {f : Rid → Token} {row : Row} {rest : List Row} {tok : Token} {slot : Option Nat} {tail : List Token}

theorem content_settle (hs : p.Sound) (hc : Content model d (some f) p) (ho : p.opened = row :: rest)
    (hbs : kv'.blockSize = p.kv.blockSize) (hcache : q.cache = (p.reqs row.rid).cache)
    (hprompt : q.promptIds = (p.reqs row.rid).promptIds)
    (hready : q.readyIds = (p.reqs row.rid).readyIds)
    (htail : inflightTokens [(row.rid, tok, slot)] row.rid = tail)
    (hle : row.start + row.len ≤ (p.reqs row.rid).seqLen)
    (hcells : ∀ key b, (key, b) ∈ kv'.cachedCells → (key, b) ∈ p.kv.cachedCells ∨ CellHolds d p.kv.blockSize key b)
    (htold : Told model q (p.outputs row.rid ++ tail)) :
    Content model d (some f)
      { p.put row.rid kv' q with opened := rest, newer := p.newer ++ [(row.rid, tok, slot)] } := by
  obtain ⟨hl, hopen, hnr, -⟩ := hs.head_row ho
  have hd := hs.not_done (.inl hl)
  have hin : ∀ x, inflightTokens (p.older ++ (p.newer ++ [(row.rid, tok, slot)])) x =
      inflightTokens (p.older ++ p.newer) x ++ inflightTokens [(row.rid, tok, slot)] x := fun x => by
    rw [← List.append_assoc, inflightTokens_append]
  have hout : outputs { p.put row.rid kv' q with opened := rest, newer := p.newer ++ [(row.rid, tok, slot)] } row.rid =
      p.outputs row.rid ++ tail := by
    simp only [outputs, put, Function.update_self, hready, hin, htail, List.append_assoc]
  refine hc.change row.rid hbs (fun x hx => Function.update_of_ne hx _ _) (fun x hx => ?_) (fun x hx _ => hx)
    (fun x hx => ?_) hcells (fun _ pos hw => ?_) ?_ fun x hx e => ?_
  · show inflightTokens (p.older ++ (p.newer ++ [(row.rid, tok, slot)])) x = _
    rw [hin, inflightTokens_cons_ne (Ne.symm hx)]
    simp [inflightTokens]
  · have hne : x ≠ row := fun e => hx (e ▸ rfl)
    rw [ho, List.mem_cons, or_iff_right hne]
  · have hpos : pos < (p.reqs row.rid).covered := by
      have := hw.1
      simpa [put, Request.covered, hcache] using this
    have hold := hc.tables row.rid hl pos ⟨hpos, fun h => by simp at h⟩
    have hslot : rowSlot { p.put row.rid kv' q with opened := rest, newer := p.newer ++ [(row.rid, tok, slot)] }
        row.rid pos = p.rowSlot row.rid pos := by
      simp only [rowSlot, put, Function.update_self, hcache, hbs]
    have hcov := hopen.covered
    have htruth : truth { p.put row.rid kv' q with opened := rest, newer := p.newer ++ [(row.rid, tok, slot)] }
        row.rid = p.truth row.rid ++ tail := by
      simp only [truth, hout, List.append_assoc]
      simp only [put, Function.update_self, hprompt]
    rw [hslot, hold, htruth, List.getElem?_append_left (by rw [hs.truth_length hd]; omega)]
  · rw [hout]
    simp only [put, Function.update_self]
    exact htold
  · exact absurd (e ▸ List.mem_map_of_mem hx) hnr

theorem Content.committed_cells {store : Store} {node : Option Nat} (hs : p.Sound) (hc : Content model d (some f) p)
    (ho : p.opened = row :: rest) (hpre : (p.reqs row.rid).state = .prefill)
    (htake : ∀ n ≤ (p.reqs row.rid).seqLen, (store row.rid).tokens.take n = (p.reqs row.rid).tokens.take n)
    (hcache : (store row.rid).cache = (p.reqs row.rid).cache) (h : Committed p.kv kv' store p.live row.rid node)
    {key : List Token} {b : Int} (hk : (key, b) ∈ kv'.cachedCells) :
    (key, b) ∈ p.kv.cachedCells ∨ CellHolds d p.kv.blockSize key b := by
  obtain ⟨hl, hopen, -⟩ := hs.head_row ho
  have hbs := @blockSize_pos p.kv
  have hphase : row.start + row.len ≤ (p.reqs row.rid).seqLen ∧ (p.reqs row.rid).numPending = 0 := by
    rcases hopen.phase with h | h
    · exact h.2
    · rw [hpre] at h; simp at h
  have hcov := hopen.covered
  rcases h.cells _ hk with hk | ⟨i, b', hi, hb, he⟩
  · exact .inl hk
  · obtain ⟨rfl, rfl⟩ := Prod.mk.inj he
    simp only [Request.covered, Request.tableBlocks, hcache] at hi hb
    have hle : (i + 1) * p.kv.blockSize ≤ (p.reqs row.rid).covered := (Nat.le_div_iff_mul_le hbs).mp hi
    rw [htake _ (by omega)]
    refine .inr (hc.own_cell hl (fun pos hpos => ⟨hpos, fun h => by simp at h⟩) hi hb
      (hs.take_prefix (hs.not_done (.inl hl)) (by omega)) ?_)
    rw [List.length_take, Request.tokens_length]
    omega

theorem content_chunk {node : Option Nat} (hs : p.Sound) (hc : Content model d (some f) p)
    (ho : p.opened = row :: rest) (hpre : (p.reqs row.rid).state = .prefill)
    (hlt : row.start + row.len < (p.reqs row.rid).seqLen) (h : Committed p.kv kv' p.reqs p.live row.rid node) :
    Content model d (some f) { p.put row.rid kv' { p.reqs row.rid with cacheNode := node } with
      opened := rest
      newer := p.newer ++ [(row.rid, f row.rid, none)] } := by
  have hd := hs.not_done (.inl (hs.head_row ho).1)
  refine content_settle hs hc ho h.frame.blockSize rfl rfl rfl (by simp [inflightTokens] : _ = []) hlt.le
    (fun key b hk => hc.committed_cells hs ho hpre (fun _ _ => rfl) rfl h hk) ?_
  rw [List.append_nil]
  exact (hc.told row.rid).restate ⟨rfl, rfl, rfl⟩ rfl rfl hd hd

theorem content_sampled (hs : p.Sound) (hc : Content model d (some f) p) (ho : p.opened = row :: rest)
    (heq : row.start + row.len = (p.reqs row.rid).seqLen) (hbs : kv'.blockSize = p.kv.blockSize)
    (hcache : q.cache = (p.reqs row.rid).cache) (ha : Alike (p.reqs row.rid) q)
    (hout : q.outputIds = (p.reqs row.rid).outputIds ++ [placeholder])
    (hnum : q.numPending = (p.reqs row.rid).numPending + 1) (hdone : ¬ q.isDone)
    (hcells : ∀ key b, (key, b) ∈ kv'.cachedCells → (key, b) ∈ p.kv.cachedCells ∨ CellHolds d p.kv.blockSize key b) :
    Content model d (some f) { p.put row.rid kv' q with
      opened := rest
      newer := p.newer ++ [(row.rid, f row.rid, some (p.reqs row.rid).outputIds.length)] } := by
  obtain ⟨hl, hopen, -⟩ := hs.head_row ho
  have hd := hs.not_done (.inl hl)
  have hp := hs.pending row.rid hd
  have htok := hc.sampled f rfl row (by rw [ho]; exact List.mem_cons_self) heq
  refine content_settle hs hc ho hbs hcache ha.1 ?_ (by simp [inflightTokens] : _ = [f row.rid]) heq.le hcells ?_
  · rw [← hp.readyIds_sampled]
    simp only [Request.readyIds, Request.sampled, hout, hnum]
  · exact (hc.told row.rid).sampled hp ha hout hnum hd hdone hopen.room htok

end Settle

section ReadBack

variable {tok : Token} {k : Nat} {rest : List Entry}

theorem outputs_pop (ho : p.older = (r, tok, some k) :: rest) :
    inflightTokens (p.older ++ p.newer) r = tok :: inflightTokens (rest ++ p.newer) r := by
  rw [ho, List.cons_append, inflightTokens_cons_some]

theorem content_skip {x : Entry} (hs : p.Sound) (hc : Content model d sample p) (ho : p.older = x :: rest)
    (h : x.2.2 = none ∨ (p.reqs x.1).isDone) : Content model d sample { p with older := rest } := by
  have hout : ∀ y, ¬ (p.reqs y).isDone → outputs { p with older := rest } y = p.outputs y := by
    intro y hy
    simp only [outputs, ho, List.cons_append]
    rcases h with h | h
    · rw [inflightTokens_cons_none h]
    · have hne : x.1 ≠ y := fun e => hy (by rw [← e]; exact h)
      rw [inflightTokens_cons_ne hne]
  refine ⟨fun y hy pos hw => ?_, hc.cells, fun y => (hc.told y).congr (hout y), fun f hf row hrow hcomp => ?_⟩
  · have := hc.tables y hy pos hw
    simp only [truth] at this ⊢
    rw [hout y (hs.not_done (.inl hy))]
    exact this
  · rw [hout _ (hs.not_done (.inl (hs.opened row hrow).1))]
    exact hc.sampled f hf row hrow hcomp

theorem content_fill (hs : p.Sound) (hc : Content model d sample p) (ho : p.older = (r, tok, some k) :: rest)
    (hop : p.opened = []) (hd : ¬ (p.reqs r).isDone) (hst : tok ∉ (p.reqs r).params.stopTokenIds) :
    Content model d sample { p.put r p.kv ((p.reqs r).filled k tok) with older := rest } := by
  have hp := hs.pending r hd
  rw [ho, List.cons_append, slotsOf_cons_some] at hp
  have hout : outputs { p.put r p.kv ((p.reqs r).filled k tok) with older := rest } r = p.outputs r := by
    simp only [outputs, put, Function.update_self, hp.readyIds_filled, outputs_pop ho, List.append_assoc,
      List.singleton_append]
  refine hc.change r rfl (fun x hx => Function.update_of_ne hx _ _) (fun x hx => ?_) (fun x hx _ => hx)
    (fun _ _ => Iff.rfl) (fun _ _ h => .inl h) (fun hl pos hw => ?_) ?_ fun row hrow e => ?_
  · show inflightTokens (rest ++ p.newer) x = _
    rw [ho, List.cons_append, inflightTokens_cons_ne (Ne.symm hx)]
  · have hw' : Written sample p r pos := by
      refine ⟨?_, hw.2⟩
      have := hw.1
      simpa [put, Request.covered, Request.filled] using this
    have := hc.tables r hl pos hw'
    simp only [truth, hout] at this ⊢
    simp only [rowSlot, put, Function.update_self, Request.filled] at this ⊢
    exact this
  · rw [hout]
    simp only [put, Function.update_self]
    exact (hc.told r).filled hp hd hst
  · simp [put, hop] at hrow

theorem content_leave {older : List Entry} (hs : p.Sound) (hc : Content model d sample p) (hop : p.opened = [])
    (h : p.Leaves r q kv') (hcache : q.cache = (p.reqs r).cache) (htok : q.tokens <+: p.truth r)
    (hin : ∀ x, x ≠ r → inflightTokens (older ++ p.newer) x = inflightTokens (p.older ++ p.newer) x)
    (htold : ∀ out, Told model q.dropped out) : Content model d sample (p.leave r kv' q older) := by
  have hbs' : kv'.blockSize = p.kv.blockSize := by
    by_cases hl : r ∈ p.live
    · exact (h.released hl).frame.blockSize
    · rw [h.unheld hl]
  have hbs := @blockSize_pos p.kv
  refine hc.change r hbs' (fun x hx => Function.update_of_ne hx _ _) hin (fun x hx _ => List.mem_of_mem_erase hx)
    (fun _ _ => Iff.rfl) (fun key b hk => ?_) (fun h => absurd h hs.kv.nodup.not_mem_erase) ?_ fun row hrow e => ?_
  · have hk : (key, b) ∈ kv'.cachedCells := hk
    by_cases hl : r ∈ p.live
    · have hrel := h.released hl
      rcases hrel.cells _ hk with hk' | ⟨i, b', hi, hb, he⟩
      · exact .inl hk'
      · rw [Function.update_self] at hi hb he
        obtain ⟨rfl, rfl⟩ := Prod.mk.inj he
        simp only [Request.covered, Request.tableBlocks, hcache] at hi hb
        have hle : (i + 1) * p.kv.blockSize ≤ (p.reqs r).covered := (Nat.le_div_iff_mul_le hbs).mp hi
        have htree : p.kv.tree.isSome := by
          rw [← hrel.frame.radix]
          cases ht : kv'.tree with
          | none => simp [cachedCells, ht] at hk
          | some t => rfl
        have hcov := h.covered hl htree
        refine .inr (hc.own_cell hl (fun pos hpos => ⟨hpos, fun _ row hrow _ => ?_⟩) hi hb
          ((List.take_prefix _ _).trans htok) ?_)
        · simp [hop] at hrow
        · rw [List.length_take, Request.tokens_length]
          omega
    · rw [h.unheld hl] at hk
      exact .inl hk
  · have hself : (p.leave r kv' q older).reqs r = q.dropped := Function.update_self _ _ _
    rw [hself]
    exact htold _
  · simp [leave, put, hop] at hrow

theorem content_finish (hs : p.Sound) (hc : Content model d sample p) (ho : p.older = (r, tok, some k) :: rest)
    (hop : p.opened = []) (hd : ¬ (p.reqs r).isDone)
    (hk : (p.reqs r).params.maxNewTokens ≤ k + 1 ∨ tok ∈ (p.reqs r).params.stopTokenIds)
    (h : p.Leaves r { ((p.reqs r).filled k tok).dropPending with state := .finished } kv') :
    Content model d sample (p.leave r kv' { ((p.reqs r).filled k tok).dropPending with state := .finished } rest) := by
  have hp := hs.pending r hd
  rw [ho, List.cons_append, slotsOf_cons_some] at hp
  have hids : ((p.reqs r).filled k tok).dropPending.outputIds = (p.reqs r).readyIds ++ [tok] := by
    rw [Request.dropPending_outputIds, ← hp.readyIds_filled]
    rfl
  have hout : p.outputs r = (p.reqs r).readyIds ++ tok :: inflightTokens (rest ++ p.newer) r := by
    rw [outputs, outputs_pop ho]
  refine content_leave hs hc hop h (by simp [Request.filled]) ?_ (fun x hx => ?_) fun out => ?_
  · have htok : Request.tokens { ((p.reqs r).filled k tok).dropPending with state := .finished } =
        (p.reqs r).promptIds ++ ((p.reqs r).readyIds ++ [tok]) := by
      simp only [Request.tokens, hids, Request.dropPending_promptIds]
      rfl
    rw [htok, truth, hout]
    exact ⟨inflightTokens (rest ++ p.newer) r, by simp⟩
  · rw [ho, List.cons_append, inflightTokens_cons_ne (Ne.symm hx)]
  · have ha : Alike (p.reqs r) (Request.dropped { ((p.reqs r).filled k tok).dropPending with state := .finished }) := by
      simp [Alike, Request.dropped, Request.filled]
    have hdone : Request.isDone (Request.dropped { ((p.reqs r).filled k tok).dropPending with state := .finished }) :=
      .inl rfl
    refine ⟨fun h => absurd hdone h, fun h => absurd hdone h, fun h => absurd hdone h, fun _ => ?_, fun h => ?_⟩
    · rw [Model.output_alike ha]
      exact hids.trans ((hc.told r).finishes hp hd hout hk)
    · simp [Request.dropped] at h

theorem content_abort (hs : p.Sound) (hc : Content model d sample p) (hop : p.opened = [])
    (hr : r ∈ p.live ∨ r ∈ p.waiting) (h : p.Leaves r { (p.reqs r).dropPending with state := .aborted } kv') :
    Content model d sample (p.leave r kv' { (p.reqs r).dropPending with state := .aborted } p.older) := by
  have hd := hs.not_done hr
  have hids : (p.reqs r).dropPending.outputIds = (p.reqs r).readyIds := Request.dropPending_outputIds
  refine content_leave hs hc hop h (by simp) ?_ (fun _ _ => rfl) fun out => ?_
  · have htok : Request.tokens { (p.reqs r).dropPending with state := .aborted } =
        (p.reqs r).promptIds ++ (p.reqs r).readyIds := by
      simp only [Request.tokens, hids, Request.dropPending_promptIds]
    rw [htok]
    exact ready_begins
  · have ha : Alike (p.reqs r) (Request.dropped { (p.reqs r).dropPending with state := .aborted }) := by
      simp [Alike, Request.dropped]
    have hdone : Request.isDone (Request.dropped { (p.reqs r).dropPending with state := .aborted }) := .inr rfl
    refine ⟨fun h => absurd hdone h, fun h => absurd hdone h, fun h => absurd hdone h, fun h => ?_, fun _ => ?_⟩
    · simp [Request.dropped] at h
    · rw [Model.output_alike ha]
      show (p.reqs r).dropPending.outputIds <+: _
      rw [hids]
      exact (hc.told r).ready_begins hd (List.prefix_append _ _)

end ReadBack

theorem Move.content (hs : p.Sound) (hc : Content model d sample p) (h : Move sample p p') :
    Content model d sample p' := by
  cases h with
  | submit hb hr hq => exact content_submit hs hc hb hr hq
  | lookup hr h1 h2 => exact content_lookup hs hc hr h1 h2
  | enter hr hn h => exact content_enter hs hc hr hn h
  | preempt hr ho hn h => exact content_preempt hs hc hr ho hn h
  | evict h => exact content_evict hc h
  | extend hf hr ho hn hcache hstart hpos hroom hpre h =>
    subst hf
    exact content_extend hs hc hr hcache hstart ho h
  | chunk hf ho hpre hlt htok h =>
    subst hf
    exact content_chunk hs hc ho hpre hlt h
  | @first row rest kv' node f hf ho hpre heq htok h =>
    subst hf
    refine content_sampled hs hc ho heq h.frame.blockSize rfl ⟨rfl, rfl, rfl⟩ rfl rfl (by simp [Request.isDone])
      fun key b hk => hc.committed_cells hs ho hpre (fun n hn => ?_) ?_ h hk
    · rw [Function.update_self]
      show (p.reqs row.rid).sampled.tokens.take n = _
      rw [Request.tokens_sampled, List.take_append_of_le_length (by rw [Request.tokens_length]; exact hn)]
    · rw [Function.update_self]
      rfl
  | @again row rest f hf ho hdec hlen htok =>
    subst hf
    obtain ⟨hl, hopen, -⟩ := hs.head_row ho
    have heq : row.start + row.len = (p.reqs row.rid).seqLen := by
      rcases hopen.phase with h | h
      · rw [hdec] at h; simp at h
      · rw [hlen]; exact h.2.1
    exact content_sampled hs hc ho heq rfl rfl ⟨rfl, rfl, rfl⟩ rfl rfl (hs.not_done (.inl hl)) fun _ _ h => .inl h
  | skip ho h => exact content_skip hs hc ho h
  | fill ho hop hd hr hk hst => exact content_fill hs hc ho hop hd hst
  | finish ho hop hd hr hk h => exact content_finish hs hc ho hop hd hk h
  | abort hop hr h => exact content_abort hs hc hop hr h
  | turn ho hop =>
    have hes : ∀ r, inflightTokens (p.newer ++ []) r = inflightTokens (p.older ++ p.newer) r := fun r => by
      rw [ho, List.append_nil, List.nil_append]
    refine ⟨fun r hr pos hw => ?_, hc.cells, fun r => ?_, fun f hf row hrow hcomp => ?_⟩
    · have := hc.tables r hr pos hw
      simp only [truth, outputs, hes] at this ⊢
      exact this
    · simp only [outputs, hes]
      exact hc.told r
    · simp [hop] at hrow

theorem Moves.content (h : Moves sample p p') (hs : p.Sound) (hc : Content model d sample p) :
    Content model d sample p' :=
  (h.invariant (fun _ _ hs hc hm => hm.content hs hc) hs hc).2

end Pool

end MiniServe
