import MiniServe.Engine.PoolSound

namespace MiniServe

open KVCacheManager

namespace Pool

variable {p p' : Pool} {r : Rid} {q : Request} {kv' : KVCacheManager}

@[simp] theorem put_self : (p.put r kv' q).reqs r = q := Function.update_self _ _ _

@[simp] theorem put_kv : (p.put r kv' q).kv = kv' := rfl
@[simp] theorem put_live : (p.put r kv' q).live = p.live := rfl
@[simp] theorem put_waiting : (p.put r kv' q).waiting = p.waiting := rfl
@[simp] theorem put_opened : (p.put r kv' q).opened = p.opened := rfl
@[simp] theorem put_older : (p.put r kv' q).older = p.older := rfl
@[simp] theorem put_newer : (p.put r kv' q).newer = p.newer := rfl

structure KVPart (p : Pool) : Prop where
  kv : p.kv.Sound p.reqs p.live
  path : ∀ r ∈ p.live, (p.kv.nodeTokens (p.reqs r).cacheNode).length + (p.reqs r).numPending ≤ (p.reqs r).seqLen
  exact : ∀ r ∈ p.live, (p.reqs r).state = .prefill →
    (p.reqs r).tableBlocks.length * p.kv.blockSize < (p.reqs r).covered + p.kv.blockSize
  fresh : ∀ row ∈ p.opened, (p.kv.nodeTokens (p.reqs row.rid).cacheNode).length ≤ row.start

structure QueuePart (p : Pool) : Prop where
  nodup : (p.live ++ p.waiting).Nodup
  queued : ∀ r ∈ p.waiting, (p.reqs r).Queued
  active : ∀ r ∈ p.live, r ∉ p.opened.map Row.rid → (p.reqs r).Active
  opened : ∀ row ∈ p.opened, row.rid ∈ p.live ∧ (p.reqs row.rid).Opened row
  opened_nodup : (p.opened.map Row.rid).Nodup
  gone : ∀ r, r ∉ p.live ++ p.waiting → (p.reqs r).isDone ∨ p.reqs r = Request.blank r

structure FlightPart (p : Pool) : Prop where
  pending : ∀ r, ¬ (p.reqs r).isDone → (p.reqs r).Pending (slotsOf (p.older ++ p.newer) r)
  older_once : (p.older.map Prod.fst).Nodup
  newer_once : ((p.newer.map Prod.fst) ++ p.opened.map Row.rid).Nodup
  nonneg : ∀ x ∈ p.older ++ p.newer, 0 ≤ x.2.1

theorem Sound.of_parts (h1 : p.KVPart) (h2 : p.QueuePart) (h3 : p.FlightPart) : p.Sound :=
  { h1, h2, h3 with }

theorem Sound.not_mem_live (hs : p.Sound) (h : r ∈ p.waiting) : r ∉ p.live :=
  fun h' => List.disjoint_of_nodup_append hs.nodup h' h

theorem Sound.state_live (hs : p.Sound) (h : r ∈ p.live) :
    (p.reqs r).state = .prefill ∨ (p.reqs r).state = .decode := by
  by_cases ho : r ∈ p.opened.map Row.rid
  · obtain ⟨row, hrow, rfl⟩ := List.mem_map.mp ho
    rcases (hs.opened row hrow).2.phase with h | h
    · exact .inl h.1
    · exact .inr h.1
  · rcases (hs.active r h ho).phase with h | h
    · exact .inl h.1
    · exact .inr h.1

theorem Sound.not_done (hs : p.Sound) (h : r ∈ p.live ∨ r ∈ p.waiting) : ¬ (p.reqs r).isDone := by
  rcases h with h | h
  · rcases hs.state_live h with e | e <;> simp [Request.isDone, e]
  · simp [Request.isDone, (hs.queued r h).1]

theorem Sound.prompt (hs : p.Sound) (h : r ∈ p.live ∨ r ∈ p.waiting) : (p.reqs r).promptIds ≠ [] := by
  rcases h with h | h
  · by_cases ho : r ∈ p.opened.map Row.rid
    · obtain ⟨row, hrow, rfl⟩ := List.mem_map.mp ho
      exact (hs.opened row hrow).2.prompt
    · exact (hs.active r h ho).prompt
  · exact (hs.queued r h).2.1

theorem Sound.numPending_le (hs : p.Sound) (hd : ¬ (p.reqs r).isDone) :
    (p.reqs r).numPending ≤ (slotsOf p.older r).length + (slotsOf p.newer r).length := by
  rw [← (hs.pending r hd).length, slotsOf_append, List.length_append]

section KV

theorem Sound.kv_frame {live' : List Rid} (hs : p.Sound) (hkv : p'.kv.Sound p'.reqs p'.live)
    (hf : Frame p.kv p'.kv p.reqs live') (hl : ∀ x ∈ p'.live, x ≠ r → x ∈ p.live ∧ x ∈ live')
    (ho : ∀ row ∈ p'.opened, row.rid ≠ r → row ∈ p.opened ∧ row.rid ∈ live')
    (ho' : ∀ row ∈ p'.opened, row.rid = r → (p'.kv.nodeTokens (p'.reqs r).cacheNode).length ≤ row.start)
    (hother : ∀ x, x ≠ r → p'.reqs x = p.reqs x)
    (hpath : r ∈ p'.live → (p'.kv.nodeTokens (p'.reqs r).cacheNode).length + (p'.reqs r).numPending ≤ (p'.reqs r).seqLen)
    (hexact : r ∈ p'.live → (p'.reqs r).state = .prefill →
      (p'.reqs r).tableBlocks.length * p'.kv.blockSize < (p'.reqs r).covered + p'.kv.blockSize) : p'.KVPart := by
  refine ⟨hkv, fun x hx => ?_, fun x hx => ?_, fun row hrow => ?_⟩
  · by_cases e : x = r
    · subst e; exact hpath hx
    · obtain ⟨h1, h2⟩ := hl x hx e
      rw [hother x e, hf.nodeTokens x h2]
      exact hs.path x h1
  · by_cases e : x = r
    · subst e; exact hexact hx
    · rw [hother x e, hf.blockSize]
      exact hs.exact x (hl x hx e).1
  · by_cases e : row.rid = r
    · rw [e]; exact ho' row hrow e
    · obtain ⟨h1, h2⟩ := ho row hrow e
      rw [hother _ e, hf.nodeTokens _ h2]
      exact hs.fresh row h1

theorem path_of_held (hkv : kv'.Held q) (h : q.covered + q.numPending ≤ q.seqLen) :
    (kv'.nodeTokens q.cacheNode).length + q.numPending ≤ q.seqLen := by
  have := hkv.path_le
  omega

theorem Sound.kv_update_idle (hs : p.Sound) (hr : r ∉ p.live) (hc : q.cache = none) (hn : q.cacheNode = none) :
    p.kv.Sound (Function.update p.reqs r q) p.live := by
  obtain ⟨h1, h2⟩ := hs.kv.idle r hr
  refine hs.kv.rewrite_tokens (fun x => ?_) (fun x => ?_) fun x hx => ?_
  · by_cases e : x = r
    · subst e; rw [Function.update_self, hc, h1]
    · rw [Function.update_of_ne e]
  · by_cases e : x = r
    · subst e; rw [Function.update_self, hn, h2]
    · rw [Function.update_of_ne e]
  · have e : x ≠ r := fun e => hr (e ▸ hx)
    rw [Function.update_of_ne e]
    exact ⟨(hs.kv.held x hx).covered, (hs.kv.held x hx).tokens⟩

theorem kv_restate {kv : KVCacheManager} {store : Store} {live : List Rid} {q1 : Request}
    (h : kv.Sound (Function.update store r q1) live) (hc : q.cache = q1.cache) (hn : q.cacheNode = q1.cacheNode)
    (hv : r ∈ live → (kv.tree.isSome → q1.covered ≤ q.seqLen) ∧ kv.nodeTokens q1.cacheNode <+: q.tokens) :
    kv.Sound (Function.update store r q) live := by
  refine h.rewrite_tokens (fun x => ?_) (fun x => ?_) fun x hx => ?_
  · by_cases e : x = r
    · subst e; simp only [Function.update_self, hc]
    · simp only [Function.update_of_ne e]
  · by_cases e : x = r
    · subst e; simp only [Function.update_self, hn]
    · simp only [Function.update_of_ne e]
  · by_cases e : x = r
    · subst e; simp only [Function.update_self]; exact hv hx
    · have := h.held x hx
      simp only [Function.update_of_ne e] at this ⊢
      exact ⟨this.covered, this.tokens⟩

theorem kv_restate_same {kv : KVCacheManager} {store : Store} {live : List Rid} {q1 : Request}
    (h : kv.Sound (Function.update store r q1) live) (hc : q.cache = q1.cache) (hn : q.cacheNode = q1.cacheNode)
    (ht : q.tokens = q1.tokens) : kv.Sound (Function.update store r q) live := by
  refine kv_restate h hc hn fun hr => ?_
  have := h.held r hr
  rw [Function.update_self] at this
  have hl : q.seqLen = q1.seqLen := by rw [← Request.tokens_length, ht, Request.tokens_length]
  exact ⟨fun hs => hl ▸ this.covered hs, ht ▸ this.tokens⟩

theorem lt_of_extended {tb tb' : BlockTable} {n : Nat} {live : List Rid} {store : Store}
    (h : Extended p.kv kv' store live r tb tb' n)
    (hb : tb.blocks.length * p.kv.blockSize < tb.numTokens + p.kv.blockSize) :
    tb'.blocks.length * p.kv.blockSize < tb'.numTokens + p.kv.blockSize := by
  have hlen := h.length
  have hbs : (0 : Int) < p.kv.blockSize := by have := @blockSize_pos p.kv; omega
  rw [h.numTokens]
  zify at hb ⊢
  rw [hlen]
  unfold BlockTable.need
  rcases le_total 0 (ceilDiv (tb.numTokens + n) p.kv.blockSize - tb.blocks.length) with h0 | h0
  · rw [max_eq_right h0]
    have := (lt_ceilDiv (k := ceilDiv (tb.numTokens + n) p.kv.blockSize - 1) hbs).mp (sub_one_lt _)
    have e : (tb.blocks.length + (ceilDiv (tb.numTokens + n) p.kv.blockSize - tb.blocks.length) : Int) *
        p.kv.blockSize = (ceilDiv (tb.numTokens + n) p.kv.blockSize - 1) * p.kv.blockSize + p.kv.blockSize := by ring
    rw [e]
    omega
  · rw [max_eq_left h0, add_zero]
    omega

theorem Sound.kvPart (hs : p.Sound) (h : p.kv.Sound p'.reqs p.live) (hk : p'.kv = p.kv) (hl : p'.live = p.live)
    (ho : p'.opened ⊆ p.opened) (hother : ∀ x, x ≠ r → p'.reqs x = p.reqs x)
    (hself : r ∈ p.live → (p'.reqs r).cache = (p.reqs r).cache ∧ (p'.reqs r).cacheNode = (p.reqs r).cacheNode ∧
      (p'.reqs r).numPending + (p.reqs r).seqLen ≤ (p'.reqs r).seqLen + (p.reqs r).numPending ∧
      (p'.reqs r).state = (p.reqs r).state) : p'.KVPart := by
  have hf : Frame p.kv p'.kv p.reqs p.live := by rw [hk]; exact Frame.refl _ _ _
  refine hs.kv_frame (hk ▸ hl ▸ h) hf (fun x hx _ => ?_) (fun row hrow _ => ?_) (fun row hrow e => ?_) hother ?_ ?_
  · exact ⟨hl ▸ hx, hl ▸ hx⟩
  · exact ⟨ho hrow, (hs.opened row (ho hrow)).1⟩
  · subst e
    rw [hk, (hself (hs.opened row (ho hrow)).1).2.1]
    exact hs.fresh row (ho hrow)
  · intro hr
    have hr := hl ▸ hr
    obtain ⟨-, hn, hp, -⟩ := hself hr
    have := hs.path r hr
    rw [hk, hn]
    omega
  · intro hr hst
    have hr := hl ▸ hr
    obtain ⟨hc, -, -, he⟩ := hself hr
    simp only [hk, Request.tableBlocks, Request.covered, hc]
    exact hs.exact r hr (he ▸ hst)

theorem Sound.kv_submit (hs : p.Sound) (hr : r ∉ p.live ++ p.waiting) (hq : q.Fresh) :
    KVPart { p.put r p.kv q with waiting := p.waiting ++ [r] } := by
  have hr : r ∉ p.live := fun h => hr (List.mem_append_left _ h)
  exact hs.kvPart (hs.kv_update_idle hr hq.cache hq.cacheNode) rfl rfl (fun _ h => h)
    (fun x hx => Function.update_of_ne hx _ _) (fun h => absurd h hr)

theorem Sound.kv_lookup {kv1 kv2 : KVCacheManager} {blocks : List Int} {node : Option Nat} (hs : p.Sound)
    (hr : r ∈ p.waiting) (h1 : Acquired p.kv kv1 p.reqs p.live r blocks node)
    (h2 : Forgotten kv1 kv2 (Function.update p.reqs r ((p.reqs r).acquired p.kv.blockSize blocks node)) (r :: p.live) r
      { (p.reqs r).dropped with numCachedTokens := 0 }) :
    KVPart (p.put r kv2 { (p.reqs r).dropped with numCachedTokens := 0 }) := by
  have hr := hs.not_mem_live hr
  have hne : ∀ x ∈ p.live, x ≠ r := fun x hx e => hr (e ▸ hx)
  have hf : Frame kv1 kv2 p.reqs p.live := by
    refine Frame.congr (h2.frame.mono fun x hx => List.mem_cons_of_mem _ hx) fun x hx => ?_
    rw [Function.update_of_ne (hne x hx)]
  have hkv := h2.sound
  rw [List.erase_cons_head, Function.update_idem] at hkv
  refine hs.kv_frame hkv (h1.frame.trans hf) (fun x hx _ => ⟨hx, hx⟩)
    (fun row hrow _ => ⟨hrow, (hs.opened row hrow).1⟩) (fun row hrow e => absurd (e ▸ (hs.opened row hrow).1) hr)
    (fun x hx => Function.update_of_ne hx _ _) ?_ ?_
  · exact fun h => absurd h hr
  · exact fun h => absurd h hr

theorem Sound.kv_enter {blocks : List Int} {node : Option Nat} (hs : p.Sound) (hr : r ∈ p.waiting)
    (hn : (p.reqs r).numPending = 0) (h : Acquired p.kv kv' p.reqs p.live r blocks node) :
    KVPart { p.put r kv' { (p.reqs r).acquired p.kv.blockSize blocks node with state := .prefill } with
      live := p.live ++ [r]
      waiting := p.waiting.erase r } := by
  have hl := hs.not_mem_live hr
  have hkv : kv'.Sound (Function.update p.reqs r
      { (p.reqs r).acquired p.kv.blockSize blocks node with state := .prefill }) (p.live ++ [r]) :=
    Sound.perm (kv_restate_same h.sound rfl rfl rfl) (List.perm_append_singleton r p.live).symm
  refine hs.kv_frame hkv h.frame (fun x hx e => ?_) (fun row hrow _ => ⟨hrow, (hs.opened row hrow).1⟩)
    (fun row hrow e => absurd (e ▸ (hs.opened row hrow).1) hl) (fun x hx => Function.update_of_ne hx _ _)
    (fun _ => ?_) (fun _ _ => ?_)
  · have : x ∈ p.live := (List.mem_append.mp hx).resolve_right (by simpa using e)
    exact ⟨this, this⟩
  · have hheld := hkv.held r (by simp)
    rw [Function.update_self] at hheld
    have hb := h.bound
    simp only [put_self, put_kv]
    apply path_of_held hheld
    show blocks.length * p.kv.blockSize + (p.reqs r).numPending ≤ (p.reqs r).seqLen
    omega
  · have hbs : 0 < kv'.blockSize := blockSize_pos
    simp only [put_self, put_kv]
    show blocks.length * kv'.blockSize < blocks.length * p.kv.blockSize + kv'.blockSize
    rw [h.frame.blockSize]
    have := @blockSize_pos p.kv
    omega

theorem Sound.kv_preempt (hs : p.Sound) (ho : r ∉ p.opened.map Row.rid)
    (h : Released p.kv kv' (Function.update p.reqs r { p.reqs r with state := .waiting }) p.live r
      { (p.reqs r).dropped with state := .waiting }) :
    KVPart { p.put r kv' { (p.reqs r).dropped with
        state := .waiting
        numPreemptions := (p.reqs r).numPreemptions + 1 } with
      live := p.live.erase r
      waiting := r :: p.waiting } := by
  have hr : r ∉ p.live.erase r := hs.kv.nodup.not_mem_erase
  have hkv := h.sound
  rw [Function.update_idem] at hkv
  have hf : Frame p.kv kv' p.reqs (p.live.erase r) := h.frame.congr fun x hx => by
    rw [Function.update_of_ne]
    rintro rfl
    exact hr hx
  refine hs.kv_frame (kv_restate_same hkv rfl rfl rfl) hf (fun x hx e => ?_) (fun row hrow e => ?_)
    (fun row hrow e => ?_) (fun x hx => Function.update_of_ne hx _ _) ?_ ?_
  · exact ⟨List.mem_of_mem_erase hx, hx⟩
  · exact ⟨hrow, (List.mem_erase_of_ne e).mpr (hs.opened row hrow).1⟩
  · exact absurd (e ▸ List.mem_map_of_mem hrow) ho
  · exact fun h => absurd h hr
  · exact fun h => absurd h hr

theorem Sound.kv_evict (hs : p.Sound) (h : Evicted p.kv kv' p.reqs p.live) : KVPart { p with kv := kv' } where
  kv := h.sound
  path := fun x hx => by rw [h.frame.nodeTokens x hx]; exact hs.path x hx
  exact := fun x hx => by simp only [h.frame.blockSize]; exact hs.exact x hx
  fresh := fun row hrow => by rw [h.frame.nodeTokens _ (hs.opened row hrow).1]; exact hs.fresh row hrow

theorem Sound.kv_extend {row : Row} {tb tb' : BlockTable} (hs : p.Sound) (hr : row.rid ∈ p.live)
    (ho : row.rid ∉ p.opened.map Row.rid) (hc : (p.reqs row.rid).cache = some tb) (hstart : tb.numTokens = row.start)
    (h : Extended p.kv kv' p.reqs p.live row.rid tb tb' row.len) :
    KVPart { p.put row.rid kv' { p.reqs row.rid with cache := some tb' } with opened := p.opened ++ [row] } := by
  have hpath := (hs.kv.held _ hr).path_le
  simp only [Request.covered, hc, hstart] at hpath
  refine hs.kv_frame h.sound h.frame (fun x hx _ => ⟨hx, hx⟩) (fun x hx e => ?_) (fun x hx e => ?_)
    (fun x hx => Function.update_of_ne hx _ _) (fun _ => ?_) fun _ hst => ?_
  · have hx : x ∈ p.opened := by
      rcases List.mem_append.mp hx with hx | hx
      · exact hx
      · exact absurd (congrArg Row.rid (List.mem_singleton.mp hx)) e
    exact ⟨hx, (hs.opened x hx).1⟩
  · have hx : x = row := by
      rcases List.mem_append.mp hx with hx | hx
      · exact absurd (e ▸ List.mem_map_of_mem hx) ho
      · exact List.mem_singleton.mp hx
    simp only [put_self, put_kv]
    rw [h.frame.nodeTokens _ hr, hx]
    exact hpath
  · simp only [put_self, put_kv]
    rw [h.frame.nodeTokens _ hr]
    exact hs.path _ hr
  · simp only [put_self, put_kv] at hst ⊢
    have hex := hs.exact _ hr hst
    simp only [Request.tableBlocks, Request.covered, hc] at hex ⊢
    rw [h.blockSize]
    exact lt_of_extended h hex

theorem Sound.kv_commit {store : Store} {node : Option Nat} {opened : List Row} {newer : List Entry} (hs : p.Sound)
    (hr : r ∈ p.live) (hst : store = Function.update p.reqs r q)
    (hc : q.cache = (p.reqs r).cache) (hn : q.cacheNode = (p.reqs r).cacheNode)
    (hstate : q.state = .prefill → (p.reqs r).state = .prefill) (ho : ∀ x ∈ opened, x ∈ p.opened ∧ x.rid ≠ r)
    (hle : q.covered + q.numPending ≤ q.seqLen) (h : Committed p.kv kv' store p.live r node) :
    KVPart { p.put r kv' { q with cacheNode := node } with opened := opened, newer := newer } := by
  subst hst
  have hkv := h.sound
  rw [Function.update_idem, Function.update_self] at hkv
  have hf : Frame p.kv kv' p.reqs p.live := h.frame.congr fun x hx => by
    by_cases e : x = r
    · subst e; rw [Function.update_self, hn]
    · rw [Function.update_of_ne e]
  refine hs.kv_frame hkv hf (fun x hx _ => ⟨hx, hx⟩) (fun x hx _ => ⟨(ho x hx).1, (hs.opened x (ho x hx).1).1⟩)
    (fun x hx e => absurd e (ho x hx).2) (fun x hx => Function.update_of_ne hx _ _) (fun _ => ?_) fun _ hp => ?_
  · simp only [put_self, put_kv]
    have hheld := hkv.held r hr
    rw [Function.update_self] at hheld
    exact path_of_held hheld hle
  · simp only [put_self, put_kv, hf.blockSize] at hp ⊢
    have := hs.exact r hr (hstate hp)
    simp only [Request.tableBlocks, Request.covered, hc] at this ⊢
    exact this

theorem Sound.kv_sampled {opened : List Row} {newer : List Entry} (hs : p.Sound) (hr : r ∈ p.live)
    (ho : opened ⊆ p.opened) :
    KVPart { p.put r p.kv (p.reqs r).sampled with opened := opened, newer := newer } := by
  have hh := hs.kv.held r hr
  have hkv : p.kv.Sound (Function.update p.reqs r (p.reqs r).sampled) p.live := by
    have h0 : p.kv.Sound (Function.update p.reqs r (p.reqs r)) p.live := by
      rw [Function.update_eq_self]; exact hs.kv
    refine kv_restate h0 rfl rfl fun _ => ⟨fun ht => ?_, ?_⟩
    · have := hh.covered ht
      rw [Request.seqLen_sampled]; omega
    · rw [Request.tokens_sampled]
      exact hh.tokens.trans (List.prefix_append _ _)
  refine hs.kvPart hkv rfl rfl ho (fun x hx => Function.update_of_ne hx _ _) fun _ => ?_
  rw [put_self, Request.seqLen_sampled]
  exact ⟨rfl, rfl, by simp only [Request.sampled]; omega, rfl⟩

theorem Sound.kv_fill {tok : Token} {k : Nat} {rest : List Entry} (hs : p.Sound)
    (ho : p.older = (r, tok, some k) :: rest) (hd : ¬ (p.reqs r).isDone) :
    KVPart { p.put r p.kv ((p.reqs r).filled k tok) with older := rest } := by
  have hp := hs.pending r hd
  rw [ho, List.cons_append, slotsOf_cons_some] at hp
  obtain ⟨hk, hpos⟩ := hp.head
  have hkv : p.kv.Sound (Function.update p.reqs r ((p.reqs r).filled k tok)) p.live := by
    have h0 : p.kv.Sound (Function.update p.reqs r (p.reqs r)) p.live := by
      rw [Function.update_eq_self]; exact hs.kv
    refine kv_restate h0 rfl rfl fun hr => ⟨fun ht => ?_, ?_⟩
    · rw [Request.seqLen_filled]; exact (hs.kv.held r hr).covered ht
    · have := hs.path r hr
      refine Request.prefix_filled (hs.kv.held r hr).tokens ?_
      simp only [Request.seqLen] at this
      omega
  refine hs.kvPart hkv rfl rfl (fun _ h => h) (fun x hx => Function.update_of_ne hx _ _) fun _ => ?_
  rw [put_self, Request.seqLen_filled]
  exact ⟨rfl, rfl, by simp only [Request.filled]; omega, rfl⟩

theorem Sound.kv_leave {older : List Entry} {opened : List Row} (hs : p.Sound)
    (ho : ∀ row ∈ opened, row ∈ p.opened ∧ row.rid ≠ r) (h : p.Leaves r q kv') :
    KVPart { p.leave r kv' q older with opened := opened } := by
  by_cases hr : r ∈ p.live
  · have hl := h.released hr
    have hkv := hl.sound
    rw [Function.update_idem] at hkv
    have hn : r ∉ p.live.erase r := hs.kv.nodup.not_mem_erase
    have hf : Frame p.kv kv' p.reqs (p.live.erase r) := hl.frame.congr fun x hx => by
      rw [Function.update_of_ne]
      rintro rfl
      exact hn hx
    refine hs.kv_frame hkv hf (fun x hx _ => ⟨List.mem_of_mem_erase hx, hx⟩) (fun row hrow e => ?_)
      (fun row hrow e => absurd e (ho row hrow).2) (fun x hx => Function.update_of_ne hx _ _) ?_ ?_
    · exact ⟨(ho row hrow).1, (List.mem_erase_of_ne e).mpr (hs.opened row (ho row hrow).1).1⟩
    · exact fun h => absurd h hn
    · exact fun h => absurd h hn
  · have e := h.unheld hr
    subst e
    have hl : (p.leave r p.kv q older).live = p.live := List.erase_of_not_mem hr
    exact hs.kvPart (hs.kv_update_idle hr rfl rfl) rfl hl (fun row h => (ho row h).1)
      (fun x hx => Function.update_of_ne hx _ _) (fun h => absurd h hr)

end KV

end Pool

end MiniServe
