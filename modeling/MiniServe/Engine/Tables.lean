import MiniServe.Engine.Progress
import MiniServe.Engine.Trim

namespace MiniServe

open KVCacheManager Pool

namespace KVCacheManager

variable {kv kv' : KVCacheManager} {store : Store} {live : List Rid} {n : Int}

theorem reserve_none (ht : kv.tree = none) (n : Int) : (kv.reserve n).2 = kv := by
  simp only [reserve, evictShort, ht]
  split <;> rfl

theorem Sound.tables_fit (hs : kv.Sound store live) (ht : kv.tree = none) :
    (live.map fun r => (store r).tableBlocks.length).sum ≤ kv.allocator.numBlocks := by
  have hnode : ∀ node, kv.nodeBlocks node = [] := fun node => by simp [nodeBlocks, ht]
  have hcard : (kv.heldBlocks store live).card = (live.map fun r => (store r).tableBlocks.length).sum := by
    unfold heldBlocks
    rw [Finset.card_biUnion, ← List.sum_toFinset _ hs.nodup]
    · refine Finset.sum_congr rfl fun r hr => ?_
      rw [hnode, List.append_nil, List.toFinset_card_of_nodup (hs.held r (List.mem_toFinset.mp hr)).nodup]
    · intro r hr q hq hne
      simp only [Function.onFun, hnode, List.append_nil]
      rw [Finset.disjoint_left]
      intro b hb hb'
      obtain ⟨i, hi⟩ := List.mem_iff_getElem?.mp (List.mem_toFinset.mp hb)
      exact hs.apart r (List.mem_toFinset.mp hr) i b hi (by rw [hnode]; exact Nat.zero_le _) q (List.mem_toFinset.mp hq)
        hne.symm (List.mem_toFinset.mp hb')
  have hav := hs.numAvailable
  have : 0 ≤ kv.numAvailable := by
    simp only [KVCacheManager.numAvailable, numEvictable, ht]
    omega
  omega

end KVCacheManager

namespace ModelRunner

variable {s s' : Scheduler} {row : Row} {rows : List Row}

theorem appendRow_grown (h : appendRow s row = .ok s') :
    (∃ t t', (s.reqs row.rid).cache = some t ∧ (s'.reqs row.rid).cache = some t' ∧ t.Grown s.kv.blockSize row.len t') ∧
      (∀ x, x ≠ row.rid → s'.reqs x = s.reqs x) ∧ s'.kv.blockSize = s.kv.blockSize := by
  unfold appendRow at h
  split at h
  · simp at h
  · next t ht =>
    split at h
    · simp at h
    · next new t' a' happ =>
      obtain rfl := Except.ok.inj h
      refine ⟨⟨t, t', ht, by simp [Scheduler.put], BlockTable.appendTokens_grown happ⟩, fun x hx => ?_, ?_⟩
      · simp [Scheduler.put, Function.update_of_ne hx]
      · exact BlockTable.appendTokens_blockSize happ

theorem appendRows_grown (h : appendRows rows s = .ok s') (hn : (rows.map Row.rid).Nodup) :
    (∀ row ∈ rows, ∃ t t', (s.reqs row.rid).cache = some t ∧ (s'.reqs row.rid).cache = some t' ∧
      t.Grown s.kv.blockSize row.len t') ∧ ∀ x, x ∉ rows.map Row.rid → s'.reqs x = s.reqs x := by
  induction rows generalizing s with
  | nil =>
    obtain rfl := Except.ok.inj h
    exact ⟨by simp, fun _ _ => rfl⟩
  | cons row rows ih =>
    unfold appendRows at h
    split at h
    · simp at h
    · next s1 h1 =>
      obtain ⟨hnot, hn⟩ := List.nodup_cons.mp hn
      obtain ⟨⟨t, t', ht, ht', hg⟩, hother, hbs⟩ := appendRow_grown h1
      obtain ⟨hgrown, hrest⟩ := ih h hn
      refine ⟨fun x hx => ?_, fun x hx => ?_⟩
      · rcases List.mem_cons.mp hx with rfl | hx
        · exact ⟨t, t', ht, by rw [hrest _ hnot]; exact ht', hg⟩
        · have hne : x.rid ≠ row.rid := fun e => hnot (e ▸ List.mem_map_of_mem hx)
          have := hgrown x hx
          rw [hother _ hne, hbs] at this
          exact this
      · rw [List.map_cons, List.mem_cons, not_or] at hx
        rw [hrest x hx.2, hother x hx.1]

theorem reserve_grown (h : reserve s rows = (.ok (), s')) (ht : s.kv.tree = none) (hn : (rows.map Row.rid).Nodup) :
    (∀ row ∈ rows, ∃ t t', (s.reqs row.rid).cache = some t ∧ (s'.reqs row.rid).cache = some t' ∧
      t.Grown s.kv.blockSize row.len t') ∧ ∀ x, x ∉ rows.map Row.rid → s'.reqs x = s.reqs x := by
  unfold reserve at h
  split at h
  · simp at h
  · next need _ =>
    split at h
    · simp at h
    · next kv hkv =>
      split at h
      · simp at h
      · next s1 h1 =>
        obtain rfl := (Prod.mk.inj h).2
        obtain rfl : kv = s.kv := by
          have := KVCacheManager.reserve_none ht need
          rw [hkv] at this
          exact this
        exact appendRows_grown h1 hn

end ModelRunner

namespace Engine

variable {e e' : Engine} {model : Model} {b : Batch} {prev : Option Launched} {L : Launched} {es : List Entry}
  {r x : Rid}

theorem commit_cache {kv kv' : KVCacheManager} {q q' : Request} (h : kv.commit q = .ok (kv', q')) :
    q'.cache = q.cache := by
  unfold commit at h
  split at h
  · simp only at h
    split at h
    · simp at h
    · split at h
      · simp at h
      · rw [← (Prod.mk.inj (Except.ok.inj h)).2]
  · rw [← (Prod.mk.inj (Except.ok.inj h)).2]

theorem settleRow_cache {s s' : Scheduler} {row : Row} {c : Bool} {slot : Option Nat}
    (h : settleRow s row c = .ok (slot, s')) (x : Rid) : (s'.reqs x).cache = (s.reqs x).cache := by
  have hput : ∀ (q : Request), q.cache = (s.reqs row.rid).cache →
      (Function.update s.reqs row.rid q x).cache = (s.reqs x).cache := by
    intro q hq
    by_cases e : x = row.rid
    · subst e
      rw [Function.update_self, hq]
    · rw [Function.update_of_ne e]
  unfold settleRow at h
  simp only at h
  split at h
  · split at h
    · split at h
      · simp at h
      · next q hq =>
        split at h
        · simp at h
        · next p hp =>
          obtain rfl := (Prod.mk.inj (Except.ok.inj h)).2
          refine hput p.2 ((commit_cache hp).trans ?_)
          unfold Request.transition at hq
          split at hq
          · rw [← Except.ok.inj hq]
          · simp at hq
    · obtain rfl := (Prod.mk.inj (Except.ok.inj h)).2
      exact hput _ rfl
  · split at h
    · simp at h
    · next p hp =>
      obtain rfl := (Prod.mk.inj (Except.ok.inj h)).2
      exact hput p.2 (commit_cache hp)

theorem settleRows_cache {s s' : Scheduler} {rows : List (Row × Bool)} {slots : List (Option Nat)}
    (h : settleRows rows s = .ok (slots, s')) (x : Rid) : (s'.reqs x).cache = (s.reqs x).cache := by
  induction rows generalizing s slots with
  | nil => rw [← (Prod.mk.inj (Except.ok.inj h)).2]
  | cons row rows ih =>
    unfold settleRows at h
    split at h
    · simp at h
    · next s1 h1 =>
      split at h
      · simp at h
      · next h2 =>
        obtain rfl := (Prod.mk.inj (Except.ok.inj h)).2
        exact (ih h2).trans (settleRow_cache h1 x)

theorem launch_reserves (h : e.launch model b prev = .ok (L, e')) :
    ∃ s1, ModelRunner.reserve e.scheduler b.rows = (.ok (), s1) ∧
      ∀ x, (e'.scheduler.reqs x).cache = (s1.reqs x).cache := by
  unfold launch at h
  simp only at h
  split at h
  · simp at h
  · next pass hpass =>
    split at h
    · simp at h
    · next s hs =>
      obtain rfl := (Prod.mk.inj (Except.ok.inj h)).2
      unfold ModelRunner.forward at hpass
      dsimp only at hpass
      split at hpass
      · simp at hpass
      · split at hpass
        · simp at hpass
        · split at hpass
          · simp at hpass
          · next s1 hres =>
            split at hpass
            · simp at hpass
            · split at hpass
              · simp at hpass
              · obtain rfl := Except.ok.inj hpass
                exact ⟨s1, hres, settleRows_cache hs⟩

theorem retire_other (h : e.retire r = .ok e') (hx : x ≠ r) : e'.request x = e.request x := by
  unfold Engine.retire at h
  split at h
  · simp at h
  · next s hs =>
    have hreqs : s.reqs x = e.scheduler.reqs x := by
      unfold Engine.release at hs
      split at hs
      · simp at hs
      · rw [← Except.ok.inj hs]
        simp [Scheduler.put, Scheduler.set, hx]
    split at h
    · simp at h
    · next s' hs' =>
      have hsame : s'.reqs = s.reqs := by
        unfold Scheduler.retire at hs'
        split at hs'
        · simp at hs'
        · split at hs' <;> rw [← Except.ok.inj hs']
      split at h
      · rw [← Except.ok.inj h]
        show s'.reqs x = _
        rw [hsame]
        exact hreqs
      · simp at h

theorem processRow_other {tok : Token} {slot : Option Nat} (h : e.processRow r tok slot = .ok e') (hx : x ≠ r) :
    e'.request x = e.request x := by
  cases slot with
  | none => rw [← Except.ok.inj h]
  | some k =>
    rw [processRow_some] at h
    split at h
    · rw [← Except.ok.inj h]
    · split at h
      · split at h
        · simp at h
        · rw [retire_other h hx]
          exact Function.update_of_ne hx _ _
      · rw [← Except.ok.inj h]
        exact Function.update_of_ne hx _ _

theorem processRow_done {tok : Token} {slot : Option Nat} (h : e.processRow r tok slot = .ok e')
    (hd : (e.request x).isDone) : e'.request x = e.request x := by
  by_cases hx : x = r
  · subst hx
    cases slot with
    | none => rw [← Except.ok.inj h]
    | some k =>
      rw [processRow_some, if_pos (show (e.scheduler.reqs x).isDone from hd)] at h
      rw [← Except.ok.inj h]
  · exact processRow_other h hx

theorem processRows_done (h : processRows es e = .ok e') (hd : (e.request x).isDone) : e'.request x = e.request x := by
  induction es generalizing e with
  | nil => rw [← Except.ok.inj h]
  | cons y es ih =>
    obtain ⟨r, tok, slot⟩ := y
    unfold processRows at h
    split at h
    · simp at h
    · next e1 h1 =>
      have h2 := processRow_done h1 hd
      rw [ih h (h2 ▸ hd), h2]

theorem Kept.stays {opened : List Row} {older newer : List Entry} (hk : Kept e e')
    (he : (e.scheduler.openPool opened older newer).Sound) (he' : (e'.scheduler.pool [] []).Sound)
    (hx : x ∈ e.scheduler.running) (hd : ¬ (e'.request x).isDone) (hb : (e'.request x).promptIds ≠ []) :
    x ∈ e'.scheduler.running := by
  by_contra hnot
  refine (he'.gone x fun hm => ?_).elim hd fun h => hb ?_
  · rcases List.mem_append.mp hm with hm | hm
    · exact hnot (by simpa [Scheduler.pool] using hm)
    · exact he.not_mem_live (hk.waiting.subset hm) (by simpa [Scheduler.openPool, Scheduler.pool] using hx)
  · rw [show e'.request x = _ from h]
    rfl

structure Runs (model : Model) (e : Engine) (b : Batch) (L : Launched) (base base' : Engine) : Prop where
  launch : e.launch model b none = .ok (L, base)
  rows : processRows L.entries base = .ok base'
  pool : (base.scheduler.openPool [] L.entries []).Sound
  same : Scheduler.Same e.scheduler base.scheduler
  running : base.scheduler.running = e.scheduler.running
  decode : ∀ x, (e.request x).state = .decode → x ∈ e.scheduler.running → (base.request x).state = .decode
  grown : ∀ row ∈ b.rows, ∃ t t', (e.request row.rid).cache = some t ∧ (base.request row.rid).cache = some t' ∧
    t.Grown e.scheduler.kv.blockSize row.len t'
  other : ∀ x, x ∉ b.rows.map Row.rid → (base.request x).cache = (e.request x).cache
  kept : Kept base base'

theorem runs {ids : List Token} (hc : Core e [] []) (hb : e.scheduler.BatchFits b)
    (hfit : e.scheduler.costs e.scheduler.running ≤ e.scheduler.kv.numAvailable) (ht : e.scheduler.kv.tree = none)
    (hids : ModelRunner.fillRows b (b.rows.flatMap (ModelRunner.rowIds e.scheduler)) none = .ok ids)
    (hlong : ∀ id ∈ b.rows.flatMap (ModelRunner.rowIds e.scheduler), IsLong id) :
    ∃ L base base', Runs model e b L base base' := by
  obtain ⟨s1, s2, slots, hL, hlaunch⟩ := @launch_ok [] e model b none ids hc.pool hb hfit hids hlong
  have hcore := hc.launched hb hL rfl (d := wrote e s1 b [] ids)
  have hpool := (turn_moves s2 _).sound hcore.pool
  obtain ⟨base', hread, -, hk⟩ := processRows_ok (e := { e with scheduler := s2, device := wrote e s1 b [] ids }) hpool
    hcore.requests
  obtain ⟨s3, hres, hcache⟩ := launch_reserves hlaunch
  obtain ⟨hgrown, hother⟩ := ModelRunner.reserve_grown hres ht hb.nodup
  refine ⟨_, _, base', hlaunch, hread, hpool, hL.reserved.same.trans hL.settled.same,
    hL.settled.running.trans hL.reserved.running, fun x hst hx => ?_,
    fun row hrow => ?_, fun x hx => ?_, hk.toKept⟩
  · show (s2.reqs x).state = .decode
    by_cases hm : x ∈ b.rows.map Row.rid
    · obtain ⟨row, hrow, rfl⟩ := List.mem_map.mp hm
      exact ((hL.rows row hrow).complete (decode_row_complete hc.pool hb hrow hst)).1
    · rw [hL.settled.other x hm, hL.reserved.other x hm]
      exact hst
  · obtain ⟨t, t', h1, h2, hg⟩ := hgrown row hrow
    exact ⟨t, t', h1, (hcache row.rid).trans h2, hg⟩
  · rw [Engine.request, hcache x, hother x hx]
    rfl

theorem Runs.table_le {base base' : Engine} (h : Runs model e b L base base') (hx : x ∈ base'.scheduler.running) :
    (e.request x).tableBlocks.length ≤ (base'.request x).tableBlocks.length ∧
      (e.request x).covered ≤ (base'.request x).covered := by
  have hc : (base'.request x).cache = (base.request x).cache := h.kept.cache x hx
  simp only [Request.tableBlocks, Request.covered, hc]
  by_cases hm : x ∈ b.rows.map Row.rid
  · obtain ⟨row, hrow, rfl⟩ := List.mem_map.mp hm
    obtain ⟨t, t', h1, h2, hg⟩ := h.grown row hrow
    simp only [h1, h2]
    exact ⟨hg.blocks.length_le, hg.numTokens ▸ Nat.le_add_right _ _⟩
  · rw [h.other x hm]
    exact ⟨le_rfl, le_rfl⟩

end Engine

end MiniServe
