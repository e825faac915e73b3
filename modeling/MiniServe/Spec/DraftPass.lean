import MiniServe.Spec.DraftPool

namespace MiniServe

open KVCacheManager

namespace DraftRunner

variable {d d' : DraftRunner} {all : List Rid} {cap : Rid → Nat} {toks toks' : Rid → List Token} {f : Feed}
  {feeds : List Feed} {r : Rid} {t : BlockTable} {model : DraftModel}

section Append

structure Fed (d d' : DraftRunner) (feeds : List Feed) : Prop where
  sized : Sized d d'
  grown : ∀ f ∈ feeds, ∃ t t', d.tables f.rid = some t ∧ d'.tables f.rid = some t' ∧
    t.Grown d.allocator.blockSize f.ids.length t'
  other : ∀ x, x ∉ feeds.map Feed.rid → d'.tables x = d.tables x

theorem Capped.appendFeeds (h : d.Capped all cap) (hnd : (feeds.map Feed.rid).Nodup)
    (hf : ∀ f ∈ feeds, ∃ t, d.tables f.rid = some t ∧ t.numTokens + f.ids.length ≤ cap f.rid * d.allocator.blockSize) :
    ∃ d', appendFeeds feeds d = .ok d' ∧ d'.Capped all cap ∧ Fed d d' feeds ∧ d'.device = d.device ∧
      d'.packed = d.packed := by
  induction feeds generalizing d with
  | nil => exact ⟨d, rfl, h, ⟨Sized.refl d, by simp, fun _ _ => rfl⟩, rfl, rfl⟩
  | cons f feeds ih =>
    obtain ⟨hnf, hnd⟩ := List.nodup_cons.mp hnd
    obtain ⟨t, ht, hn⟩ := hf f List.mem_cons_self
    obtain ⟨new, t', a', happ, h1, hg, hsz⟩ := h.append ht hn
    have hne : ∀ g ∈ feeds, g.rid ≠ f.rid := fun g hg e => hnf (e ▸ List.mem_map_of_mem hg)
    obtain ⟨d', h2, h3, hF, hd, hp⟩ := ih h1 hnd fun g hg => by
      obtain ⟨tg, htg, hng⟩ := hf g (List.mem_cons_of_mem _ hg)
      exact ⟨tg, by rw [put_tables_ne _ _ (hne g hg)]; exact htg, by rw [hsz.blockSize]; exact hng⟩
    have hfirst : d.appendFeed f = .ok (d.put f.rid (some t') a') := by simp [appendFeed, table, ht, happ]
    refine ⟨d', by simp only [DraftRunner.appendFeeds, hfirst, h2], h3, ⟨hsz.trans hF.sized,
      fun g hg' => ?_, fun x hx => ?_⟩,
      hd, hp⟩
    · rcases List.mem_cons.mp hg' with rfl | hm
      · refine ⟨t, t', ht, ?_, hg⟩
        rw [hF.other _ hnf, put_tables_self]
      · obtain ⟨t1, t2, h4, h5, h6⟩ := hF.grown g hm
        rw [put_tables_ne _ _ (hne g hm)] at h4
        rw [hsz.blockSize] at h6
        exact ⟨t1, t2, h4, h5, h6⟩
    · rw [List.map_cons, List.mem_cons, not_or] at hx
      rw [hF.other x hx.2, put_tables_ne _ _ hx.1]

theorem feedSlots_ok (hf : ∀ f ∈ feeds, ∃ t, d.tables f.rid = some t ∧ t.numTokens = f.start + f.ids.length) :
    d.feedSlots feeds = .ok (feeds.flatMap fun f => (List.range' f.start f.ids.length).map
      ((d.tableOf f.rid).slotAt d.allocator.blockSize)) := by
  induction feeds with
  | nil => rfl
  | cons f feeds ih =>
    obtain ⟨t, ht, hn⟩ := hf f List.mem_cons_self
    have htail : t.tailSlots d.allocator.blockSize f.ids.length = .ok ((List.range' f.start f.ids.length).map
        (t.slotAt d.allocator.blockSize)) := by
      have hle : (0 : Int) ≤ f.ids.length ∧ (f.ids.length : Int) ≤ t.numTokens := by omega
      have hst : t.numTokens - f.ids.length = f.start := by omega
      simp only [BlockTable.tailSlots, hle, and_self, if_true, Int.toNat_natCast, BlockTable.lastSlots, hst]
    have := ih fun g hg => hf g (List.mem_cons_of_mem _ hg)
    simp [feedSlots, table, ht, htail, this, tableOf_eq ht]

end Append

section Content

-- The KV the draft holds for a request is that of the first of its `toks`.
def Holds (d : DraftRunner) (toks : Rid → List Token) : Prop :=
  ∀ r t, d.tables r = some t → t.numTokens ≤ (toks r).length ∧
    ∀ pos < t.numTokens, d.device (t.slotAt d.allocator.blockSize pos) = (toks r)[pos]?.map (·, pos)

theorem Holds.shrink (h : d.Holds toks) (hb : d'.allocator.blockSize = d.allocator.blockSize) (hd : d'.device = d.device)
    (ht : ∀ r t', d'.tables r = some t' → t'.numTokens = 0 ∨ ∃ t, d.tables r = some t ∧ t'.blocks = t.blocks ∧
      t'.numTokens ≤ t.numTokens ∧ (toks r).take t'.numTokens <+: toks' r) : d'.Holds toks' := by
  intro r t' ht'
  rcases ht r t' ht' with h0 | ⟨t, ht, hblocks, hle, hpre⟩
  · exact ⟨by omega, fun pos hpos => by omega⟩
  · obtain ⟨hlen, hcells⟩ := h r t ht
    have hlen' := hpre.length_le
    rw [List.length_take, Nat.min_eq_left (by omega)] at hlen'
    refine ⟨hlen', fun pos hpos => ?_⟩
    have hslot : t'.slotAt d'.allocator.blockSize pos = t.slotAt d.allocator.blockSize pos := by
      simp only [BlockTable.slotAt, hblocks, hb]
    rw [hd, hslot, hcells pos (by omega), ← List.getElem?_take_of_lt hpos]
    congr 1
    obtain ⟨rest, hrest⟩ := hpre
    rw [← hrest, List.getElem?_append_left]
    rw [List.length_take]
    omega

def rowOf (f : Feed) : Row := ⟨f.rid, f.start, f.ids.length⟩

def pool (d : DraftRunner) (live : List Rid) (feeds : List Feed) : Pool :=
  ⟨d.kv, d.store, live, [], feeds.map rowOf, [], []⟩

theorem pool_writable {live : List Rid} (hs : d.Sound live) (hnd : (feeds.map Feed.rid).Nodup)
    (hf : ∀ f ∈ feeds, ∃ t, d.tables f.rid = some t ∧ t.numTokens = f.start + f.ids.length) :
    (d.pool live feeds).Writable := by
  refine ⟨hs, ?_, fun row hrow => ?_⟩
  · show ((feeds.map rowOf).map Row.rid).Nodup
    rw [List.map_map]
    exact hnd
  · obtain ⟨f, hm, rfl⟩ := List.mem_map.mp hrow
    obtain ⟨t, ht, hn⟩ := hf f hm
    refine ⟨hs.mem_iff.mpr (by simp [rowOf, ht]), ?_, by simp [pool, nodeTokens, kv]⟩
    show (d.store f.rid).covered = _
    rw [covered_store, tableOf_eq ht, hn]
    rfl

structure Feeds (d : DraftRunner) (cap : Rid → Nat) (toks : Rid → List Token) (f : Feed) : Prop where
  table : ∃ t, d.tables f.rid = some t ∧ t.numTokens = f.start
  fits : f.start + f.ids.length ≤ cap f.rid * d.allocator.blockSize
  ids : f.ids = ((toks f.rid).drop f.start).take f.ids.length

theorem Fed.reached (h : Fed d d' feeds) (hm : f ∈ feeds) (hf : d.Feeds cap toks f) :
    ∃ t, d'.tables f.rid = some t ∧ t.numTokens = f.start + f.ids.length := by
  obtain ⟨t, ht, hn⟩ := hf.table
  obtain ⟨t1, t2, h1, h2, hg⟩ := h.grown f hm
  obtain rfl := Option.some.inj (ht.symm.trans h1)
  exact ⟨t2, h2, hn ▸ hg.numTokens⟩

theorem Capped.advance (h : d.Capped all cap) (hh : d.Holds toks) (hnd : (feeds.map Feed.rid).Nodup)
    (hf : ∀ f ∈ feeds, d.Feeds cap toks f) (model : DraftModel) :
    ∃ slots d1 out d', d.advance feeds = .ok (slots, d1) ∧ d1.run model feeds slots = (out, d') ∧ d'.Capped all cap ∧
      d'.Holds toks ∧ Fed d d' feeds ∧ d'.packed = d.packed ++ (feeds.map fun f => d'.tableOf f.rid) ∧
      out.length = feeds.length := by
  obtain ⟨d1, happ, h1, hF, hdev, hpack⟩ := h.appendFeeds hnd fun f hm => by
    obtain ⟨t, ht, hn⟩ := (hf f hm).table
    exact ⟨t, ht, hn ▸ (hf f hm).fits⟩
  have hend : ∀ f ∈ feeds, ∃ t, d1.tables f.rid = some t ∧ t.numTokens = f.start + f.ids.length :=
    fun f hm => hF.reached hm (hf f hm)
  obtain ⟨live, hs1⟩ := h1.sound
  have hw := pool_writable hs1 hnd hend
  let feed : Row → List Token := fun row => ((toks row.rid).drop row.start).take row.len
  have hids : ∀ f ∈ feeds, feed (rowOf f) = f.ids := fun f hm => (hf f hm).ids.symm
  have hlen : ∀ row ∈ (d1.pool live feeds).opened, (feed row).length = row.len := by
    intro row hrow
    obtain ⟨f, hm, rfl⟩ := List.mem_map.mp hrow
    rw [hids f hm]
    rfl
  have hwrites : (feeds.flatMap fun f => (List.range' f.start f.ids.length).map
      ((d1.tableOf f.rid).slotAt d1.allocator.blockSize)).zip
        ((feeds.flatMap Feed.ids).zip (feeds.flatMap feedPositions)) =
      (d1.pool live feeds).writes feed := by
    rw [← Pool.writes_eq hlen]
    simp only [pool, List.flatMap_map]
    rw [← List.flatMap_congr hids]
    rfl
  let device := ModelRunner.write d1.device ((d1.pool live feeds).writes feed)
  have hadv : d.advance feeds = .ok (feeds.flatMap fun f => (List.range' f.start f.ids.length).map
      ((d1.tableOf f.rid).slotAt d1.allocator.blockSize), d1) := by
    simp only [DraftRunner.advance, happ, feedSlots_ok hend]
  refine ⟨_, d1,
    (feeds.map fun f => d1.tableOf f.rid).map fun t => model.next (ModelRunner.history device d1.allocator.blockSize t),
    { d1 with device := device, packed := d1.packed ++ feeds.map fun f => d1.tableOf f.rid },
    hadv, ?_,
    ⟨h1.sound, h1.mem, h1.nodup, h1.len_le, h1.fits⟩, fun r t' ht' => ?_, ⟨⟨hF.sized.numBlocks,
      hF.sized.blockSize, hF.sized.maxPrefillTokens, hF.sized.firstGraphs⟩, hF.grown, hF.other⟩, ?_, ?_⟩
  · simp only [DraftRunner.run, hwrites]
    rfl
  · have ht' : d1.tables r = some t' := ht'
    have hr : r ∈ live := hs1.mem_iff.mpr (by simp [ht'])
    have hslot : ∀ pos, (d1.pool live feeds).rowSlot r pos = t'.slotAt d1.allocator.blockSize pos := by
      intro pos
      show (d1.tableOf r).slotAt _ _ = _
      rw [tableOf_eq ht']
      rfl
    have hcov : (d1.store r).covered = t'.numTokens := by rw [covered_store, tableOf_eq ht']
    -- Below the feeds the tables read as before.
    have hold : ∀ t, d.tables r = some t → t.numTokens ≤ t'.numTokens → (∀ pos < t.numTokens,
        t'.slotAt d1.allocator.blockSize pos = t.slotAt d.allocator.blockSize pos) →
        (∀ g ∈ feeds, g.rid = r → t.numTokens ≤ g.start) → ∀ pos < t.numTokens,
        device (t'.slotAt d1.allocator.blockSize pos) = (toks r)[pos]?.map (·, pos) := by
      intro t ht hle hsame hbelow pos hpos
      have hwb : device ((d1.pool live feeds).rowSlot r pos) = d1.device ((d1.pool live feeds).rowSlot r pos) := by
        refine hw.write_below hlen hr (by
          rw [show ((d1.pool live feeds).reqs r).covered = _ from hcov]; omega) fun row hrow hrid => ?_
        obtain ⟨g, hg, rfl⟩ := List.mem_map.mp hrow
        exact Nat.lt_of_lt_of_le hpos (hbelow g hg hrid)
      rw [← hslot, hwb, hslot, hdev, hsame pos hpos]
      exact (hh r t ht).2 pos hpos
    by_cases hm : r ∈ feeds.map Feed.rid
    · obtain ⟨f, hfm, rfl⟩ := List.mem_map.mp hm
      obtain ⟨t, ht, hn⟩ := (hf f hfm).table
      obtain ⟨t1, t2, h2, h3, hg⟩ := hF.grown f hfm
      obtain rfl := Option.some.inj (ht.symm.trans h2)
      obtain rfl := Option.some.inj (ht'.symm.trans h3)
      have hnum : t'.numTokens = f.start + f.ids.length := by rw [hg.numTokens, hn]
      have hids := congrArg List.length (hf f hfm).ids
      rw [List.length_take, List.length_drop] at hids
      have htoks := (hh f.rid t ht).1
      refine ⟨by omega, fun pos hpos => ?_⟩
      by_cases hlt : pos < t.numTokens
      · refine hold t ht (by omega) (fun x hx => ?_) (fun g hgm hgr => ?_) pos hlt
        · rw [hF.sized.blockSize]
          exact hg.slotAt (h.capacity ht) hx
        · obtain rfl := List.inj_on_of_nodup_map hnd hgm hfm hgr
          exact hn.le
      · obtain ⟨i, rfl⟩ := Nat.exists_eq_add_of_le (hn ▸ not_lt.mp hlt)
        have hi : i < f.ids.length := by omega
        have hrow : rowOf f ∈ (d1.pool live feeds).opened := List.mem_map_of_mem hfm
        have hwr := hw.write_row (d := d1.device) hlen hrow hi
        rw [← hslot]
        refine hwr.trans ?_
        show ((feed (rowOf f))[i]?).map _ = _
        rw [show feed (rowOf f) = ((toks f.rid).drop f.start).take f.ids.length from rfl, List.getElem?_take_of_lt hi,
          List.getElem?_drop]
        rfl
    · have ht : d.tables r = some t' := (hF.other r hm).symm.trans ht'
      refine ⟨(hh r t' ht).1, hold t' ht le_rfl (fun pos _ => by rw [hF.sized.blockSize]) fun g hg e => ?_⟩
      exact absurd (List.mem_map.mpr ⟨g, hg, e⟩) hm
  · rw [hpack]
    rfl
  · simp

theorem Capped.extend (h : d.Capped all cap) (hh : d.Holds toks) (hnd : (feeds.map Feed.rid).Nodup)
    (hf : ∀ f ∈ feeds, d.Feeds cap toks f) (hlong : ∀ f ∈ feeds, ∀ id ∈ f.ids, IsLong id) (model : DraftModel) :
    ∃ out d', d.extend model feeds = .ok (out, d') ∧ d'.Capped all cap ∧ d'.Holds toks ∧ Fed d d' feeds ∧
      d'.packed = d.packed ++ (feeds.map fun f => d'.tableOf f.rid) ∧ out.length = feeds.length := by
  obtain ⟨slots, d1, out, d', h1, h2, hrest⟩ := h.advance hh hnd hf model
  have hall : ¬ ∃ id ∈ feeds.flatMap Feed.ids, ¬ IsLong id := by
    rintro ⟨id, hid, hn⟩
    obtain ⟨f, hm, hid⟩ := List.mem_flatMap.mp hid
    exact hn (hlong f hm id hid)
  refine ⟨out, d', ?_, hrest⟩
  simp only [DraftRunner.extend, h1]
  rw [if_neg hall, h2]

end Content

end DraftRunner

end MiniServe
