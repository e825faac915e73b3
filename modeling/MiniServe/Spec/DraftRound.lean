import MiniServe.Spec.DraftPass
import MiniServe.Spec.SpecEngine

namespace MiniServe

open KVCacheManager

namespace DraftRunner

variable {d d' d'' : DraftRunner} {all : List Rid} {cap : Rid → Nat} {toks toks' : Rid → List Token} {f : Feed}
  {feeds : List Feed} {r : Rid} {t : BlockTable} {model : DraftModel}

section Passes

structure Passes (d d' : DraftRunner) : Prop where
  sized : Sized d d'
  none : ∀ r, d.tables r = none → d'.tables r = none
  grown : ∀ r t, d.tables r = some t → ∃ t' n, d'.tables r = some t' ∧ t.Grown d.allocator.blockSize n t'

theorem Passes.refl (h : d.Capped all cap) : Passes d d :=
  ⟨Sized.refl d, fun _ h => h, fun _ t ht => ⟨t, 0, ht, .refl d.allocator.blockSize_pos (h.capacity ht)⟩⟩

theorem Passes.trans (h1 : Passes d d') (h2 : Passes d' d'') : Passes d d'' := by
  refine ⟨h1.sized.trans h2.sized, fun r hr => h2.none r (h1.none r hr), fun r t ht => ?_⟩
  obtain ⟨t1, n, h3, hg1⟩ := h1.grown r t ht
  obtain ⟨t2, m, h4, hg2⟩ := h2.grown r t1 h3
  rw [h1.sized.blockSize] at hg2
  exact ⟨t2, n + m, h4, hg1.trans d.allocator.blockSize_pos hg2⟩

theorem Fed.passes (h : Fed d d' feeds) (hc : d.Capped all cap) : Passes d d' := by
  refine ⟨h.sized, fun r hr => ?_, fun r t ht => ?_⟩
  · have hm : r ∉ feeds.map Feed.rid := fun hm => by
      obtain ⟨f, hf, rfl⟩ := List.mem_map.mp hm
      obtain ⟨t, -, ht, -⟩ := h.grown f hf
      rw [hr] at ht
      simp at ht
    rw [h.other r hm, hr]
  · by_cases hm : r ∈ feeds.map Feed.rid
    · obtain ⟨f, hf, rfl⟩ := List.mem_map.mp hm
      obtain ⟨t1, t2, h1, h2, hg⟩ := h.grown f hf
      obtain rfl := Option.some.inj (ht.symm.trans h1)
      exact ⟨t2, _, h2, hg⟩
    · exact ⟨t, 0, (h.other r hm).trans ht, .refl d.allocator.blockSize_pos (hc.capacity ht)⟩

def Packs (d d' : DraftRunner) : Prop :=
  ∃ l, d'.packed = d.packed ++ l ∧ ∀ t ∈ l, t.Paged d.allocator.blockSize

theorem Packs.refl (d : DraftRunner) : Packs d d := ⟨[], by simp, by simp⟩

theorem Packs.trans (h1 : Packs d d') (h2 : Packs d' d'') (hs : Sized d d') : Packs d d'' := by
  obtain ⟨l1, e1, hl1⟩ := h1
  obtain ⟨l2, e2, hl2⟩ := h2
  refine ⟨l1 ++ l2, by rw [e2, e1, List.append_assoc], fun t ht => ?_⟩
  rcases List.mem_append.mp ht with ht | ht
  · exact hl1 t ht
  · rw [← hs.blockSize]
    exact hl2 t ht

theorem Fed.paged (h : Fed d d' feeds) (hc : d'.Capped all cap) (hf : f ∈ feeds) (hne : f.ids ≠ []) :
    (d'.tableOf f.rid).Paged d.allocator.blockSize ↔
      (d.tableOf f.rid).blocks.length * d.allocator.blockSize <
        (d.tableOf f.rid).numTokens + f.ids.length + d.allocator.blockSize := by
  obtain ⟨t, t', ht, ht', hg⟩ := h.grown f hf
  have hcap := hc.capacity ht'
  rw [h.sized.blockSize] at hcap
  have hpos := List.length_pos_iff.mpr hne
  have hnum := hg.numTokens
  rw [tableOf_eq ht, tableOf_eq ht', BlockTable.paged_iff hcap,
    and_iff_right (by omega), hg.trim d.allocator.blockSize_pos]

theorem Fed.trim (h : Fed d d' feeds) (hf : f ∈ feeds) (ht : (d.tableOf f.rid).Trim d.allocator.blockSize) :
    (d'.tableOf f.rid).Trim d.allocator.blockSize := by
  obtain ⟨t, t', h1, h2, hg⟩ := h.grown f hf
  rw [tableOf_eq h1] at ht
  rw [tableOf_eq h2]
  exact hg.keeps_trim d.allocator.blockSize_pos ht

theorem Fed.packs (h : Fed d d' feeds) (hc : d'.Capped all cap)
    (hp : d'.packed = d.packed ++ feeds.map fun f => d'.tableOf f.rid)
    (ht : ∀ f ∈ feeds, f.ids ≠ [] ∧ (d.tableOf f.rid).Trim d.allocator.blockSize) : Packs d d' := by
  refine ⟨_, hp, fun t hm => ?_⟩
  obtain ⟨f, hf, rfl⟩ := List.mem_map.mp hm
  obtain ⟨hne, htrim⟩ := ht f hf
  unfold BlockTable.Trim at htrim
  exact (h.paged hc hf hne).mpr (by omega)

end Passes

section Prefill

structure Waits (d : DraftRunner) (cap : Rid → Nat) (toks : Rid → List Token) (m : Filling) : Prop where
  feeds : ∀ f ∈ m.rows, d.Feeds cap toks f
  trim : ∀ f ∈ m.rows, f.ids ≠ [] ∧ (d.tableOf f.rid).Trim d.allocator.blockSize
  longs : ∀ f ∈ m.rows, ∀ id ∈ f.ids, IsLong id
  nodup : (m.rows.map Feed.rid).Nodup
  used : m.used ≤ d.maxPrefillTokens

theorem Waits.empty (d : DraftRunner) (cap : Rid → Nat) (toks : Rid → List Token) : d.Waits cap toks {} :=
  ⟨by simp, by simp, by simp, by simp, Nat.zero_le _⟩

structure Filled (all : List Rid) (cap : Rid → Nat) (toks : Rid → List Token) (rids : List Rid) (m m' : Filling)
    (d d' : DraftRunner) : Prop where
  capped : d'.Capped all cap
  holds : d'.Holds toks
  waits : d'.Waits cap toks m'
  passes : Passes d d'
  packs : Packs d d'
  other : ∀ x, x ∉ m.rows.map Feed.rid → x ∉ rids → x ∉ m'.rows.map Feed.rid ∧ d'.tables x = d.tables x

variable {m m' m'' : Filling} {rids rids' : List Rid}

theorem Filled.refl (h : d.Capped all cap) (hh : d.Holds toks) (hw : d.Waits cap toks m) (rids : List Rid) :
    Filled all cap toks rids m m d d :=
  ⟨h, hh, hw, Passes.refl h, Packs.refl d, fun _ hx _ => ⟨hx, rfl⟩⟩

theorem Filled.trans (h1 : Filled all cap toks rids m m' d d') (h2 : Filled all cap toks rids' m' m'' d' d'') :
    Filled all cap toks (rids ++ rids') m m'' d d'' := by
  refine ⟨h2.capped, h2.holds, h2.waits, h1.passes.trans h2.passes,
    h1.packs.trans h2.packs h1.passes.sized, fun x hx hr => ?_⟩
  rw [List.mem_append, not_or] at hr
  obtain ⟨h3, h4⟩ := h1.other x hx hr.1
  obtain ⟨h5, h6⟩ := h2.other x h3 hr.2
  exact ⟨h5, h6.trans h4⟩

theorem extend_filled (h : d.Capped all cap) (hh : d.Holds toks) (hw : d.Waits cap toks m) (model : DraftModel) :
    ∃ out d', d.extend model m.rows = .ok (out, d') ∧ Filled all cap toks [] m {} d d' ∧
      ∀ f ∈ m.rows, ∃ t, d'.tables f.rid = some t ∧ t.numTokens = f.start + f.ids.length ∧
          t.Trim d.allocator.blockSize := by
  obtain ⟨out, d', h1, h2, h3, hF, hp, -⟩ := h.extend hh hw.nodup hw.feeds hw.longs model
  refine ⟨out, d', h1, ⟨h2, h3, Waits.empty _ _ _, hF.passes h, hF.packs h2 hp hw.trim,
    fun x hx _ => ⟨by simp, hF.other x hx⟩⟩, fun f hf => ?_⟩
  obtain ⟨t, ht, hn⟩ := hF.reached hf (hw.feeds f hf)
  have htrim := hF.trim hf (hw.trim f hf).2
  rw [tableOf_eq ht] at htrim
  exact ⟨t, ht, hn, htrim⟩

-- Where the tokens of a request go on: its rows have been run, or fill the next pass.
def Ahead (d : DraftRunner) (m : Filling) (r : Rid) (start : Nat) : Prop :=
  (r ∉ m.rows.map Feed.rid ∧ ∃ t, d.tables r = some t ∧ t.numTokens = start ∧ t.Trim d.allocator.blockSize) ∨
    (m.used = d.maxPrefillTokens ∧ ∃ f ∈ m.rows, f.rid = r ∧ f.start + f.ids.length = start)

theorem flush_ok {start : Nat} (h : d.Capped all cap) (hh : d.Holds toks) (hw : d.Waits cap toks m)
    (hpos : 1 ≤ d.maxPrefillTokens) (ha : d.Ahead m r start) (model : DraftModel) :
    ∃ m' d', d.flush model m = .ok (m', d') ∧ Filled all cap toks [] m m' d d' ∧ m'.used < d.maxPrefillTokens ∧
      r ∉ m'.rows.map Feed.rid ∧ ∃ t, d'.tables r = some t ∧ t.numTokens = start ∧ t.Trim d.allocator.blockSize := by
  unfold flush
  split
  · next hfull =>
    obtain ⟨out, d', h1, hF, hend⟩ := extend_filled h hh hw model
    rw [h1]
    refine ⟨{}, d', rfl, hF, hpos, by simp, ?_⟩
    rcases ha with ⟨hnot, t, ht, hn, htrim⟩ | ⟨-, f, hf, rfl, hstart⟩
    · exact ⟨t, (hF.other r hnot (by simp)).2.trans ht, hn, htrim⟩
    · obtain ⟨t, ht, hn, htrim⟩ := hend f hf
      exact ⟨t, ht, hn.trans hstart, htrim⟩
  · next hfull =>
    have hlt : m.used < d.maxPrefillTokens := lt_of_le_of_ne hw.used hfull
    refine ⟨m, d, rfl, .refl h hh hw _, hlt, ?_⟩
    rcases ha with ha | ha
    · exact ha
    · exact absurd ha.1 hfull

theorem prefillItem_ok {fuel start : Nat} {ids : List Token} (h : d.Capped all cap) (hh : d.Holds toks)
    (hw : d.Waits cap toks m) (hpos : 1 ≤ d.maxPrefillTokens) (ha : ids ≠ [] → d.Ahead m r start)
    (hids : ids = ((toks r).drop start).take ids.length) (hfits : start + ids.length ≤ cap r * d.allocator.blockSize)
    (hlong : ∀ id ∈ ids, IsLong id) (hfuel : ids.length ≤ fuel) (model : DraftModel) :
    ∃ m' d', prefillItem model r fuel ids start m d = .ok (m', d') ∧ Filled all cap toks [r] m m' d d' := by
  induction fuel generalizing d m ids start with
  | zero => exact ⟨m, d, rfl, .refl h hh hw _⟩
  | succ fuel ih =>
    unfold prefillItem
    split
    · exact ⟨m, d, rfl, .refl h hh hw _⟩
    · next hne =>
      obtain ⟨m1, d1, h1, hF1, hlt, hnot, t, ht, hn, htrim⟩ := flush_ok h hh hw hpos (ha hne) model
      have hsz := hF1.passes.sized
      rw [h1]
      simp only
      rw [hsz.maxPrefillTokens]
      set n := min ids.length (d.maxPrefillTokens - m1.used) with hndef
      have hlen := List.length_pos_iff.mpr hne
      have hn1 : 1 ≤ n := by omega
      have hlenn : (ids.take n).length = n := List.length_take_of_le (by omega)
      let row : Feed := ⟨r, ids.take n, start⟩
      have hrow : d1.Feeds cap toks row := by
        refine ⟨⟨t, ht, hn⟩, ?_, ?_⟩
        · show start + (ids.take n).length ≤ cap r * d1.allocator.blockSize
          rw [hlenn, hsz.blockSize]
          omega
        · show ids.take n = ((toks r).drop start).take (ids.take n).length
          rw [hlenn]
          conv_lhs => rw [hids]
          rw [List.take_take, Nat.min_eq_left (by omega)]
      have hw2 : d1.Waits cap toks ⟨m1.rows ++ [row], m1.used + n⟩ := by
        refine ⟨fun f hf => ?_, fun f hf => ?_, fun f hf => ?_, ?_, ?_⟩
        · rcases List.mem_append.mp hf with hf | hf
          · exact hF1.waits.feeds f hf
          · rw [List.mem_singleton.mp hf]
            exact hrow
        · rcases List.mem_append.mp hf with hf | hf
          · exact hF1.waits.trim f hf
          · rw [List.mem_singleton.mp hf]
            refine ⟨List.length_pos_iff.mp (hlenn.symm ▸ hn1), ?_⟩
            rw [tableOf_eq ht, hsz.blockSize]
            exact htrim
        · rcases List.mem_append.mp hf with hf | hf
          · exact hF1.waits.longs f hf
          · rw [List.mem_singleton.mp hf]
            exact fun id hid => hlong id (List.mem_of_mem_take hid)
        · rw [List.map_append, List.map_cons, List.map_nil]
          exact List.nodup_append.mpr ⟨hF1.waits.nodup, by simp, by simpa using hnot⟩
        · rw [hsz.maxPrefillTokens]
          show m1.used + n ≤ _
          omega
      -- What is left of the request does not fit in this pass, which is full.
      have ha2 : ids.drop n ≠ [] → d1.Ahead ⟨m1.rows ++ [row], m1.used + n⟩ r (start + n) := by
        intro hrest
        have := List.length_pos_iff.mpr hrest
        rw [List.length_drop] at this
        refine .inr ⟨?_, row, List.mem_append_right _ (List.mem_singleton_self _), rfl, congrArg (start + ·) hlenn⟩
        rw [hsz.maxPrefillTokens]
        show m1.used + n = _
        omega
      have hids2 : ids.drop n = ((toks r).drop (start + n)).take (ids.drop n).length := by
        conv_lhs => rw [hids]
        rw [List.drop_take, List.drop_drop, List.length_drop]
      have hfits2 : start + n + (ids.drop n).length ≤ cap r * d1.allocator.blockSize := by
        rw [List.length_drop, hsz.blockSize]
        omega
      have hfuel2 : (ids.drop n).length ≤ fuel := by
        rw [List.length_drop]
        omega
      obtain ⟨m', d', h2, hF2⟩ := ih hF1.capped hF1.holds hw2 (hsz.maxPrefillTokens ▸ hpos) ha2 hids2 hfits2
        (fun id hid => hlong id (List.mem_of_mem_drop hid)) hfuel2
      refine ⟨m', d', h2, hF2.capped, hF2.holds, hF2.waits, hF1.passes.trans hF2.passes,
        hF1.packs.trans hF2.packs hsz, fun x hx hr => ?_⟩
      obtain ⟨h3, h4⟩ := hF1.other x hx (by simp)
      have hr' : x ≠ r := by simpa using hr
      obtain ⟨h5, h6⟩ := hF2.other x (by simpa [row, hr'] using h3) hr
      exact ⟨h5, h6.trans h4⟩

structure Item (d : DraftRunner) (cap : Rid → Nat) (toks : Rid → List Token) (x : Rid × List Token) : Prop where
  table : ∃ t, d.tables x.1 = some t ∧ t.numTokens = 0 ∧ t.Trim d.allocator.blockSize
  fits : x.2.length ≤ cap x.1 * d.allocator.blockSize
  ids : x.2 = (toks x.1).take x.2.length
  longs : ∀ id ∈ x.2, IsLong id

theorem prefillItems_ok {items : List (Rid × List Token)} (h : d.Capped all cap) (hh : d.Holds toks)
    (hw : d.Waits cap toks m) (hpos : 1 ≤ d.maxPrefillTokens) (hnd : (items.map Prod.fst).Nodup)
    (hdis : ∀ x ∈ items, x.1 ∉ m.rows.map Feed.rid) (hi : ∀ x ∈ items, d.Item cap toks x) (model : DraftModel) :
    ∃ m' d', prefillItems model items m d = .ok (m', d') ∧ Filled all cap toks (items.map Prod.fst) m m' d d' := by
  induction items generalizing d m with
  | nil => exact ⟨m, d, rfl, .refl h hh hw _⟩
  | cons x items ih =>
    obtain ⟨r, ids⟩ := x
    obtain ⟨hnot, hnd⟩ := List.nodup_cons.mp hnd
    obtain ⟨⟨t, ht, hn, htrim⟩, hfits, hids, hlong⟩ := hi (r, ids) List.mem_cons_self
    have hr := hdis (r, ids) List.mem_cons_self
    have htab : d.table r = .ok t := by simp [table, ht]
    obtain ⟨m1, d1, h1, hF1⟩ := prefillItem_ok h hh hw hpos (fun _ => .inl ⟨hr, t, ht, hn, htrim⟩)
      (by rw [List.drop_zero]; exact hids) (by rw [Nat.zero_add]; exact hfits) hlong le_rfl model
    have hsz := hF1.passes.sized
    have hother : ∀ y ∈ items, y.1 ∉ m1.rows.map Feed.rid ∧ d1.tables y.1 = d.tables y.1 := fun y hy =>
      hF1.other y.1 (hdis y (List.mem_cons_of_mem _ hy)) fun he => hnot (by
        rw [← List.mem_singleton.mp he]
        exact List.mem_map_of_mem hy)
    obtain ⟨m', d', h2, hF2⟩ := ih hF1.capped hF1.holds hF1.waits (hsz.maxPrefillTokens ▸ hpos) hnd
      (fun y hy => (hother y hy).1) fun y hy => by
        obtain ⟨⟨t, ht, hn, htrim⟩, hfits, hids, hlong⟩ := hi y (List.mem_cons_of_mem _ hy)
        exact ⟨⟨t, (hother y hy).2.trans ht, hn, hsz.blockSize ▸ htrim⟩, hsz.blockSize ▸ hfits, hids, hlong⟩
    refine ⟨m', d', ?_, hF1.trans hF2⟩
    simp only [prefillItems, htab, hn, ne_eq, not_true_eq_false, if_false, h1, h2]

theorem Capped.prefill {items : List (Rid × List Token)} (h : d.Capped all cap) (hh : d.Holds toks)
    (hpos : 1 ≤ d.maxPrefillTokens) (hnd : (items.map Prod.fst).Nodup) (hi : ∀ x ∈ items, d.Item cap toks x)
    (model : DraftModel) :
    ∃ d', d.prefill model items = .ok d' ∧ d'.Capped all cap ∧ d'.Holds toks ∧ Passes d d' ∧ Packs d d' ∧
      ∀ x, x ∉ items.map Prod.fst → d'.tables x = d.tables x := by
  obtain ⟨m1, d1, h1, hF1⟩ := prefillItems_ok h hh (Waits.empty d cap toks) hpos hnd (by simp) hi model
  unfold DraftRunner.prefill
  rw [h1]
  simp only
  split
  · exact ⟨d1, rfl, hF1.capped, hF1.holds, hF1.passes, hF1.packs, fun x hx => (hF1.other x (by simp) hx).2⟩
  · obtain ⟨out, d', h2, hF2, -⟩ := extend_filled hF1.capped hF1.holds hF1.waits model
    rw [h2]
    refine ⟨d', rfl, hF2.capped, hF2.holds, hF1.passes.trans hF2.passes, hF1.packs.trans hF2.packs hF1.passes.sized,
      fun x hx => ?_⟩
    obtain ⟨h3, h4⟩ := hF1.other x (by simp) hx
    exact (hF2.other x h3 (by simp)).2.trans h4

end Prefill

section Round

variable {rids : List Rid} {ext ext' : Rid → List Token}

def stretch (rids : List Rid) (toks ext : Rid → List Token) (r : Rid) : List Token :=
  if r ∈ rids then toks r ++ ext r else toks r

theorem stretch_mem (hr : r ∈ rids) : stretch rids toks ext r = toks r ++ ext r := if_pos hr

theorem stretch_nil : stretch rids toks (fun _ => []) = toks := by
  funext r
  simp [stretch]

theorem stretch_stretch (h : ∀ r ∈ rids, ext' r = ext r ++ toks' r) :
    stretch rids (stretch rids toks ext) toks' = stretch rids toks ext' := by
  funext r
  by_cases hr : r ∈ rids
  · rw [stretch_mem hr, stretch_mem hr, stretch_mem hr, h r hr, List.append_assoc]
  · simp [stretch, hr]

theorem Holds.stretch (h : d.Holds toks) : d.Holds (stretch rids toks ext) := by
  refine h.shrink rfl rfl fun r t ht => .inr ⟨t, ht, rfl, le_rfl, (List.take_prefix _ _).trans ?_⟩
  by_cases hr : r ∈ rids
  · rw [stretch_mem hr]
    exact List.prefix_append _ _
  · rw [DraftRunner.stretch, if_neg hr]

theorem map_idxOf {l : List Token} (hn : rids.Nodup) (hlen : l.length = rids.length) :
    rids.map (fun r => l.getD (rids.idxOf r) 0) = l := by
  refine List.ext_getElem (by simp [hlen]) fun i h1 h2 => ?_
  have hi : i < rids.length := by simpa using h1
  simp [hn.idxOf_getElem i hi, h2]

theorem decode_feeds {tokens : List Token} {pos : Rid → Nat} (hn : rids.Nodup) (hlen : tokens.length = rids.length) :
    ((rids.zip (tokens.zip (rids.map pos))).map fun x => (⟨x.1, [x.2.1], x.2.2⟩ : Feed)) =
      rids.map fun r => ⟨r, [tokens.getD (rids.idxOf r) 0], pos r⟩ := by
  conv_lhs => rw [← map_idxOf hn hlen]
  rw [List.zip_map', ← List.map_prod_left_eq_zip, List.map_map]
  rfl

theorem Capped.decodeSteps {n : Nat} {tokens : List Token} (h : d.Capped all cap) (hh : d.Holds toks) (hn : rids.Nodup)
    (hlen : tokens.length = rids.length)
    (ht : ∀ r ∈ rids, (∃ t, d.tables r = some t ∧ t.numTokens = (toks r).length) ∧
      (toks r).length + n ≤ cap r * d.allocator.blockSize) (model : DraftModel) :
    ∃ columns d', decodeSteps model rids n tokens (rids.map fun r => (toks r).length) d = .ok (columns, d') ∧
      d'.Capped all cap ∧ Passes d d' ∧ (∃ l, d'.packed = d.packed ++ l ∧
        ((∀ r ∈ rids, (d.tableOf r).Trim d.allocator.blockSize) → ∀ t ∈ l, t.Paged d.allocator.blockSize)) ∧
      d'.Holds (stretch rids toks fun r => (SpecEngine.proposalsAt (tokens :: columns) (rids.idxOf r)).take n) := by
  induction n generalizing d toks tokens with
  | zero =>
    refine ⟨[], d, rfl, h, .refl h, ⟨[], by simp, by simp⟩, ?_⟩
    simp only [List.take_zero]
    rw [stretch_nil]
    exact hh
  | succ n ih =>
    let tok : Rid → Token := fun r => tokens.getD (rids.idxOf r) 0
    let feedOf : Rid → Feed := fun r => ⟨r, [tok r], (toks r).length⟩
    have htoks : ∀ r ∈ rids, DraftRunner.stretch rids toks (fun r => [tok r]) r = toks r ++ [tok r] :=
      fun r hr => stretch_mem hr
    have hrids : (rids.map feedOf).map Feed.rid = rids := by simp [feedOf, Function.comp_def]
    have hfeeds : ∀ f ∈ rids.map feedOf, d.Feeds cap (DraftRunner.stretch rids toks fun r => [tok r]) f := by
      intro f hf
      obtain ⟨r, hr, rfl⟩ := List.mem_map.mp hf
      obtain ⟨htab, hcap⟩ := ht r hr
      refine ⟨htab, ?_, ?_⟩
      · show (toks r).length + 1 ≤ cap r * d.allocator.blockSize
        omega
      · show [tok r] = ((DraftRunner.stretch rids toks _ r).drop (toks r).length).take 1
        rw [htoks r hr, List.drop_left]
        rfl
    obtain ⟨slots, d0, next, d1, h0, h1, h2, h3, hF, hp, hnext⟩ := h.advance hh.stretch (hrids.symm ▸ hn) hfeeds model
    have hpos : (rids.map fun r => (toks r).length).map (· + 1) =
        rids.map fun r => (DraftRunner.stretch rids toks (fun r => [tok r]) r).length := by
      rw [List.map_map]
      refine List.map_congr_left fun r hr => ?_
      rw [htoks r hr, List.length_append]
      rfl
    obtain ⟨columns, d', h4, h5, hP, ⟨l, hl, hK⟩, h6⟩ := ih h2 h3 (hnext.trans (by simp)) fun r hr => by
      obtain ⟨t, htab, hnum⟩ := hF.reached (List.mem_map_of_mem hr) (hfeeds _ (List.mem_map_of_mem hr))
      have hcap := (ht r hr).2
      rw [htoks r hr, List.length_append, hF.sized.blockSize]
      exact ⟨⟨t, htab, hnum⟩, by simp only [List.length_singleton]; omega⟩
    rw [← hpos] at h4
    have hsteps : ∀ r ∈ rids, (SpecEngine.proposalsAt (tokens :: next :: columns) (rids.idxOf r)).take (n + 1) =
        [tok r] ++ (SpecEngine.proposalsAt (next :: columns) (rids.idxOf r)).take n := fun _ _ => rfl
    rw [stretch_stretch hsteps] at h6
    refine ⟨next :: columns, d', ?_, h5, (hF.passes h).trans hP,
      ⟨(rids.map feedOf).map (fun f => d1.tableOf f.rid) ++ l,
        by rw [hl, hp, List.append_assoc], fun htrim t hm => ?_⟩, h6⟩
    · simp only [DraftRunner.decodeSteps, DraftRunner.decode, decode_feeds hn hlen]
      rw [show d.advance (rids.map _) = _ from h0]
      simp only
      rw [show d0.run model (rids.map _) slots = _ from h1]
      simp only [h4]
    · rcases List.mem_append.mp hm with hm | hm
      · obtain ⟨f, hf, rfl⟩ := List.mem_map.mp hm
        obtain ⟨r, hr, rfl⟩ := List.mem_map.mp hf
        have hlt := htrim r hr
        unfold BlockTable.Trim at hlt
        exact (hF.paged h2 hf (by simp [feedOf])).mpr (by
          show (d.tableOf r).blocks.length * _ < (d.tableOf r).numTokens + _ + _; omega)
      · rw [← hF.sized.blockSize]
        refine hK (fun r hr => ?_) t hm
        rw [hF.sized.blockSize]
        exact hF.trim (List.mem_map_of_mem hr) (htrim r hr)

-- A round: every request is fed what it misses, and then its own proposals but the last.
theorem Capped.propose (h : d.Capped all cap) (gamma : Nat) (hh : d.Holds toks) (hnd : (feeds.map Feed.rid).Nodup)
    (hf : ∀ f ∈ feeds, d.Feeds cap toks f ∧ f.ids ≠ [] ∧ f.start + f.ids.length = (toks f.rid).length ∧
      (toks f.rid).length + (gamma - 1) ≤ cap f.rid * d.allocator.blockSize)
    (hlong : ∀ f ∈ feeds, ∀ id ∈ f.ids, IsLong id) (model : DraftModel) :
    ∃ columns d', d.propose model feeds gamma = .ok (columns, d') ∧ d'.Capped all cap ∧ Passes d d' ∧
      d'.Holds (stretch (feeds.map Feed.rid) toks fun r =>
        (SpecEngine.proposalsAt columns ((feeds.map Feed.rid).idxOf r)).take (gamma - 1)) ∧
      (∀ f ∈ feeds, ∃ t, d'.tables f.rid = some t ∧ (toks f.rid).length ≤ t.numTokens) ∧
      ∃ l, d'.packed = d.packed ++ l ∧ ((∀ t ∈ l, t.Paged d.allocator.blockSize) ↔
        ∀ f ∈ feeds, (d.tableOf f.rid).blocks.length * d.allocator.blockSize <
          f.start + f.ids.length + d.allocator.blockSize) := by
  obtain ⟨first, d1, h1, h2, h3, hF, hp, hfirst⟩ := h.extend hh hnd (fun f hm => (hf f hm).1) hlong model
  have hend : ∀ f ∈ feeds, ∃ t, d1.tables f.rid = some t ∧ t.numTokens = (toks f.rid).length := by
    intro f hm
    obtain ⟨t, ht, hn⟩ := hF.reached hm (hf f hm).1
    exact ⟨t, ht, hn.trans (hf f hm).2.2.1⟩
  have hpos : (feeds.map fun f => f.start + f.ids.length) = (feeds.map Feed.rid).map fun r => (toks r).length := by
    rw [List.map_map]
    exact List.map_congr_left fun f hm => (hf f hm).2.2.1
  obtain ⟨columns, d', h4, h5, hP, ⟨l, hl, hK⟩, h6⟩ :=
    h2.decodeSteps (n := gamma - 1) h3 hnd (hfirst.trans (by simp)) (fun r hr => by
    obtain ⟨f, hm, rfl⟩ := List.mem_map.mp hr
    rw [hF.sized.blockSize]
    exact ⟨hend f hm, (hf f hm).2.2.2⟩) model
  have hpaged : ∀ f ∈ feeds, (d1.tableOf f.rid).Paged d.allocator.blockSize ↔
      (d.tableOf f.rid).blocks.length * d.allocator.blockSize < f.start + f.ids.length + d.allocator.blockSize := by
    intro f hm
    obtain ⟨t, ht, hn⟩ := (hf f hm).1.table
    rw [hF.paged h2 hm (hf f hm).2.1, tableOf_eq ht, hn]
  -- When the first pass ends in the page of its last token, the steps after it do too.
  refine ⟨first :: columns, d', ?_, h5, (hF.passes h).trans hP, h6, fun f hm => ?_,
    (feeds.map fun f => d1.tableOf f.rid) ++ l,
      by rw [hl, hp, List.append_assoc], fun hl f hm => ?_, fun hall t ht => ?_⟩
  · simp only [DraftRunner.propose, h1, hpos, h4]
  · obtain ⟨t, ht, hn⟩ := hend f hm
    obtain ⟨t', n, ht', hg⟩ := hP.grown _ t ht
    exact ⟨t', ht', by rw [hg.numTokens, hn]; exact Nat.le_add_right _ _⟩
  · exact (hpaged f hm).mp (hl _ (List.mem_append_left _ (List.mem_map.mpr ⟨f, hm, rfl⟩)))
  · rcases List.mem_append.mp ht with ht | ht
    · obtain ⟨f, hm, rfl⟩ := List.mem_map.mp ht
      exact (hpaged f hm).mpr (hall f hm)
    · rw [← hF.sized.blockSize]
      refine hK (fun r hr => ?_) t ht
      obtain ⟨f, hm, rfl⟩ := List.mem_map.mp hr
      obtain ⟨t, ht, -⟩ := hend f hm
      have hcap := h2.capacity ht
      have hp := (hpaged f hm).mpr (hall f hm)
      rw [hF.sized.blockSize] at hcap ⊢
      rw [tableOf_eq ht] at hp ⊢
      exact ((BlockTable.paged_iff hcap).mp hp).2

end Round

end DraftRunner

end MiniServe
