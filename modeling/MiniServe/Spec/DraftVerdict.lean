import MiniServe.Spec.Drafted

namespace MiniServe

open KVCacheManager Generate Pool

namespace DraftRunner

variable {d d' : DraftRunner} {all reqs : List Rid} {cap cap' : Rid → Nat} {toks : Rid → List Token} {r : Rid}
  {t : BlockTable}

theorem Capped.mono (h : d.Capped all cap) (hle : ∀ r ∈ all, cap r ≤ cap' r)
    (hfit : (all.map cap').sum ≤ d.allocator.numBlocks) : d.Capped all cap' where
  sound := h.sound
  mem := h.mem
  nodup := h.nodup
  len_le := fun r t ht => (h.len_le r t ht).trans (hle r (h.mem r t ht))
  fits := hfit

structure Marked (d d' : DraftRunner) (all reqs : List Rid) (cap : Rid → Nat) (marks : Rid → Option Nat) : Prop where
  capped : d'.Capped all cap
  sized : Sized d d'
  device : d'.device = d.device
  packed : d'.packed = d.packed
  other : ∀ x, x ∉ reqs → d'.tables x = d.tables x
  ended : ∀ r ∈ reqs, marks r = none → d'.tables r = none
  going : ∀ r ∈ reqs, ∀ n, marks r = some n → ∀ t, d.tables r = some t →
    d'.tables r = some { t with numTokens := min t.numTokens n }

theorem Marked.cut {marks : Rid → Option Nat} {t' : BlockTable} (h : Marked d d' all reqs cap marks) (hr : r ∈ reqs)
    (ht : d.tables r = some t) (ht' : d'.tables r = some t') :
    ∃ n, marks r = some n ∧ t' = { t with numTokens := min t.numTokens n } := by
  cases hm : marks r with
  | some n => exact ⟨n, rfl, Option.some.inj (ht'.symm.trans (h.going r hr n hm t ht))⟩
  | none =>
    rw [h.ended r hr hm] at ht'
    simp at ht'

theorem Capped.conclude (h : d.Capped all cap) (ht : d.tables r = some t) (mark : Option Nat) :
    ∃ d', d.conclude r mark = .ok d' ∧ Marked d d' all [r] cap fun _ => mark := by
  cases mark with
  | none =>
    obtain ⟨a, h1, h2, h3⟩ := h.release r
    refine ⟨_, h1, h2, h3, rfl, rfl, fun x hx => put_tables_ne _ _ (by simpa using hx), fun x hx _ => ?_, by simp⟩
    rw [List.mem_singleton.mp hx, put_tables_self]
  | some n =>
    obtain ⟨h1, h2⟩ := h.rewindTo ht n
    refine ⟨_, h1, h2, ⟨rfl, rfl, rfl, rfl⟩, rfl, rfl, fun x hx => put_tables_ne _ _ (by simpa using hx), by simp,
      fun x hx m hm t' ht' => ?_⟩
    obtain rfl := List.mem_singleton.mp hx
    obtain rfl := Option.some.inj hm
    obtain rfl := Option.some.inj (ht.symm.trans ht')
    exact put_tables_self _ _

theorem Capped.concludeAll (h : d.Capped all cap) (marks : Rid → Option Nat) (hnd : reqs.Nodup)
    (ht : ∀ r ∈ reqs, ∃ t, d.tables r = some t) :
    ∃ d', concludeAll (reqs.map fun r => (r, marks r)) d = .ok d' ∧ Marked d d' all reqs cap marks := by
  induction reqs generalizing d with
  | nil => exact ⟨d, rfl, h, Sized.refl d, rfl, rfl, fun _ _ => rfl, by simp, by simp⟩
  | cons r reqs ih =>
    obtain ⟨hr, hnd⟩ := List.nodup_cons.mp hnd
    obtain ⟨t, htr⟩ := ht r List.mem_cons_self
    obtain ⟨d1, h1, hM⟩ := h.conclude htr (marks r)
    have hne : ∀ x ∈ reqs, x ≠ r := by
      rintro x hx rfl
      exact hr hx
    have hkeep : ∀ x ∈ reqs, d1.tables x = d.tables x := fun x hx => hM.other x (by simpa using hne x hx)
    obtain ⟨d2, h2, hM2⟩ := ih hM.capped hnd fun x hx => by
      rw [hkeep x hx]
      exact ht x (List.mem_cons_of_mem _ hx)
    refine ⟨d2, by simp only [List.map_cons, DraftRunner.concludeAll, h1, h2], hM2.capped, hM.sized.trans hM2.sized,
      hM2.device.trans hM.device, hM2.packed.trans hM.packed, fun x hx => ?_, fun x hx hm => ?_,
      fun x hx n hm t' ht' => ?_⟩
    · rw [List.mem_cons, not_or] at hx
      rw [hM2.other x hx.2, hM.other x (by simpa using hx.1)]
    · rcases List.mem_cons.mp hx with rfl | hx
      · rw [hM2.other x hr]
        exact hM.ended x (List.mem_singleton_self x) hm
      · exact hM2.ended x hx hm
    · rcases List.mem_cons.mp hx with rfl | hx
      · rw [hM2.other x hr]
        exact hM.going x (List.mem_singleton_self x) n hm t' ht'
      · exact hM2.going x hx n hm t' ((hkeep x hx).trans ht')

end DraftRunner

namespace SpecEngine

variable {e e1 e' : SpecEngine} {s s1 : Scheduler} {reqs : List Rid} {target : Target} {dm : DraftModel} {b : Batch}
  {r : Rid} {all : List Rid} {cap : Rid → Nat} {toks : Rid → List Token}

section Starts

theorem coveredAll_ok (ht : ∀ r ∈ reqs, ∃ t, e.draft.tables r = some t) :
    e.coveredAll reqs = .ok (reqs.map fun r => (e.draft.tableOf r).numTokens) := by
  induction reqs with
  | nil => rfl
  | cons r reqs ih =>
    obtain ⟨t, htr⟩ := ht r List.mem_cons_self
    have hcov : e.draft.covered r = .ok t.numTokens := by simp [DraftRunner.covered, DraftRunner.table, htr]
    rw [coveredAll, hcov, ih fun x hx => ht x (List.mem_cons_of_mem _ hx), List.map_cons, DraftRunner.tableOf_eq htr]

theorem rewindAll_eq (l : List (Rid × Nat)) (d : DraftRunner) :
    rewindAll l d = DraftRunner.concludeAll (l.map fun x => (x.1, some x.2)) d := by
  induction l generalizing d with
  | nil => rfl
  | cons x l ih =>
    simp only [rewindAll, List.map_cons, DraftRunner.concludeAll, DraftRunner.conclude]
    cases d.rewindTo x.1 x.2 with
    | error err => rfl
    | ok d => exact ih d

-- Where the first step of a round feeds from: what the draft has, or two tokens before the end.
structure Starts (e : SpecEngine) (all reqs : List Rid) (cap : Rid → Nat) (starts : Rid → Nat) (d' : DraftRunner) :
    Prop where
  capped : d'.Capped all cap
  sized : DraftRunner.Sized e.draft d'
  device : d'.device = e.draft.device
  packed : d'.packed = e.draft.packed
  other : ∀ x, x ∉ reqs → d'.tables x = e.draft.tables x
  table : ∀ r ∈ reqs, d'.tables r = some { e.draft.tableOf r with numTokens := starts r }
  le : ∀ r ∈ reqs, starts r ≤ (e.draft.tableOf r).numTokens

theorem firstStepStarts_ok (h : e.draft.Capped all cap) (hnd : reqs.Nodup)
    (ht : ∀ r ∈ reqs, ∃ t, e.draft.tables r = some t) :
    ∃ starts d', e.firstStepStarts reqs = .ok (reqs.map starts, { e with draft := d' }) ∧
    Starts e all reqs cap starts d' := by
  have hcov := coveredAll_ok ht
  unfold firstStepStarts
  rw [hcov]
  simp only
  split
  · next hfit =>
    let starts : Rid → Nat := fun r => (e.base.request r).seqLen - firstWidth
    obtain ⟨d', h1, hM⟩ := h.concludeAll (fun r => some (starts r)) hnd ht
    have hle : ∀ r ∈ reqs, starts r ≤ (e.draft.tableOf r).numTokens := by
      intro r hr
      have hall := (Bool.and_eq_true_iff.mp hfit).2
      have hm : (r, (e.draft.tableOf r).numTokens) ∈ reqs.zip (reqs.map fun r => (e.draft.tableOf r).numTokens) := by
        rw [← List.map_prod_left_eq_zip]
        exact List.mem_map_of_mem hr
      exact (of_decide_eq_true (List.all_eq_true.mp hall _ hm)).2
    have hrew : rewindAll (reqs.zip (reqs.map starts)) e.draft = .ok d' := by
      rw [rewindAll_eq, ← List.map_prod_left_eq_zip, List.map_map]
      exact h1
    rw [show rewindAll (reqs.zip (reqs.map fun r => (e.base.request r).seqLen - firstWidth)) e.draft = _ from hrew]
    refine ⟨starts, d', rfl, hM.capped, hM.sized, hM.device, hM.packed, hM.other, fun r hr => ?_, hle⟩
    obtain ⟨t, htr⟩ := ht r hr
    rw [hM.going r hr _ rfl t htr, DraftRunner.tableOf_eq htr]
    have := hle r hr
    rw [DraftRunner.tableOf_eq htr] at this
    rw [Nat.min_eq_right this]
  · refine ⟨fun r => (e.draft.tableOf r).numTokens, e.draft, rfl, h, DraftRunner.Sized.refl _, rfl, rfl, fun _ _ => rfl,
      fun r hr => ?_, fun _ _ => le_rfl⟩
    obtain ⟨t, htr⟩ := ht r hr
    rw [DraftRunner.tableOf_eq htr]
    exact htr

end Starts

section Propose

-- The blocks the target's tables have for a round, seen from the draft: they fit its pool, and every request of
-- the round has room for its tokens and for `gamma` more.
structure Reserves (e : SpecEngine) (reqs : List Rid) (s1 : Scheduler) : Prop where
  fits : (e.base.scheduler.running.map fun r => (s1.reqs r).tableBlocks.length).sum ≤
    e.base.scheduler.kv.allocator.numBlocks
  le : ∀ r, (e.base.request r).tableBlocks.length ≤ (s1.reqs r).tableBlocks.length
  room : ∀ r ∈ reqs, (e.base.request r).seqLen + e.gamma ≤ (s1.reqs r).tableBlocks.length * e.base.scheduler.kv.blockSize

theorem Rounds.reserves (h : Rounds target e b) :
    ∃ s1, ModelRunner.reserve e.base.scheduler ((b.rows.map Row.rid).map e.verifyRow) = (.ok (), s1) ∧
      Reserves e (b.rows.map Row.rid) s1 := by
  have hrows : ∀ row ∈ (b.rows.map Row.rid).map e.verifyRow, e.base.scheduler.RowOpens row := by
    intro row hrow
    obtain ⟨r, hr, rfl⟩ := List.mem_map.mp hrow
    exact h.opens hr
  have hnd : (((b.rows.map Row.rid).map e.verifyRow).map Row.rid).Nodup := by
    rw [Rounds.map_rid]
    exact h.batch.nodup
  obtain ⟨s1, hres, hmoves, hR⟩ := Scheduler.reserve_ok h.sound hrows hnd h.costs_le
  have hs1 := (hmoves.sound h.sound).kv
  obtain ⟨hgrown, hother⟩ := ModelRunner.reserve_grown hres h.tree hnd
  have htree : s1.kv.tree = none := by
    have := hR.same.radix
    rw [h.tree] at this
    simpa using this
  have hlive : s1.running ++ [] = e.base.scheduler.running := by rw [List.append_nil, hR.running]
  refine ⟨s1, hres, ?_, fun r => ?_, fun r hr => ?_⟩
  · have hfit := hs1.tables_fit htree
    simp only [Scheduler.openPool, Scheduler.pool, hlive] at hfit
    rw [← hR.same.numBlocks]
    exact hfit
  · by_cases hr : r ∈ ((b.rows.map Row.rid).map e.verifyRow).map Row.rid
    · obtain ⟨row, hrow, rfl⟩ := List.mem_map.mp hr
      obtain ⟨t, t', h1, h2, hg⟩ := hgrown row hrow
      have h1 : (e.base.request row.rid).cache = some t := h1
      simp only [Request.tableBlocks, h1, h2]
      exact hg.blocks.length_le
    · rw [hother r hr]
      exact le_rfl
  · obtain ⟨t, t', h1, h2, hg⟩ := hgrown (e.verifyRow r) (List.mem_map_of_mem hr)
    have h1 : (e.base.request r).cache = some t := h1
    have h2 : (s1.reqs r).cache = some t' := h2
    obtain ⟨hm, -, hcov⟩ := h.decodes hr
    have hcap := (hs1.held r (by simpa [Scheduler.openPool, Scheduler.pool, hR.running] using hm)).capacity
    have hnum := hg.numTokens
    simp only [Request.covered, Request.tableBlocks, h1, h2, Scheduler.openPool, Scheduler.pool] at hcap hcov ⊢
    rw [show s1.kv.blockSize = _ from hR.same.blockSize] at hcap
    have hlen : (e.verifyRow r).len = e.gamma + 1 := rfl
    refine le_trans ?_ hcap
    rw [hnum, hlen]
    omega

structure Proposed (e : SpecEngine) (reqs : List Rid) (cap : Rid → Nat)
    (columns : List (List Token)) (d' : DraftRunner) :
    Prop where
  capped : d'.Capped e.base.scheduler.running cap
  sized : DraftRunner.Sized e.draft d'
  holds : d'.Holds fun r => if r ∈ reqs then (e.base.request r).tokens ++
    (Rounds.proposed reqs columns r).take (e.gamma - 1)
    else (e.base.request r).tokens.take (e.base.request r).covered
  decode : ∀ r t, d'.tables r = some t → (e.base.request r).state = .decode
  table : ∀ r ∈ reqs, ∃ t, d'.tables r = some t ∧ (e.base.request r).seqLen ≤ t.numTokens
  fresh : ∀ r t, r ∉ reqs → d'.tables r = some t → t.numTokens = 0 → t.blocks = []

theorem feedOf_ids (n : Nat) : (e.feedOf (r, n)).ids = (e.base.request r).tokens.drop n := by
  refine (Request.tokenSlice_eq _ _).trans (List.take_of_length_le ?_)
  rw [List.length_drop, Request.tokens_length]

theorem feeds_rid (starts : Rid → Nat) : (reqs.map fun r => e.feedOf (r, starts r)).map Feed.rid = reqs := by
  simp [feedOf, Function.comp_def]

theorem overlong_of_feeds {starts : Rid → Nat}
    (hno : ¬ ∀ f ∈ reqs.map fun r => e.feedOf (r, starts r), ∀ id ∈ f.ids, IsLong id) : e.Overlong reqs := by
  by_contra hall
  refine hno fun f hm id hid => ?_
  obtain ⟨r, hr, rfl⟩ := List.mem_map.mp hm
  rw [feedOf_ids] at hid
  by_contra hn
  exact hall ⟨r, hr, id, List.mem_of_mem_drop hid, hn⟩

theorem Rounds.aligned (h : Rounds target e b) (d : DraftRunner) :
    SpecEngine.misaligned { e with draft := d } (b.rows.map Row.rid) = none := by
  refine List.find?_eq_none.mpr fun r hr => ?_
  obtain ⟨hm, -, hcov⟩ := h.decodes hr
  obtain ⟨t, ht⟩ := Option.ne_none_iff_exists'.mp (h.sound.kv.held r (by simpa [Scheduler.pool] using hm)).cache
  have ht : (e.base.request r).cache = some t := ht
  simp only [Request.covered, ht] at hcov
  simp only [ht, Option.map_some, ne_eq, Option.some.injEq, decide_not, Bool.not_eq_true,
    Bool.not_eq_false', decide_eq_true_eq]
  omega

-- What the draft's tables hold in a round: of its requests all the tokens, of the others those the target has covered.
def roundTokens (e : SpecEngine) (reqs : List Rid) (r : Rid) : List Token :=
  if r ∈ reqs then (e.base.request r).tokens else (e.base.request r).tokens.take (e.base.request r).covered

theorem roundTokens_mem (hr : r ∈ reqs) : e.roundTokens reqs r = (e.base.request r).tokens := if_pos hr

theorem take_roundTokens (e : SpecEngine) (reqs : List Rid) (r : Rid) :
    (e.base.request r).tokens.take (e.base.request r).covered <+: e.roundTokens reqs r := by
  unfold roundTokens
  split
  · exact List.take_prefix _ _
  · exact List.prefix_rfl

section Started

variable {d d' : DraftRunner} {starts : Rid → Nat}

theorem Rounds.starts_lt (h : Rounds target e b) (hf : d.Follows e.base.scheduler)
    (ht : ∀ r ∈ b.rows.map Row.rid, d.tables r = some (d.tableOf r))
    (hS : Starts { e with draft := d } all (b.rows.map Row.rid) cap starts d') (hr : r ∈ b.rows.map Row.rid) :
    starts r + 1 ≤ (e.base.request r).seqLen := by
  have hle : starts r ≤ (d.tableOf r).numTokens := hS.le r hr
  have hlen := (hf.holds r _ (ht r hr)).1
  have hcov : (e.base.scheduler.reqs r).covered + 1 = (e.base.request r).seqLen := (h.decodes hr).2.2
  have hmin := Nat.min_le_left (e.base.scheduler.reqs r).covered (e.base.scheduler.reqs r).tokens.length
  rw [List.length_take] at hlen
  omega

theorem Starts.holds (hS : Starts { e with draft := d } all reqs cap starts d') (hf : d.Follows e.base.scheduler)
    (ht : ∀ r ∈ reqs, d.tables r = some (d.tableOf r)) : d'.Holds (e.roundTokens reqs) := by
  refine hf.holds.shrink hS.sized.blockSize hS.device fun r t ht' => .inr ?_
  have hpre := (List.take_prefix t.numTokens _).trans (take_roundTokens e reqs r)
  by_cases hr : r ∈ reqs
  · obtain rfl := Option.some.inj ((hS.table r hr).symm.trans ht')
    exact ⟨_, ht r hr, rfl, hS.le r hr, hpre⟩
  · exact ⟨t, (hS.other r hr).symm.trans ht', rfl, le_rfl, hpre⟩

theorem Rounds.starts_feed (h : Rounds target e b) (hv : Reserves e (b.rows.map Row.rid) s1)
    (hf : d.Follows e.base.scheduler) (ht : ∀ r ∈ b.rows.map Row.rid, d.tables r = some (d.tableOf r))
    (hS : Starts { e with draft := d } all (b.rows.map Row.rid) cap starts d') :
    ∀ f ∈ (b.rows.map Row.rid).map fun r => e.feedOf (r, starts r),
      d'.Feeds (fun r => (s1.reqs r).tableBlocks.length) (e.roundTokens (b.rows.map Row.rid)) f ∧ f.ids ≠ [] ∧
        f.start + f.ids.length = (e.roundTokens (b.rows.map Row.rid) f.rid).length ∧
        (e.roundTokens (b.rows.map Row.rid) f.rid).length + (e.gamma - 1) ≤
          (s1.reqs f.rid).tableBlocks.length * d'.allocator.blockSize := by
  intro f hm
  obtain ⟨r, hr, rfl⟩ := List.mem_map.mp hm
  have hbs : d'.allocator.blockSize = e.base.scheduler.kv.blockSize := hS.sized.blockSize.trans hf.blockSize
  have hroom := hv.room r hr
  have hlt := h.starts_lt hf ht hS hr
  have hlen : starts r + (e.feedOf (r, starts r)).ids.length = (e.base.request r).seqLen := by
    rw [feedOf_ids, List.length_drop, Request.tokens_length]
    omega
  have hlast : (e.roundTokens (b.rows.map Row.rid) r).length = (e.base.request r).seqLen := by
    rw [roundTokens_mem hr, Request.tokens_length]
  refine ⟨⟨⟨_, hS.table r hr, rfl⟩, ?_, ?_⟩, ?_, ?_, ?_⟩
  · show starts r + (e.feedOf (r, starts r)).ids.length ≤ (s1.reqs r).tableBlocks.length * _
    rw [hbs]
    omega
  · show (e.feedOf (r, starts r)).ids = ((e.roundTokens _ r).drop (starts r)).take (e.feedOf (r, starts r)).ids.length
    rw [roundTokens_mem hr, feedOf_ids, List.take_length]
  · exact List.length_pos_iff.mp (by omega)
  · exact hlen.trans hlast.symm
  · show (e.roundTokens _ r).length + _ ≤ (s1.reqs r).tableBlocks.length * _
    rw [hbs, hlast]
    omega

theorem proposals_primed {dm : DraftModel} (hfill : e.draftPrefill dm reqs = .ok { e with draft := d })
    (hmis : SpecEngine.misaligned { e with draft := d } reqs = none)
    (hstart : SpecEngine.firstStepStarts { e with draft := d } reqs = .ok (reqs.map starts, { e with draft := d' })) :
    e.proposals dm reqs = (d'.propose dm (reqs.map fun r => e.feedOf (r, starts r)) e.gamma).map
      fun x => (x.1, { e with draft := x.2 }) := by
  have hfeed : (reqs.zip (reqs.map starts)).map (SpecEngine.feedOf { e with draft := d' }) =
      reqs.map fun r => e.feedOf (r, starts r) := by
    rw [← List.map_prod_left_eq_zip, List.map_map]
    rfl
  simp only [SpecEngine.proposals, hfill, hmis, hstart, hfeed]
  cases d'.propose dm (reqs.map fun r => e.feedOf (r, starts r)) e.gamma <;> rfl

end Started

theorem Rounds.proposes (h : Rounds target e b) (hf : e.draft.Follows e.base.scheduler)
    (hv : Reserves e (b.rows.map Row.rid) s1) (dm : DraftModel) :
    (∃ err, e.proposals dm (b.rows.map Row.rid) = .error err ∧ e.Overlong (b.rows.map Row.rid)) ∨
      ∃ columns d', e.proposals dm (b.rows.map Row.rid) = .ok (columns, { e with draft := d' }) ∧
        Proposed e (b.rows.map Row.rid) (fun r => (s1.reqs r).tableBlocks.length) columns d' := by
  set reqs := b.rows.map Row.rid with hreqs
  rcases draftPrefill_follows hf h.sound h.tree h.batch.nodup
    (fun r hr => ⟨(h.decodes hr).1, (h.decodes hr).2.1.1⟩) dm with ⟨err, h1, hbad⟩ | ⟨d1, h1, hf1, hp1⟩
  · exact .inl ⟨err, by simp only [SpecEngine.proposals, show e.draftPrefill dm reqs = .error err from h1], hbad⟩
  have htab1 : ∀ r ∈ reqs, d1.tables r = some (d1.tableOf r) := fun r hr => by
    obtain ⟨t, -, ht, -⟩ := hp1.table r hr
    rw [ht, DraftRunner.tableOf_eq ht]
  have hc1 := (hf1.capped h.sound h.tree).mono (fun r _ => hv.le r) (by rw [hf1.numBlocks]; exact hv.fits)
  obtain ⟨starts, d2, h2, hS⟩ := firstStepStarts_ok (e := { e with draft := d1 }) hc1 h.batch.nodup
    fun r hr => ⟨_, htab1 r hr⟩
  have heq := proposals_primed h1 (h.aligned d1) h2
  by_cases hlong : ∀ f ∈ reqs.map fun r => e.feedOf (r, starts r), ∀ id ∈ f.ids, IsLong id
  swap
  · left
    cases h3 : d2.propose dm (reqs.map fun r => e.feedOf (r, starts r)) e.gamma with
    | ok x => exact absurd (DraftRunner.propose_longs h3) hlong
    | error err => exact ⟨err, by rw [heq, h3]; rfl, overlong_of_feeds hlong⟩
  right
  obtain ⟨columns, d3, h3, hc3, hP, hh3, hend, -⟩ := hS.capped.propose e.gamma (hS.holds hf1 htab1)
    (by rw [feeds_rid]; exact h.batch.nodup) (h.starts_feed hv hf1 htab1 hS) hlong dm
  rw [feeds_rid] at hh3
  have hwas : ∀ r t, d3.tables r = some t → ∃ t', d2.tables r = some t' := by
    intro r t ht
    cases h0 : d2.tables r with
    | some t' => exact ⟨t', rfl⟩
    | none =>
      rw [hP.none r h0] at ht
      simp at ht
  refine ⟨columns, d3, by rw [heq, h3]; rfl, hc3, (hp1.sized.trans hS.sized).trans hP.sized, ?_, fun r t ht => ?_,
    fun r hr => ?_, fun r t hr ht h0 => ?_⟩
  · refine Eq.mp (congrArg d3.Holds (funext fun r => ?_)) hh3
    by_cases hr : r ∈ reqs
    · rw [DraftRunner.stretch_mem hr, roundTokens_mem hr, if_pos hr]
      rfl
    · rw [DraftRunner.stretch, if_neg hr, if_neg hr]
      exact if_neg hr
  · by_cases hr : r ∈ reqs
    · exact (h.decodes hr).2.1.1
    · obtain ⟨t', ht'⟩ := hwas r t ht
      exact (hf1.running r t' ((hS.other r hr).symm.trans ht')).2
  · obtain ⟨t, ht, hle⟩ := hend (e.feedOf (r, starts r)) (List.mem_map_of_mem hr)
    refine ⟨t, ht, ?_⟩
    rw [show (e.feedOf (r, starts r)).rid = r from rfl, roundTokens_mem hr, Request.tokens_length] at hle
    exact hle
  · obtain ⟨t', ht'⟩ := hwas r t ht
    obtain ⟨t'', n, ht'', hg⟩ := hP.grown r t' ht'
    obtain rfl := Option.some.inj (ht.symm.trans ht'')
    exact hg.fresh d2.allocator.blockSize_pos (hf1.fresh r t' ((hS.other r hr).symm.trans ht')) h0

end Propose

end SpecEngine

end MiniServe
