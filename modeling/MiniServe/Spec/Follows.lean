import MiniServe.Engine.Tables
import MiniServe.Spec.DraftPrefill
import MiniServe.Spec.DraftRound
import MiniServe.Spec.Output

namespace MiniServe

open KVCacheManager Pool

structure Request.Onward (q q' : Request) : Prop where
  state : q'.state = .decode
  blocks : q.tableBlocks.length ≤ q'.tableBlocks.length
  tokens : q.tokens.take q.covered <+: q'.tokens.take q'.covered

theorem Request.Onward.refl {q : Request} (h : q.state = .decode) : q.Onward q := ⟨h, le_rfl, List.prefix_refl _⟩

namespace DraftRunner

variable {d d' : DraftRunner} {s s' : Scheduler} {older : List Entry} {r : Rid} {t : BlockTable}

-- The draft against the target: a table only for a request that decodes, over the tokens the target's table covers
-- and in no more blocks.
structure Follows (d : DraftRunner) (s : Scheduler) : Prop where
  sound : ∃ live, d.Sound live
  numBlocks : d.allocator.numBlocks = s.kv.allocator.numBlocks
  blockSize : d.allocator.blockSize = s.kv.blockSize
  maxPrefillTokens : 1 ≤ d.maxPrefillTokens
  running : ∀ r t, d.tables r = some t → r ∈ s.running ∧ (s.reqs r).state = .decode
  blocks : ∀ r t, d.tables r = some t → t.blocks.length ≤ (s.reqs r).tableBlocks.length
  holds : d.Holds fun r => (s.reqs r).tokens.take (s.reqs r).covered
  fresh : ∀ r t, d.tables r = some t → t.numTokens = 0 → t.blocks = []

theorem Follows.target (h : d.Follows s) (hsame : Scheduler.Same s s')
    (ht : ∀ r t, d.tables r = some t → r ∈ s'.running ∧ (s.reqs r).Onward (s'.reqs r)) : d.Follows s' where
  sound := h.sound
  numBlocks := h.numBlocks.trans hsame.numBlocks.symm
  blockSize := h.blockSize.trans hsame.blockSize.symm
  maxPrefillTokens := h.maxPrefillTokens
  running := fun r t hr => ⟨(ht r t hr).1, (ht r t hr).2.state⟩
  blocks := fun r t hr => (h.blocks r t hr).trans (ht r t hr).2.blocks
  holds := h.holds.shrink rfl rfl fun r t hr =>
    .inr ⟨t, hr, rfl, le_rfl, (List.take_prefix _ _).trans (ht r t hr).2.tokens⟩
  fresh := h.fresh

theorem Follows.sub (h : d.Follows s) (hs : ∃ live, d'.Sound live) (hsz : Sized d d') (hd : d'.device = d.device)
    (ht : ∀ r t, d'.tables r = some t → d.tables r = some t) : d'.Follows s where
  sound := hs
  numBlocks := hsz.numBlocks.trans h.numBlocks
  blockSize := hsz.blockSize.trans h.blockSize
  maxPrefillTokens := hsz.maxPrefillTokens ▸ h.maxPrefillTokens
  running := fun r t hr => h.running r t (ht r t hr)
  blocks := fun r t hr => h.blocks r t (ht r t hr)
  holds := h.holds.shrink hsz.blockSize hd fun r t hr => .inr ⟨t, ht r t hr, rfl, le_rfl, List.take_prefix _ _⟩
  fresh := fun r t hr => h.fresh r t (ht r t hr)

theorem Follows.capped (h : d.Follows s) (hs : (s.pool [] older).Sound) (ht : s.kv.tree = none) :
    d.Capped s.running fun r => (s.reqs r).tableBlocks.length := by
  have hfit := hs.kv.tables_fit ht
  have hnd := hs.kv.nodup
  simp only [Scheduler.pool, List.append_nil] at hfit hnd
  exact ⟨h.sound, fun r t hr => (h.running r t hr).1, hnd, h.blocks, by rw [h.numBlocks]; exact hfit⟩

end DraftRunner

namespace SpecEngine

variable {e e' : SpecEngine} {s : Scheduler} {older : List Entry} {r : Rid} {target : Target} {dm : DraftModel}

section Release

theorem release_follows (h : e.draft.Follows s) (hs : (s.pool [] older).Sound) (ht : s.kv.tree = none) (r : Rid) :
    ∃ d', e.releaseDraft r = .ok { e with draft := d' } ∧ d'.Follows s ∧ d'.packed = e.draft.packed ∧
      ∀ x, d'.tables x = if x = r then none else e.draft.tables x := by
  obtain ⟨a, hrel, hc, hsz⟩ := (h.capped hs ht).release r
  have htab : ∀ x, (e.draft.put r none a).tables x = if x = r then none else e.draft.tables x := by
    intro x
    split
    · next hx =>
      subst hx
      exact DraftRunner.put_tables_self _ _
    · next hx => exact DraftRunner.put_tables_ne _ _ hx
  refine ⟨_, by simp only [releaseDraft, hrel], h.sub hc.sound hsz rfl fun x t hx => ?_, rfl, htab⟩
  rw [htab] at hx
  split at hx
  · simp at hx
  · exact hx

theorem releaseDrafts_follows {l : List Rid} (h : e.draft.Follows s) (hs : (s.pool [] older).Sound)
    (ht : s.kv.tree = none) :
    ∃ d', releaseDrafts l e = .ok { e with draft := d' } ∧ d'.Follows s ∧ d'.packed = e.draft.packed ∧
      ∀ x, d'.tables x = if x ∈ l then none else e.draft.tables x := by
  induction l generalizing e with
  | nil => exact ⟨e.draft, rfl, h, rfl, fun x => by simp⟩
  | cons r l ih =>
    obtain ⟨d1, h1, hf1, hp1, ht1⟩ := release_follows h hs ht r
    obtain ⟨d2, h2, hf2, hp2, ht2⟩ := ih (e := { e with draft := d1 }) hf1
    refine ⟨d2, by simp only [releaseDrafts, h1, h2], hf2, hp2.trans hp1, fun x => ?_⟩
    rw [ht2]
    by_cases hx : x ∈ l
    · rw [if_pos hx, if_pos (List.mem_cons_of_mem _ hx)]
    · rw [if_neg hx, show ({ e with draft := d1 } : SpecEngine).draft.tables x = _ from ht1 x]
      simp [hx]

end Release

section Prefill

variable {d d' : DraftRunner} {all reqs : List Rid} {cap : Rid → Nat} {toks : Rid → List Token}

def admitAll (d : DraftRunner) (reqs : List Rid) : DraftRunner :=
  { d with tables := fun x => if x ∈ reqs then some (d.tableOf x) else d.tables x }

theorem admitAll_tableOf (d : DraftRunner) (reqs : List Rid) (r : Rid) : (admitAll d reqs).tableOf r = d.tableOf r := by
  simp only [DraftRunner.tableOf, admitAll]
  split <;> rfl

theorem draftTodo_ok (e : SpecEngine) (h : d.Capped all cap) (hreqs : ∀ r ∈ reqs, r ∈ all) :
    e.draftTodo reqs d = .ok ((reqs.filter fun r => (d.tableOf r).numTokens = 0 ∧ 1 < (e.base.request r).seqLen).map
        fun r => (r, (e.base.request r).tokenSlice 0 ((e.base.request r).seqLen - 1)), admitAll d reqs) ∧
      (admitAll d reqs).Capped all cap := by
  induction reqs generalizing d with
  | nil =>
    have hd : admitAll d [] = d := by simp [admitAll]
    rw [hd]
    exact ⟨rfl, h⟩
  | cons r reqs ih =>
    let d1 := admitAll d [r]
    have hadmitted : (if (d.tables r).isSome then Except.ok d else d.admitRid r) = .ok d1 ∧ d1.Capped all cap := by
      cases ht : d.tables r with
      | some t =>
        have hd : d1 = d := by
          have : (fun x => if x ∈ [r] then some (d.tableOf x) else d.tables x) = d.tables := by
            funext x
            by_cases hx : x = r
            · subst hx
              simp [DraftRunner.tableOf_eq ht, ht]
            · simp [hx]
          simp only [d1, admitAll, this]
        rw [hd]
        exact ⟨rfl, h⟩
      | none =>
        have hd : d1 = d.put r (some .empty) d.allocator := by
          have : (fun x => if x ∈ [r] then some (d.tableOf x) else d.tables x) =
              Function.update d.tables r (some .empty) := by
            funext x
            by_cases hx : x = r
            · subst hx
              simp [DraftRunner.tableOf, ht]
            · simp [hx]
          simp only [d1, admitAll, this, DraftRunner.put]
        rw [hd]
        exact ⟨by simp [DraftRunner.admitRid, ht], h.admit (hreqs r List.mem_cons_self) ht⟩
    have htab : d1.covered r = .ok (d.tableOf r).numTokens := by
      simp [DraftRunner.covered, DraftRunner.table, d1, admitAll]
    have hall : admitAll d1 reqs = admitAll d (r :: reqs) := by
      simp only [admitAll]
      congr 1
      funext x
      rw [admitAll_tableOf]
      by_cases hx : x ∈ reqs
      · simp [hx]
      · by_cases hxr : x = r <;> simp [d1, admitAll, hx, hxr]
    obtain ⟨h1, h2⟩ := ih hadmitted.2 fun x hx => hreqs x (List.mem_cons_of_mem _ hx)
    rw [hall] at h1 h2
    refine ⟨?_, h2⟩
    unfold draftTodo
    rw [hadmitted.1]
    have htabs : ∀ x, d1.tableOf x = d.tableOf x := admitAll_tableOf d [r]
    simp only [htab, h1, htabs, List.filter_cons, decide_eq_true_eq]
    split <;> rfl

structure Prefilled (d d' : DraftRunner) (reqs : List Rid) : Prop where
  sized : DraftRunner.Sized d d'
  packs : DraftRunner.Packs d d'
  other : ∀ x, x ∉ reqs → d'.tables x = d.tables x
  table : ∀ r ∈ reqs, ∃ t n, d'.tables r = some t ∧ (d.tableOf r).Grown d.allocator.blockSize n t
  kept : ∀ r ∈ reqs, d'.tableOf r = d.tableOf r ∨
    (d.tableOf r).blocks = [] ∧ (d'.tableOf r).Trim d.allocator.blockSize

def Overlong (e : SpecEngine) (reqs : List Rid) : Prop := ∃ r ∈ reqs, ∃ id ∈ (e.base.request r).tokens, ¬ IsLong id

theorem draftPrefill_ok (e : SpecEngine) (h : e.draft.Capped all cap) (hh : e.draft.Holds toks)
    (hpos : 1 ≤ e.draft.maxPrefillTokens) (hfresh : ∀ r t, e.draft.tables r = some t → t.numTokens = 0 → t.blocks = [])
    (hnd : reqs.Nodup) (hreqs : ∀ r ∈ reqs, r ∈ all ∧
      (e.base.request r).seqLen - 1 ≤ cap r * e.draft.allocator.blockSize ∧
      toks r = (e.base.request r).tokens.take ((e.base.request r).seqLen - 1)) (dm : DraftModel) :
    (∃ err, e.draftPrefill dm reqs = .error err ∧ e.Overlong reqs) ∨
      ∃ d', e.draftPrefill dm reqs = .ok { e with draft := d' } ∧ d'.Capped all cap ∧ d'.Holds toks ∧
        Prefilled e.draft d' reqs := by
  obtain ⟨htodo, hc⟩ := draftTodo_ok e h fun r hr => (hreqs r hr).1
  have htab : ∀ r ∈ reqs, (admitAll e.draft reqs).tables r = some (e.draft.tableOf r) :=
    fun r hr => by simp [admitAll, hr]
  have hempty : ∀ r, (e.draft.tableOf r).numTokens = 0 → (e.draft.tableOf r).blocks = [] := by
    intro r hn
    cases ht : e.draft.tables r with
    | none => simp [DraftRunner.tableOf, ht, BlockTable.empty]
    | some t =>
      rw [DraftRunner.tableOf_eq ht] at hn ⊢
      exact hfresh r t ht hn
  have hholds : (admitAll e.draft reqs).Holds toks := hh.shrink rfl rfl fun r t ht => by
    cases hd : e.draft.tables r with
    | none =>
      refine .inl ?_
      simp only [admitAll, DraftRunner.tableOf, hd, Option.getD_none] at ht
      split at ht
      · rw [← Option.some.inj ht]
        rfl
      · simp at ht
    | some t' =>
      have : t' = t := by
        simp only [admitAll, DraftRunner.tableOf, hd, Option.getD_some, ite_self] at ht
        exact Option.some.inj ht
      exact .inr ⟨t', rfl, congrArg _ this.symm, (congrArg _ this.symm).le, List.take_prefix _ _⟩
  set items := (reqs.filter fun r => (e.draft.tableOf r).numTokens = 0 ∧ 1 < (e.base.request r).seqLen).map
    fun r => (r, (e.base.request r).tokenSlice 0 ((e.base.request r).seqLen - 1)) with hitems
  have hrids : items.map Prod.fst =
      reqs.filter fun r => (e.draft.tableOf r).numTokens = 0 ∧ 1 < (e.base.request r).seqLen := by
    simp [hitems, Function.comp_def]
  have hitem : ∀ r, r ∈ items.map Prod.fst → r ∈ reqs ∧ (e.draft.tableOf r).numTokens = 0 := by
    intro r hr
    rw [hrids, List.mem_filter, decide_eq_true_eq] at hr
    exact ⟨hr.1, hr.2.1⟩
  have htrim : ∀ r, (e.draft.tableOf r).numTokens = 0 → (e.draft.tableOf r).Trim e.draft.allocator.blockSize := by
    intro r hn
    have := e.draft.allocator.blockSize_pos
    rw [BlockTable.Trim, hempty r hn]
    simpa using Nat.lt_of_lt_of_le this (Nat.le_add_left _ _)
  have htables : ∀ x ∈ items, ∃ t, (admitAll e.draft reqs).tables x.1 = some t ∧ t.numTokens = 0 := by
    intro x hx
    obtain ⟨hm, hn⟩ := hitem x.1 (List.mem_map_of_mem hx)
    exact ⟨_, htab x.1 hm, hn⟩
  by_cases hlong : ∀ x ∈ items, ∀ id ∈ x.2, IsLong id
  swap
  · left
    cases hpre : (admitAll e.draft reqs).prefill dm items with
    | ok d' =>
      exact absurd
        (DraftRunner.prefill_longs (d := admitAll e.draft reqs) hpos (hrids ▸ hnd.filter _) htables hpre) hlong
    | error err =>
      refine ⟨err, by simp only [draftPrefill, htodo, hpre], ?_⟩
      by_contra hall
      refine hlong fun x hx id hid => ?_
      obtain ⟨r, hr, rfl⟩ := List.mem_map.mp hx
      by_contra hn
      have hid : id ∈ (e.base.request r).tokenSlice 0 ((e.base.request r).seqLen - 1) := hid
      rw [Request.tokenSlice_eq] at hid
      exact hall ⟨r, (hitem r (List.mem_map_of_mem hx)).1, id, List.mem_of_mem_drop (List.mem_of_mem_take hid), hn⟩
  right
  obtain ⟨d', h1, h2, h3, hP, hK, hother⟩ := hc.prefill hholds hpos (hrids ▸ hnd.filter _) (fun x hx => by
    obtain ⟨r, hr, rfl⟩ := List.mem_map.mp hx
    obtain ⟨hm, hn⟩ := hitem r (List.mem_map_of_mem hx)
    obtain ⟨-, hfits, htoks⟩ := hreqs r hm
    have hslice : (e.base.request r).tokenSlice 0 ((e.base.request r).seqLen - 1) = toks r := by
      rw [Request.tokenSlice_eq, List.drop_zero, htoks]
    refine ⟨⟨_, htab r hm, hn, htrim r hn⟩, ?_, ?_, hlong _ hx⟩
    · show ((e.base.request r).tokenSlice 0 _).length ≤ _
      rw [hslice, htoks, List.length_take]
      exact (Nat.min_le_left _ _).trans hfits
    · show (e.base.request r).tokenSlice 0 _ = (toks r).take _
      rw [hslice, List.take_length]) dm
  refine ⟨d', by simp only [draftPrefill, htodo, h1], h2, h3, ⟨hP.sized.numBlocks, hP.sized.blockSize,
    hP.sized.maxPrefillTokens, hP.sized.firstGraphs⟩, hK, fun x hx => ?_, fun r hr => ?_, fun r hr => ?_⟩
  · rw [hother x fun hm => hx (hitem x hm).1]
    simp [admitAll, hx]
  · obtain ⟨t, n, ht, hg⟩ := hP.grown r _ (htab r hr)
    exact ⟨t, n, ht, hg⟩
  · by_cases hm : r ∈ items.map Prod.fst
    · obtain ⟨t, n, ht, hg⟩ := hP.grown r _ (htab r hr)
      have hn := (hitem r hm).2
      refine .inr ⟨hempty r hn, ?_⟩
      rw [DraftRunner.tableOf_eq ht]
      exact hg.keeps_trim e.draft.allocator.blockSize_pos (htrim r hn)
    · exact .inl (DraftRunner.tableOf_eq ((hother r hm).trans (htab r hr)))

end Prefill

end SpecEngine

end MiniServe
