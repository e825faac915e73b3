import MiniServe.Spec.Pass

namespace MiniServe

open KVCacheManager Generate Pool

namespace DraftRunner

variable (d : DraftRunner)

def conclude (r : Rid) : Option Nat → Except Error DraftRunner
  | none => d.release r
  | some n => d.rewindTo r n

def concludeAll : List (Rid × Option Nat) → DraftRunner → Except Error DraftRunner
  | [], d => .ok d
  | (r, mark) :: rest, d =>
    match d.conclude r mark with
    | .error err => .error err
    | .ok d => concludeAll rest d

end DraftRunner

namespace SpecEngine

variable {e : SpecEngine} {model : Model} {d : Device} {p p' : Pool} {row : Row} {rest : List Row}
  {proposals chosen : List Token} {tb : BlockTable}

structure Due (model : Model) (d : Device) (p : Pool) (row : Row) (proposals chosen : List Token) : Prop where
  judged : ∃ tb, Judged p row tb
  len : row.len = proposals.length + 1
  fed : Judged.Fed d p row ((p.reqs row.rid).outputIds.getLast?.getD 0 :: proposals)
  chooses : Chooses (model.nextAfter (p.reqs row.rid)) (p.reqs row.rid).outputIds proposals chosen

theorem Due.other (h : Due model d p row proposals chosen) (hs : p'.Sound) (hm : row ∈ p'.opened)
    (hreq : p'.reqs row.rid = p.reqs row.rid) (htree : p'.kv.tree = none) (hbs : p'.kv.blockSize = p.kv.blockSize) :
    Due model d p' row proposals chosen := by
  obtain ⟨tb, hj⟩ := h.judged
  refine ⟨⟨tb, hs, hm, htree, ?_, ?_, ?_⟩, h.len, fun i hi => ?_, ?_⟩
  · rw [hreq]; exact hj.state
  · rw [hreq]; exact hj.settled
  · rw [hreq]; exact hj.cache
  · have := h.fed i hi
    simp only [rowSlot, hreq, hbs] at this ⊢
    exact this
  · rw [hreq]; exact h.chooses

-- What a round does to one of its requests: it gains the tokens `new`, and either ends or keeps its table,
-- rewound to all of its tokens but the last.
structure Verdict (q q' : Request) (row : Row) (proposals new : List Token) (mark : Option Nat) : Prop where
  outputIds : q'.outputIds = q.outputIds ++ new
  alike : Alike q q'
  pos : 1 ≤ new.length
  le : new.length ≤ proposals.length + 1
  proposed : ∀ j, j + 1 < new.length → new[j]? = proposals[j]?
  ended : mark = none → q'.state = .finished
  going : ∀ n, mark = some n → q'.state = .decode ∧ n + 1 = q'.seqLen ∧ n = row.start + new.length ∧
    ∃ tb, q.cache = some tb ∧ q'.cache = some { tb with numTokens := n }

structure Judges (b b' : Engine) (rids : List Rid) : Prop where
  same : Scheduler.Same b.scheduler b'.scheduler
  running : b'.scheduler.running.Sublist b.scheduler.running
  waiting : b'.scheduler.waiting = b.scheduler.waiting
  requests : b.requests.Perm (b.scheduler.running ++ b.scheduler.waiting) →
    b'.requests.Perm (b'.scheduler.running ++ b'.scheduler.waiting)
  other : ∀ x, x ∉ rids → b'.scheduler.reqs x = b.scheduler.reqs x
  stays : ∀ x ∈ b.scheduler.running, (x ∈ rids → (b'.scheduler.reqs x).state ≠ .finished) → x ∈ b'.scheduler.running
  overlap : b'.overlap = b.overlap
  nextRid : b'.nextRid = b.nextRid
  inflight : b'.inflight = b.inflight
  device : b'.device = b.device

theorem Due.new_nonneg {new : List Token} (h : Judged p row tb) (hc : Content model d none p)
    (hround : RoundTokens (model.nextAfter (p.reqs row.rid)) (p.reqs row.rid).outputIds proposals new) :
    placeholder ∉ new := by
  intro hm
  have hstream := hround.stream _ (h.told hc).1
  obtain ⟨l, hl⟩ := mem_stream (hstream ▸ List.mem_append_right _ hm)
  have := model.next_nonneg (cellsOf ((p.reqs row.rid).promptIds ++ l)) (p.reqs row.rid).params (p.reqs row.rid).seed
    ((p.reqs row.rid).promptIds.length + l.length)
  rw [show model.next _ _ _ _ = placeholder from hl.symm] at this
  exact absurd this (by decide)

theorem settle_of_accepted {new : List Token} (hacc : acceptedTokens proposals chosen = .ok new) (r : Rid) :
    e.settle r proposals chosen =
      (let q := e.base.request r
      let kept := new.take (keptTokens q new).1
      if (keptTokens q new).2 = true ∨ q.params.maxNewTokens ≤ q.outputIds.length + kept.length then
        match (q.gained kept).transition .finished with
        | .error err => .error err
        | .ok q => SpecEngine.retire { e with base := { e.base with scheduler := e.base.scheduler.set r q } } r
      else
        match q.cache with
        | none => .error (.noCache r)
        | some t =>
          match t.rewind ((proposals.length : Int) + 1 - (keptTokens q new).1) with
          | (.error err, _) => .error err
          | (.ok (), t) =>
            match e.draft.rewindTo r ((q.gained kept).seqLen - 1) with
            | .error err => .error err
            | .ok d => .ok { e with
                base := { e.base with scheduler := e.base.scheduler.set r { q.gained kept with cache := some t } }
                draft := d }) := by
  simp only [settle, hacc, ← List.length_append]
  rfl

structure Drawn (model : Model) (e : SpecEngine) (row : Row) (rest : List Row) (proposals chosen new : List Token)
    (mark : Option Nat) (base' : Engine) : Prop where
  eq : ∀ draft, SpecEngine.settle { e with draft := draft } row.rid proposals chosen =
    match draft.conclude row.rid mark with
    | .error err => .error err
    | .ok draft => .ok { e with base := base', draft := draft }
  verdict : Verdict (e.base.request row.rid) (base'.request row.rid) row proposals new mark
  judges : Judges e.base base' [row.rid]
  sound : (base'.scheduler.openPool rest [] []).Sound
  content : Content model base'.device none (base'.scheduler.openPool rest [] [])

theorem settle_goes {new : List Token} (hacc : acceptedTokens proposals chosen = .ok new)
    (hdue : Due model e.base.device (e.base.scheduler.openPool (row :: rest) [] []) row proposals chosen)
    (hround : RoundTokens (model.nextAfter (e.base.request row.rid)) (e.base.request row.rid).outputIds proposals new)
    (hc : Content model e.base.device none (e.base.scheduler.openPool (row :: rest) [] []))
    (hgo : ¬ ((keptTokens (e.base.request row.rid) new).2 = true ∨ (e.base.request row.rid).params.maxNewTokens ≤
      (e.base.request row.rid).outputIds.length + (keptTokens (e.base.request row.rid) new).1)) :
    ∃ new mark base', Drawn model e row rest proposals chosen new mark base' := by
  obtain ⟨tb, hj⟩ := hdue.judged
  obtain ⟨hl, hcov, hseq, hroom, hne⟩ := hj.facts
  have hcache : (e.base.request row.rid).cache = some tb := hj.cache
  have hseq : row.start + 1 = (e.base.request row.rid).seqLen := hseq
  have hkeeps : Keeps (e.base.request row.rid) new _ _ := keptTokens_keeps hround.pos hroom
  let keep := (keptTokens (e.base.request row.rid) new).1
  let kept := new.take keep
  have hkept : kept.length = keep := hkeeps.take_length
  obtain ⟨hfew, hclean⟩ := hkeeps.goes hgo
  have hround' : RoundTokens _ _ proposals kept := hround.take hkeeps.pos hkeeps.le
  have hlen := hdue.len
  have hle := hround'.le
  let tb' : BlockTable := { tb with numTokens := row.start + kept.length }
  let q' : Request := { (e.base.request row.rid).gained kept with cache := some tb' }
  let base' : Engine := { e.base with scheduler := e.base.scheduler.set row.rid q' }
  have hpool : base'.scheduler.openPool rest [] [] =
      Judged.accept (e.base.scheduler.openPool (row :: rest) [] []) row rest tb kept := rfl
  have hself : base'.request row.rid = q' := Function.update_self ..
  have hgain : ((e.base.request row.rid).gained kept).seqLen = row.start + kept.length + 1 := by
    rw [Request.gained_seqLen]
    omega
  refine ⟨kept, some (row.start + kept.length), base', fun draft => ?_, ?_, ?_, ?_, ?_⟩
  · have hrew : tb.rewind ((proposals.length : Int) + 1 - keep) = (.ok (), tb') := by
      have hn : 0 ≤ (proposals.length : Int) + 1 - keep ∧ (proposals.length : Int) + 1 - keep ≤ tb.numTokens := by omega
      simp only [BlockTable.rewind, hn, and_self, if_true, tb']
      congr 2
      omega
    rw [settle_of_accepted hacc]
    simp only
    rw [if_neg (by rw [hkeeps.take_length]; exact hgo), hcache]
    simp only
    rw [hrew]
    simp only
    rw [show ((e.base.request row.rid).gained
      (new.take (keptTokens (e.base.request row.rid) new).1)).seqLen = _ from hgain,
      Nat.add_sub_cancel]
    rfl
  · rw [hself]
    refine ⟨rfl, ⟨rfl, rfl, rfl⟩, hround'.pos, hle, hround'.proposed, by simp, fun n hn => ?_⟩
    obtain rfl := Option.some.inj hn
    exact ⟨hj.state, hgain.symm, rfl, tb, hcache, rfl⟩
  · refine ⟨⟨rfl, rfl, rfl, rfl, rfl, rfl, rfl, rfl⟩, List.Sublist.refl _, rfl, id, fun x hx => ?_,
      fun x hx _ => hx, rfl, rfl,
      rfl, rfl⟩
    exact Function.update_of_ne (by simpa using hx) _ _
  · rw [hpool]
    exact hj.accept_sound rfl hround'.pos (by omega) hfew (Due.new_nonneg hj hc hround')
  · rw [hpool]
    exact hj.accept_content rfl hc hround' hdue.fed (by omega) hfew hclean

theorem settle_ends {new : List Token} (hacc : acceptedTokens proposals chosen = .ok new)
    (hdue : Due model e.base.device (e.base.scheduler.openPool (row :: rest) [] []) row proposals chosen)
    (hround : RoundTokens (model.nextAfter (e.base.request row.rid)) (e.base.request row.rid).outputIds proposals new)
    (hc : Content model e.base.device none (e.base.scheduler.openPool (row :: rest) [] []))
    (hreq : e.base.requests.Perm (e.base.scheduler.running ++ e.base.scheduler.waiting))
    (hend : (keptTokens (e.base.request row.rid) new).2 = true ∨ (e.base.request row.rid).params.maxNewTokens ≤
      (e.base.request row.rid).outputIds.length + (keptTokens (e.base.request row.rid) new).1) :
    ∃ new mark base', Drawn model e row rest proposals chosen new mark base' := by
  obtain ⟨tb, hj⟩ := hdue.judged
  obtain ⟨hl, -, -, hroom, -⟩ := hj.facts
  have hrun : row.rid ∈ e.base.scheduler.running := by simpa [Scheduler.openPool, Scheduler.pool] using hl
  have htree : e.base.scheduler.kv.tree = none := hj.tree
  have hkeeps : Keeps (e.base.request row.rid) new _ _ := keptTokens_keeps hround.pos hroom
  let kept := new.take (keptTokens (e.base.request row.rid) new).1
  have hround' : RoundTokens _ _ proposals kept := hround.take hkeeps.pos hkeeps.le
  let q' : Request := { (e.base.request row.rid).gained kept with state := .finished }
  have hpend : q'.numPending = 0 := hj.settled
  obtain ⟨kv', hret, hleaves, hsame⟩ :=
    Engine.retire_ok (q := q') hj.sound (.inl hrun) hreq (.inl rfl) rfl rfl fun _ => by
    refine ⟨fun h => by simp [htree] at h, ?_⟩
    rw [show e.base.scheduler.kv.nodeTokens _ = [] from
      nodeTokens_none (p := e.base.scheduler.openPool [] [] []) htree _]
    exact List.nil_prefix
  rw [Request.dropPending_of_none hpend] at hret hleaves hsame
  let base' : Engine := { e.base with
    scheduler := Engine.left e.base.scheduler row.rid kv' q', requests := e.base.requests.erase row.rid }
  have hpool : base'.scheduler.openPool rest [] [] =
      Judged.finish (e.base.scheduler.openPool (row :: rest) [] []) row rest kept kv' := by
    simp [base', Engine.left, Judged.finish, Scheduler.openPool, Scheduler.pool, Pool.leave,
      Pool.put, q', Engine.request]
  have hself : base'.request row.rid = q'.dropped := Function.update_self ..
  have hkeep := Engine.Kept.left hj.sound (.inl hrun) hsame
  refine ⟨kept, none, base', fun draft => ?_, ?_, ?_, ?_, ?_⟩
  · have htr : ((e.base.request row.rid).gained kept).transition .finished = .ok q' := by
      refine Request.transition_ok ?_
      rw [show ((e.base.request row.rid).gained kept).state = .decode from hj.state]
      decide
    rw [settle_of_accepted hacc]
    simp only
    rw [if_pos (by rw [hkeeps.take_length]; exact hend), htr]
    simp only [SpecEngine.retire, releaseDraft, DraftRunner.conclude]
    cases draft.release row.rid with
    | error err => rfl
    | ok draft =>
      simp only
      rw [hret]
  · rw [hself]
    exact ⟨rfl, ⟨rfl, rfl, rfl⟩, hround'.pos, hround'.le, hround'.proposed, fun _ => rfl, by simp⟩
  · refine ⟨hsame, hkeep.running, ?_, hkeep.requests, fun x hx => ?_, fun x hx hst => ?_, rfl, rfl, rfl, rfl⟩
    · refine List.erase_of_not_mem fun hw => ?_
      exact hj.sound.not_mem_live (by simpa [Scheduler.openPool, Scheduler.pool] using hw) hl
    · exact Function.update_of_ne (by simpa using hx) _ _
    · refine (List.mem_erase_of_ne ?_).mpr hx
      rintro rfl
      exact hst (List.mem_singleton_self _) (congrArg Request.state hself)
  · rw [hpool]
    exact hj.finish_sound rfl hleaves
  · rw [hpool]
    obtain ⟨pre, tok, hnew, hpre, hfew, hlast⟩ := hkeeps.ends hend
    have hkn : kept = pre ++ [tok] := hnew
    rw [hkn] at hround' ⊢
    refine hj.finish_content rfl hc hround' hfew hpre hlast ?_
    rw [← hkn]
    exact hleaves

theorem settle_draws (hdue :
    Due model e.base.device (e.base.scheduler.openPool (row :: rest) [] []) row proposals chosen)
    (hc : Content model e.base.device none (e.base.scheduler.openPool (row :: rest) [] []))
    (hreq : e.base.requests.Perm (e.base.scheduler.running ++ e.base.scheduler.waiting)) :
    ∃ new mark base', Drawn model e row rest proposals chosen new mark base' := by
  obtain ⟨new, hacc, hround⟩ := acceptedTokens_ok hdue.chooses
  by_cases hend : (keptTokens (e.base.request row.rid) new).2 = true ∨ (e.base.request row.rid).params.maxNewTokens ≤
      (e.base.request row.rid).outputIds.length + (keptTokens (e.base.request row.rid) new).1
  · exact settle_ends hacc hdue hround hc hreq hend
  · exact settle_goes hacc hdue hround hc hend

theorem Judges.refl (b : Engine) : Judges b b [] :=
  ⟨Scheduler.Same.refl _, List.Sublist.refl _, rfl, id, fun _ _ => rfl, fun _ hx _ => hx, rfl, rfl, rfl, rfl⟩

theorem Judges.cons {b b' b'' : Engine} {r : Rid} {rids : List Rid} (h1 : Judges b b' [r]) (h2 : Judges b' b'' rids)
    (hr : r ∉ rids) : Judges b b'' (r :: rids) where
  same := h1.same.trans h2.same
  running := h2.running.trans h1.running
  waiting := h2.waiting.trans h1.waiting
  requests := fun h => h2.requests (h1.requests h)
  other := fun x hx => by
    rw [List.mem_cons, not_or] at hx
    rw [h2.other x hx.2, h1.other x (by simpa using hx.1)]
  stays := fun x hx hst => by
    refine h2.stays x (h1.stays x hx fun hxr hfin => ?_) fun hx => hst (List.mem_cons_of_mem _ hx)
    obtain rfl := List.mem_singleton.mp hxr
    refine hst List.mem_cons_self ?_
    rw [h2.other x hr]
    exact hfin
  overlap := h2.overlap.trans h1.overlap
  nextRid := h2.nextRid.trans h1.nextRid
  inflight := h2.inflight.trans h1.inflight
  device := h2.device.trans h1.device

structure Settled (model : Model) (e : SpecEngine) (rids : List Rid) (rowOf : Rid → Row)
    (proposals chosen : Rid → List Token)
    (new : Rid → List Token) (marks : Rid → Option Nat) (base' : Engine) : Prop where
  eq : ∀ draft, settleAll (rids.map fun r => (r, proposals r, chosen r)) { e with draft := draft } =
    match DraftRunner.concludeAll (rids.map fun r => (r, marks r)) draft with
    | .error err => .error err
    | .ok draft => .ok { e with base := base', draft := draft }
  verdict : ∀ r ∈ rids, Verdict (e.base.request r) (base'.request r) (rowOf r) (proposals r) (new r) (marks r)
  judges : Judges e.base base' rids
  sound : (base'.scheduler.openPool [] [] []).Sound
  content : Content model base'.device none (base'.scheduler.openPool [] [] [])

theorem settleAll_settles {rids : List Rid} {rowOf : Rid → Row} {proposals chosen : Rid → List Token}
    (hrid : ∀ r, (rowOf r).rid = r) (hs : (e.base.scheduler.openPool (rids.map rowOf) [] []).Sound)
    (hc : Content model e.base.device none (e.base.scheduler.openPool (rids.map rowOf) [] []))
    (htree : e.base.scheduler.kv.tree = none)
    (hreq : e.base.requests.Perm (e.base.scheduler.running ++ e.base.scheduler.waiting))
    (hdue : ∀ r ∈ rids, Due model e.base.device (e.base.scheduler.openPool (rids.map rowOf) [] []) (rowOf r)
      (proposals r) (chosen r)) :
    ∃ new marks base', Settled model e rids rowOf proposals chosen new marks base' := by
  induction rids generalizing e with
  | nil =>
    refine ⟨fun _ => [], fun _ => none, e.base, fun draft => ?_, by simp, Judges.refl _, hs, hc⟩
    simp [settleAll, DraftRunner.concludeAll]
  | cons r rids ih =>
    obtain ⟨new1, mark, base1, h1⟩ : ∃ new mark base', Drawn model e (rowOf r) (rids.map rowOf) (proposals r) (chosen r)
        new mark base' := settle_draws (hdue r List.mem_cons_self) hc hreq
    have hnd : r ∉ rids := by
      have := hs.opened_nodup
      simp only [Scheduler.openPool, List.map_map, List.map_cons, List.nodup_cons] at this
      intro hm
      refine this.1 ?_
      rw [List.mem_map]
      exact ⟨r, hm, rfl⟩
    have htree1 : base1.scheduler.kv.tree = none := by
      have := h1.judges.same.radix
      rw [htree] at this
      simpa using this
    have hother : ∀ x ∈ rids, base1.scheduler.reqs x = e.base.scheduler.reqs x := by
      intro x hx
      refine h1.judges.other x ?_
      rw [List.mem_singleton, hrid]
      rintro rfl
      exact hnd hx
    obtain ⟨new2, marks, base2, h2⟩ := ih (e := { e with base := base1 }) h1.sound h1.content htree1
      (h1.judges.requests hreq) fun x hx => by
        have := (hdue x (List.mem_cons_of_mem _ hx)).other h1.sound (List.mem_map_of_mem hx) ?_ htree1
          h1.judges.same.blockSize
        · rw [show ({ e with base := base1 } : SpecEngine).base.device = e.base.device from h1.judges.device]
          exact this
        · rw [hrid]
          exact hother x hx
    refine ⟨Function.update new2 r new1, Function.update marks r mark, base2, fun draft => ?_, fun x hx => ?_,
      ?_, h2.sound, h2.content⟩
    · have hmarks : (rids.map fun x => (x, Function.update marks r mark x)) = rids.map fun x => (x, marks x) := by
        refine List.map_congr_left fun x hx => ?_
        rw [Function.update_of_ne]
        rintro rfl
        exact hnd hx
      have hfirst := h1.eq draft
      rw [hrid] at hfirst
      simp only [List.map_cons, settleAll, DraftRunner.concludeAll, hfirst, hmarks, Function.update_self]
      cases draft.conclude r mark with
      | error err => rfl
      | ok draft => exact h2.eq draft
    · rcases List.mem_cons.mp hx with rfl | hm
      · have := h1.verdict
        rw [hrid] at this
        rw [Function.update_self, Function.update_self, Engine.request, Engine.request, h2.judges.other x hnd]
        exact this
      · have hne : x ≠ r := by
          rintro rfl
          exact hnd hm
        rw [Function.update_of_ne hne, Function.update_of_ne hne, Engine.request, ← hother x hm]
        exact h2.verdict x hm
    · have := h1.judges
      rw [hrid] at this
      exact this.cons h2.judges hnd

section Batch

variable {target : Target} {b : Batch} {columns : List (List Token)}

theorem range_map {β : Type} {reqs : List Rid} (hn : reqs.Nodup) (f : Nat → β) :
    (List.range reqs.length).map f = reqs.map fun r => f (reqs.idxOf r) := by
  refine List.ext_getElem (by simp) fun i h1 h2 => ?_
  have hi : i < reqs.length := by simpa using h1
  simp [hn.idxOf_getElem i hi]

structure Rounds (target : Target) (e : SpecEngine) (b : Batch) : Prop where
  sound : (e.base.scheduler.pool [] []).Sound
  content : Content target.toModel e.base.device none (e.base.scheduler.pool [] [])
  requests : e.base.requests.Perm (e.base.scheduler.running ++ e.base.scheduler.waiting)
  tree : e.base.scheduler.kv.tree = none
  tokensPerStep : e.base.scheduler.tokensPerStep = e.gamma + 1
  greedy : ∀ r ∈ e.base.scheduler.running, (e.base.request r).params.isGreedy
  batch : e.base.scheduler.BatchFits b
  phase : b.phase = .decode
  fits : e.base.scheduler.costs e.base.scheduler.running ≤ e.base.scheduler.kv.numAvailable

namespace Rounds

theorem decodes (h : Rounds target e b) {r : Rid} (hr : r ∈ b.rows.map Row.rid) :
    r ∈ e.base.scheduler.running ∧ (e.base.request r).decodes ∧
    (e.base.request r).covered + 1 = (e.base.request r).seqLen := by
  obtain ⟨row, hrow, rfl⟩ := List.mem_map.mp hr
  have hfit := h.batch.rows row hrow
  have hst : (e.base.scheduler.reqs row.rid).state = .decode := by
    refine h.batch.decode row ?_
    rw [h.batch.phase.mp h.phase, List.take_length]
    exact hrow
  refine ⟨hfit.mem, ?_, ?_⟩
  · rcases hfit.kind with hk | hk
    · rw [hst] at hk; simp at hk
    · exact hk.1
  · rcases (Scheduler.pool_active h.sound (by simpa using hfit.mem)).phase with hp | hp
    · rw [hst] at hp; simp at hp
    · exact hp.2.1

theorem opens (h : Rounds target e b) {r : Rid} (hr : r ∈ b.rows.map Row.rid) :
    e.base.scheduler.RowOpens (e.verifyRow r) := by
  obtain ⟨hm, hd, hcov⟩ := h.decodes hr
  refine ⟨hm, ?_, Nat.succ_pos _, not_le.mp hd.2, fun hor => ?_⟩
  · show (e.base.request r).covered = (e.base.request r).seqLen - 1
    omega
  · rcases hor with hor | hor
    · have : (e.base.request r).state = .prefill := hor
      rw [hd.1] at this
      simp at this
    · simp [h.tree] at hor

theorem cost_le (h : Rounds target e b) {r : Rid} (hr : r ∈ b.rows.map Row.rid) :
    e.base.scheduler.rowCost (e.verifyRow r) ≤ e.base.scheduler.cost r := by
  have hd : (e.base.scheduler.reqs r).decodes := (h.decodes hr).2.1
  rw [Scheduler.cost_of_decode hd.1, Scheduler.decodeCost, if_pos hd, Scheduler.stepNeed, h.tokensPerStep]
  exact le_rfl

theorem map_rid (rids : List Rid) : (rids.map e.verifyRow).map Row.rid = rids := by
  simp [verifyRow, Function.comp_def]

theorem costs_le (h : Rounds target e b) :
    e.base.scheduler.rowCosts ((b.rows.map Row.rid).map e.verifyRow) ≤ e.base.scheduler.kv.numAvailable := by
  refine (Scheduler.sum_le_costs h.sound ?_ (fun row hrow => ?_) fun row hrow => ?_).trans h.fits
  · rw [map_rid]
    exact h.batch.nodup
  · obtain ⟨r, hr, rfl⟩ := List.mem_map.mp hrow
    exact (h.decodes hr).1
  · obtain ⟨r, hr, rfl⟩ := List.mem_map.mp hrow
    exact h.cost_le hr

theorem no_pending {s : Scheduler} {opened : List Row} (hs : (s.openPool opened [] []).Sound) {r : Rid}
    (hd : ¬ (s.reqs r).isDone) : (s.reqs r).numPending = 0 :=
  (hs.pending r hd).length.symm

def proposed (reqs : List Rid) (columns : List (List Token)) (r : Rid) : List Token := proposalsAt columns (reqs.idxOf r)

theorem verdicts_of_verify {reqs : List Rid} {v : ModelRunner.Verified}
    (hv : ModelRunner.verify target e.base.scheduler e.base.device (reqs.map e.verifyRow)
      ((reqs.zip ((List.range reqs.length).map (proposalsAt columns))).map fun x => e.verifyIds x.1 x.2) = .ok v) :
    e.verdicts target reqs columns =
      settleAll (reqs.zip (((List.range reqs.length).map (proposalsAt columns)).zip v.chosen)) { e with
        base := { e.base with scheduler := v.scheduler, device := v.device }
        packed := e.packed ++ ModelRunner.passTables v.scheduler (reqs.map e.verifyRow) } := by
  simp only [verdicts, hv]

theorem verdicts_eq {reqs : List Rid} {v : ModelRunner.Verified} (hn : reqs.Nodup)
    (hv : ModelRunner.verify target e.base.scheduler e.base.device (reqs.map e.verifyRow)
      ((reqs.map e.verifyRow).map fun row => e.verifyIds row.rid (proposed reqs columns row.rid)) = .ok v)
        (draft : DraftRunner) :
    SpecEngine.verdicts { e with draft := draft } target reqs columns =
      settleAll (reqs.zip ((reqs.map (proposed reqs columns)).zip v.chosen)) { e with
        base := { e.base with scheduler := v.scheduler, device := v.device }
        draft := draft
        packed := e.packed ++ ModelRunner.passTables v.scheduler (reqs.map e.verifyRow) } := by
  have hprop : (List.range reqs.length).map (proposalsAt columns) = reqs.map (proposed reqs columns) := range_map hn _
  have hids : (reqs.zip (reqs.map (proposed reqs columns))).map (fun x => e.verifyIds x.1 x.2) =
      (reqs.map e.verifyRow).map fun row => e.verifyIds row.rid (proposed reqs columns row.rid) := by
    rw [← List.map_prod_left_eq_zip, List.map_map, List.map_map]
    rfl
  have hv' : ModelRunner.verify target e.base.scheduler e.base.device (reqs.map e.verifyRow)
      ((reqs.zip (reqs.map (proposed reqs columns))).map fun x => e.verifyIds x.1 x.2) = .ok v := by rw [hids, hv]
  have hall := verdicts_of_verify (e := { e with draft := draft }) (hprop.symm ▸ hv')
  rw [hprop] at hall
  exact hall

theorem zip_chosen (reqs : List Rid) (f : Rid → List Token) (g : Row → List Token) :
    reqs.zip ((reqs.map f).zip ((reqs.map e.verifyRow).map g)) = reqs.map fun r => (r, f r, g (e.verifyRow r)) := by
  rw [List.map_map, List.zip_map', ← List.map_prod_left_eq_zip]
  rfl

theorem verdicts_longs {reqs : List Rid} {e' : SpecEngine} (h : e.verdicts target reqs columns = .ok e') :
    ∀ r ∈ reqs, IsLong ((e.base.request r).outputIds.getLast?.getD 0) := by
  intro r hr
  obtain ⟨i, hi, rfl⟩ := List.getElem_of_mem hr
  have hi' : i < ((List.range reqs.length).map (proposalsAt columns)).length := by simpa using hi
  have hmem : (reqs[i], ((List.range reqs.length).map (proposalsAt columns))[i]) ∈
      reqs.zip ((List.range reqs.length).map (proposalsAt columns)) :=
    List.mem_of_getElem? (List.getElem?_zip_eq_some.mpr ⟨List.getElem?_eq_getElem hi, List.getElem?_eq_getElem hi'⟩)
  unfold verdicts at h
  simp only at h
  split at h
  · simp at h
  · next hv => exact ModelRunner.verify_longs hv _ (List.mem_map_of_mem hmem) _ rfl

structure Passed (target : Target) (e : SpecEngine) (reqs : List Rid) (columns : List (List Token)) (s1 : Scheduler)
    (new : Rid → List Token) (marks : Rid → Option Nat) (base' : Engine) : Prop where
  reserve : ModelRunner.reserve e.base.scheduler (reqs.map e.verifyRow) = (.ok (), s1)
  reserved : Scheduler.Reserved e.base.scheduler s1 (reqs.map e.verifyRow)
  opens : Moves none (e.base.scheduler.pool [] []) (s1.openPool (reqs.map e.verifyRow) [] [])
  eq : ∀ draft, SpecEngine.verdicts { e with draft := draft } target reqs columns =
    match DraftRunner.concludeAll (reqs.map fun r => (r, marks r)) draft with
    | .error err => .error err
    | .ok draft => .ok { e with
        base := base', draft := draft, packed := e.packed ++ ModelRunner.passTables s1 (reqs.map e.verifyRow) }
  verdict : ∀ r ∈ reqs, Verdict (s1.reqs r) (base'.request r) (e.verifyRow r) (proposed reqs columns r) (new r) (marks r)
  judges : ∃ d, Judges { e.base with scheduler := s1, device := d } base' reqs
  sound : (base'.scheduler.openPool [] [] []).Sound
  content : Content target.toModel base'.device none (base'.scheduler.openPool [] [] [])

theorem passes (h : Rounds target e b) (hcol : columns.length = e.gamma)
    (hlong : ∀ r ∈ b.rows.map Row.rid, IsLong ((e.base.request r).outputIds.getLast?.getD 0)) :
    ∃ s1 new marks base', Passed target e (b.rows.map Row.rid) columns s1 new marks base' := by
  let reqs := b.rows.map Row.rid
  let feed : Row → List Token := fun row => e.verifyIds row.rid (proposed reqs columns row.rid)
  have hlen : ∀ row ∈ reqs.map e.verifyRow, (feed row).length = row.len := by
    intro row hrow
    obtain ⟨r, -, rfl⟩ := List.mem_map.mp hrow
    simp [feed, verifyIds, proposed, proposalsAt, verifyRow, hcol]
  have hrows : ∀ row ∈ reqs.map e.verifyRow, e.base.scheduler.RowOpens row := by
    intro row hrow
    obtain ⟨r, hr, rfl⟩ := List.mem_map.mp hrow
    exact h.opens hr
  have hnd : ((reqs.map e.verifyRow).map Row.rid).Nodup := by
    rw [map_rid]
    exact h.batch.nodup
  have hfirst : ∀ row ∈ reqs.map e.verifyRow, ∀ id ∈ (feed row).head?, IsLong id := by
    intro row hrow id hid
    obtain ⟨r, hr, rfl⟩ := List.mem_map.mp hrow
    obtain rfl := Option.some.inj hid
    exact hlong r hr
  obtain ⟨s1, hres, hopens, hR, hverify⟩ :=
    ModelRunner.verify_ok h.sound hrows hnd h.costs_le hlen hfirst target e.base.device
  let d := ModelRunner.write e.base.device ((s1.openPool (reqs.map e.verifyRow) [] []).writes feed)
  have hs1 := hopens.sound h.sound
  have hc1 : Content target.toModel d none (s1.openPool (reqs.map e.verifyRow) [] []) :=
    (hopens.content h.sound h.content).written hs1 hlen
  have htree : s1.kv.tree = none := by
    have := hR.same.radix
    rw [h.tree] at this
    simpa using this
  let e1 : SpecEngine := { e with
    base := { e.base with scheduler := s1, device := d }
    packed := e.packed ++ ModelRunner.passTables s1 (reqs.map e.verifyRow) }
  have hdue : ∀ r ∈ reqs, Due target.toModel d (s1.openPool (reqs.map e.verifyRow) [] []) (e.verifyRow r)
      (proposed reqs columns r) (ModelRunner.chosenRow target s1 d (e.verifyRow r)) := by
    intro r hr
    obtain ⟨hm, hdec, -⟩ := h.decodes hr
    have hmem : e.verifyRow r ∈ (s1.openPool (reqs.map e.verifyRow) [] []).opened := List.mem_map_of_mem hr
    have hl := (hs1.opened _ hmem).1
    obtain ⟨tb, htb⟩ := Option.ne_none_iff_exists'.mp (hs1.kv.held _ hl).cache
    have hj : Judged (s1.openPool (reqs.map e.verifyRow) [] []) (e.verifyRow r) tb :=
      ⟨hs1, hmem, htree, (hR.state r).trans hdec.1, no_pending hs1 (hs1.not_done (.inl hl)), htb⟩
    have hfed : Judged.Fed d (s1.openPool (reqs.map e.verifyRow) [] []) (e.verifyRow r)
        ((s1.reqs r).outputIds.getLast?.getD 0 :: proposed reqs columns r) := by
      rw [hR.outputIds r]
      exact hs1.fed hlen hmem
    have hgreedy : (s1.reqs r).params.isGreedy := by
      obtain ⟨c, hc⟩ := hR.reqs r
      rw [hc]
      exact h.greedy r hm
    have hplen : (e.verifyRow r).len = (proposed reqs columns r).length + 1 := by
      simp [verifyRow, proposed, proposalsAt, hcol]
    exact ⟨⟨tb, hj⟩, hplen, hfed, ModelRunner.chosenRow_chooses hj hgreedy hc1 hplen hfed⟩
  have hreq1 : e1.base.requests.Perm (e1.base.scheduler.running ++ e1.base.scheduler.waiting) := by
    show e.base.requests.Perm (s1.running ++ s1.waiting)
    rw [hR.running, hR.waiting]
    exact h.requests
  have hrid : ∀ r, (e.verifyRow r).rid = r := fun _ => rfl
  obtain ⟨new, marks, base', hset⟩ := settleAll_settles (e := e1) hrid hs1 hc1 htree hreq1 hdue
  refine ⟨s1, new, marks, base', hres, hR, hopens, fun draft => ?_, hset.verdict, ⟨d, hset.judges⟩,
    hset.sound, hset.content⟩
  rw [verdicts_eq h.batch.nodup hverify, zip_chosen]
  exact hset.eq draft

end Rounds

end Batch

end SpecEngine

end MiniServe
