import MiniServe.Engine.Launch

namespace MiniServe

open KVCacheManager

namespace Pool

variable {p : Pool} {r : Rid}

theorem Sound.numPending_le_two (hs : p.Sound) (hd : ¬ (p.reqs r).isDone) : (p.reqs r).numPending ≤ 2 := by
  have h1 := slotsOf_length hs.older_once r
  have h2 := slotsOf_length (List.nodup_append.mp hs.newer_once).1 r
  have := hs.numPending_le hd
  omega

theorem Sound.numPending_le_one (hs : p.Sound) (hn : p.newer = []) (hd : ¬ (p.reqs r).isDone) :
    (p.reqs r).numPending ≤ 1 := by
  have h1 := slotsOf_length hs.older_once r
  have := hs.numPending_le hd
  rw [hn] at this
  simp only [slotsOf, List.filterMap_nil, List.length_nil] at this h1
  omega

theorem Sound.covered_add (hs : p.Sound) (ho : p.opened = []) (hr : r ∈ p.live) :
    (p.reqs r).covered < (p.reqs r).seqLen ∧
      ((p.reqs r).numPending = 0 ∨ (p.reqs r).covered + 1 = (p.reqs r).seqLen) := by
  rcases (hs.active r hr (by simp [ho])).phase with ⟨-, h1, h2⟩ | ⟨-, h1, -⟩
  · exact ⟨h1, .inl h2⟩
  · exact ⟨by omega, .inr h1⟩

theorem Sound.drop_pending (hs : p.Sound) (ho : p.opened = []) (hr : r ∈ p.live) (hp : (p.reqs r).numPending ≤ 1) :
    (p.reqs r).covered ≤ (p.reqs r).dropPending.seqLen ∧
      p.kv.nodeTokens (p.reqs r).cacheNode <+: (p.reqs r).dropPending.tokens := by
  have hle := (hs.pending r (hs.not_done (.inl hr))).le
  have hseq := Request.seqLen_dropPending hle
  obtain ⟨h1, h2⟩ := hs.covered_add ho hr
  refine ⟨by omega, ?_⟩
  exact Request.prefix_dropPending (hs.kv.held r hr).tokens (hs.path r hr) hle

end Pool

namespace Engine

variable {e e' : Engine} {older newer rest : List Entry} {opened : List Row} {r : Rid} {q : Request}

def left (s : Scheduler) (r : Rid) (kv' : KVCacheManager) (q : Request) : Scheduler :=
  { s with
    kv := kv'
    reqs := Function.update s.reqs r q.dropped
    running := s.running.erase r
    waiting := s.waiting.erase r }

theorem left_pool (s : Scheduler) (kv' : KVCacheManager) (q : Request) (older newer older' : List Entry) :
    (left s r kv' q).openPool opened older' newer = (s.openPool opened older newer).leave r kv' q older' := by
  simp [left, Scheduler.openPool, Scheduler.pool, Pool.leave, Pool.put]

theorem release_ok {s : Scheduler} (hs : (s.openPool opened older newer).Sound)
    (hc : q.cache = (s.reqs r).cache) (hn : q.cacheNode = (s.reqs r).cacheNode)
    (hv : r ∈ s.running → (s.kv.tree.isSome → (s.reqs r).covered ≤ q.seqLen) ∧
      s.kv.nodeTokens (s.reqs r).cacheNode <+: q.tokens) :
    ∃ kv', release (s.set r q) r = .ok (s.put r (kv', q.dropped)) ∧
      (s.openPool opened older newer).Leaves r q kv' ∧ Scheduler.Same s (left s r kv' q) := by
  by_cases hl : r ∈ s.running
  · have hl' : r ∈ (s.openPool opened older newer).live := by simpa [Scheduler.openPool, Scheduler.pool] using hl
    have hkv : s.kv.Sound (Function.update s.reqs r q) (s.running ++ []) := by
      have h0 : s.kv.Sound (Function.update s.reqs r (s.reqs r)) (s.running ++ []) := by
        rw [Function.update_eq_self]; exact hs.kv
      exact Pool.kv_restate h0 hc hn fun _ => hv hl
    obtain ⟨kv', h1, h2⟩ := hkv.release hl'
    rw [Function.update_self] at h1 h2
    refine ⟨kv', ?_, ⟨fun _ => h2, fun h => absurd hl' h, fun _ => (hv hl).1⟩,
      ⟨rfl, rfl, rfl, rfl, rfl, h2.frame.numBlocks, h2.frame.blockSize, h2.frame.radix⟩⟩
    simp only [release, Scheduler.set, Function.update_self, h1, Scheduler.put, Function.update_idem]
    rfl
  · have hl' : r ∉ (s.openPool opened older newer).live := by simpa [Scheduler.openPool, Scheduler.pool] using hl
    obtain ⟨h1, h2⟩ := hs.kv.idle r hl'
    simp only [Scheduler.openPool, Scheduler.pool] at h1 h2
    rw [h1] at hc
    rw [h2] at hn
    refine ⟨s.kv, ?_, ⟨fun h => absurd h hl', fun _ => rfl, fun h => absurd h hl'⟩,
      ⟨rfl, rfl, rfl, rfl, rfl, rfl, rfl, rfl⟩⟩
    have hq : { q with cache := none } = q.dropped := by simp [Request.dropped, hn]
    simp [release, Scheduler.set, Scheduler.put, KVCacheManager.release, hc, hq]

theorem retire_ok (hs : (e.scheduler.openPool opened older newer).Sound)
    (hr : r ∈ e.scheduler.running ∨ r ∈ e.scheduler.waiting)
    (hreq : e.requests.Perm (e.scheduler.running ++ e.scheduler.waiting)) (hd : q.isDone)
    (hc : q.cache = (e.scheduler.reqs r).cache) (hn : q.cacheNode = (e.scheduler.reqs r).cacheNode)
    (hv : r ∈ e.scheduler.running → (e.scheduler.kv.tree.isSome → (e.scheduler.reqs r).covered ≤ q.dropPending.seqLen) ∧
      e.scheduler.kv.nodeTokens (e.scheduler.reqs r).cacheNode <+: q.dropPending.tokens) :
    ∃ kv', Engine.retire { e with scheduler := e.scheduler.set r q } r =
        .ok { e with scheduler := left e.scheduler r kv' q.dropPending, requests := e.requests.erase r } ∧
      (e.scheduler.openPool opened older newer).Leaves r q.dropPending kv' ∧
      Scheduler.Same e.scheduler (left e.scheduler r kv' q.dropPending) := by
  obtain ⟨kv', h1, h2, h3⟩ := release_ok (q := q.dropPending) hs (by simpa using hc) (by simpa using hn) hv
  refine ⟨kv', ?_, h2, h3⟩
  have hmem : r ∈ e.requests := hreq.mem_iff.mpr (List.mem_append.mpr hr)
  have hdone : q.dropPending.dropped.isDone := by simpa [Request.isDone, Request.dropped] using hd
  have hset : (e.scheduler.set r q).set r q.dropPending = e.scheduler.set r q.dropPending := by
    simp [Scheduler.set]
  simp only [Engine.retire, request]
  rw [show (e.scheduler.set r q).reqs r = q from Function.update_self _ _ _, hset, h1]
  simp only [Scheduler.retire, Scheduler.put, Function.update_self, hdone, not_true_eq_false, if_false]
  by_cases hl : r ∈ e.scheduler.running
  · have hw : r ∉ e.scheduler.waiting :=
      fun h => hs.not_mem_live h (by simpa [Scheduler.openPool, Scheduler.pool] using hl)
    simp [hl, hmem, left, List.erase_of_not_mem hw]
  · simp [hl, hmem, left, List.erase_of_not_mem hl]

theorem done_transition {s : Scheduler} (hs : (s.openPool opened older newer).Sound) (hr : r ∈ s.running ∨ r ∈ s.waiting)
    {new : RequestState} (hnew : new = .finished ∨ new = .aborted) : new ∈ (s.reqs r).state.next := by
  have hst : (s.reqs r).state = .waiting ∨ (s.reqs r).state = .prefill ∨ (s.reqs r).state = .decode := by
    rcases hr with h | h
    · exact .inr (hs.state_live (by simpa [Scheduler.openPool, Scheduler.pool] using h))
    · exact .inl (hs.queued r h).1
  rcases hnew with rfl | rfl <;> rcases hst with h | h | h <;> simp [h, RequestState.next]

structure Kept (e e' : Engine) : Prop where
  same : Scheduler.Same e.scheduler e'.scheduler
  requests : e.requests.Perm (e.scheduler.running ++ e.scheduler.waiting) →
    e'.requests.Perm (e'.scheduler.running ++ e'.scheduler.waiting)
  running : e'.scheduler.running.Sublist e.scheduler.running
  waiting : e'.scheduler.waiting.Sublist e.scheduler.waiting
  state : ∀ x ∈ e'.scheduler.running, (e'.scheduler.reqs x).state = (e.scheduler.reqs x).state
  cache : ∀ x ∈ e'.scheduler.running, (e'.scheduler.reqs x).cache = (e.scheduler.reqs x).cache
  blank : ∀ x, e.scheduler.reqs x = Request.blank x → x ∉ e.scheduler.running ++ e.scheduler.waiting →
    e'.scheduler.reqs x = Request.blank x
  overlap : e'.overlap = e.overlap
  nextRid : e'.nextRid = e.nextRid
  inflight : e'.inflight = e.inflight
  device : e'.device = e.device

theorem Kept.refl (e : Engine) : Kept e e :=
  ⟨Scheduler.Same.refl _, id, List.Sublist.refl _, List.Sublist.refl _, fun _ _ => rfl, fun _ _ => rfl, fun _ h _ => h,
    rfl, rfl, rfl, rfl⟩

theorem Kept.trans {e'' : Engine} (h1 : Kept e e') (h2 : Kept e' e'') : Kept e e'' where
  same := h1.same.trans h2.same
  requests := fun h => h2.requests (h1.requests h)
  running := h2.running.trans h1.running
  waiting := h2.waiting.trans h1.waiting
  state := fun x hx => (h2.state x hx).trans (h1.state x (h2.running.subset hx))
  cache := fun x hx => (h2.cache x hx).trans (h1.cache x (h2.running.subset hx))
  blank := fun x h hx => h2.blank x (h1.blank x h hx) fun hx' => hx <| by
    rcases List.mem_append.mp hx' with hx' | hx'
    · exact List.mem_append_left _ (h1.running.subset hx')
    · exact List.mem_append_right _ (h1.waiting.subset hx')
  overlap := h2.overlap.trans h1.overlap
  nextRid := h2.nextRid.trans h1.nextRid
  inflight := h2.inflight.trans h1.inflight
  device := h2.device.trans h1.device

theorem Kept.left {kv' : KVCacheManager} (hs : (e.scheduler.openPool opened older newer).Sound)
    (hr : r ∈ e.scheduler.running ∨ r ∈ e.scheduler.waiting)
    (hsame : Scheduler.Same e.scheduler (left e.scheduler r kv' q)) :
    Kept e { e with scheduler := left e.scheduler r kv' q, requests := e.requests.erase r } := by
  have hnd : (e.scheduler.running ++ e.scheduler.waiting).Nodup := by
    have := hs.nodup
    simpa [Scheduler.openPool, Scheduler.pool] using this
  have hother : ∀ x ∈ e.scheduler.running.erase r,
      Function.update e.scheduler.reqs r q.dropped x = e.scheduler.reqs x := by
    intro x hx
    refine Function.update_of_ne ?_ _ _
    rintro rfl
    exact (List.nodup_append.mp hnd).1.not_mem_erase hx
  refine ⟨hsame, fun h => ?_, List.erase_sublist, List.erase_sublist, fun x hx => congrArg Request.state (hother x hx),
    fun x hx => congrArg Request.cache (hother x hx), fun x hx hx' => ?_, rfl, rfl, rfl, rfl⟩
  · refine (h.erase r).trans ?_
    show ((e.scheduler.running ++ e.scheduler.waiting).erase r).Perm
      (e.scheduler.running.erase r ++ e.scheduler.waiting.erase r)
    rcases hr with hr | hr
    · have hw : r ∉ e.scheduler.waiting := fun h => List.disjoint_of_nodup_append hnd hr h
      rw [List.erase_append_left _ hr, List.erase_of_not_mem hw]
    · have hl : r ∉ e.scheduler.running := fun h => List.disjoint_of_nodup_append hnd h hr
      rw [List.erase_append_right _ hl, List.erase_of_not_mem hl]
  · have hne : x ≠ r := by
      rintro rfl
      exact hx' (List.mem_append.mpr hr)
    show Function.update e.scheduler.reqs r q.dropped x = _
    rw [Function.update_of_ne hne]
    exact hx

theorem Kept.set (hr : r ∈ e.scheduler.running ∨ r ∈ e.scheduler.waiting) (hq : q.state = (e.scheduler.reqs r).state)
    (hc : q.cache = (e.scheduler.reqs r).cache) : Kept e { e with scheduler := e.scheduler.set r q } := by
  refine ⟨⟨rfl, rfl, rfl, rfl, rfl, rfl, rfl, rfl⟩, id, List.Sublist.refl _, List.Sublist.refl _, fun x _ => ?_,
    fun x _ => ?_, fun x hx hx' => ?_, rfl, rfl, rfl, rfl⟩
  · show (Function.update e.scheduler.reqs r q x).state = _
    by_cases h : x = r
    · subst h; rw [Function.update_self]; exact hq
    · rw [Function.update_of_ne h]
  · show (Function.update e.scheduler.reqs r q x).cache = _
    by_cases h : x = r
    · subst h; rw [Function.update_self]; exact hc
    · rw [Function.update_of_ne h]
  · have hne : x ≠ r := by
      rintro rfl
      exact hx' (List.mem_append.mpr hr)
    show Function.update e.scheduler.reqs r q x = _
    rw [Function.update_of_ne hne]
    exact hx

structure ReadBack (e e' : Engine) : Prop extends Kept e e' where
  ended : ∀ x, (e'.scheduler.reqs x).state = (e.scheduler.reqs x).state ∨ (e'.scheduler.reqs x).state = .finished

theorem ReadBack.refl (e : Engine) : ReadBack e e := ⟨Kept.refl e, fun _ => .inl rfl⟩

theorem ReadBack.trans {e'' : Engine} (h1 : ReadBack e e') (h2 : ReadBack e' e'') : ReadBack e e'' := by
  refine ⟨h1.toKept.trans h2.toKept, fun x => ?_⟩
  rcases h2.ended x with h | h
  · rcases h1.ended x with h' | h'
    · exact .inl (h.trans h')
    · exact .inr (h.trans h')
  · exact .inr h

theorem ended_update {reqs : Rid → Request} (hq : q.state = (reqs r).state ∨ q.state = .finished) (x : Rid) :
    (Function.update reqs r q x).state = (reqs x).state ∨ (Function.update reqs r q x).state = .finished := by
  by_cases h : x = r
  · subst h; rw [Function.update_self]; exact hq
  · rw [Function.update_of_ne h]; exact .inl rfl

theorem in_queue {s : Scheduler} {tok : Token} {k : Nat} (hs : (s.openPool [] ((r, tok, some k) :: rest) newer).Sound)
    (hd : ¬ (s.reqs r).isDone) : r ∈ s.running ∨ r ∈ s.waiting := by
  by_contra h
  have hnot : r ∉ (s.openPool [] ((r, tok, some k) :: rest) newer).live ++
      (s.openPool [] ((r, tok, some k) :: rest) newer).waiting := by
    simpa [Scheduler.openPool, Scheduler.pool] using h
  rcases hs.gone r hnot with hg | hg
  · exact hd hg
  · have hp := hs.pending r hd
    simp only [Scheduler.openPool, Scheduler.pool, List.cons_append, slotsOf_cons_some] at hp hg
    have := hp.head.2
    rw [hg] at this
    simp [Request.blank] at this

theorem processRow_some (e : Engine) (r : Rid) (tok : Token) (k : Nat) :
    e.processRow r tok (some k) = if (e.scheduler.reqs r).isDone then .ok e
      else if (e.scheduler.reqs r).params.maxNewTokens ≤ k + 1 ∨ tok ∈ (e.scheduler.reqs r).params.stopTokenIds then
        match ((e.scheduler.reqs r).filled k tok).dropPending.transition .finished with
        | .error err => .error err
        | .ok q => Engine.retire { e with scheduler := e.scheduler.set r q } r
      else .ok { e with scheduler := e.scheduler.set r ((e.scheduler.reqs r).filled k tok) } := rfl

theorem processRow_ok {tok : Token} {slot : Option Nat}
    (hs : (e.scheduler.openPool [] ((r, tok, slot) :: rest) newer).Sound)
    (hreq : e.requests.Perm (e.scheduler.running ++ e.scheduler.waiting)) :
    ∃ e', e.processRow r tok slot = .ok e' ∧
      Pool.Move none (e.scheduler.openPool [] ((r, tok, slot) :: rest) newer)
        (e'.scheduler.openPool [] rest newer) ∧ ReadBack e e' := by
  cases slot with
  | none =>
    exact ⟨e, rfl, Pool.Move.skip (p := e.scheduler.openPool [] ((r, tok, none) :: rest) newer) rfl (.inl rfl),
      ReadBack.refl e⟩
  | some k =>
    by_cases hd : (e.scheduler.reqs r).isDone
    · refine ⟨e, ?_, Pool.Move.skip (p := e.scheduler.openPool [] ((r, tok, some k) :: rest) newer) rfl (.inr hd),
        ReadBack.refl e⟩
      simp [processRow, request, hd]
    · have hr := in_queue hs hd
      have hr' : r ∈ (e.scheduler.openPool [] ((r, tok, some k) :: rest) newer).live ∨
          r ∈ (e.scheduler.openPool [] ((r, tok, some k) :: rest) newer).waiting := by
        simpa [Scheduler.openPool, Scheduler.pool] using hr
      let q := (e.scheduler.reqs r).filled k tok
      by_cases hend : (e.scheduler.reqs r).params.maxNewTokens ≤ k + 1 ∨ tok ∈ (e.scheduler.reqs r).params.stopTokenIds
      · have htr : q.dropPending.transition .finished = .ok { q.dropPending with state := .finished } := by
          refine Request.transition_ok ?_
          have := done_transition hs hr (.inl rfl : RequestState.finished = .finished ∨ RequestState.finished = .aborted)
          simpa [q, Request.filled] using this
        have hdrop : Request.dropPending { q.dropPending with state := .finished } =
            { q.dropPending with state := .finished } :=
          Request.dropPending_of_none q.dropPending_numPending
        have hp := hs.pending r hd
        simp only [Scheduler.openPool, Scheduler.pool, List.cons_append, slotsOf_cons_some] at hp
        have hv : r ∈ e.scheduler.running →
          (e.scheduler.kv.tree.isSome → (e.scheduler.reqs r).covered ≤ q.dropPending.seqLen) ∧
            e.scheduler.kv.nodeTokens (e.scheduler.reqs r).cacheNode <+: q.dropPending.tokens := by
          intro hl
          have hl' : r ∈ (e.scheduler.openPool [] ((r, tok, some k) :: rest) newer).live := by
            simpa [Scheduler.openPool, Scheduler.pool] using hl
          have h2 : (e.scheduler.reqs r).numPending ≤ 2 := hs.numPending_le_two hd
          have hpath := hs.path r hl'
          obtain ⟨h3, h4⟩ := hs.covered_add rfl hl'
          simp only [Scheduler.openPool, Scheduler.pool] at hpath h3 h4
          obtain ⟨hk, hpos⟩ := hp.head
          have hq : q.numPending + 1 = (e.scheduler.reqs r).numPending := by
            simp only [q, Request.filled]; omega
          have hlen : q.outputIds.length = (e.scheduler.reqs r).outputIds.length := by simp [q, Request.filled]
          have hseq : q.seqLen = (e.scheduler.reqs r).seqLen := Request.seqLen_filled k tok
          have hdp := @Request.seqLen_dropPending q (by omega)
          refine ⟨fun _ => by omega, ?_⟩
          refine Request.prefix_dropPending (Request.prefix_filled (hs.kv.held r hl').tokens ?_) ?_ (by omega)
          · simp only [Request.seqLen] at hpath ⊢
            omega
          · rw [hseq]
            show (e.scheduler.kv.nodeTokens (e.scheduler.reqs r).cacheNode).length + q.numPending ≤ _
            omega
        obtain ⟨kv', h1, h2, h3⟩ := retire_ok (q := { q.dropPending with state := .finished }) hs hr hreq (.inl rfl)
          (by simp [q, Request.filled]) (by simp [q, Request.filled]) (by rw [hdrop]; exact hv)
        rw [hdrop] at h1 h2 h3
        refine ⟨_, ?_, ?_, Kept.left hs hr h3, ended_update (.inr rfl)⟩
        · rw [← h1, processRow_some, if_neg hd, if_pos hend, htr]
        · have := @Pool.Move.finish none (e.scheduler.openPool [] ((r, tok, some k) :: rest) newer)
            _ _ _ _ _ rfl rfl hd hr' hend h2
          rw [← left_pool e.scheduler kv' _ ((r, tok, some k) :: rest) newer rest] at this
          exact this
      · have hend' := not_or.mp hend
        refine ⟨{ e with scheduler := e.scheduler.set r q }, ?_, ?_, Kept.set hr rfl rfl,
          ended_update (.inl rfl)⟩
        · rw [processRow_some, if_neg hd, if_neg hend]
        · exact Pool.Move.fill (p := e.scheduler.openPool [] ((r, tok, some k) :: rest) newer) rfl rfl hd hr'
            (not_le.mp hend'.1) hend'.2

theorem processRows_ok {es : List Entry} (hs : (e.scheduler.openPool [] es newer).Sound)
    (hreq : e.requests.Perm (e.scheduler.running ++ e.scheduler.waiting)) :
    ∃ e', processRows es e = .ok e' ∧
      Pool.Moves none (e.scheduler.openPool [] es newer) (e'.scheduler.openPool [] [] newer) ∧ ReadBack e e' := by
  induction es generalizing e with
  | nil => exact ⟨e, rfl, Pool.Moves.refl _, ReadBack.refl e⟩
  | cons x es ih =>
    obtain ⟨r, tok, slot⟩ := x
    obtain ⟨e1, h1, hm, hk⟩ := processRow_ok hs hreq
    obtain ⟨e2, h2, hms, hk2⟩ := ih (hm.sound hs) (hk.requests hreq)
    exact ⟨e2, by simp [processRows, h1, h2], hm.moves.trans hms, hk.trans hk2⟩

theorem abort_ok (hs : (e.scheduler.openPool [] older []).Sound)
    (hreq : e.requests.Perm (e.scheduler.running ++ e.scheduler.waiting)) (r : Rid) :
    ∃ e', e.abort r = .ok e' ∧
      Pool.Moves none (e.scheduler.openPool [] older []) (e'.scheduler.openPool [] older []) ∧ Kept e e' := by
  by_cases hmem : r ∈ e.requests
  · have hr := List.mem_append.mp (hreq.mem_iff.mp hmem)
    have hr' : r ∈ (e.scheduler.openPool [] older []).live ∨ r ∈ (e.scheduler.openPool [] older []).waiting := by
      simpa [Scheduler.openPool, Scheduler.pool] using hr
    let q : Request := { e.scheduler.reqs r with state := .aborted }
    have htr : (e.scheduler.reqs r).transition .aborted = .ok q :=
      Request.transition_ok (done_transition hs hr (.inr rfl))
    have hdrop : q.dropPending = { (e.scheduler.reqs r).dropPending with state := .aborted } := by
      simp only [q, Request.dropPending]
      split <;> rfl
    have hv : r ∈ e.scheduler.running →
      (e.scheduler.kv.tree.isSome → (e.scheduler.reqs r).covered ≤ q.dropPending.seqLen) ∧
        e.scheduler.kv.nodeTokens (e.scheduler.reqs r).cacheNode <+: q.dropPending.tokens := by
      intro hl
      have hl' : r ∈ (e.scheduler.openPool [] older []).live := by
        simpa [Scheduler.openPool, Scheduler.pool] using hl
      rw [hdrop]
      have := hs.drop_pending rfl hl' (hs.numPending_le_one rfl (hs.not_done (.inl hl')))
      exact ⟨fun _ => this.1, this.2⟩
    obtain ⟨kv', h1, h2, h3⟩ := retire_ok hs hr hreq (.inr rfl : q.isDone) rfl rfl hv
    refine ⟨_, ?_, ?_, Kept.left hs hr h3⟩
    · rw [← h1]
      simp [abort, hmem, request, htr]
    · rw [hdrop] at h2
      have hm := @Pool.Move.abort none (e.scheduler.openPool [] older []) _ _ rfl hr' h2
      refine Pool.Move.moves ?_
      rw [left_pool e.scheduler kv' q.dropPending older [] older, hdrop]
      exact hm
  · exact ⟨e, by simp [abort, hmem], Pool.Moves.refl _, Kept.refl e⟩

end Engine

end MiniServe
