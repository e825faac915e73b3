import MiniServe.Engine.Contiguous

namespace MiniServe

namespace Contiguous

open Generate
open MiniServe.Engine (inflightEntries)

structure Waits (q : Request) (cache : Option ContiguousKVCache) : Prop where
  state : q.state = .waiting
  prompt : q.promptIds ≠ []
  plain : Plain q.promptIds
  output : q.outputIds = []
  numPending : q.numPending = 0
  cached : q.numCachedTokens = 0
  cache : cache = none

-- A running request between two steps: its cache holds all its tokens but the last, those in flight included.
structure Runs (q : Request) (cache : Option ContiguousKVCache) (out : List Token) : Prop where
  state : q.state = .decode
  prompt : q.promptIds ≠ []
  plain : Plain q.promptIds
  output : q.outputIds ≠ []
  room : q.numPending = 0 → q.outputIds.length < q.params.maxNewTokens
  cache : cache = some ⟨(q.promptIds ++ out).dropLast.zipIdx, q.maxLen⟩

namespace Scheduler

variable {s : Scheduler} {r : Rid}

theorem set_set (q q' : Request) : (s.set r q).set r q' = s.set r q' := by simp [set]

theorem retire_ok (hd : (s.reqs r).isDone) (hone : r ∈ s.running → r ∉ s.waiting) :
    s.retire r = .ok { s with running := s.running.erase r, waiting := s.waiting.erase r } := by
  rw [retire, if_neg (not_not.mpr hd)]
  by_cases hrun : r ∈ s.running
  · rw [if_pos hrun, List.erase_of_not_mem (hone hrun)]
  · rw [if_neg hrun, List.erase_of_not_mem hrun]

end Scheduler

namespace Engine

variable {model : Model} {e e' : Engine} {es es' : List Entry} {r : Rid} {k : Nat} {tok : Token}

def outputs (e : Engine) (es : List Entry) (r : Rid) : List Token := (e.request r).readyIds ++ inflightTokens es r

def truth (e : Engine) (es : List Entry) (r : Rid) : List Token := (e.request r).promptIds ++ e.outputs es r

def queued (e : Engine) : List Rid := e.scheduler.running ++ e.scheduler.waiting

structure Sound (model : Model) (e : Engine) (es : List Entry) : Prop where
  nodup : e.queued.Nodup
  requests : e.requests.Perm e.queued
  waits : ∀ r ∈ e.scheduler.waiting, Waits (e.request r) (e.caches r)
  runs : ∀ r ∈ e.scheduler.running, Runs (e.request r) (e.caches r) (e.outputs es r)
  gone : ∀ r, r ∉ e.queued → ((e.request r).isDone ∨ e.request r = Request.blank r) ∧ e.caches r = none
  told : ∀ r, Told model (e.request r) (e.outputs es r)
  pending : ∀ r, ¬ (e.request r).isDone → (e.request r).Pending (slotsOf es r)
  later : ∀ r, e.nextRid ≤ r → e.request r = Request.blank r ∧ r ∉ e.queued
  entries : ∀ x ∈ es, x.1 < e.nextRid ∧ 0 ≤ x.2.1

structure Own (model : Model) (e : Engine) (es : List Entry) (r : Rid) : Prop where
  waits : r ∈ e.scheduler.waiting → Waits (e.request r) (e.caches r)
  runs : r ∈ e.scheduler.running → Runs (e.request r) (e.caches r) (e.outputs es r)
  gone : r ∉ e.queued → ((e.request r).isDone ∨ e.request r = Request.blank r) ∧ e.caches r = none
  told : Told model (e.request r) (e.outputs es r)
  pending : ¬ (e.request r).isDone → (e.request r).Pending (slotsOf es r)
  known : r < e.nextRid

structure Others (e e' : Engine) (es es' : List Entry) (r : Rid) : Prop where
  request : ∀ x, x ≠ r → e'.request x = e.request x
  caches : ∀ x, x ≠ r → e'.caches x = e.caches x
  tokens : ∀ x, x ≠ r → inflightTokens es' x = inflightTokens es x
  slots : ∀ x, x ≠ r → slotsOf es' x = slotsOf es x
  running : ∀ x, x ≠ r → (x ∈ e'.scheduler.running ↔ x ∈ e.scheduler.running)
  waiting : ∀ x, x ≠ r → (x ∈ e'.scheduler.waiting ↔ x ∈ e.scheduler.waiting)
  nextRid : e.nextRid ≤ e'.nextRid

theorem Others.outputs (h : Others e e' es es' r) {x : Rid} (hx : x ≠ r) : e'.outputs es' x = e.outputs es x := by
  simp only [Engine.outputs, h.request x hx, h.tokens x hx]

theorem Others.queued (h : Others e e' es es' r) {x : Rid} (hx : x ≠ r) : x ∈ e'.queued ↔ x ∈ e.queued := by
  simp only [Engine.queued, List.mem_append, h.running x hx, h.waiting x hx]

theorem Sound.change (h : Sound model e es) (ho : Others e e' es es' r) (hr : Own model e' es' r)
    (hnodup : e'.queued.Nodup)
    (hreq : e'.requests.Perm e'.queued) (hes : ∀ x ∈ es', x.1 < e'.nextRid ∧ 0 ≤ x.2.1) : Sound model e' es' where
  nodup := hnodup
  requests := hreq
  waits := fun x hx => by
    by_cases he : x = r
    · subst he; exact hr.waits hx
    · rw [ho.request x he, ho.caches x he]
      exact h.waits x ((ho.waiting x he).mp hx)
  runs := fun x hx => by
    by_cases he : x = r
    · subst he; exact hr.runs hx
    · rw [ho.request x he, ho.caches x he, ho.outputs he]
      exact h.runs x ((ho.running x he).mp hx)
  gone := fun x hx => by
    by_cases he : x = r
    · subst he; exact hr.gone hx
    · rw [ho.request x he, ho.caches x he]
      exact h.gone x fun hm => hx ((ho.queued he).mpr hm)
  told := fun x => by
    by_cases he : x = r
    · subst he; exact hr.told
    · rw [ho.request x he, ho.outputs he]
      exact h.told x
  pending := fun x hd => by
    by_cases he : x = r
    · subst he; exact hr.pending hd
    · rw [ho.request x he] at hd ⊢
      rw [ho.slots x he]
      exact h.pending x hd
  later := fun x hx => by
    have he : x ≠ r := fun he => absurd hr.known (not_lt.mpr (he ▸ hx))
    obtain ⟨h1, h2⟩ := h.later x (ho.nextRid.trans hx)
    exact ⟨(ho.request x he).trans h1, fun hm => h2 ((ho.queued he).mp hm)⟩
  entries := hes

def leave (e : Engine) (r : Rid) (q : Request) : Engine :=
  { e with
    scheduler := { e.scheduler.set r q with
      running := e.scheduler.running.erase r
      waiting := e.scheduler.waiting.erase r }
    caches := Function.update e.caches r none
    requests := e.requests.erase r }

theorem retire_ok {q : Request} (hnodup : e.queued.Nodup) (hr : r ∈ e.requests) (hd : q.isDone) :
    Engine.retire { e with scheduler := e.scheduler.set r q } r = .ok (e.leave r q.dropPending) := by
  have hq : (e.scheduler.set r q).reqs r = q := Function.update_self ..
  have hset : (e.scheduler.set r q).set r ((e.scheduler.set r q).reqs r).dropPending =
      e.scheduler.set r q.dropPending := by
    rw [hq]
    exact Scheduler.set_set ..
  have hdone : ((e.scheduler.set r q.dropPending).reqs r).isDone := by
    show (Function.update e.scheduler.reqs r q.dropPending r).isDone
    rw [Function.update_self, Request.isDone, Request.dropPending_state]
    exact hd
  have hone : r ∈ (e.scheduler.set r q.dropPending).running → r ∉ (e.scheduler.set r q.dropPending).waiting :=
    fun hrun hw => (List.nodup_append.mp hnodup).2.2 r hrun r hw rfl
  simp only [retire, request]
  rw [hset, Scheduler.retire_ok hdone hone]
  exact if_pos hr

theorem leave_queued (hnodup : e.queued.Nodup) (q : Request) : (e.leave r q).queued = e.queued.erase r := by
  show e.scheduler.running.erase r ++ e.scheduler.waiting.erase r = _
  by_cases hrun : r ∈ e.scheduler.running
  · have hwait : r ∉ e.scheduler.waiting := fun hw => (List.nodup_append.mp hnodup).2.2 r hrun r hw rfl
    rw [List.erase_of_not_mem hwait, queued, List.erase_append_left _ hrun]
  · rw [List.erase_of_not_mem hrun, queued, List.erase_append_right _ hrun]

theorem leave_others {q : Request} (htok : ∀ x, x ≠ r → inflightTokens es' x = inflightTokens es x)
    (hslot : ∀ x, x ≠ r → slotsOf es' x = slotsOf es x) : Others e (e.leave r q) es es' r where
  request := fun _ hx => Function.update_of_ne hx ..
  caches := fun _ hx => Function.update_of_ne hx ..
  tokens := htok
  slots := hslot
  running := fun _ hx => List.mem_erase_of_ne hx
  waiting := fun _ hx => List.mem_erase_of_ne hx
  nextRid := le_rfl

theorem Sound.known (h : Sound model e es) (hr : r ∈ e.queued) : r < e.nextRid := by
  by_contra hle
  exact (h.later r (not_lt.mp hle)).2 hr

theorem Sound.leave (h : Sound model e es) {q : Request} (hr : r ∈ e.queued) (hd : q.isDone)
    (htold : Told model q q.outputIds)
    (htok : ∀ x, x ≠ r → inflightTokens es' x = inflightTokens es x) (hslot : ∀ x, x ≠ r → slotsOf es' x = slotsOf es x)
    (hes : ∀ x ∈ es', x.1 < e.nextRid ∧ 0 ≤ x.2.1) : Sound model (e.leave r q) es' := by
  have hq : (e.leave r q).request r = q := Function.update_self ..
  have hout : r ∉ (e.leave r q).queued := by
    rw [leave_queued h.nodup]
    exact h.nodup.not_mem_erase
  refine h.change (leave_others htok hslot) ?_ ?_ ?_ hes
  · refine ⟨fun hw => ?_, fun hw => ?_, fun _ => ?_, ?_, fun hn => ?_, h.known hr⟩
    · exact absurd (List.mem_append_right _ hw) hout
    · exact absurd (List.mem_append_left _ hw) hout
    · rw [hq]
      exact ⟨.inl hd, Function.update_self ..⟩
    · rw [hq]
      exact htold.congr fun hn => absurd hd hn
    · rw [hq] at hn
      exact absurd hd hn
  · rw [leave_queued h.nodup]
    exact h.nodup.erase r
  · rw [leave_queued h.nodup]
    exact h.requests.erase r

theorem Sound.running_of_pending (h : Sound model e es) (hd : ¬ (e.request r).isDone)
    (hp : (e.request r).numPending ≠ 0) :
    r ∈ e.scheduler.running := by
  by_contra hrun
  by_cases hw : r ∈ e.scheduler.waiting
  · exact hp (h.waits r hw).numPending
  · rcases (h.gone r fun hm => (List.mem_append.mp hm).elim hrun hw).1 with hdone | hb
    · exact hd hdone
    · rw [hb] at hp
      exact hp rfl

theorem Sound.pass {slot : Option Nat} (h : Sound model e ((r, tok, slot) :: es))
    (hs : slot = none ∨ (e.request r).isDone) :
    Sound model e es := by
  have htok : ¬ (e.request r).isDone → inflightTokens ((r, tok, slot) :: es) r = inflightTokens es r := fun hd =>
    inflightTokens_cons_none (hs.resolve_right hd)
  have hslot : ¬ (e.request r).isDone → slotsOf ((r, tok, slot) :: es) r = slotsOf es r := fun hd =>
    slotsOf_cons_none (hs.resolve_right hd)
  have hother : Others e e ((r, tok, slot) :: es) es r :=
    ⟨fun _ _ => rfl, fun _ _ => rfl, fun _ hx => (inflightTokens_cons_ne (Ne.symm hx)).symm,
      fun _ hx => (slotsOf_cons_ne (Ne.symm hx)).symm, fun _ _ => Iff.rfl, fun _ _ => Iff.rfl, le_rfl⟩
  refine h.change hother ⟨h.waits r, fun hrun => ?_, h.gone r, ?_, fun hd => ?_,
    (h.entries _ List.mem_cons_self).1⟩ h.nodup
    h.requests fun x hx => h.entries x (List.mem_cons_of_mem _ hx)
  · have hruns := h.runs r hrun
    have hd : ¬ (e.request r).isDone := by simp [Request.isDone, hruns.state]
    rw [outputs, htok hd] at hruns
    exact hruns
  · refine (h.told r).congr fun hd => ?_
    rw [outputs, outputs, htok hd]
  · rw [← hslot hd]
    exact h.pending r hd

structure ReadBack (e e' : Engine) : Prop where
  inflight : e'.inflight = e.inflight
  overlap : e'.overlap = e.overlap
  maxRunning : e'.scheduler.maxRunning = e.scheduler.maxRunning
  requests : ∀ x ∈ e'.requests, x ∈ e.requests
  length : ∀ x ∈ e'.requests, (e'.request x).outputIds.length = (e.request x).outputIds.length
  alike : ∀ x, Pool.Alike (e.request x) (e'.request x)
  ended : ∀ x, (e'.request x).state = (e.request x).state ∨ (e'.request x).state = .finished

theorem ReadBack.refl (e : Engine) : ReadBack e e :=
  ⟨rfl, rfl, rfl, fun _ h => h, fun _ _ => rfl, fun _ => ⟨rfl, rfl, rfl⟩, fun _ => .inl rfl⟩

theorem ReadBack.trans {e'' : Engine} (h : ReadBack e e') (h' : ReadBack e' e'') : ReadBack e e'' where
  inflight := h'.inflight.trans h.inflight
  overlap := h'.overlap.trans h.overlap
  maxRunning := h'.maxRunning.trans h.maxRunning
  requests := fun x hx => h.requests x (h'.requests x hx)
  length := fun x hx => (h'.length x hx).trans (h.length x (h'.requests x hx))
  alike := fun x => (h.alike x).trans (h'.alike x)
  ended := fun x => by
    rcases h'.ended x with hx | hx
    · rw [hx]
      exact h.ended x
    · exact .inr hx

theorem update_cases {P : Rid → Request → Prop} {f : Store} {q : Request} (h : P r q)
    (ho : ∀ x, x ≠ r → P x (f x)) (x : Rid) :
    P x (Function.update f r q x) := by
  by_cases hx : x = r
  · subst hx
    rw [Function.update_self]
    exact h
  · rw [Function.update_of_ne hx]
    exact ho x hx

theorem ReadBack.set {q : Request} (ha : Pool.Alike (e.request r) q)
    (hlen : q.outputIds.length = (e.request r).outputIds.length)
    (hst : q.state = (e.request r).state) : ReadBack e { e with scheduler := e.scheduler.set r q } where
  inflight := rfl
  overlap := rfl
  maxRunning := rfl
  requests := fun _ hx => hx
  length := fun x _ => update_cases
    (P := fun x q => q.outputIds.length = (e.request x).outputIds.length) hlen (fun _ _ => rfl) x
  alike := update_cases (P := fun x q => Pool.Alike (e.request x) q) ha fun _ _ => ⟨rfl, rfl, rfl⟩
  ended := update_cases (P := fun x q => q.state = (e.request x).state ∨ q.state = .finished)
    (.inl hst) fun _ _ => .inl rfl

theorem ReadBack.leave {q : Request} (hnodup : e.requests.Nodup) (ha : Pool.Alike (e.request r) q)
    (hst : q.state = .finished) :
    ReadBack e (e.leave r q) where
  inflight := rfl
  overlap := rfl
  maxRunning := rfl
  requests := fun _ hx => List.mem_of_mem_erase hx
  length := fun x hx => by
    have hne : x ≠ r := (hnodup.mem_erase_iff.mp hx).1
    exact congrArg (fun q : Request => q.outputIds.length) (Function.update_of_ne hne ..)
  alike := update_cases (P := fun x q => Pool.Alike (e.request x) q) ha fun _ _ => ⟨rfl, rfl, rfl⟩
  ended := update_cases (P := fun x q => q.state = (e.request x).state ∨ q.state = .finished)
    (.inr hst) fun _ _ => .inl rfl

theorem Sound.fill {q : Request} (h : Sound model e ((r, tok, some k) :: es)) (hd : ¬ (e.request r).isDone)
    (hq : q = (e.request r).filled k tok) (hgo : k + 1 < (e.request r).params.maxNewTokens)
    (hstop : tok ∉ (e.request r).params.stopTokenIds) :
    Sound model { e with scheduler := e.scheduler.set r q } es := by
  have hslots : slotsOf ((r, tok, some k) :: es) r = k :: slotsOf es r := slotsOf_cons_some ..
  have hpend := h.pending r hd
  rw [hslots] at hpend
  obtain ⟨hk, hpos⟩ := hpend.head
  have hrun := h.running_of_pending hd hpos.ne'
  have hruns := h.runs r hrun
  have hself : request { e with scheduler := e.scheduler.set r q } r = q := Function.update_self ..
  have hout : q.readyIds ++ inflightTokens es r = e.outputs ((r, tok, some k) :: es) r := by
    rw [hq, hpend.readyIds_filled, outputs, inflightTokens_cons_some, List.append_assoc, List.singleton_append]
  obtain ⟨hr, htok⟩ := h.entries _ List.mem_cons_self
  refine h.change (r := r) ⟨fun _ hx => Function.update_of_ne hx .., fun _ _ => rfl,
    fun _ hx => (inflightTokens_cons_ne (Ne.symm hx)).symm, fun _ hx => (slotsOf_cons_ne (Ne.symm hx)).symm,
    fun _ _ => Iff.rfl, fun _ _ => Iff.rfl, le_rfl⟩
    ?_ h.nodup h.requests fun x hx => h.entries x (List.mem_cons_of_mem _ hx)
  refine ⟨fun hw => ?_, fun _ => ?_, fun hn => ?_, ?_, fun _ => ?_, hr⟩
  · exact absurd rfl ((List.nodup_append.mp h.nodup).2.2 r hrun r hw)
  · rw [hself, outputs, hself, hout, hq]
    refine ⟨hruns.state, hruns.prompt, hruns.plain, ?_, fun h0 => ?_, hruns.cache⟩
    · intro hnil
      have hlen := congrArg List.length hnil
      rw [Request.filled, List.length_set] at hlen
      exact hruns.output (List.length_eq_zero_iff.mp hlen)
    · simp only [Request.filled, List.length_set] at h0 ⊢
      omega
  · exact absurd (List.mem_append_left _ hrun) hn
  · rw [hself, outputs, hself, hout, hq]
    exact (h.told r).filled hpend hd hstop
  · rw [hself, hq]
    exact hpend.filled htok

theorem Sound.finish {q : Request} (h : Sound model e ((r, tok, some k) :: es)) (hd : ¬ (e.request r).isDone)
    (hq : q = { ((e.request r).filled k tok).dropPending with state := .finished })
    (hend : (e.request r).params.maxNewTokens ≤ k + 1 ∨ tok ∈ (e.request r).params.stopTokenIds) :
    Sound model (e.leave r q) es := by
  have hslots : slotsOf ((r, tok, some k) :: es) r = k :: slotsOf es r := slotsOf_cons_some ..
  have hpend := h.pending r hd
  rw [hslots] at hpend
  have hrun := h.running_of_pending hd hpend.head.2.ne'
  have hids : q.outputIds = (e.request r).readyIds ++ [tok] := by
    rw [hq, ← hpend.readyIds_filled]
    exact Request.dropPending_outputIds
  have hout : e.outputs ((r, tok, some k) :: es) r = (e.request r).readyIds ++ tok :: inflightTokens es r := by
    rw [outputs, inflightTokens_cons_some]
  have halike : Pool.Alike (e.request r) q := by
    rw [hq]
    simp [Pool.Alike, Request.filled]
  have hmodel : q.outputIds = model.output q := by
    rw [hids, Model.output_alike halike]
    exact (h.told r).finishes hpend hd hout hend
  have hfin : q.state = .finished := by rw [hq]
  refine h.leave (List.mem_append_left _ hrun) (.inl hfin) ?_ (fun x hx => (inflightTokens_cons_ne (Ne.symm hx)).symm)
    (fun x hx => (slotsOf_cons_ne (Ne.symm hx)).symm) fun x hx => h.entries x (List.mem_cons_of_mem _ hx)
  refine ⟨fun hn => absurd (.inl hfin) hn, fun hn => absurd (.inl hfin) hn, fun hn => absurd (.inl hfin) hn,
    fun _ => hmodel, fun ha => ?_⟩
  rw [hfin] at ha
  cases ha

theorem Sound.processRow {slot : Option Nat} (h : Sound model e ((r, tok, slot) :: es)) :
    ∃ e', e.processRow r tok slot = .ok e' ∧ Sound model e' es ∧ ReadBack e e' := by
  cases slot with
  | none => exact ⟨e, rfl, h.pass (.inl rfl), .refl e⟩
  | some k =>
    by_cases hd : (e.request r).isDone
    · exact ⟨e, if_pos hd, h.pass (.inr hd), .refl e⟩
    have hslots : slotsOf ((r, tok, some k) :: es) r = k :: slotsOf es r := slotsOf_cons_some ..
    have hpend := h.pending r hd
    rw [hslots] at hpend
    have hrun := h.running_of_pending hd hpend.head.2.ne'
    have hin : r ∈ e.requests := h.requests.mem_iff.mpr (List.mem_append_left _ hrun)
    let q := (e.request r).filled k tok
    by_cases hend : k + 1 ≥ q.params.maxNewTokens ∨ tok ∈ q.params.stopTokenIds
    · have hstate : q.dropPending.state = .decode := by
        rw [Request.dropPending_state]
        exact (h.runs r hrun).state
      have htrans : q.dropPending.transition .finished = .ok { q.dropPending with state := .finished } :=
        Request.transition_ok (by rw [hstate]; decide)
      have hclean : ({ q.dropPending with state := .finished } : Request).dropPending =
          { q.dropPending with state := .finished } := Request.dropPending_of_none (Request.dropPending_numPending ..)
      have hretire := retire_ok (q := { q.dropPending with state := .finished }) h.nodup hin (.inl rfl)
      rw [hclean] at hretire
      refine ⟨_, ?_, h.finish hd rfl hend, ?_⟩
      · rw [Engine.processRow, if_neg hd]
        refine (if_pos hend).trans ?_
        simp only [q, Request.filled] at htrans hretire ⊢
        rw [htrans]
        exact hretire
      · exact .leave (h.requests.nodup_iff.mpr h.nodup) (by simp [Pool.Alike, Request.filled]) rfl
    · have hgo := not_or.mp hend
      refine ⟨_, ?_, h.fill hd rfl (not_le.mp hgo.1) hgo.2, ?_⟩
      · rw [Engine.processRow, if_neg hd]
        exact if_neg hend
      · exact .set ⟨rfl, rfl, rfl⟩ (List.length_set ..) rfl

theorem Sound.processRows {older newer : List Entry} (h : Sound model e (older ++ newer)) :
    ∃ e', Engine.processRows older e = .ok e' ∧ Sound model e' newer ∧ ReadBack e e' := by
  induction older generalizing e with
  | nil => exact ⟨e, rfl, h, .refl e⟩
  | cons x older ih =>
    obtain ⟨r, tok, slot⟩ := x
    obtain ⟨e1, hrow, h1, hb1⟩ := h.processRow
    obtain ⟨e2, hrows, h2, hb2⟩ := ih h1
    exact ⟨e2, by rw [Engine.processRows, hrow]; exact hrows, h2, hb1.trans hb2⟩

theorem Sound.readBack {newer : List Entry} (L : Option Launched) (h : Sound model e (inflightEntries L ++ newer)) :
    ∃ out e', e.readBack L = .ok (out, e') ∧ Sound model e' newer ∧ ReadBack e e' := by
  cases L with
  | none => exact ⟨none, e, rfl, h, .refl e⟩
  | some L =>
    obtain ⟨e', hrows, h', hb⟩ := h.processRows
    refine ⟨some L.batch, e', ?_, h', hb⟩
    simp only [Engine.readBack]
    rw [show Engine.processRows L.entries e = _ from hrows]

theorem Sound.abort (h : Sound model e es) (r : Rid) : ∃ e', e.abort r = .ok e' ∧ Sound model e' es ∧
    (e' = e ∨ ∃ q, e' = e.leave r q ∧ q.state = .aborted ∧ Pool.Alike (e.request r) q) := by
  by_cases hin : r ∈ e.requests
  · have hq : r ∈ e.queued := h.requests.mem_iff.mp hin
    have hstate : (e.request r).state = .waiting ∨ (e.request r).state = .decode :=
      (List.mem_append.mp hq).elim (fun hr => .inr (h.runs r hr).state) fun hw => .inl (h.waits r hw).state
    have hd : ¬ (e.request r).isDone := by
      rcases hstate with hs | hs <;> simp [Request.isDone, hs]
    have htrans : (e.request r).transition .aborted = .ok { e.request r with state := .aborted } :=
      Request.transition_ok (by rcases hstate with hs | hs <;> rw [hs] <;> decide)
    let q : Request := ({ e.request r with state := .aborted } : Request).dropPending
    have hst : q.state = .aborted := Request.dropPending_state
    have halike : Pool.Alike (e.request r) q := by simp [Pool.Alike, q]
    have hids : q.outputIds = (e.request r).readyIds := Request.dropPending_outputIds
    have hbegin : q.outputIds <+: model.output q := by
      rw [hids, Model.output_alike halike]
      exact (h.told r).ready_begins hd (List.prefix_append _ _)
    refine ⟨e.leave r q, ?_, ?_, .inr ⟨q, rfl, hst, halike⟩⟩
    · rw [Engine.abort, if_pos hin, htrans]
      exact retire_ok h.nodup hin (.inr rfl)
    · refine h.leave hq (.inr hst) ?_ (fun _ _ => rfl) (fun _ _ => rfl) h.entries
      refine ⟨fun hn => absurd (.inr hst) hn, fun hn => absurd (.inr hst) hn,
        fun hn => absurd (.inr hst) hn, fun hf => ?_,
        fun _ => hbegin⟩
      rw [hst] at hf
      cases hf
  · exact ⟨e, if_neg hin, h, .inl rfl⟩

theorem addRequest_cases (e : Engine) (prompt : List Token) (params : SamplingParams) :
    (prompt = [] ∧ e.addRequest prompt params = (.error .emptyPrompt, { e with nextRid := e.nextRid + 1 })) ∨
      ∃ q, prompt ≠ [] ∧
        q = { rid := e.nextRid, promptIds := prompt, params, seed := params.seed.getD (e.seeds e.drawn) } ∧
        e.addRequest prompt params = (.ok e.nextRid, { e with
          nextRid := e.nextRid + 1
          drawn := params.seed.elim (e.drawn + 1) fun _ => e.drawn
          requests := e.requests ++ [e.nextRid]
          scheduler := { e.scheduler.set e.nextRid q with waiting := e.scheduler.waiting ++ [e.nextRid] } }) := by
  by_cases hp : prompt = []
  · refine .inl ⟨hp, ?_⟩
    simp [addRequest, Request.new, hp]
  · refine .inr ⟨_, hp, rfl, ?_⟩
    simp only [addRequest, Request.new, if_neg hp, Scheduler.add]
    rw [if_neg (by simp)]
    cases params.seed <;> rfl

theorem Sound.rename {n d : Nat} (h : Sound model e es) (hn : e.nextRid ≤ n) :
    Sound model { e with nextRid := n, drawn := d } es :=
  ⟨h.nodup, h.requests, h.waits, h.runs, h.gone, h.told, h.pending, fun r hr => h.later r (hn.trans hr), fun x hx =>
    ⟨(h.entries x hx).1.trans_le hn, (h.entries x hx).2⟩⟩

theorem Sound.submit {q : Request} {d : Nat} (h : Sound model e es)
    (hq : q.state = .waiting ∧ q.outputIds = [] ∧ q.numPending = 0 ∧ q.numCachedTokens = 0) (hp : q.promptIds ≠ [])
    (hplain : Plain q.promptIds) :
    Sound model { e with
      nextRid := e.nextRid + 1
      drawn := d
      requests := e.requests ++ [e.nextRid]
      scheduler := { e.scheduler.set e.nextRid q with waiting := e.scheduler.waiting ++ [e.nextRid] } } es := by
  obtain ⟨hst, hout, hpend, hcached⟩ := hq
  obtain ⟨hblank, hnot⟩ := h.later e.nextRid le_rfl
  let e' : Engine := { e with
    nextRid := e.nextRid + 1
    drawn := d
    requests := e.requests ++ [e.nextRid]
    scheduler := { e.scheduler.set e.nextRid q with waiting := e.scheduler.waiting ++ [e.nextRid] } }
  have hself : e'.request e.nextRid = q := Function.update_self ..
  have hqueued : e'.queued = e.queued.concat e.nextRid := by
    rw [List.concat_eq_append]
    exact (List.append_assoc ..).symm
  have hslots : slotsOf es e.nextRid = [] := by
    have hlen := (h.pending e.nextRid (by rw [hblank]; simp [Request.blank, Request.isDone])).length
    rw [hblank] at hlen
    exact List.length_eq_zero_iff.mp hlen
  have htoks : inflightTokens es e.nextRid = [] := by
    have hlen := inflightTokens_length es e.nextRid
    rw [hslots] at hlen
    exact List.length_eq_zero_iff.mp hlen
  have houts : e'.outputs es e.nextRid = [] := by simp [outputs, hself, htoks, Request.readyIds, hout]
  have hd : ¬ q.isDone := by simp [Request.isDone, hst]
  show Sound model e' es
  refine h.change (r := e.nextRid)
    ⟨fun _ hx => Function.update_of_ne hx .., fun _ _ => rfl, fun _ _ => rfl, fun _ _ => rfl,
    fun _ _ => Iff.rfl, fun x hx => ?_, Nat.le_succ _⟩ ⟨fun _ => ?_, fun hr => ?_, fun hn => ?_, ?_, fun _ => ?_,
    Nat.lt_succ_self _⟩ ?_ ?_ fun x hx => ?_
  · show x ∈ e.scheduler.waiting ++ [e.nextRid] ↔ _
    rw [List.mem_append, List.mem_singleton, or_iff_left hx]
  · rw [hself]
    exact ⟨hst, hp, hplain, hout, hpend, hcached, (h.gone _ hnot).2⟩
  · exact absurd (List.mem_append_left _ hr) hnot
  · rw [hqueued] at hn
    exact absurd (by simp) hn
  · rw [hself, houts]
    refine ⟨fun _ => ?_, fun _ => ?_, fun _ => ?_, fun hf => absurd (.inl hf) hd, fun ha => absurd (.inr ha) hd⟩
    · rw [hout]
      rfl
    · rw [hout]
      exact Nat.zero_le _
    · simp [Request.readyIds, hout]
  · rw [hself, hslots]
    exact ⟨[], by simp [hout, hpend], by simp, by simp [hpend]⟩
  · rw [hqueued]
    exact h.nodup.concat hnot
  · rw [hqueued, List.concat_eq_append]
    exact h.requests.append_right _
  · exact ⟨(h.entries x hx).1.trans (Nat.lt_succ_self _), (h.entries x hx).2⟩

end Engine

end Contiguous

end MiniServe
