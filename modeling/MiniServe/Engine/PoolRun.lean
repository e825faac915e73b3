import MiniServe.Engine.PoolMoves
import Mathlib.Logic.Relation

namespace MiniServe

open KVCacheManager

namespace Pool

variable {p p' : Pool} {r : Rid} {q : Request} {kv' : KVCacheManager} {sample : Option (Rid → Token)}

section Queue

theorem Sound.queuePart (hs : p.Sound) (hother : ∀ x, x ≠ r → p'.reqs x = p.reqs x)
    (hnd : (p'.live ++ p'.waiting).Nodup) (hw : ∀ x ∈ p'.waiting, x ≠ r → x ∈ p.waiting)
    (hl : ∀ x, x ≠ r → (x ∈ p'.live ↔ x ∈ p.live)) (ho : ∀ row, row.rid ≠ r → (row ∈ p'.opened ↔ row ∈ p.opened))
    (hond : (p'.opened.map Row.rid).Nodup) (hqueued : r ∈ p'.waiting → (p'.reqs r).Queued)
    (hactive : r ∈ p'.live → r ∉ p'.opened.map Row.rid → (p'.reqs r).Active)
    (hgone : (∀ x ∈ p.waiting, x ≠ r → x ∈ p'.waiting) ∧ (r ∈ p'.live ++ p'.waiting ∨ (p'.reqs r).isDone))
    (hopened : ∀ row ∈ p'.opened, row.rid = r → r ∈ p'.live ∧ (p'.reqs r).Opened row) : p'.QueuePart where
  nodup := hnd
  opened_nodup := hond
  queued := fun x hx => by
    by_cases e : x = r
    · subst e; exact hqueued hx
    · rw [hother x e]; exact hs.queued x (hw x hx e)
  active := fun x hx hxo => by
    by_cases e : x = r
    · subst e; exact hactive hx hxo
    · rw [hother x e]
      refine hs.active x ((hl x e).mp hx) fun h => hxo ?_
      obtain ⟨row, hrow, rfl⟩ := List.mem_map.mp h
      exact List.mem_map_of_mem ((ho row e).mpr hrow)
  gone := fun x hx => by
    by_cases e : x = r
    · subst e; exact .inl (hgone.2.resolve_left hx)
    · rw [hother x e]
      refine hs.gone x fun h => hx ?_
      rcases List.mem_append.mp h with h | h
      · exact List.mem_append_left _ ((hl x e).mpr h)
      · exact List.mem_append_right _ (hgone.1 x h e)
  opened := fun row hrow => by
    by_cases e : row.rid = r
    · rw [e]; exact hopened row hrow e
    · obtain ⟨h1, h2⟩ := hs.opened row ((ho row e).mp hrow)
      rw [hother _ e]
      exact ⟨(hl _ e).mpr h1, h2⟩

theorem Sound.queue_congr (hs : p.Sound) (hr : p'.reqs = p.reqs) (hl : p'.live = p.live) (hw : p'.waiting = p.waiting)
    (ho : p'.opened = p.opened) : p'.QueuePart := by
  refine ⟨?_, ?_, ?_, ?_, ?_, ?_⟩
  · rw [hl, hw]; exact hs.nodup
  · rw [hr, hw]; exact hs.queued
  · rw [hr, hl, ho]; exact hs.active
  · rw [hr, hl, ho]; exact hs.opened
  · rw [ho]; exact hs.opened_nodup
  · rw [hr, hl, hw]; exact hs.gone

theorem row_ne {row : Row} {rest : List Row} (ho : p.opened = row :: rest) :
    ∀ x : Row, x.rid ≠ row.rid → (x ∈ rest ↔ x ∈ p.opened) := by
  intro x hx
  rw [ho, List.mem_cons]
  exact ⟨.inr, fun h => h.resolve_left fun e => hx (e ▸ rfl)⟩

theorem Sound.head_row (hs : p.Sound) {row : Row} {rest : List Row} (ho : p.opened = row :: rest) :
    row.rid ∈ p.live ∧ (p.reqs row.rid).Opened row ∧ row.rid ∉ rest.map Row.rid ∧ (rest.map Row.rid).Nodup := by
  have hrow := hs.opened row (ho ▸ List.mem_cons_self)
  have hnd := hs.opened_nodup
  rw [ho, List.map_cons, List.nodup_cons] at hnd
  exact ⟨hrow.1, hrow.2, hnd.1, hnd.2⟩

theorem Sound.rest_row (hs : p.Sound) {row : Row} {rest : List Row} (ho : p.opened = row :: rest) :
    ∀ x ∈ rest, x ∈ p.opened ∧ x.rid ≠ row.rid := by
  intro x hx
  obtain ⟨-, -, hn, -⟩ := hs.head_row ho
  exact ⟨ho ▸ List.mem_cons_of_mem _ hx, fun e => hn (e ▸ List.mem_map_of_mem hx)⟩

theorem Sound.queue_settle {row : Row} {rest : List Row} {newer : List Entry} (hs : p.Sound)
    (ho : p.opened = row :: rest) (hact : q.Active) :
    QueuePart { p.put row.rid kv' q with opened := rest, newer := newer } := by
  obtain ⟨hl, -, hnr, hnd⟩ := hs.head_row ho
  have hw : row.rid ∉ p.waiting := fun h => hs.not_mem_live h hl
  refine hs.queuePart (fun x hx => Function.update_of_ne hx _ _) hs.nodup (fun x hx _ => hx) (fun _ _ => Iff.rfl)
    (row_ne ho) hnd (fun h => absurd h hw) (fun _ _ => ?_)
    ⟨fun _ h _ => h, .inl (List.mem_append_left _ hl)⟩ fun x hx e => ?_
  · simpa using hact
  · exact absurd (e ▸ List.mem_map_of_mem hx) hnr

theorem Sound.queue_settle_chunk {row : Row} {rest : List Row} {node : Option Nat} {newer : List Entry} (hs : p.Sound)
    (ho : p.opened = row :: rest) (hpre : (p.reqs row.rid).state = .prefill)
    (hlt : row.start + row.len < (p.reqs row.rid).seqLen) :
    QueuePart { p.put row.rid kv' { p.reqs row.rid with cacheNode := node } with opened := rest, newer := newer } := by
  obtain ⟨-, hop, -, -⟩ := hs.head_row ho
  refine hs.queue_settle ho ⟨hop.prompt, fun _ => hop.room, .inl ⟨hpre, ?_, ?_⟩⟩
  · have := hop.covered
    show (p.reqs row.rid).covered < (p.reqs row.rid).seqLen
    omega
  · rcases hop.phase with h | h
    · exact h.2.2
    · rw [hpre] at h; simp at h

theorem Sound.queue_settle_first {row : Row} {rest : List Row} {node : Option Nat} {newer : List Entry} (hs : p.Sound)
    (ho : p.opened = row :: rest) (heq : row.start + row.len = (p.reqs row.rid).seqLen) :
    QueuePart { p.put row.rid kv' { (p.reqs row.rid).sampled with state := .decode, cacheNode := node } with
      opened := rest
      newer := newer } := by
  obtain ⟨-, hop, -, -⟩ := hs.head_row ho
  refine hs.queue_settle ho ⟨hop.prompt, fun h => ?_, .inr ⟨rfl, ?_, ?_⟩⟩
  · simp [Request.sampled] at h
  · have := hop.covered
    show (p.reqs row.rid).covered + 1 = (p.reqs row.rid).sampled.seqLen
    rw [Request.seqLen_sampled]
    omega
  · simp [Request.sampled]

theorem Sound.queue_settle_again {row : Row} {rest : List Row} {newer : List Entry} (hs : p.Sound)
    (ho : p.opened = row :: rest) (hdec : (p.reqs row.rid).state = .decode) (hlen : row.len = 1) :
    QueuePart { p.put row.rid kv' (p.reqs row.rid).sampled with opened := rest, newer := newer } := by
  obtain ⟨-, hop, -, -⟩ := hs.head_row ho
  refine hs.queue_settle ho ⟨hop.prompt, fun h => ?_, .inr ⟨hdec, ?_, ?_⟩⟩
  · simp [Request.sampled] at h
  · have := hop.covered
    rcases hop.phase with h | h
    · rw [hdec] at h; simp at h
    · show (p.reqs row.rid).covered + 1 = (p.reqs row.rid).sampled.seqLen
      rw [Request.seqLen_sampled]
      omega
  · simp [Request.sampled]

theorem Sound.queue_fill {tok : Token} {k : Nat} {rest : List Entry} (hs : p.Sound)
    (ho : p.older = (r, tok, some k) :: rest) (hop : p.opened = []) (hd : ¬ (p.reqs r).isDone)
    (hr : r ∈ p.live ++ p.waiting) (hk : k + 1 < (p.reqs r).params.maxNewTokens) :
    QueuePart { p.put r p.kv ((p.reqs r).filled k tok) with older := rest } := by
  have hp := hs.pending r hd
  rw [ho, List.cons_append, slotsOf_cons_some] at hp
  obtain ⟨hlen, hpos⟩ := hp.head
  have hroom : ((p.reqs r).filled k tok).numPending = 0 →
      ((p.reqs r).filled k tok).outputIds.length < (p.reqs r).params.maxNewTokens := by
    intro h
    simp only [Request.filled, List.length_set] at h ⊢
    omega
  refine hs.queuePart (fun x hx => Function.update_of_ne hx _ _) hs.nodup (fun x hx _ => hx) (fun _ _ => Iff.rfl)
    (fun _ _ => Iff.rfl) hs.opened_nodup (fun hw => ?_) (fun hl _ => ?_) ⟨fun _ h _ => h, .inl hr⟩
    fun x hx => ?_
  · obtain ⟨h1, h2, -⟩ := hs.queued r hw
    simp only [put_self]
    exact ⟨h1, h2, hroom⟩
  · have hact := hs.active r hl (by simp [hop])
    simp only [put_self]
    refine ⟨hact.prompt, hroom, .inr ?_⟩
    rcases hact.phase with h | ⟨h1, h2, h3⟩
    · omega
    · refine ⟨h1, ?_, ?_⟩
      · rw [Request.seqLen_filled]; exact h2
      · simpa [Request.filled] using h3
  · simp only [put_opened, hop, List.not_mem_nil] at hx

theorem Sound.queue_leave {older : List Entry} {opened : List Row} (hs : p.Sound)
    (ho : ∀ row, row.rid ≠ r → (row ∈ opened ↔ row ∈ p.opened)) (hn : r ∉ opened.map Row.rid)
    (hnd : (opened.map Row.rid).Nodup) (hq : q.isDone) : QueuePart { p.leave r kv' q older with opened := opened } := by
  have hl : r ∉ p.live.erase r := hs.kv.nodup.not_mem_erase
  have hw : r ∉ p.waiting.erase r := (List.nodup_append.mp hs.nodup).2.1.not_mem_erase
  refine hs.queuePart (fun x hx => Function.update_of_ne hx _ _) ?_ (fun x hx _ => List.mem_of_mem_erase hx)
    (fun x hx => List.mem_erase_of_ne hx) ho hnd (fun h => absurd h hw)
    (fun h => absurd h hl) ⟨fun x h e => (List.mem_erase_of_ne e).mpr h, .inr ?_⟩ fun x hx e => ?_
  · exact hs.nodup.sublist (List.erase_sublist.append List.erase_sublist)
  · simpa [leave, Request.isDone, Request.dropped] using hq
  · exact absurd (e ▸ List.mem_map_of_mem hx) hn

theorem Move.queuePart (hs : p.Sound) (h : Move sample p p') : p'.QueuePart := by
  cases h with
  | @submit r q hb hr hq =>
    have hnd : (p.live ++ (p.waiting ++ [r])).Nodup := by
      rw [← List.append_assoc]
      simpa using List.Nodup.concat hr hs.nodup
    refine hs.queuePart (fun x hx => Function.update_of_ne hx _ _) hnd (fun x hx e => ?_) (fun _ _ => Iff.rfl)
      (fun _ _ => Iff.rfl) hs.opened_nodup (fun _ => ?_) (fun h _ => ?_)
      ⟨fun x h _ => List.mem_append_left _ h, .inl (by simp)⟩ fun x hx e => ?_
    · exact (List.mem_append.mp hx).resolve_right (by simpa using e)
    · simp only [put_self]
      refine ⟨hq.state, hq.prompt, fun _ => ?_⟩
      rw [hq.output]
      exact q.params.maxNewTokens_pos
    · exact absurd (List.mem_append_left _ h) hr
    · exact absurd (List.mem_append_left _ (e ▸ (hs.opened x hx).1)) hr
  | @lookup r kv1 kv2 blocks node hr h1 h2 =>
    have hl := hs.not_mem_live hr
    refine hs.queuePart (fun x hx => Function.update_of_ne hx _ _) hs.nodup (fun x hx _ => hx) (fun _ _ => Iff.rfl)
      (fun _ _ => Iff.rfl) hs.opened_nodup (fun _ => ?_) (fun h _ => absurd h hl)
      ⟨fun _ h _ => h, .inl (List.mem_append_right _ hr)⟩ fun x hx e => ?_
    · simp only [put_self]
      exact hs.queued r hr
    · exact absurd (e ▸ (hs.opened x hx).1) hl
  | @enter r kv' blocks node hr hn h =>
    have hl := hs.not_mem_live hr
    have hnd : ((p.live ++ [r]) ++ p.waiting.erase r).Nodup := by
      have hperm : (p.live ++ p.waiting).Perm ((p.live ++ [r]) ++ p.waiting.erase r) := by
        rw [List.append_assoc]
        exact (List.perm_cons_erase hr).append_left p.live
      exact hperm.nodup_iff.mp hs.nodup
    refine hs.queuePart (fun x hx => Function.update_of_ne hx _ _) hnd (fun x hx _ => List.mem_of_mem_erase hx)
      (fun x hx => by simp [hx]) (fun _ _ => Iff.rfl) hs.opened_nodup (fun hw => ?_) (fun _ _ => ?_)
      ⟨fun x h e => (List.mem_erase_of_ne e).mpr h, .inl (by simp)⟩ fun x hx e => ?_
    · exact absurd hw (List.nodup_append.mp hs.nodup).2.1.not_mem_erase
    · obtain ⟨h1, h2, h3⟩ := hs.queued r hr
      simp only [put_self]
      refine ⟨h2, h3, .inl ⟨rfl, ?_, hn⟩⟩
      have hb := h.bound
      have : 0 < (p.reqs r).promptIds.length := List.length_pos_iff.mpr h2
      show blocks.length * p.kv.blockSize < (p.reqs r).seqLen
      simp only [Request.seqLen] at hb ⊢
      omega
    · exact absurd (e ▸ (hs.opened x hx).1) hl
  | @preempt r kv' hr ho hn h =>
    have hl : r ∉ p.live.erase r := hs.kv.nodup.not_mem_erase
    have hnd : (p.live.erase r ++ r :: p.waiting).Nodup := by
      have hperm : (p.live ++ p.waiting).Perm (p.live.erase r ++ r :: p.waiting) :=
        ((List.perm_cons_erase hr).append_right p.waiting).trans List.perm_middle.symm
      exact hperm.nodup_iff.mp hs.nodup
    refine hs.queuePart (fun x hx => Function.update_of_ne hx _ _) hnd (fun x hx e => ?_)
      (fun x hx => List.mem_erase_of_ne hx) (fun _ _ => Iff.rfl) hs.opened_nodup (fun _ => ?_)
      (fun h _ => absurd h hl) ⟨fun x h _ => List.mem_cons_of_mem _ h, .inl (by simp)⟩ fun x hx e => ?_
    · exact (List.mem_cons.mp hx).resolve_left e
    · have hact := hs.active r hr ho
      simp only [put_self]
      exact ⟨rfl, hact.prompt, hact.room⟩
    · exact absurd (e ▸ List.mem_map_of_mem hx) ho
  | evict h => exact hs.queue_congr rfl rfl rfl rfl
  | @extend row kv' tb tb' hf hr ho hn hc hstart hpos hroom hpre h =>
    have hw : row.rid ∉ p.waiting := fun h => hs.not_mem_live h hr
    have hact := hs.active _ hr ho
    have hond : ((p.opened ++ [row]).map Row.rid).Nodup := by
      rw [List.map_append]
      simpa using List.Nodup.concat ho hs.opened_nodup
    refine hs.queuePart (fun x hx => Function.update_of_ne hx _ _) hs.nodup (fun x hx _ => hx) (fun _ _ => Iff.rfl)
      (fun x hx => ?_) hond (fun h => absurd h hw) (fun _ h => ?_) ⟨fun _ h _ => h, .inl (List.mem_append_left _ hr)⟩
      fun x hx e => ?_
    · rw [List.mem_append, List.mem_singleton]
      exact or_iff_left fun e => hx (e ▸ rfl)
    · simp at h
    · have hx : x = row := by
        rcases List.mem_append.mp hx with hx | hx
        · exact absurd (e ▸ List.mem_map_of_mem hx) ho
        · exact List.mem_singleton.mp hx
      subst hx
      refine ⟨hr, ?_⟩
      simp only [put_self]
      refine ⟨hact.prompt, hroom, ?_, hpos, ?_⟩
      · show tb'.numTokens = x.start + x.len
        rw [h.numTokens, hstart]
      · rcases hact.phase with ⟨h1, -, h3⟩ | ⟨h1, h2, h3⟩
        · exact .inl ⟨h1, hpre h1, h3⟩
        · refine .inr ⟨h1, ?_, h3⟩
          simp only [Request.covered, hc] at h2
          rw [← hstart]
          exact h2
  | chunk hf ho hpre hlt htok h => exact hs.queue_settle_chunk ho hpre hlt
  | first hf ho hpre heq htok h => exact hs.queue_settle_first ho heq
  | again hf ho hdec hlen htok => exact hs.queue_settle_again ho hdec hlen
  | skip ho h => exact hs.queue_congr rfl rfl rfl rfl
  | fill ho hop hd hr hk hst => exact hs.queue_fill ho hop hd (List.mem_append.mpr hr) hk
  | finish ho hop hd hr hk h => exact hs.queue_leave (fun _ _ => Iff.rfl) (by simp [hop]) hs.opened_nodup (.inl rfl)
  | abort hop hr h => exact hs.queue_leave (fun _ _ => Iff.rfl) (by simp [hop]) hs.opened_nodup (.inr rfl)
  | turn ho hop => exact hs.queue_congr rfl rfl rfl rfl

end Queue

section Flight

theorem Sound.flightPart (hs : p.Sound) (hother : ∀ x, x ≠ r → p'.reqs x = p.reqs x)
    (hslots : ∀ x, x ≠ r → slotsOf (p'.older ++ p'.newer) x = slotsOf (p.older ++ p.newer) x)
    (hself : ¬ (p'.reqs r).isDone → (p'.reqs r).Pending (slotsOf (p'.older ++ p'.newer) r))
    (ho : (p'.older.map Prod.fst).Nodup) (hn : ((p'.newer.map Prod.fst) ++ p'.opened.map Row.rid).Nodup)
    (hpos : ∀ x ∈ p'.older ++ p'.newer, 0 ≤ x.2.1) : p'.FlightPart where
  pending := fun x hx => by
    by_cases e : x = r
    · subst e; exact hself hx
    · rw [hother x e] at hx ⊢
      rw [hslots x e]
      exact hs.pending x hx
  older_once := ho
  newer_once := hn
  nonneg := hpos

theorem Sound.flight_same (hs : p.Sound) (hother : ∀ x, x ≠ r → p'.reqs x = p.reqs x) (ho : p'.older = p.older)
    (hn : p'.newer = p.newer) (hop : p'.opened = p.opened)
    (hself : ¬ (p'.reqs r).isDone → (p'.reqs r).Pending (slotsOf (p.older ++ p.newer) r)) : p'.FlightPart := by
  refine hs.flightPart hother (fun x _ => ?_) (fun h => ?_) ?_ ?_ ?_
  · rw [ho, hn]
  · rw [ho, hn]; exact hself h
  · rw [ho]; exact hs.older_once
  · rw [hn, hop]; exact hs.newer_once
  · rw [ho, hn]; exact hs.nonneg

theorem Sound.flight_settle {row : Row} {rest : List Row} {tok : Token} {slot : Option Nat} (hs : p.Sound)
    (ho : p.opened = row :: rest) (htok : 0 ≤ tok)
    (hself : ¬ q.isDone → q.Pending (slotsOf (p.older ++ p.newer) row.rid ++ slot.toList)) :
    FlightPart { p.put row.rid kv' q with opened := rest, newer := p.newer ++ [(row.rid, tok, slot)] } := by
  refine hs.flightPart (fun x hx => Function.update_of_ne hx _ _) (fun x hx => ?_) (fun h => ?_) hs.older_once ?_ ?_
  · show slotsOf (p.older ++ (p.newer ++ [_])) x = _
    rw [← List.append_assoc]
    exact slotsOf_concat_ne (Ne.symm hx)
  · simp only [put_self] at h ⊢
    show q.Pending (slotsOf (p.older ++ (p.newer ++ [_])) row.rid)
    rw [← List.append_assoc, slotsOf_append]
    have e : slotsOf [(row.rid, tok, slot)] row.rid = slot.toList := by cases slot <;> simp [slotsOf]
    rw [e]
    exact hself h
  · have := hs.newer_once
    rw [ho] at this
    simpa using this
  · intro x hx
    show 0 ≤ x.2.1
    have hx : x ∈ (p.older ++ p.newer) ++ [(row.rid, tok, slot)] := by rw [List.append_assoc]; exact hx
    rcases List.mem_append.mp hx with hx | hx
    · exact hs.nonneg x hx
    · rw [List.mem_singleton.mp hx]; exact htok

theorem Sound.flight_pop {x : Entry} {rest : List Entry} (hs : p.Sound) (ho : p.older = x :: rest) :
    (rest.map Prod.fst).Nodup ∧ ∀ y ∈ rest ++ p.newer, 0 ≤ y.2.1 := by
  have h1 := hs.older_once
  rw [ho, List.map_cons, List.nodup_cons] at h1
  refine ⟨h1.2, fun y hy => hs.nonneg y ?_⟩
  rw [ho]
  exact List.mem_cons_of_mem _ hy

theorem Sound.flight_fill {tok : Token} {k : Nat} {rest : List Entry} {live waiting : List Rid} (hs : p.Sound)
    (ho : p.older = (r, tok, some k) :: rest)
    (hself : ¬ q.isDone → q.Pending (slotsOf (rest ++ p.newer) r)) :
    FlightPart { p.put r kv' q with live := live, waiting := waiting, older := rest } := by
  obtain ⟨h1, h2⟩ := hs.flight_pop ho
  refine hs.flightPart (fun x hx => Function.update_of_ne hx _ _) (fun x hx => ?_) (fun h => ?_) h1 hs.newer_once h2
  · show slotsOf (rest ++ p.newer) x = _
    rw [ho, List.cons_append]
    exact (slotsOf_cons_ne (Ne.symm hx)).symm
  · simp only [put_self] at h ⊢
    exact hself h

theorem Move.flightPart (hs : p.Sound) (h : Move sample p p') : p'.FlightPart := by
  cases h with
  | @submit r q hb hr hq =>
    refine hs.flight_same (fun x hx => Function.update_of_ne hx _ _) rfl rfl rfl fun _ => ?_
    have hp := (hs.pending r (by simp [hb, Request.blank, Request.isDone])).length
    simp only [put_self]
    rw [List.length_eq_zero_iff.mp (hp.trans (by simp [hb, Request.blank]))]
    exact ⟨[], by simp [hq.output, hq.numPending], by simp, by simp [hq.numPending]⟩
  | @lookup r kv1 kv2 blocks node hr h1 h2 =>
    refine hs.flight_same (fun x hx => Function.update_of_ne hx _ _) rfl rfl rfl fun _ => ?_
    simp only [put_self]
    exact hs.pending r (hs.not_done (.inr hr))
  | @enter r kv' blocks node hr hn h =>
    refine hs.flight_same (fun x hx => Function.update_of_ne hx _ _) rfl rfl rfl fun _ => ?_
    simp only [put_self]
    exact hs.pending r (hs.not_done (.inr hr))
  | @preempt r kv' hr ho hn h =>
    refine hs.flight_same (fun x hx => Function.update_of_ne hx _ _) rfl rfl rfl fun _ => ?_
    simp only [put_self]
    exact hs.pending r (hs.not_done (.inl hr))
  | evict h => exact ⟨hs.pending, hs.older_once, hs.newer_once, hs.nonneg⟩
  | @extend row kv' tb tb' hf hr ho hn hc hstart hpos hroom hpre h =>
    refine hs.flightPart (fun x hx => Function.update_of_ne hx _ _) (fun _ _ => rfl) (fun _ => ?_) hs.older_once ?_
      hs.nonneg
    · simp only [put_self]
      exact hs.pending row.rid (hs.not_done (.inl hr))
    · show (p.newer.map Prod.fst ++ (p.opened ++ [row]).map Row.rid).Nodup
      rw [List.map_append, ← List.append_assoc]
      have hx : row.rid ∉ p.newer.map Prod.fst ++ p.opened.map Row.rid := fun h => (List.mem_append.mp h).elim hn ho
      simpa using List.Nodup.concat hx hs.newer_once
  | @chunk row rest kv' node f hf ho hpre hlt htok h =>
    obtain ⟨hl, -⟩ := hs.head_row ho
    refine hs.flight_settle ho htok fun _ => ?_
    rw [Option.toList_none, List.append_nil]
    exact hs.pending row.rid (hs.not_done (.inl hl))
  | @first row rest kv' node f hf ho hpre heq htok h =>
    obtain ⟨hl, -⟩ := hs.head_row ho
    exact hs.flight_settle ho htok fun _ => (hs.pending row.rid (hs.not_done (.inl hl))).sampled
  | @again row rest f hf ho hdec hlen htok =>
    obtain ⟨hl, -⟩ := hs.head_row ho
    exact hs.flight_settle ho htok fun _ => (hs.pending row.rid (hs.not_done (.inl hl))).sampled
  | @skip x rest ho h =>
    obtain ⟨h1, h2⟩ := hs.flight_pop ho
    refine ⟨fun r hr => ?_, h1, hs.newer_once, h2⟩
    have hp := hs.pending r hr
    rw [ho, List.cons_append] at hp
    rcases h with h | h
    · rwa [slotsOf_cons_none h] at hp
    · have hne : x.1 ≠ r := fun e => hr (by rw [← e]; exact h)
      rwa [slotsOf_cons_ne hne] at hp
  | @fill r tok k rest ho hop hd hr hk hst =>
    refine hs.flight_fill ho fun _ => ?_
    have hp := hs.pending r hd
    rw [ho, List.cons_append, slotsOf_cons_some] at hp
    exact hp.filled (hs.nonneg _ (by rw [ho]; exact List.mem_cons_self))
  | @finish r tok k rest kv' ho hop hd hr hk h =>
    exact hs.flight_fill ho fun hq => absurd (.inl rfl) hq
  | @abort r kv' hop hr h =>
    refine hs.flight_same (fun x hx => Function.update_of_ne hx _ _) rfl rfl rfl fun hq => ?_
    exact absurd (.inr (by simp [leave, put, Request.dropped])) hq
  | turn ho hop =>
    refine ⟨fun r hr => ?_, ?_, ?_, fun x hx => ?_⟩
    · have := hs.pending r hr
      rw [ho, List.nil_append] at this
      simpa using this
    · exact (List.nodup_append.mp hs.newer_once).1
    · simp [hop]
    · refine hs.nonneg x ?_
      simpa [ho] using hx

end Flight

theorem Move.kvPart (hs : p.Sound) (h : Move sample p p') : p'.KVPart := by
  cases h with
  | submit hb hr hq => exact hs.kv_submit hr hq
  | lookup hr h1 h2 => exact hs.kv_lookup hr h1 h2
  | enter hr hn h => exact hs.kv_enter hr hn h
  | preempt hr ho hn h => exact hs.kv_preempt ho h
  | evict h => exact hs.kv_evict h
  | extend hf hr ho hn hc hstart hpos hroom hpre h => exact hs.kv_extend hr ho hc hstart h
  | chunk hf ho hpre hlt htok h =>
    obtain ⟨hl, hop, -⟩ := hs.head_row ho
    refine hs.kv_commit hl (Function.update_eq_self _ _).symm rfl rfl id (hs.rest_row ho) ?_ h
    have h1 := hop.covered
    rcases hop.phase with h2 | h2
    · omega
    · rw [hpre] at h2; simp at h2
  | @first row rest kv' node f hf ho hpre heq htok h =>
    obtain ⟨hl, hop, -⟩ := hs.head_row ho
    refine hs.kv_commit (q := { (p.reqs row.rid).sampled with state := .decode }) hl rfl rfl rfl (fun h => ?_)
      (hs.rest_row ho) ?_ h
    · simp at h
    · have h1 := hop.covered
      show (p.reqs row.rid).covered + ((p.reqs row.rid).numPending + 1) ≤ (p.reqs row.rid).sampled.seqLen
      rw [Request.seqLen_sampled]
      rcases hop.phase with h2 | h2
      · omega
      · rw [hpre] at h2; simp at h2
  | again hf ho hdec hlen htok => exact hs.kv_sampled (hs.head_row ho).1 (by rw [ho]; exact List.subset_cons_self _ _)
  | skip ho h => exact ⟨hs.kv, hs.path, hs.exact, hs.fresh⟩
  | fill ho hop hd hr hk hst => exact hs.kv_fill ho hd
  | finish ho hop hd hr hk h => exact hs.kv_leave (by simp [hop]) h
  | abort hop hr h => exact hs.kv_leave (by simp [hop]) h
  | turn ho hop => exact ⟨hs.kv, hs.path, hs.exact, hs.fresh⟩

theorem Move.sound (hs : p.Sound) (h : Move sample p p') : p'.Sound :=
  Sound.of_parts (h.kvPart hs) (h.queuePart hs) (h.flightPart hs)

def Moves (sample : Option (Rid → Token)) : Pool → Pool → Prop := Relation.ReflTransGen (Move sample)

theorem Moves.refl (p : Pool) : Moves sample p p := Relation.ReflTransGen.refl

theorem Moves.trans {p'' : Pool} (h1 : Moves sample p p') (h2 : Moves sample p' p'') : Moves sample p p'' :=
  Relation.ReflTransGen.trans h1 h2

theorem Move.moves (h : Move sample p p') : Moves sample p p' := Relation.ReflTransGen.single h

-- The rule for whole runs: what every move preserves of a sound pool holds after any number of moves.
theorem Moves.invariant {I : Pool → Prop} (hstep : ∀ p p', p.Sound → I p → Move sample p p' → I p')
    (h : Moves sample p p') (hs : p.Sound) (hi : I p) : p'.Sound ∧ I p' := by
  induction h with
  | refl => exact ⟨hs, hi⟩
  | tail _ hm ih => exact ⟨hm.sound ih.1, hstep _ _ ih.1 ih.2 hm⟩

theorem Moves.sound (h : Moves sample p p') (hs : p.Sound) : p'.Sound :=
  (h.invariant (I := fun _ => True) (fun _ _ _ _ _ => trivial) hs trivial).1

end Pool

end MiniServe
