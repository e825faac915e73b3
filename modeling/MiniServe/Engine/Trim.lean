import MiniServe.Engine.Queues

namespace MiniServe

open KVCacheManager

namespace BlockTable

variable {t t' : BlockTable} {bs n : Nat}

def Trim (bs : Nat) (t : BlockTable) : Prop := t.blocks.length * bs < t.numTokens + bs

theorem trim_append (hbs : 0 < bs) (hnum : t'.numTokens = t.numTokens + n)
    (hlen : (t'.blocks.length : Int) = t.blocks.length + t.need bs n) :
    t'.Trim bs ↔ t.blocks.length * bs < t.numTokens + n + bs := by
  have hbs' : (0 : Int) < bs := by omega
  have hcap : ceilDiv ((t.numTokens : Int) + n) bs * bs < t.numTokens + n + bs := by
    have h := (lt_ceilDiv (n := (t.numTokens : Int) + n)
      (k := ceilDiv ((t.numTokens : Int) + n) bs - 1) hbs').mp (by omega)
    rw [sub_mul, one_mul] at h
    omega
  unfold Trim
  rw [hnum]
  rcases le_or_gt (ceilDiv ((t.numTokens : Int) + n) bs) t.blocks.length with hle | hlt
  · have h0 : t.need bs n = 0 := by unfold need; omega
    have : t'.blocks.length = t.blocks.length := by omega
    rw [this]
  · have h1 : (t'.blocks.length : Int) = ceilDiv ((t.numTokens : Int) + n) bs := by
      rw [hlen]
      unfold need
      omega
    have h2 := (lt_ceilDiv hbs').mp hlt
    rw [← h1] at hcap
    constructor
    · intro _
      zify
      omega
    · intro _
      zify
      omega

def Paged (bs : Nat) (t : BlockTable) : Prop := 1 ≤ t.lastBlockLen bs ∧ t.lastBlockLen bs ≤ bs

theorem paged_iff (hcap : t.numTokens ≤ t.blocks.length * bs) :
    t.Paged bs ↔ 0 < t.numTokens ∧ t.Trim bs := by
  unfold Paged lastBlockLen Trim
  split
  · next h => simp [h]
  · zify at hcap ⊢
    rw [sub_mul, one_mul]
    omega

structure Grown (bs n : Nat) (t t' : BlockTable) : Prop where
  numTokens : t'.numTokens = t.numTokens + n
  blocks : t.blocks <+: t'.blocks
  length : (t'.blocks.length : Int) = t.blocks.length + t.need bs n

theorem appendTokens_grown {a a' : BlockAllocator} {new : List Int} (h : t.appendTokens a n = (.ok new, t', a')) :
    Grown a.blockSize n t t' := by
  have hnn := need_nonneg (t := t) a.blockSize n
  by_cases hle : t.need a.blockSize n ≤ a.numFree
  · have hlen : (a.free.take (t.need a.blockSize n).toNat).length = (t.need a.blockSize n).toNat :=
      List.length_take_of_le (by unfold BlockAllocator.numFree at hle; omega)
    rw [appendTokens_ok hle] at h
    obtain ⟨-, h⟩ := Prod.mk.inj h
    obtain ⟨rfl, -⟩ := Prod.mk.inj h
    refine ⟨rfl, List.prefix_append _ _, ?_⟩
    rw [List.length_append, hlen]
    omega
  · have hneg : ¬ (n : Int) < 0 := by omega
    have hneg' : ¬ t.need a.blockSize n < 0 := by omega
    simp [appendTokens, blocksNeeded, BlockAllocator.allocate, hneg, hneg', not_le.mp hle] at h

theorem appendTokens_blockSize {a a' : BlockAllocator} {new : List Int} {n : Int}
    (h : t.appendTokens a n = (.ok new, t', a')) : a'.blockSize = a.blockSize := by
  unfold appendTokens at h
  split at h
  · simp at h
  · split at h
    · simp at h
    · next new' a1 hal =>
      obtain rfl := (Prod.mk.inj (Prod.mk.inj h).2).2
      unfold BlockAllocator.allocate at hal
      split at hal
      · simp at hal
      · split at hal
        · simp at hal
        · rw [← (Prod.mk.inj hal).2]

theorem Grown.slotAt {pos : Nat} (h : Grown bs n t t') (hcap : t.numTokens ≤ t.blocks.length * bs)
    (hpos : pos < t.numTokens) :
    t'.slotAt bs pos = t.slotAt bs pos := by
  have hlt : pos / bs < t.blocks.length := Nat.div_lt_of_lt_mul (by rw [Nat.mul_comm]; omega)
  obtain ⟨rest, hrest⟩ := h.blocks
  simp only [BlockTable.slotAt, ← hrest, List.getD_eq_getElem?_getD, List.getElem?_append_left hlt]

theorem Grown.refl (hbs : 0 < bs) (hcap : t.numTokens ≤ t.blocks.length * bs) : Grown bs 0 t t := by
  refine ⟨rfl, List.prefix_refl _, ?_⟩
  have : t.need bs 0 ≤ 0 := (need_le hbs le_rfl).mpr (by rw [zero_add, add_zero]; exact_mod_cast hcap)
  have := need_nonneg (t := t) bs 0
  rw [Nat.cast_zero]
  omega

theorem Grown.trans {m : Nat} {t'' : BlockTable} (hbs : 0 < bs) (h1 : Grown bs n t t') (h2 : Grown bs m t' t'') :
    Grown bs (n + m) t t'' := by
  have hn := h1.numTokens
  have hl1 := h1.length
  have hl2 := h2.length
  have hmono := ceilDiv_mono (n := (t.numTokens : Int) + n) (m := (t.numTokens : Int) + n + m) (d := bs)
    (by omega) (by omega)
  refine ⟨by rw [h2.numTokens, hn, Nat.add_assoc], h1.blocks.trans h2.blocks, ?_⟩
  unfold need at hl1 hl2 ⊢
  rw [hn] at hl2
  push_cast at hl2 ⊢
  rw [← add_assoc]
  omega

theorem Grown.fresh (h : Grown bs n t t') (hbs : 0 < bs) (ht : t.numTokens = 0 → t.blocks = []) (h0 : t'.numTokens = 0) :
    t'.blocks = [] := by
  have hn := h.numTokens
  have hnil := ht (by omega)
  have hlen := h.length
  have hneed : t.need bs n ≤ 0 := (need_le hbs le_rfl).mpr (by simp [hnil]; omega)
  rw [hnil] at hlen
  exact List.length_eq_zero_iff.mp (by simp only [List.length_nil] at hlen; omega)

theorem Grown.trim (h : Grown bs n t t') (hbs : 0 < bs) : t'.Trim bs ↔ t.blocks.length * bs < t.numTokens + n + bs :=
  trim_append hbs h.numTokens h.length

theorem Grown.keeps_trim (h : Grown bs n t t') (hbs : 0 < bs) (ht : t.Trim bs) : t'.Trim bs := by
  unfold Trim at ht
  exact (h.trim hbs).mpr (by omega)

end BlockTable

def Request.Trim (bs : Nat) (q : Request) : Prop := q.tableBlocks.length * bs < q.covered + bs

namespace Pool

variable {p p' : Pool} {sample : Option (Rid → Token)}

def Trim (p : Pool) : Prop := ∀ r ∈ p.live, (p.reqs r).Trim p.kv.blockSize

theorem Move.trim (h : Move sample p p') (hs : p.Sound) (ht : p.Trim) : p'.Trim := by
  have hput : ∀ (x : Rid) (q : Request) (live : List Rid), (∀ r ∈ live, r ≠ x → r ∈ p.live) →
      (x ∈ live → q.Trim p.kv.blockSize) → ∀ r ∈ live, (Function.update p.reqs x q r).Trim p.kv.blockSize := by
    intro x q live hl hq r hr
    by_cases e : r = x
    · subst e; rw [Function.update_self]; exact hq hr
    · rw [Function.update_of_ne e]; exact ht r (hl r hr e)
  have hnot : ∀ {x : Rid}, x ∈ p.waiting → x ∉ p.live := fun hx => hs.not_mem_live hx
  have hbs : 0 < p.kv.blockSize := blockSize_pos
  have hleave : ∀ {r : Rid} {q : Request} {kv' : KVCacheManager} (older : List Entry), p.Leaves r q kv' →
      (p.leave r kv' q older).Trim := by
    intro r q kv' older hl x hx
    have hb : kv'.blockSize = p.kv.blockSize := by
      by_cases hr : r ∈ p.live
      · exact (hl.released hr).frame.blockSize
      · rw [hl.unheld hr]
    simp only [leave, put] at hx ⊢
    rw [hb]
    exact hput _ _ _ (fun y hy _ => List.mem_of_mem_erase hy) (fun hx => absurd hx hs.kv.nodup.not_mem_erase) x hx
  cases h with
  | submit hb hr hq => exact hput _ _ _ (fun _ hx _ => hx) fun hx => absurd (List.mem_append_left _ hx) hr
  | lookup hr h1 h2 =>
    have e := h2.frame.blockSize.trans h1.frame.blockSize
    intro x hx
    simp only [put] at hx ⊢
    rw [e]
    exact hput _ _ _ (fun _ hx _ => hx) (fun hx => absurd hx (hnot hr)) x hx
  | @enter r kv' blocks node hr hn h =>
    intro x hx
    simp only [put] at hx ⊢
    rw [h.frame.blockSize]
    refine hput _ _ _ (fun y hy hne => ?_) (fun _ => ?_) x hx
    · exact (List.mem_append.mp hy).resolve_right (by simpa using hne)
    · simp only [Request.Trim, Request.acquired, Request.tableBlocks, Request.covered]
      omega
  | @preempt r kv' hr ho hn h =>
    intro x hx
    simp only [put] at hx ⊢
    rw [h.frame.blockSize]
    refine hput _ _ _ (fun y hy _ => List.mem_of_mem_erase hy) (fun hx => ?_) x hx
    exact absurd hx hs.kv.nodup.not_mem_erase
  | evict h =>
    intro x hx
    show (p.reqs x).Trim _
    simp only
    rw [h.frame.blockSize]
    exact ht x hx
  | @extend row kv' tb tb' hf hr ho hn hc hstart hpos hroom hpre h =>
    intro x hx
    simp only [put] at hx ⊢
    rw [h.blockSize]
    refine hput _ _ _ (fun _ hy _ => hy) (fun _ => ?_) x hx
    have h0 := ht row.rid hr
    simp only [Request.Trim, Request.tableBlocks, Request.covered, hc] at h0 ⊢
    refine (BlockTable.trim_append hbs h.numTokens h.length).mpr ?_
    omega
  | @chunk row rest kv' node f hf ho hpre hlt htok h =>
    intro x hx
    simp only [put] at hx ⊢
    rw [h.frame.blockSize]
    refine hput _ _ _ (fun _ hy _ => hy) (fun hx => ?_) x hx
    exact ht row.rid hx
  | @first row rest kv' node f hf ho hpre heq htok h =>
    intro x hx
    simp only [put] at hx ⊢
    rw [h.frame.blockSize]
    refine hput _ _ _ (fun _ hy _ => hy) (fun hx => ?_) x hx
    exact ht row.rid hx
  | again hf ho hdec hlen htok => exact hput _ _ _ (fun _ hy _ => hy) fun hx => ht _ hx
  | skip ho h => exact ht
  | fill ho hop hd hr hk hst => exact hput _ _ _ (fun _ hy _ => hy) fun hx => ht _ hx
  | finish ho hop hd hr hk h => exact hleave _ h
  | abort hop hr h => exact hleave _ h
  | turn ho hop => exact ht

theorem Moves.trim (h : Moves sample p p') (hs : p.Sound) (ht : p.Trim) : p'.Trim :=
  (h.invariant (I := Trim) (fun _ _ hs ht hm => hm.trim hs ht) hs ht).2

end Pool

namespace Engine

variable {e e' : Engine} {model : Model} {c : EngineConfig} {ok : List Token → Prop}

theorem Stepped.trim (h : Stepped model e e') (he : e.Sound) (ht : e.pool.Trim) : e'.pool.Trim := by
  cases h with
  | idle hsch hm hd he1 hk hi => exact hm.trim he.pool ht
  | launch hsch hb hids hs hL hp hd he2 hk =>
    have h0 := hs.sound he.pool
    have h1 := hL.opens.sound h0
    exact hp.trim (hL.settles.sound h1) (hL.settles.trim h1 (hL.opens.trim h0 (hs.trim he.pool ht)))

theorem Reachable.trim (h : Reachable model c ok e) : e.pool.Trim := by
  induction h with
  | init => exact fun r hr => absurd hr List.not_mem_nil
  | @add e prompt params h hp ih =>
    rcases e.addRequest_cases prompt params with ⟨err, d, he⟩ | ⟨q, d, hq, hrid, -, -, -, -, he⟩
    · rw [he]; exact ih
    · rw [he]; exact (h.sound.submit hq hrid).2.trim h.sound.pool ih
  | @abort e e' r h ha ih =>
    obtain ⟨e1, h1, -, hm, -⟩ := h.sound.abort r
    obtain rfl : e1 = e' := Except.ok.inj (h1.symm.trans ha)
    exact hm.trim h.sound.pool ih
  | step h hs ih =>
    rcases h.sound.step_cases model with ⟨s, -, h1⟩ | ⟨b, s, err, -, -, h1⟩ | ⟨out', e1, h1, -, hst, -⟩
    · rw [hs] at h1; simp at h1
    · rw [hs] at h1; simp at h1
    · rw [hs] at h1
      obtain rfl := (Prod.mk.inj h1).2
      exact hst.trim h.sound ih
  | raised h hs ih => exact (h.sound.schedule_eq hs).1.step.moves.trim h.sound.pool ih

end Engine

end MiniServe
