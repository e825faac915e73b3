import MiniServe.Engine.Output
import MiniServe.Spec.Verify

namespace MiniServe

open KVCacheManager Generate

def Request.gained (q : Request) (new : List Token) : Request := { q with outputIds := q.outputIds ++ new }

theorem Request.gained_seqLen (q : Request) (new : List Token) : (q.gained new).seqLen = q.seqLen + new.length := by
  simp [Request.gained, Request.seqLen]
  omega

namespace Pool

variable {p p' : Pool} {row : Row} {rest : List Row} {new : List Token} {tb : BlockTable} {kv' : KVCacheManager}

theorem nodeTokens_none (ht : p.kv.tree = none) (node : Option Nat) : p.kv.nodeTokens node = [] := by
  simp [nodeTokens, ht]

-- A row of a verify pass that is still to be settled. Nothing is in flight and there is no prefix cache.
structure Judged (p : Pool) (row : Row) (tb : BlockTable) : Prop where
  sound : p.Sound
  mem : row ∈ p.opened
  tree : p.kv.tree = none
  state : (p.reqs row.rid).state = .decode
  settled : (p.reqs row.rid).numPending = 0
  cache : (p.reqs row.rid).cache = some tb

namespace Judged

theorem facts (h : Judged p row tb) : row.rid ∈ p.live ∧ tb.numTokens = row.start + row.len ∧
    row.start + 1 = (p.reqs row.rid).seqLen ∧ (p.reqs row.rid).outputIds.length < (p.reqs row.rid).params.maxNewTokens ∧
    (p.reqs row.rid).outputIds ≠ [] := by
  obtain ⟨hl, hop⟩ := h.sound.opened row h.mem
  have hcov := hop.covered
  rw [Request.covered, h.cache] at hcov
  rcases hop.phase with hp | hp
  · rw [h.state] at hp; simp at hp
  · exact ⟨hl, hcov, hp.2.1, hop.room, hp.2.2⟩

theorem pending (h : Judged p row tb) : slotsOf (p.older ++ p.newer) row.rid = [] ∧
    placeholder ∉ (p.reqs row.rid).outputIds := by
  have hp := h.sound.pending row.rid (h.sound.not_done (.inl h.facts.1))
  have hlen := hp.length
  obtain ⟨ready, hout, hnot, -⟩ := hp
  rw [h.settled] at hlen hout
  rw [List.replicate_zero, List.append_nil] at hout
  exact ⟨List.length_eq_zero_iff.mp hlen, hout ▸ hnot⟩

theorem unique (h : Judged p row tb) {other : Row} (hm : other ∈ p.opened) (hrid : other.rid = row.rid) : other = row :=
  List.inj_on_of_nodup_map h.sound.opened_nodup hm h.mem hrid

theorem last_token (h : Judged p row tb) :
    some ((p.reqs row.rid).outputIds.getLast?.getD 0) = (p.reqs row.rid).tokens[row.start]? := by
  obtain ⟨-, -, hseq, -, hne⟩ := h.facts
  have hlast : (p.reqs row.rid).tokens.getLast? = (p.reqs row.rid).outputIds.getLast? := by
    rw [Request.tokens, List.getLast?_append_of_ne_nil _ hne]
  rw [List.getLast?_eq_getElem?, Request.tokens_length, ← hseq, Nat.add_sub_cancel] at hlast
  rw [hlast, List.getLast?_eq_some_getLast hne]
  rfl

def accept (p : Pool) (row : Row) (rest : List Row) (tb : BlockTable) (new : List Token) : Pool :=
  { p.put row.rid p.kv
    { (p.reqs row.rid).gained new with cache := some { tb with numTokens := row.start + new.length } } with
    opened := rest }

theorem accept_self : (accept p row rest tb new).reqs row.rid =
    { (p.reqs row.rid).gained new with cache := some { tb with numTokens := row.start + new.length } } :=
  Function.update_self ..

theorem accept_other {x : Rid} (hx : x ≠ row.rid) : (accept p row rest tb new).reqs x = p.reqs x :=
  Function.update_of_ne hx _ _

theorem accept_kv (h : Judged p row tb) (ho : p.opened = row :: rest) (hle : new.length ≤ row.len) :
    (accept p row rest tb new).KVPart := by
  obtain ⟨hl, hcov, -⟩ := h.facts
  have hblocks : (p.reqs row.rid).tableBlocks = tb.blocks := by simp [Request.tableBlocks, h.cache]
  have hcap := (h.sound.kv.held row.rid hl).capacity
  simp only [Request.covered, h.cache] at hcap
  rw [hblocks, hcov] at hcap
  have hkv : p.kv.Sound (accept p row rest tb new).reqs p.live := by
    refine h.sound.kv.rewrite (fun x => ?_) (fun x => ?_) (fun x => ?_) fun x hx => ?_
    · by_cases e : x = row.rid
      · rw [e, hblocks, accept_self]; rfl
      · rw [accept_other e]
    · by_cases e : x = row.rid
      · rw [e, accept_self, h.cache]; simp
      · rw [accept_other e]
    · by_cases e : x = row.rid
      · rw [e, accept_self]; rfl
      · rw [accept_other e]
    · rw [nodeTokens_none h.tree]
      refine ⟨?_, fun hsome => by simp [h.tree] at hsome, List.nil_prefix, Nat.zero_le _⟩
      by_cases e : x = row.rid
      · rw [e, hblocks, accept_self]
        exact le_trans (Nat.add_le_add_left hle _) hcap
      · rw [accept_other e]
        exact (h.sound.kv.held x hx).capacity
  have hrest := h.sound.rest_row ho
  refine h.sound.kv_frame hkv (Frame.refl _ _ p.live) (fun x hx _ => ⟨hx, hx⟩)
    (fun x hx _ => ⟨(hrest x hx).1, (h.sound.opened x (hrest x hx).1).1⟩) (fun x hx e => absurd e (hrest x hx).2)
    (fun x hx => accept_other hx) (fun _ => ?_) (fun _ hst => ?_)
  · rw [show (accept p row rest tb new).kv = p.kv from rfl, nodeTokens_none h.tree, accept_self]
    simp [Request.gained, h.settled]
  · rw [accept_self] at hst
    simp [Request.gained, h.state] at hst

theorem accept_sound (h : Judged p row tb) (ho : p.opened = row :: rest) (hpos : 1 ≤ new.length)
    (hle : new.length ≤ row.len)
    (hroom : (p.reqs row.rid).outputIds.length + new.length < (p.reqs row.rid).params.maxNewTokens)
    (hnew : placeholder ∉ new) : (accept p row rest tb new).Sound := by
  obtain ⟨hl, hcov, hseq, -, -⟩ := h.facts
  refine Sound.of_parts (h.accept_kv ho hle) (h.sound.queue_settle ho ?_) ?_
  · refine ⟨?_, fun _ => ?_, .inr ⟨h.state, ?_, ?_⟩⟩
    · exact h.sound.prompt (.inl hl)
    · simpa [Request.gained] using hroom
    · have := Request.gained_seqLen (p.reqs row.rid) new
      show row.start + new.length + 1 = ((p.reqs row.rid).gained new).seqLen
      omega
    · intro hnil
      have : new = [] := (List.append_eq_nil_iff.mp hnil).2
      simp [this] at hpos
  · have hnd := h.sound.newer_once
    rw [ho, List.map_cons] at hnd
    refine h.sound.flightPart (fun x hx => accept_other hx) (fun _ _ => rfl) (fun _ => ?_) h.sound.older_once
      (hnd.sublist ((List.sublist_cons_self _ _).append_left _)) h.sound.nonneg
    obtain ⟨hslots, hnot⟩ := h.pending
    rw [accept_self]
    refine ⟨(p.reqs row.rid).outputIds ++ new, by simp [Request.gained, h.settled], ?_, ?_⟩
    · rw [List.mem_append, not_or]
      exact ⟨hnot, hnew⟩
    · rw [show slotsOf ((accept p row rest tb new).older ++ (accept p row rest tb new).newer) row.rid = [] from hslots]
      simp [Request.gained, h.settled]

def finish (p : Pool) (row : Row) (rest : List Row) (new : List Token) (kv' : KVCacheManager) : Pool :=
  { p.leave row.rid kv' { (p.reqs row.rid).gained new with state := .finished } p.older with opened := rest }

theorem finish_sound (h : Judged p row tb) (ho : p.opened = row :: rest)
    (hk : p.Leaves row.rid { (p.reqs row.rid).gained new with state := .finished } kv') :
        (finish p row rest new kv').Sound := by
  obtain ⟨-, -, hnr, hnd⟩ := h.sound.head_row ho
  have hrest := h.sound.rest_row ho
  refine Sound.of_parts (h.sound.kv_leave hrest hk) (h.sound.queue_leave (row_ne ho) hnr hnd (.inl rfl)) ?_
  have hone := h.sound.newer_once
  rw [ho, List.map_cons] at hone
  refine h.sound.flightPart (fun x hx => Function.update_of_ne hx _ _) (fun _ _ => rfl) (fun hq => ?_) h.sound.older_once
    (hone.sublist ((List.sublist_cons_self _ _).append_left _)) h.sound.nonneg
  refine absurd (.inl ?_) hq
  simp [finish, leave, Request.dropped]

section Content

variable {model : Model} {d : Device} {proposals : List Token}

theorem outputs (h : Judged p row tb) : p.outputs row.rid = (p.reqs row.rid).outputIds := by
  have hlen := inflightTokens_length (p.older ++ p.newer) row.rid
  rw [h.pending.1] at hlen
  rw [Pool.outputs, List.length_eq_zero_iff.mp hlen, List.append_nil, Request.readyIds, h.settled, Nat.sub_zero,
    List.take_length]

theorem told (h : Judged p row tb) (hc : Content model d none p) : (p.reqs row.rid).outputIds =
      stream (model.nextAfter (p.reqs row.rid)) (p.reqs row.rid).outputIds.length ∧
    ∀ tok ∈ (p.reqs row.rid).outputIds, tok ∉ (p.reqs row.rid).params.stopTokenIds := by
  have hd := h.sound.not_done (.inl h.facts.1)
  have htold := hc.told row.rid
  rw [h.outputs] at htold
  have hready : (p.reqs row.rid).readyIds = (p.reqs row.rid).outputIds := by simp [Request.readyIds, h.settled]
  exact ⟨htold.output hd, hready ▸ htold.ready hd⟩

def Fed (d : Device) (p : Pool) (row : Row) (feed : List Token) : Prop :=
  ∀ i < row.len, d (p.rowSlot row.rid (row.start + i)) = feed[i]?.map (·, row.start + i)

theorem fed_gained (h : Judged p row tb) {next : List Token → Token}
    (hround : RoundTokens next (p.reqs row.rid).outputIds proposals new) {i : Nat} (hi : i < new.length) :
    ((p.reqs row.rid).outputIds.getLast?.getD 0 :: proposals)[i]? =
        ((p.reqs row.rid).gained new).tokens[row.start + i]? := by
  obtain ⟨-, -, hseq, -, -⟩ := h.facts
  have hstart : (p.reqs row.rid).tokens.length = row.start + 1 := by rw [Request.tokens_length, hseq]
  have htok : ((p.reqs row.rid).gained new).tokens = (p.reqs row.rid).tokens ++ new := by
    simp [Request.gained, Request.tokens]
  rw [htok]
  cases i with
  | zero =>
    rw [List.getElem?_append_left (by omega), List.getElem?_cons_zero, Nat.add_zero]
    exact h.last_token
  | succ i =>
    rw [List.getElem?_append_right (by omega), hstart, List.getElem?_cons_succ]
    rw [show row.start + (i + 1) - (row.start + 1) = i by omega]
    exact (hround.proposed i hi).symm

theorem accept_content (h : Judged p row tb) (ho : p.opened = row :: rest) (hc : Content model d none p)
    (hround : RoundTokens (model.nextAfter (p.reqs row.rid)) (p.reqs row.rid).outputIds proposals new)
    (hfed : Fed d p row ((p.reqs row.rid).outputIds.getLast?.getD 0 :: proposals)) (hle : new.length ≤ row.len)
    (hroom : (p.reqs row.rid).outputIds.length + new.length < (p.reqs row.rid).params.maxNewTokens)
    (hclean : ∀ tok ∈ new, tok ∉ (p.reqs row.rid).params.stopTokenIds) :
    Content model d none (accept p row rest tb new) := by
  obtain ⟨hl, hcov, hseq, -, -⟩ := h.facts
  obtain ⟨hout, hold⟩ := h.told hc
  have houts : (accept p row rest tb new).outputs row.rid = (p.reqs row.rid).outputIds ++ new := by
    have hlen := inflightTokens_length (p.older ++ p.newer) row.rid
    rw [h.pending.1] at hlen
    rw [Pool.outputs, accept_self,
      show inflightTokens ((accept p row rest tb new).older ++ (accept p row rest tb new).newer)
      row.rid = [] from List.length_eq_zero_iff.mp hlen]
    simp [Request.gained, Request.readyIds, h.settled]
  have htruth : (accept p row rest tb new).truth row.rid = ((p.reqs row.rid).gained new).tokens := by
    rw [Pool.truth, houts, accept_self]
    rfl
  have halike : Alike (p.reqs row.rid) ((accept p row rest tb new).reqs row.rid) := by
    rw [accept_self]
    exact ⟨rfl, rfl, rfl⟩
  have hdone : ¬ ((accept p row rest tb new).reqs row.rid).isDone := by
    rw [accept_self]
    simp [Request.isDone, Request.gained, h.state]
  refine hc.change row.rid rfl (fun x hx => accept_other hx) (fun _ _ => rfl) (fun x hx _ => hx) (fun other hne => ?_)
    (fun _ _ hk => .inl hk) (fun _ pos hw => ?_)
    ⟨fun _ => ?_, fun _ => ?_, fun _ tok htok => ?_, fun hst => ?_, fun hst => ?_⟩
    fun _ _ _ => rfl
  · rw [ho, List.mem_cons]
    refine ⟨.inr, fun hm => hm.resolve_left ?_⟩
    rintro rfl
    exact hne rfl
  · have hslot : (accept p row rest tb new).rowSlot row.rid pos = p.rowSlot row.rid pos := by
      simp only [rowSlot, accept_self, h.cache, Option.getD_some]
      rfl
    have hpos : pos < row.start + new.length := by
      have := hw.1
      rwa [accept_self] at this
    rw [hslot, htruth]
    by_cases hlt : pos < row.start
    · have hw' : Written none p row.rid pos := by
        refine ⟨by simp only [Request.covered, h.cache]; omega, fun _ other hm hrid => ?_⟩
        rw [ho, List.mem_cons] at hm
        rcases hm with rfl | hm
        · exact hlt
        · exact absurd hrid (h.sound.rest_row ho other hm).2
      rw [hc.tables row.rid hl pos hw', Pool.truth, h.outputs]
      have htok : ((p.reqs row.rid).gained new).tokens = (p.reqs row.rid).tokens ++ new := by
        simp [Request.gained, Request.tokens]
      have hlen : pos < (p.reqs row.rid).tokens.length := by rw [Request.tokens_length]; omega
      rw [htok, List.getElem?_append_left hlen]
      rfl
    · obtain ⟨i, rfl⟩ := Nat.exists_eq_add_of_le (not_lt.mp hlt)
      rw [hfed i (by omega), h.fed_gained hround (by omega)]
  · rw [houts, hround.stream _ hout, Model.nextAfter_alike halike, accept_self]
    simp [Request.gained]
  · rw [accept_self]
    simp only [Request.gained, List.length_append]
    omega
  · rw [accept_self] at htok ⊢
    simp only [Request.gained, Request.readyIds, h.settled, Nat.sub_zero, List.take_length, List.mem_append] at htok ⊢
    exact htok.elim (hold tok) (hclean tok)
  · exact absurd (.inl hst) hdone
  · exact absurd (.inr hst) hdone

theorem finish_content {pre : List Token} {tok : Token} (h : Judged p row tb) (ho : p.opened = row :: rest)
    (hc : Content model d none p)
    (hround : RoundTokens (model.nextAfter (p.reqs row.rid)) (p.reqs row.rid).outputIds proposals (pre ++ [tok]))
    (hroom : (p.reqs row.rid).outputIds.length + pre.length < (p.reqs row.rid).params.maxNewTokens)
    (hclean : ∀ t ∈ pre, t ∉ (p.reqs row.rid).params.stopTokenIds)
    (hend : (p.reqs row.rid).params.maxNewTokens ≤ (p.reqs row.rid).outputIds.length + pre.length + 1 ∨
      tok ∈ (p.reqs row.rid).params.stopTokenIds)
    (hk : p.Leaves row.rid { (p.reqs row.rid).gained (pre ++ [tok]) with state := .finished } kv') :
    Content model d none (finish p row rest (pre ++ [tok]) kv') := by
  have hl := h.facts.1
  obtain ⟨hout, hold⟩ := h.told hc
  have hframe := (hk.released hl).frame
  have hself : (finish p row rest (pre ++ [tok]) kv').reqs row.rid =
      Request.dropped { (p.reqs row.rid).gained (pre ++ [tok]) with state := .finished } := Function.update_self ..
  have hdone : ((finish p row rest (pre ++ [tok]) kv').reqs row.rid).isDone := by
    rw [hself]
    exact .inl rfl
  have htree : kv'.tree = none := by
    have := hframe.radix
    rw [h.tree] at this
    simpa using this
  refine hc.change row.rid hframe.blockSize (fun x hx => Function.update_of_ne hx _ _) (fun _ _ => rfl)
    (fun x hx _ => List.mem_of_mem_erase hx) (fun other hne => ?_) (fun key b hk => ?_)
    (fun hm => absurd hm h.sound.kv.nodup.not_mem_erase)
    ⟨fun hd => absurd hdone hd, fun hd => absurd hdone hd, fun hd => absurd hdone hd, fun _ => ?_, fun hst => ?_⟩
    fun _ _ _ => rfl
  · rw [ho, List.mem_cons]
    refine ⟨.inr, fun hm => hm.resolve_left ?_⟩
    rintro rfl
    exact hne rfl
  · have : (key, b) ∈ kv'.cachedCells := hk
    simp [cachedCells, htree] at this
  · have halike : Alike (p.reqs row.rid) ((finish p row rest (pre ++ [tok]) kv').reqs row.rid) := by
      rw [hself]
      exact ⟨rfl, rfl, rfl⟩
    rw [Model.output_alike halike, hself]
    show (p.reqs row.rid).outputIds ++ (pre ++ [tok]) = _
    rw [← List.append_assoc]
    refine cutAt_stream ?_ ?_ (fun t ht => ?_) ?_
    · rw [List.append_assoc, hround.stream _ hout]
      simp [Nat.add_assoc]
    · simpa using hroom
    · exact (List.mem_append.mp ht).elim (hold t) (hclean t)
    · simpa using hend
  · rw [hself] at hst
    simp [Request.dropped] at hst

end Content

end Judged

end Pool

end MiniServe
