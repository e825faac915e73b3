import MiniServe.Lib.Generate
import MiniServe.Engine.Placeholder

namespace MiniServe

open KVCacheManager Generate

section Inflight

variable {es : List Entry} {x : Entry} {r : Rid}

theorem inflightTokens_cons_ne (h : x.1 ≠ r) : inflightTokens (x :: es) r = inflightTokens es r := by
  simp [inflightTokens, h]

theorem inflightTokens_cons_none (h : x.2.2 = none) : inflightTokens (x :: es) r = inflightTokens es r := by
  simp [inflightTokens, h]

theorem inflightTokens_cons_some (tok : Token) (k : Nat) :
    inflightTokens ((r, tok, some k) :: es) r = tok :: inflightTokens es r := by
  simp [inflightTokens]

end Inflight

namespace Request

variable {q : Request} {slots : List Nat} {k : Nat} {tok : Token}

theorem Pending.readyIds_append (h : q.Pending slots) :
    q.outputIds = q.readyIds ++ List.replicate q.numPending placeholder := by
  obtain ⟨ready, ho, -, -⟩ := h
  have hr : q.readyIds = ready := by simp [readyIds, ho]
  rw [hr]
  exact ho

theorem Pending.tokens_eq (h : q.Pending slots) :
    q.tokens = q.promptIds ++ q.readyIds ++ List.replicate q.numPending placeholder := by
  rw [tokens, h.readyIds_append, List.append_assoc]

theorem Pending.readyIds_sampled (h : q.Pending slots) : q.sampled.readyIds = q.readyIds := by
  have hl := h.le
  simp only [readyIds, Request.sampled, List.length_append, List.length_singleton]
  rw [List.take_append_of_le_length (by omega)]
  congr 1
  omega

theorem Pending.readyIds_filled (h : q.Pending (k :: slots)) : (q.filled k tok).readyIds = q.readyIds ++ [tok] := by
  obtain ⟨hk, hpos⟩ := h.head
  have hlen : (q.filled k tok).outputIds.length - (q.filled k tok).numPending = k + 1 := by
    simp only [Request.filled, List.length_set]
    omega
  rw [readyIds, hlen]
  have hk' : q.outputIds.length - q.numPending = k := by omega
  simp only [Request.filled, readyIds, hk']
  rw [List.take_add_one, List.take_set_of_le (le_refl k), List.getElem?_set_self (by omega)]
  rfl

end Request

def cellsOf (tokens : List Token) : List (Option (Token × Nat)) := tokens.zipIdx.map some

namespace Model

variable (model : Model)

def nextAfter (q : Request) (out : List Token) : Token :=
  model.next (cellsOf (q.promptIds ++ out)) q.params q.seed (q.promptIds.length + out.length)

def output (q : Request) : List Token :=
  cutAt q.params.stopTokenIds (stream (model.nextAfter q) q.params.maxNewTokens)

variable {model} {q q' : Request}

theorem nextAfter_alike (h : Pool.Alike q q') : model.nextAfter q' = model.nextAfter q := by
  funext out
  simp only [nextAfter, h.1, h.2.1, h.2.2]

theorem output_alike (h : Pool.Alike q q') : model.output q' = model.output q := by
  simp only [output, nextAfter_alike h, h.2.1]

end Model

-- What a request's outputs are at any time, `out` being the read ones and those still in flight.
structure Told (model : Model) (q : Request) (out : List Token) : Prop where
  output : ¬ q.isDone → out = stream (model.nextAfter q) q.outputIds.length
  room : ¬ q.isDone → q.outputIds.length ≤ q.params.maxNewTokens
  ready : ¬ q.isDone → ∀ tok ∈ q.readyIds, tok ∉ q.params.stopTokenIds
  finished : q.state = .finished → q.outputIds = model.output q
  aborted : q.state = .aborted → q.outputIds <+: model.output q

theorem Told.congr {model : Model} {q : Request} {out out' : List Token} (h : Told model q out)
    (ho : ¬ q.isDone → out' = out) : Told model q out' :=
  ⟨fun hd => (ho hd).trans (h.output hd), h.room, h.ready, h.finished, h.aborted⟩

def CellHolds (d : Device) (bs : Nat) (key : List Token) (b : Int) : Prop :=
  ∀ pos, key.length ≤ pos + bs → pos < key.length → d (b * bs + (pos % bs : Nat)) = key[pos]?.map (·, pos)

namespace Pool

variable {p p' : Pool} {model : Model} {d : Device} {sample : Option (Rid → Token)} {r : Rid}

def outputs (p : Pool) (r : Rid) : List Token := (p.reqs r).readyIds ++ inflightTokens (p.older ++ p.newer) r

def truth (p : Pool) (r : Rid) : List Token := (p.reqs r).promptIds ++ p.outputs r

-- The positions of a table the device has been given: all of them, but for the rows of a batch not yet run.
def Written (sample : Option (Rid → Token)) (p : Pool) (r : Rid) (pos : Nat) : Prop :=
  pos < (p.reqs r).covered ∧ (sample = none → ∀ row ∈ p.opened, row.rid = r → pos < row.start)

structure Content (model : Model) (d : Device) (sample : Option (Rid → Token)) (p : Pool) : Prop where
  tables : ∀ r ∈ p.live, ∀ pos, Written sample p r pos → d (p.rowSlot r pos) = (p.truth r)[pos]?.map (·, pos)
  cells : ∀ key b, (key, b) ∈ p.kv.cachedCells → CellHolds d p.kv.blockSize key b
  told : ∀ r, Told model (p.reqs r) (p.outputs r)
  sampled : ∀ f, sample = some f → ∀ row ∈ p.opened, row.start + row.len = (p.reqs row.rid).seqLen →
    f row.rid = model.nextAfter (p.reqs row.rid) (p.outputs row.rid)

section Truth

theorem Sound.outputs_length (hs : p.Sound) (hd : ¬ (p.reqs r).isDone) :
    (p.outputs r).length = (p.reqs r).outputIds.length := by
  have hp := hs.pending r hd
  have h1 := congrArg List.length hp.readyIds_append
  rw [List.length_append, List.length_replicate] at h1
  rw [outputs, List.length_append, inflightTokens_length, hp.length, h1]

theorem Sound.truth_length (hs : p.Sound) (hd : ¬ (p.reqs r).isDone) : (p.truth r).length = (p.reqs r).seqLen := by
  rw [truth, List.length_append, hs.outputs_length hd, Request.seqLen]

theorem ready_begins : (p.reqs r).promptIds ++ (p.reqs r).readyIds <+: p.truth r := by
  rw [truth, outputs, ← List.append_assoc]
  exact List.prefix_append _ _

theorem Sound.take_prefix {n : Nat} (hs : p.Sound) (hd : ¬ (p.reqs r).isDone)
    (hn : n + (p.reqs r).numPending ≤ (p.reqs r).seqLen) : (p.reqs r).tokens.take n <+: p.truth r := by
  have hp := hs.pending r hd
  have hlen : (p.reqs r).seqLen = ((p.reqs r).promptIds ++ (p.reqs r).readyIds).length + (p.reqs r).numPending := by
    rw [← Request.tokens_length, hp.tokens_eq, List.length_append, List.length_replicate]
  rw [hp.tokens_eq, List.take_append_of_le_length (by omega)]
  exact (List.take_prefix _ _).trans ready_begins

end Truth

theorem Content.change (hc : Content model d sample p) (r : Rid) (hbs : p'.kv.blockSize = p.kv.blockSize)
    (hother : ∀ x, x ≠ r → p'.reqs x = p.reqs x)
    (hin : ∀ x, x ≠ r → inflightTokens (p'.older ++ p'.newer) x = inflightTokens (p.older ++ p.newer) x)
    (hlive : ∀ x ∈ p'.live, x ≠ r → x ∈ p.live) (hopen : ∀ row, row.rid ≠ r → (row ∈ p'.opened ↔ row ∈ p.opened))
    (hcells : ∀ key b, (key, b) ∈ p'.kv.cachedCells → (key, b) ∈ p.kv.cachedCells ∨ CellHolds d p.kv.blockSize key b)
    (htable : r ∈ p'.live → ∀ pos, Written sample p' r pos →
      d (p'.rowSlot r pos) = (p'.truth r)[pos]?.map (·, pos))
    (htold : Told model (p'.reqs r) (p'.outputs r)) (hsample : ∀ row ∈ p'.opened, row.rid = r → sample = none) :
    Content model d sample p' := by
  have hout : ∀ x, x ≠ r → p'.outputs x = p.outputs x := fun x hx => by
    simp only [outputs, hother x hx, hin x hx]
  refine ⟨fun x hx pos hw => ?_, fun key b hk => ?_, fun x => ?_, fun f hf row hrow hcomp => ?_⟩
  · by_cases e : x = r
    · subst e; exact htable hx pos hw
    · have hw' : Written sample p x pos := by
        refine ⟨by have := hw.1; rwa [hother x e] at this, fun hn row hrow hrid => hw.2 hn row ?_ hrid⟩
        exact (hopen row (by rw [hrid]; exact e)).mpr hrow
      have := hc.tables x (hlive x hx e) pos hw'
      simp only [rowSlot, truth, hother x e, hout x e, hbs] at this ⊢
      exact this
  · rw [hbs]
    exact (hcells key b hk).elim (hc.cells key b) id
  · by_cases e : x = r
    · subst e; exact htold
    · rw [hother x e, hout x e]
      exact hc.told x
  · by_cases e : row.rid = r
    · rw [hsample row hrow e] at hf
      simp at hf
    · rw [hother _ e] at hcomp ⊢
      rw [hout _ e]
      exact hc.sampled f hf row ((hopen row e).mp hrow) hcomp

theorem Content.own_cell {key : List Token} {i : Nat} {b : Int} (hc : Content model d sample p)
    (hr : r ∈ p.live) (hw : ∀ pos < (p.reqs r).covered, Written sample p r pos)
    (hi : i < (p.reqs r).covered / p.kv.blockSize) (hb : (p.reqs r).tableBlocks[i]? = some b)
    (hk : key <+: p.truth r) (hlen : key.length = (i + 1) * p.kv.blockSize) :
    CellHolds d p.kv.blockSize key b := by
  intro pos h1 h2
  have hbs := @blockSize_pos p.kv
  have hle : (i + 1) * p.kv.blockSize ≤ (p.reqs r).covered := (Nat.le_div_iff_mul_le hbs).mp hi
  have hdiv : pos / p.kv.blockSize = i := by
    rw [Nat.succ_mul] at hlen
    have h3 : i * p.kv.blockSize ≤ pos := by omega
    have h4 : pos < (i + 1) * p.kv.blockSize := by rw [Nat.succ_mul]; omega
    exact le_antisymm (Nat.lt_succ_iff.mp ((Nat.div_lt_iff_lt_mul hbs).mpr h4)) ((Nat.le_div_iff_mul_le hbs).mpr h3)
  have hblock : p.blockAt r pos = b := by
    rw [blockAt, hdiv, List.getD_eq_getElem?_getD, hb, Option.getD_some]
  have := hc.tables r hr pos (hw pos (by omega))
  rw [rowSlot_eq, hblock] at this
  rw [this]
  obtain ⟨rest, hrest⟩ := hk
  rw [← hrest, List.getElem?_append_left h2]

end Pool

end MiniServe
