import Mathlib.Analysis.SpecialFunctions.Log.Basic
import Mathlib.Data.List.MinMax
import MiniServe.Engine.Nucleus
import MiniServe.Engine.Invariants
import MiniServe.Engine.Paged
import MiniServe.Spec.SpecEngine

namespace MiniServe

namespace Sampler

section Code

variable {K L : Type} [Zero K] [One K] [Add K] [Sub K] [LinearOrder K] [LinearOrder L] (round : Rounding K)

def argmax (row : List L) : Nat := (row.zipIdx.argmax Prod.fst).elim 0 Prod.snd

-- `perturb` adds the Gumbel noise of one uniform number to one scaled, masked logit.
def sample (softmax : List K → List K) (empty : Nat → List Bool) (perturb : WithBot K → ℚ → L) (vocabSize : Nat)
    (logits : List (List K)) (args : Option (SamplingArgs K)) : List Nat :=
  let greedy := logits.map argmax
  match args with
  | none => greedy
  | some args =>
    let z := maskedLogits round softmax empty logits args
    let noise := uniformNoise args.seed args.counter vocabSize
    let sampled := List.zipWith (fun z u => argmax (List.zipWith perturb z u)) z noise
    List.zipWith (fun t x => if isPositive t then x.1 else x.2) args.temperature (sampled.zip greedy)

def sampleOwn (softmax : List K → List K) (perturb : WithBot K → ℚ → L) (vocabSize : Nat) (p : SamplingParams)
    (seed counter : Nat) (row : List K) : Nat :=
  if isPositive (round.temperature p.temperature) then
    argmax (List.zipWith perturb (ownLogits round softmax p row) ((List.range vocabSize).map (noiseAt seed counter)))
  else argmax row

end Code

section Argmax

variable {L : Type} [LinearOrder L] {row : List L} {i : Nat} {x y : L}

theorem argmax_get (h : row ≠ []) : ∃ x, row[argmax row]? = some x ∧ ∀ y ∈ row, y ≤ x := by
  have hne : row.zipIdx ≠ [] := by simpa using h
  cases hm : row.zipIdx.argmax Prod.fst with
  | none => exact absurd (List.argmax_eq_none.mp hm) hne
  | some m =>
    have hmem : m ∈ row.zipIdx := List.argmax_mem hm
    have hidx : argmax row = m.2 := by rw [argmax, hm]; rfl
    refine ⟨m.1, ?_, fun y hy => ?_⟩
    · rw [hidx]
      exact List.mem_zipIdx_iff_getElem?.mp hmem
    · obtain ⟨j, hj⟩ := List.mem_iff_getElem?.mp hy
      exact List.le_of_mem_argmax (f := Prod.fst) (a := (y, j)) (List.mem_zipIdx_iff_getElem?.mpr hj) hm

end Argmax

section Rows

variable {K L : Type} [Zero K] [One K] [Add K] [Sub K] [LinearOrder K] [LinearOrder L] {round : Rounding K}
  {softmax : List K → List K} {empty : Nat → List Bool} {perturb : WithBot K → ℚ → L} {vocabSize : Nat}
  {requests : List Request} {logits : List (List K)} {r : Request} {row : List K} {i : Nat}

omit [Zero K] [Add K] [Sub K] [LinearOrder K] in
theorem greedy_not_positive {p : SamplingParams} (h : p.isGreedy) :
    isPositive (round.temperature p.temperature) = false := by
  have hzero : p.temperature = 0 := by simpa [SamplingParams.isGreedy] using h
  rw [hzero, round.temperature_zero]

theorem sample_get (hs : ∀ z, (softmax z).length = z.length) (hr : requests[i]? = some r) (hrow : logits[i]? = some row)
    (he : (empty i).length = row.length) :
    (sample round softmax empty perturb vocabSize logits (prepare round requests))[i]? =
      some (sampleOwn round softmax perturb vocabSize r.params r.seed r.seqLen row) := by
  cases hargs : prepare round requests with
  | none =>
    have hall : requests.all (·.params.isGreedy) = true := by
      by_contra hno
      rw [prepare, if_neg hno] at hargs
      cases hargs
    have hg : r.params.isGreedy := List.all_eq_true.mp hall r (List.mem_of_getElem? hr)
    simp [sample, sampleOwn, greedy_not_positive hg, hrow]
  | some args =>
    have hz := maskedLogits_row hs hargs hr hrow he
    obtain ⟨htemp, -, -⟩ := prepare_some hargs hr
    have hkeys : args.seed[i]? = some r.seed ∧ args.counter[i]? = some r.seqLen := by
      unfold prepare at hargs
      split at hargs
      · cases hargs
      · obtain rfl := Option.some.inj hargs
        exact ⟨by simp [hr], by simp [hr]⟩
    have hnoise : (uniformNoise args.seed args.counter vocabSize)[i]? =
        some ((List.range vocabSize).map (noiseAt r.seed r.seqLen)) := by
      simp [uniformNoise, List.zip, List.getElem?_zipWith, hkeys.1, hkeys.2]
    simp only [sample, sampleOwn, List.getElem?_zipWith, List.zip, htemp, hz, hnoise, List.getElem?_map,
      hrow, Option.map_some]

theorem sample_length_le (args : Option (SamplingArgs K)) :
    (sample round softmax empty perturb vocabSize logits args).length ≤ logits.length := by
  cases args with
  | none => exact (List.length_map _).le
  | some args =>
    simp only [sample, List.length_zipWith, List.length_zip, List.length_map]
    omega

end Rows

section Nucleus

variable {K L : Type} [Zero K] [One K] [Add K] [Sub K] [LinearOrder K] [LinearOrder L] {round : Rounding K}
  {softmax : List K → List K} {perturb : WithBot K → ℚ → L} {p : SamplingParams} {seed pos : Nat}
    {row : List K} {v : Nat}

variable (round) in
def nucleusOf (softmax : List K → List K) (p : SamplingParams) (row : List K) : Finset Nat :=
  kept (keepRow (List.replicate row.length false) (softmax (ownScaled round p row)) (round.topP p.topP))

omit [Zero K] [Add K] [Sub K] [LinearOrder K] in
theorem replicate_length (hs : ∀ z, (softmax z).length = z.length) :
    (List.replicate row.length false).length = (softmax (ownScaled round p row)).length := by
  rw [hs, ownScaled, List.length_map, List.length_replicate]

theorem ownLogits_get (hs : ∀ z, (softmax z).length = z.length) (hp : p.topP < 1) (hv : v < row.length) :
    ∃ x ∈ ownScaled round p row,
      (ownLogits round softmax p row)[v]? = some (if v ∈ nucleusOf round softmax p row then (x : WithBot K) else ⊥) := by
  have hscaled : v < (ownScaled round p row).length := by rwa [ownScaled, List.length_map]
  have hk : ∃ k : Nat, (order (softmax (ownScaled round p row)))[k]? = some v := mem_order (by rwa [hs])
  obtain ⟨k, hk⟩ := hk
  obtain ⟨m, -, hkeep⟩ := @keepRow_at K _ _ _ _ _ _ _ (round.topP p.topP) _ _ (replicate_length hs) hk
  have hmem : v ∈ nucleusOf round softmax p row ↔ (keepRow (List.replicate row.length false)
      (softmax (ownScaled round p row)) (round.topP p.topP))[v]? = some true := by
    rw [nucleusOf, kept, Finset.mem_filter, Finset.mem_range, keepRow_length, List.length_replicate, and_iff_right hv]
  refine ⟨_, List.getElem_mem hscaled, ?_⟩
  rw [ownLogits]
  simp only [if_pos hp, maskRow]
  rw [List.getElem?_zipWith_eq_some]
  refine ⟨_, _, hkeep, List.getElem?_eq_getElem hscaled, ?_⟩
  rw [hkeep] at hmem
  simp only [Option.some.injEq] at hmem
  simp only [hmem]

theorem sampleOwn_nucleus (hs : ∀ z, (softmax z).length = z.length)
    (hself : ∀ x ∈ softmax (ownScaled round p row), 0 + x - x = 0)
    (hbelow : ∀ x ∈ ownScaled round p row, ∀ u u' : ℚ, 0 < u ∧ u < 1 → 0 < u' ∧ u' < 1 → perturb ⊥ u < perturb x u')
    (ht : isPositive (round.temperature p.temperature)) (hp : p.topP < 1)
    (hpos : 0 < round.topP p.topP) (hrow : row ≠ [])
    (hnoise : ∀ v < row.length, 0 < noiseAt seed pos v ∧ noiseAt seed pos v < 1) :
    sampleOwn round softmax perturb row.length p seed pos row ∈ nucleusOf round softmax p row := by
  have hlen := @replicate_length K _ round softmax p row hs
  have hne : softmax (ownScaled round p row) ≠ [] := by
    rw [← List.length_pos_iff, ← hlen, List.length_replicate, List.length_pos_iff]
    exact hrow
  obtain ⟨w, hw⟩ := kept_nonempty hlen hne hself hpos
  have hwlt : w < row.length := by
    have := (Finset.mem_filter.mp hw).1
    rwa [Finset.mem_range, keepRow_length, List.length_replicate] at this
  let noise := (List.range row.length).map (noiseAt seed pos)
  let values := List.zipWith perturb (ownLogits round softmax p row) noise
  have hvalue : ∀ v < row.length, ∃ x ∈ ownScaled round p row, values[v]? =
      some (perturb (if v ∈ nucleusOf round softmax p row then (x : WithBot K) else ⊥) (noiseAt seed pos v)) := by
    intro v hv
    obtain ⟨x, hx, hget⟩ := @ownLogits_get K _ _ _ _ _ round softmax p row v hs hp hv
    exact ⟨x, hx, List.getElem?_zipWith_eq_some.mpr ⟨_, _, hget, by simp [noise, hv], rfl⟩⟩
  obtain ⟨y, hymem, hy⟩ := hvalue w hwlt
  rw [if_pos (show w ∈ nucleusOf round softmax p row from hw)] at hy
  obtain ⟨x, hget, hmax⟩ := argmax_get (List.ne_nil_of_mem (List.mem_of_getElem? hy))
  have hown : sampleOwn round softmax perturb row.length p seed pos row = argmax values := if_pos ht
  rw [hown]
  by_contra hout
  have hargmax : argmax values < row.length := by
    obtain ⟨hi, -⟩ := List.getElem?_eq_some_iff.mp hget
    exact hi.trans_le (by simp [values, noise])
  obtain ⟨y', -, hy'⟩ := hvalue _ hargmax
  rw [if_neg hout, hget] at hy'
  have hle := hmax _ (List.mem_of_getElem? hy)
  rw [Option.some.inj hy'] at hle
  exact absurd (hbelow y hymem _ _ (hnoise _ hargmax) (hnoise w hwlt)) (not_lt.mpr hle)

end Nucleus

section Batches

variable {K L : Type} [Zero K] [One K] [Add K] [Sub K] [LinearOrder K] [LinearOrder L] (round : Rounding K)
  (softmax : List K → List K) (perturb : WithBot K → ℚ → L) (vocabSize : Nat)
  (network : List (Option (Token × Nat)) → List K)

theorem next_of_greedy (h : List (Option (Token × Nat))) (p : SamplingParams) (seed pos : Nat) (hg : p.isGreedy) :
    (sampleOwn round softmax perturb vocabSize p seed pos (network h) : Token) = argmax (network h) := by
  rw [sampleOwn, greedy_not_positive hg]
  rfl

-- The model an engine runs: the network's logits, and this sampler on each of them.
def targetOf : Target where
  next h p seed pos := sampleOwn round softmax perturb vocabSize p seed pos (network h)
  next_nonneg _ _ _ _ := Int.natCast_nonneg _
  greedy h := argmax (network h)
  next_greedy := next_of_greedy round softmax perturb vocabSize network
  greedy_nonneg _ := Int.natCast_nonneg _

variable {round softmax perturb vocabSize network} {empty : Nat → List Bool} {s : Scheduler} {rows : List Row}
  {hists : List (List (Option (Token × Nat)))}

-- Sampling a batch gives each row what its request alone would be given: the rows do not see each other, however the
-- device rounds.
theorem batch_samples_each_request (hs : ∀ z, (softmax z).length = z.length) (hnet : ∀ h, (network h).length = vocabSize)
    (he : ∀ i, (empty i).length = vocabSize) (hlen : hists.length = rows.length) :
    (sample round softmax empty perturb vocabSize (hists.map network)
      (prepare round (rows.map fun row => s.reqs row.rid))).map Int.ofNat =
      List.zipWith (ModelRunner.sampleFrom (targetOf round softmax perturb vocabSize network).toModel s) rows hists := by
  apply List.ext_getElem?
  intro i
  rw [List.getElem?_map, List.getElem?_zipWith]
  rcases Nat.lt_or_ge i rows.length with hi | hi
  · have hrow : rows[i]? = some rows[i] := List.getElem?_eq_getElem hi
    have hi' : i < hists.length := hlen ▸ hi
    have hhist : hists[i]? = some hists[i] := List.getElem?_eq_getElem hi'
    have hr : (rows.map fun row => s.reqs row.rid)[i]? = some (s.reqs rows[i].rid) := by
      rw [List.getElem?_map, hrow]; rfl
    have hl : (hists.map network)[i]? = some (network hists[i]) := by rw [List.getElem?_map, hhist]; rfl
    rw [sample_get hs hr hl ((he i).trans (hnet _).symm), hrow, hhist]
    rfl
  · have hnone : (sample round softmax empty perturb vocabSize (hists.map network)
        (prepare round (rows.map fun row => s.reqs row.rid)))[i]? = none := by
      apply List.getElem?_eq_none
      refine (sample_length_le _).trans ?_
      rw [List.length_map, hlen]
      exact hi
    rw [hnone, List.getElem?_eq_none hi]
    rfl

-- A token sampled with a nucleus lies in it, in any batch, unless `top_p` is rounded to zero or the noise of that seed
-- and position reaches one.
theorem sampled_in_nucleus {requests : List Request} {logits : List (List K)} {i : Nat} {r : Request} {row : List K}
    (hs : ∀ z, (softmax z).length = z.length) (hself : ∀ x ∈ softmax (ownScaled round r.params row), 0 + x - x = 0)
    (hbelow : ∀ x ∈ ownScaled round r.params row, ∀ u u' : ℚ, 0 < u ∧ u < 1 → 0 < u' ∧ u' < 1 →
      perturb ⊥ u < perturb x u')
    (hr : requests[i]? = some r) (hrow : logits[i]? = some row) (hne : row ≠ []) (he : (empty i).length = row.length)
    (ht : isPositive (round.temperature r.params.temperature)) (hp : r.params.topP < 1)
    (hpos : 0 < round.topP r.params.topP)
    (hseed : r.seed < 2 ^ 32) (hnoise : ∀ v < row.length, ∀ k < 256, r.seed ≠ topSeed r.seqLen v k) :
    ∃ tok, (sample round softmax empty perturb row.length logits (prepare round requests))[i]? = some tok ∧
      tok ∈ nucleusOf round softmax r.params row :=
  ⟨_, sample_get hs hr hrow he, sampleOwn_nucleus hs hself hbelow ht hp hpos hne fun v hv =>
    (noiseAt_inside_iff hseed).mpr (hnoise v hv)⟩

noncomputable def gumbel (z : WithBot ℚ) (u : ℚ) : WithBot ℝ := z.map fun x : ℚ => (x : ℝ) + -Real.log (-Real.log u)

theorem nonneg_one : PyFloat.Nonneg 1 := by decide

theorem half_mem : 0 < (1 / 2 : ℚ) ∧ (1 / 2 : ℚ) ≤ 1 := by norm_num

theorem five_lt : ∀ s, some 5 = some s → s < 2 ^ 32 := by
  rintro s ⟨⟩
  decide

def warm : SamplingParams where
  maxNewTokens := 2
  temperature := 1
  topP := 1 / 2
  seed := some 5
  maxNewTokens_pos := Nat.two_pos
  temperature_nonneg := nonneg_one
  topP_mem := half_mem
  seed_lt := five_lt

def mixed : Engine := (((Engine.new Engine.tiny).addRequest [1] { maxNewTokens := 2 }).2.addRequest [1, 2] warm).2

theorem evenly_length (z : List ℚ) : (evenly z).length = z.length := List.length_map _

def counts (h : List (Option (Token × Nat))) : List ℚ := [0, h.length, 0]

def mixedRows : List Row := [⟨0, 0, 1⟩, ⟨1, 0, 2⟩]

def mixedHists : List (List (Option (Token × Nat))) := [[some (1, 0)], [some (1, 0), some (2, 1)]]

theorem gumbel_below (x u u' : ℚ) : gumbel ⊥ u < gumbel x u' := WithBot.bot_lt_coe ((x : ℝ) + -Real.log (-Real.log u'))

theorem batch_samples_each_request_mixed :
    (sample .exact evenly (fun _ => [false, true, false]) gumbel 3 (mixedHists.map counts)
      (prepare .exact (mixedRows.map fun row => mixed.scheduler.reqs row.rid))).map Int.ofNat =
      List.zipWith (ModelRunner.sampleFrom (targetOf .exact evenly gumbel 3 counts).toModel mixed.scheduler) mixedRows
        mixedHists :=
  @batch_samples_each_request ℚ (WithBot ℝ) _ _ _ _ _ _ .exact evenly gumbel 3 counts (fun _ => [false, true, false])
    mixed.scheduler mixedRows mixedHists evenly_length (fun _ => rfl) (fun _ => rfl) rfl

theorem sampled_in_nucleus_mixed : ∃ tok < 2, (sample .exact evenly (fun _ => [false, true, false]) gumbel 3
    [[0, 1, 0], [1, 1, 1]] (prepare .exact [mixed.request 0, mixed.request 1]))[1]? = some tok := by
  obtain ⟨tok, hget, hmem⟩ :=
    @sampled_in_nucleus ℚ (WithBot ℝ) _ _ _ _ _ _ .exact evenly gumbel (fun _ => [false, true, false])
    [mixed.request 0, mixed.request 1] [[0, 1, 0], [1, 1, 1]] 1 (mixed.request 1) [1, 1, 1] evenly_length
    (fun x _ => by rw [zero_add, sub_self]) (fun x _ u u' _ _ => gumbel_below x u u') rfl rfl (by decide) rfl
    (by decide +kernel) (by decide +kernel) (by decide +kernel) (by decide +kernel) (by decide +kernel)
  have hnucleus : nucleusOf .exact evenly (mixed.request 1).params [1, 1, 1] = {0, 1} := by decide +kernel
  rw [hnucleus] at hmem
  refine ⟨tok, ?_, hget⟩
  rcases Finset.mem_insert.mp hmem with rfl | hone
  · exact Nat.two_pos
  · rw [Finset.mem_singleton.mp hone]
    exact Nat.one_lt_two

end Batches

end Sampler

end MiniServe
