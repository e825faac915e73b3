import MiniServe.Engine.Sampler
import MiniServe.Engine.Request
import MiniServe.Lib.TopMass

namespace MiniServe

namespace Sampler

section Code

def isPositive : PyFloat → Bool
  | .finite q => 0 < q
  | .inf => true
  | .negInf | .nan => false

-- The device's numbers are of a type `K` of its own: how a request's are turned into them, and how they are divided.
structure Rounding (K : Type) [One K] where
  temperature : PyFloat → PyFloat
  topP : ℚ → K
  div : K → PyFloat → K
  temperature_zero : isPositive (temperature 0) = false
  topP_one : topP 1 = 1

variable {K : Type} [Zero K] [One K] [Add K] [Sub K] [LinearOrder K] (round : Rounding K)

structure SamplingArgs (K : Type) where
  temperature : List PyFloat
  topP : List K
  seed : List Nat
  counter : List Nat
  anyTopP : Bool

def prepare (requests : List Request) : Option (SamplingArgs K) :=
  if requests.all (·.params.isGreedy) then none
  else some {
    temperature := requests.map fun r => round.temperature r.params.temperature
    topP := requests.map fun r => round.topP r.params.topP
    seed := requests.map (·.seed)
    counter := requests.map (·.seqLen)
    anyTopP := requests.any fun r => decide (r.params.topP < 1) }

def cumsum : K → List K → List K
  | _, [] => []
  | acc, x :: xs => (acc + x) :: cumsum (acc + x) xs

def sortDescending (probs : List K) : List (K × Nat) := probs.zipIdx.insertionSort fun a b => b.1 ≤ a.1

def massesBefore (sortedProbs : List K) : List K := List.zipWith (· - ·) (cumsum 0 sortedProbs) sortedProbs

def scatter (dst : List Bool) (order : List Nat) (src : List Bool) : List Bool :=
  (order.zip src).foldl (fun d x => d.set x.1 x.2) dst

-- `empty` is what the uninitialised mask holds before the scatter.
def keepRow (empty : List Bool) (probs : List K) (topP : K) : List Bool :=
  let sorted := sortDescending probs
  let keepSorted := (massesBefore (sorted.map Prod.fst)).map fun m => decide (m < topP) || decide (1 ≤ topP)
  scatter empty (sorted.map Prod.snd) keepSorted

def maskRow (softmax : List K → List K) (empty : List Bool) (z : List K) (topP : K) : List (WithBot K) :=
  List.zipWith (fun k x => if k then (x : WithBot K) else ⊥) (keepRow empty (softmax z) topP) z

def maskOutsideNucleus (softmax : List K → List K) (empty : Nat → List Bool) (z : List (List K)) (topP : List K) :
    List (List (WithBot K)) :=
  (z.zip topP).mapIdx fun i x => maskRow softmax (empty i) x.1 x.2

def scale (t : PyFloat) (x : K) : K := round.div x (if isPositive t then t else 1)

def scaled (logits : List (List K)) (temperature : List PyFloat) : List (List K) :=
  (logits.zip temperature).map fun x => x.1.map (scale round x.2)

def maskedLogits (softmax : List K → List K) (empty : Nat → List Bool) (logits : List (List K)) (args : SamplingArgs K) :
    List (List (WithBot K)) :=
  let z := scaled round logits args.temperature
  if args.anyTopP then maskOutsideNucleus softmax empty z args.topP else z.map (·.map WithBot.some)

end Code

section Order

variable {K : Type} [LinearOrder K] {probs l : List K} {i : Nat}

def order (probs : List K) : List Nat := (sortDescending probs).map Prod.snd

theorem order_perm : (order probs).Perm (List.range probs.length) := by
  have h := (List.perm_insertionSort (fun a b : K × Nat => b.1 ≤ a.1) probs.zipIdx).map Prod.snd
  rwa [List.zipIdx_map_snd, ← List.range_eq_range'] at h

theorem order_nodup : (order probs).Nodup := order_perm.nodup_iff.mpr List.nodup_range

theorem order_length : (order probs).length = probs.length := by
  rw [order_perm.length_eq, List.length_range]

theorem mem_order (h : v < probs.length) : ∃ i : Nat, (order probs)[i]? = some v :=
  List.mem_iff_getElem?.mp (order_perm.mem_iff.mpr (List.mem_range.mpr h))

omit [LinearOrder K] in
theorem cumsum_length [Add K] (acc : K) : (cumsum acc l).length = l.length := by
  induction l generalizing acc with
  | nil => rfl
  | cons x l ih => rw [cumsum, List.length_cons, ih, List.length_cons]

omit [LinearOrder K] in
theorem massesBefore_length [Zero K] [Add K] [Sub K] : (massesBefore l).length = l.length := by
  rw [massesBefore, List.length_zipWith, cumsum_length, Nat.min_self]

variable [Zero K]

def weight (probs : List K) (v : Nat) : K := probs.getD v 0

-- The more likely token first, ties by the lower index.
def Precedes (probs : List K) (u v : Nat) : Prop :=
  weight probs v < weight probs u ∨ weight probs u = weight probs v ∧ u < v

theorem Precedes.asymm {u v : Nat} (h : Precedes probs u v) : ¬ Precedes probs v u := by
  rintro (h2 | ⟨h2, hlt⟩)
  · rcases h with h | ⟨h, -⟩
    · exact lt_asymm h h2
    · exact h2.ne h
  · rcases h with h | ⟨-, h⟩
    · exact h.ne h2
    · omega

theorem Precedes.le {u v : Nat} (h : Precedes probs u v) : weight probs v ≤ weight probs u := by
  rcases h with h | ⟨h, -⟩
  · exact h.le
  · exact h.ge

theorem mem_sortDescending {a : K × Nat} (h : a ∈ sortDescending probs) :
    weight probs a.2 = a.1 ∧ a.2 < probs.length := by
  have hmem : a ∈ probs.zipIdx := (List.mem_insertionSort _).mp h
  have hget : probs[a.2]? = some a.1 := List.mem_zipIdx_iff_getElem?.mp hmem
  obtain ⟨hlt, -⟩ := List.getElem?_eq_some_iff.mp hget
  exact ⟨by simp [weight, List.getD_eq_getElem?_getD, hget], hlt⟩

theorem sorted_fst : (sortDescending probs).map Prod.fst = (order probs).map (weight probs) := by
  rw [order, List.map_map]
  apply List.map_congr_left
  intro a ha
  exact (mem_sortDescending ha).1.symm

theorem order_pairwise : (order probs).Pairwise (Precedes probs) := by
  have hidx : probs.zipIdx.Pairwise fun a b => a.2 < b.2 := by
    rw [← List.pairwise_map (f := Prod.snd), List.zipIdx_map_snd, ← List.range_eq_range']
    exact List.pairwise_lt_range
  have hstable := TopMass.stable_insertionSort (r := fun a b : K × Nat => b.1 ≤ a.1) (fun a b => le_total b.1 a.1)
    (fun hab hbc => hbc.trans hab) hidx
  rw [order, List.pairwise_map]
  apply List.Pairwise.imp_of_mem _ hstable
  intro a b ha hb ⟨hle, htie⟩
  rw [Precedes, (mem_sortDescending ha).1, (mem_sortDescending hb).1]
  rcases hle.lt_or_eq with hlt | heq
  · exact .inl hlt
  · exact .inr ⟨heq.symm, htie heq.ge⟩

end Order

section Scatter

variable {dst src : List Bool} {order : List Nat} {i v : Nat} {k : Bool}

theorem scatter_length : (scatter dst order src).length = dst.length := by
  rw [scatter]
  induction order.zip src generalizing dst with
  | nil => rfl
  | cons x l ih => rw [List.foldl_cons, ih, List.length_set]

theorem scatter_other (h : v ∉ order) : (scatter dst order src)[v]? = dst[v]? := by
  induction order generalizing dst src with
  | nil => simp [scatter]
  | cons u order ih =>
    cases src with
    | nil => simp [scatter]
    | cons b src =>
      obtain ⟨hne, hmem⟩ := not_or.mp (List.mem_cons.not.mp h)
      have hrest : (scatter (dst.set u b) order src)[v]? = (dst.set u b)[v]? := ih hmem
      rw [List.getElem?_set_ne (Ne.symm hne)] at hrest
      simpa [scatter] using hrest

theorem scatter_get (hn : order.Nodup) (hlt : ∀ u ∈ order, u < dst.length) (hv : order[i]? = some v)
    (hk : src[i]? = some k) : (scatter dst order src)[v]? = some k := by
  induction order generalizing dst src i with
  | nil => simp at hv
  | cons u order ih =>
    obtain ⟨hu, hn⟩ := List.nodup_cons.mp hn
    obtain ⟨hul, hlt⟩ := List.forall_mem_cons.mp hlt
    cases src with
    | nil => simp at hk
    | cons b src =>
      have hstep : scatter dst (u :: order) (b :: src) = scatter (dst.set u b) order src := rfl
      cases i with
      | zero =>
        obtain rfl : u = v := by simpa using hv
        obtain rfl : b = k := by simpa using hk
        rw [hstep, scatter_other hu, List.getElem?_set_self hul]
      | succ i =>
        rw [hstep]
        apply ih hn _ (by simpa using hv) (by simpa using hk)
        intro w hw
        rw [List.length_set]
        exact hlt w hw

end Scatter

section Mask

variable {K : Type} [Zero K] [One K] [Add K] [Sub K] [LinearOrder K] {probs : List K} {empty e e' : List Bool} {topP : K}
  {i v : Nat}

def kept (keep : List Bool) : Finset Nat := (Finset.range keep.length).filter fun v => keep[v]? = some true

theorem keepRow_length : (keepRow empty probs topP).length = empty.length := scatter_length

theorem keepRow_at (he : empty.length = probs.length) (hv : (order probs)[i]? = some v) :
    ∃ m, (massesBefore ((order probs).map (weight probs)))[i]? = some m ∧
      (keepRow empty probs topP)[v]? = some (decide (m < topP) || decide (1 ≤ topP)) := by
  obtain ⟨hi, -⟩ := List.getElem?_eq_some_iff.mp hv
  have hm : i < (massesBefore ((order probs).map (weight probs))).length := by rwa [massesBefore_length, List.length_map]
  have hlt : ∀ u ∈ order probs, u < empty.length := by
    intro u hu
    rw [he]
    exact List.mem_range.mp (order_perm.mem_iff.mp hu)
  refine ⟨_, List.getElem?_eq_getElem hm, scatter_get order_nodup hlt hv ?_⟩
  rw [List.getElem?_map, sorted_fst, List.getElem?_eq_getElem hm]
  rfl

theorem keepRow_all (he : empty.length = probs.length) (hp : 1 ≤ topP) :
    keepRow empty probs topP = List.replicate probs.length true := by
  apply List.ext_getElem?
  intro v
  rw [List.getElem?_replicate]
  split
  · next hv =>
    obtain ⟨i, hi⟩ := mem_order hv
    obtain ⟨m, -, hkeep⟩ := @keepRow_at K _ _ _ _ _ _ _ topP _ _ he hi
    simp [hkeep, hp]
  · next hv =>
    rw [List.getElem?_eq_none]
    rw [keepRow_length, he]
    omega

theorem keepRow_congr (he : e.length = probs.length) (he' : e'.length = probs.length) :
    keepRow e probs topP = keepRow e' probs topP := by
  apply List.ext_getElem?
  intro v
  rcases Nat.lt_or_ge v probs.length with hv | hv
  · obtain ⟨i, hi⟩ := mem_order hv
    obtain ⟨m, hm, hkeep⟩ := @keepRow_at K _ _ _ _ _ _ _ topP _ _ he hi
    obtain ⟨m', hm', hkeep'⟩ := @keepRow_at K _ _ _ _ _ _ _ topP _ _ he' hi
    rw [hm, Option.some.injEq] at hm'
    rw [hkeep, hkeep', hm']
  · rw [List.getElem?_eq_none (by rwa [keepRow_length, he]), List.getElem?_eq_none (by rwa [keepRow_length, he'])]

theorem kept_nonempty (he : empty.length = probs.length) (hne : probs ≠ []) (hself : ∀ x ∈ probs, 0 + x - x = 0)
    (hp : 0 < topP) : ∃ v, v ∈ kept (keepRow empty probs topP) := by
  have hlen : 0 < (order probs).length := by rwa [order_length, List.length_pos_iff]
  obtain ⟨v, l, hl⟩ := List.exists_cons_of_length_pos hlen
  have hfirst : (order probs)[0]? = some v := by rw [hl, List.getElem?_cons_zero]
  have hv : v < probs.length := List.mem_range.mp (order_perm.mem_iff.mp (List.mem_of_getElem? hfirst))
  obtain ⟨m, hm, hkeep⟩ := @keepRow_at K _ _ _ _ _ _ _ topP _ _ he hfirst
  have hzero : m = 0 := by
    have hweight : weight probs v = probs[v] := by simp [weight, hv]
    rw [hl, List.map_cons] at hm
    simp only [massesBefore, cumsum, List.zipWith_cons_cons, List.getElem?_cons_zero, Option.some.injEq] at hm
    rw [← hm, hweight]
    exact hself _ (List.getElem_mem hv)
  refine ⟨v, Finset.mem_filter.mpr ⟨Finset.mem_range.mpr (by rwa [keepRow_length, he]), ?_⟩⟩
  simp [hkeep, hzero, hp]

end Mask

section Exact

variable {K : Type} [Field K] [LinearOrder K] {probs l : List K} {empty : List Bool} {topP : K} {i v : Nat}

def exactDiv (x : K) : PyFloat → K
  | .finite q => x / q
  | .inf => 0
  | .negInf | .nan => x

theorem zero_not_positive : isPositive 0 = false := rfl

def Rounding.exact : Rounding K := ⟨id, Rat.cast, exactDiv, zero_not_positive, Rat.cast_one⟩

omit [LinearOrder K] in
theorem cumsum_get (acc : K) : (cumsum acc l)[i]? = l[i]?.map fun x => acc + (l.take i).sum + x := by
  induction l generalizing acc i with
  | nil => simp [cumsum]
  | cons y l ih =>
    cases i with
    | zero => simp [cumsum]
    | succ i => simp [cumsum, ih, add_assoc]

omit [LinearOrder K] in
theorem massesBefore_get (h : i < l.length) : (massesBefore l)[i]? = some (l.take i).sum := by
  simp [massesBefore, List.getElem?_zipWith, cumsum_get, List.getElem?_eq_getElem h]

theorem keepRow_get (he : empty.length = probs.length) (hv : (order probs)[i]? = some v) :
    (keepRow empty probs topP)[v]? =
      some (decide (TopMass.massBefore (weight probs) (order probs) i < topP) || decide (1 ≤ topP)) := by
  obtain ⟨m, hm, hkeep⟩ := @keepRow_at K _ _ _ _ _ _ _ topP _ _ he hv
  obtain ⟨hi, -⟩ := List.getElem?_eq_some_iff.mp hv
  rw [massesBefore_get (by rwa [List.length_map]), ← List.map_take, Option.some.injEq] at hm
  rw [hkeep, ← hm]
  rfl

theorem mem_kept (he : empty.length = probs.length) (hp : topP < 1) :
    v ∈ kept (keepRow empty probs topP) ↔
      ∃ i : Nat, (order probs)[i]? = some v ∧ TopMass.massBefore (weight probs) (order probs) i < topP := by
  rw [kept, Finset.mem_filter, Finset.mem_range, keepRow_length, he]
  constructor
  · rintro ⟨hv, hkeep⟩
    obtain ⟨i, hi⟩ := mem_order hv
    rw [keepRow_get he hi] at hkeep
    exact ⟨i, hi, by simpa [not_le.mpr hp] using hkeep⟩
  · rintro ⟨i, hi, hlt⟩
    refine ⟨List.mem_range.mp (order_perm.mem_iff.mp (List.mem_of_getElem? hi)), ?_⟩
    simp [keepRow_get he hi, hlt]

theorem weight_nonneg (h0 : ∀ x ∈ probs, 0 ≤ x) : ∀ v ∈ order probs, 0 ≤ weight probs v := by
  intro v hv
  have hlt := List.mem_range.mp (order_perm.mem_iff.mp hv)
  rw [weight, List.getD_eq_getElem?_getD, List.getElem?_eq_getElem hlt, Option.getD_some]
  exact h0 _ (List.getElem_mem hlt)

theorem massBefore_all : TopMass.massBefore (weight probs) (order probs) (order probs).length = probs.sum := by
  have hperm := (List.perm_insertionSort (fun a b : K × Nat => b.1 ≤ a.1) probs.zipIdx).map Prod.fst
  rw [List.zipIdx_map_fst] at hperm
  rw [TopMass.massBefore, List.take_length, ← sorted_fst]
  exact hperm.sum_eq

variable [IsStrictOrderedRing K]

theorem kept_least (he : empty.length = probs.length) (h0 : ∀ x ∈ probs, 0 ≤ x) (h1 : probs.sum = 1) (hp : topP < 1) :
    TopMass.Least (Finset.range probs.length) (kept (keepRow empty probs topP)) (weight probs)
    (Precedes probs) topP := by
  have hground : (order probs).toFinset = Finset.range probs.length := by
    ext v
    rw [List.mem_toFinset, order_perm.mem_iff, List.mem_range, Finset.mem_range]
  rw [← hground]
  apply TopMass.least_of_massBefore order_nodup order_pairwise (fun a b => Precedes.asymm)
    (order_pairwise.imp Precedes.le) (weight_nonneg h0) _ (fun v => mem_kept he hp)
  rw [massBefore_all, h1]
  exact hp.le

theorem kept_argmax (he : empty.length = probs.length) (h1 : probs.sum = 1) (hpos : 0 < topP) (hp : topP < 1) :
    ∃ v ∈ kept (keepRow empty probs topP), ∀ u < probs.length,
      weight probs u ≤ weight probs v ∧ (u < v → weight probs u < weight probs v) := by
  have hne : 0 < (order probs).length := by
    rw [order_length, List.length_pos_iff]
    rintro rfl
    simp at h1
  obtain ⟨v, l, hl⟩ := List.exists_cons_of_length_pos hne
  have hfirst : (order probs)[0]? = some v := by rw [hl, List.getElem?_cons_zero]
  refine ⟨v, (mem_kept he hp).mpr ⟨0, hfirst, by simpa [TopMass.massBefore] using hpos⟩, fun u hu => ?_⟩
  have hmem : u ∈ v :: l := by
    rw [← hl]
    exact order_perm.mem_iff.mpr (List.mem_range.mpr hu)
  have hpair : (order probs).Pairwise (Precedes probs) := order_pairwise
  rw [hl, List.pairwise_cons] at hpair
  rcases List.mem_cons.mp hmem with rfl | hmem
  · exact ⟨le_rfl, fun h => absurd h (lt_irrefl _)⟩
  · refine ⟨(hpair.1 u hmem).le, fun hlt => ?_⟩
    rcases hpair.1 u hmem with h | ⟨-, h⟩
    · exact h
    · omega

end Exact

section Batch

variable {K : Type} [Zero K] [One K] [Add K] [Sub K] [LinearOrder K] {round : Rounding K} {softmax : List K → List K}
  {empty : Nat → List Bool} {e : List Bool} {z row : List K} {topP : K} {requests : List Request}
    {logits : List (List K)}
  {args : SamplingArgs K} {r : Request} {i : Nat}

variable (round) in
def ownScaled (p : SamplingParams) (row : List K) : List K := row.map (scale round (round.temperature p.temperature))

variable (round) in
def ownLogits (softmax : List K → List K) (p : SamplingParams) (row : List K) : List (WithBot K) :=
  let z := ownScaled round p row
  if p.topP < 1 then maskRow softmax (List.replicate row.length false) z (round.topP p.topP) else z.map WithBot.some

theorem maskRow_one (hs : (softmax z).length = z.length) (he : e.length = z.length) (hp : 1 ≤ topP) :
    maskRow softmax e z topP = z.map WithBot.some := by
  rw [maskRow, keepRow_all (he.trans hs.symm) hp, hs]
  clear hs he
  induction z with
  | nil => rfl
  | cons x z ih => simpa [List.replicate_succ] using ih

omit [Zero K] [Add K] [Sub K] [LinearOrder K] in
theorem prepare_some (h : prepare round requests = some args) (hr : requests[i]? = some r) :
    args.temperature[i]? = some (round.temperature r.params.temperature) ∧
    args.topP[i]? = some (round.topP r.params.topP) ∧
      (args.anyTopP = false → ¬ r.params.topP < 1) := by
  unfold prepare at h
  split at h
  · simp at h
  · obtain rfl := (Option.some.inj h).symm
    refine ⟨by simp [hr], by simp [hr], fun hany => ?_⟩
    simpa using (List.any_eq_false.mp hany) r (List.mem_of_getElem? hr)

theorem maskedLogits_row (hs : ∀ z, (softmax z).length = z.length)
    (hargs : prepare round requests = some args) (hr : requests[i]? = some r) (hrow : logits[i]? = some row)
    (he : (empty i).length = row.length) :
    (maskedLogits round softmax empty logits args)[i]? = some (ownLogits round softmax r.params row) := by
  obtain ⟨htemp, htop, hany⟩ := prepare_some hargs hr
  have hz : (scaled round logits args.temperature)[i]? = some (ownScaled round r.params row) := by
    simp [scaled, ownScaled, List.zip, List.getElem?_zipWith, hrow, htemp]
  have hlen : (ownScaled round r.params row).length = row.length := List.length_map _
  rw [maskedLogits, ownLogits]
  by_cases hflag : args.anyTopP = true
  · have hmask : (maskOutsideNucleus softmax empty (scaled round logits args.temperature) args.topP)[i]? =
        some (maskRow softmax (empty i) (ownScaled round r.params row) (round.topP r.params.topP)) := by
      simp [maskOutsideNucleus, List.getElem?_mapIdx, List.zip, List.getElem?_zipWith, hz, htop]
    simp only [hflag, if_true, hmask]
    split
    · rw [maskRow, maskRow, keepRow_congr]
      · rw [he, hs, hlen]
      · rw [List.length_replicate, hs, hlen]
    · next hp =>
      have hone : r.params.topP = 1 := le_antisymm r.params.topP_mem.2 (not_lt.mp hp)
      rw [maskRow_one (hs _) (he.trans hlen.symm) (by rw [hone, round.topP_one])]
  · rw [if_neg hflag, if_neg (hany (by simpa using hflag)), List.getElem?_map, hz, Option.map_some]

end Batch

section Masked

variable {K : Type} [Field K] [LinearOrder K] [IsStrictOrderedRing K] {softmax : List K → List K}

theorem nucleus_mask_exact (hs : ∀ z, (softmax z).length = z.length) :
    (∀ (probs : List K) (empty : List Bool) (topP : K), empty.length = probs.length → (∀ x ∈ probs, 0 ≤ x) →
      probs.sum = 1 → 0 < topP → topP < 1 →
      TopMass.Least (Finset.range probs.length) (kept (keepRow empty probs topP)) (weight probs) (Precedes probs) topP ∧
        ∃ v ∈ kept (keepRow empty probs topP), ∀ u < probs.length,
          weight probs u ≤ weight probs v ∧ (u < v → weight probs u < weight probs v)) ∧
    (∀ (probs : List K) (empty : List Bool), empty.length = probs.length →
      keepRow empty probs 1 = List.replicate probs.length true) ∧
    ∀ (round : Rounding K) requests args logits empty i r row, prepare round requests = some args →
    requests[i]? = some r →
      logits[i]? = some row → (empty i).length = row.length →
      (maskedLogits round softmax empty logits args)[i]? = some (ownLogits round softmax r.params row) := by
  refine ⟨?_, ?_, ?_⟩
  · intro probs empty topP he h0 h1 hpos hp
    exact ⟨kept_least he h0 h1 hp, kept_argmax he h1 hpos hp⟩
  · intro probs empty he
    exact keepRow_all he le_rfl
  · intro round requests args logits empty i r row hargs hr hrow he
    exact maskedLogits_row hs hargs hr hrow he

def evenly (z : List ℚ) : List ℚ := z.map fun _ => 1 / z.length

def skewed : List ℚ := [1 / 4, 1 / 2, 1 / 4]

example : keepRow [true, false, true] skewed (3 / 5) = [true, true, false] := by decide +kernel

theorem nucleus_mask_exact_evenly :
    TopMass.Least (Finset.range 3) (kept (keepRow [true, false, true] skewed (3 / 5))) (weight skewed) (Precedes skewed)
      (3 / 5 : ℚ) := by
  have hs : ∀ z, (evenly z).length = z.length := fun z => List.length_map _
  apply ((nucleus_mask_exact hs).1 skewed [true, false, true] (3 / 5) rfl _ _ _ _).1
  · decide +kernel
  · decide +kernel
  · norm_num
  · norm_num

end Masked

end Sampler

end MiniServe
