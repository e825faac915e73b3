import MiniServe.Cache.Packing

namespace MiniServe

inductive GraphError where
  | badMaxBs (got : Int)
  | badWidth (blockSize got : Nat)
  | noBuckets
  | batchTooLarge (batchSize : Nat)
  | tokenCount (tokens sequences width : Nat)
  | shapeMismatch
  | indexOutOfRange
  | indexBufferTooSmall
  | outOfInt64
  | packing (e : PackError)
  deriving DecidableEq, Repr

def bucketsLoop (maxBs : Nat) : Nat → Nat → List Nat
  | 0, _ => []
  | fuel + 1, b => if b < maxBs then b :: bucketsLoop maxBs fuel (b * 2) else []

def graphBuckets (maxBs : Int) : Except GraphError (List Nat) :=
  if maxBs < 1 then .error (.badMaxBs maxBs)
  else .ok (bucketsLoop maxBs.toNat maxBs.toNat 1 ++ [maxBs.toNat])

def bucketFor (buckets : List Nat) (batchSize : Nat) : Except GraphError Nat :=
  match buckets.find? (batchSize ≤ ·) with
  | some g => .ok g
  | none => .error (.batchTooLarge batchSize)

inductive InputRow where
  | ids | pos | slots
  deriving DecidableEq, Repr

abbrev Inputs := InputRow → List Int

-- `row[start:stop] = values`; a single value is broadcast.
def setSlice (row : List Int) (start stop : Nat) (values : List Int) : Option (List Int) :=
  let k := min stop row.length - start
  if values.length = k then some (row.take start ++ values ++ row.drop (start + k))
  else
    match values with
    | [v] => some (row.take start ++ List.replicate k v ++ row.drop (start + k))
    | _ => none

def indexCopy (row : List Int) (fill : List (Nat × Int)) : Option (List Int) :=
  if ∀ x ∈ fill, x.1 < row.length then some (fill.foldl (fun l x => l.set x.1 x.2) row) else none

structure DecodeGraphs where
  width : Nat
  numBlocks : Nat
  blockSize : Nat
  dummyBlock : Nat
  buckets : List Nat
  staging : Inputs
  inputs : Inputs
  indices : List Int
  packed : PackedTables

namespace DecodeGraphs

structure Call where
  ids : List Int
  pos : List Int
  slots : List Int
  tables : List SizedTable
  fill : List (Nat × Int) := []

-- What the captured kernels of a bucket read when it is replayed.
structure Replay where
  g : Nat
  inputs : Inputs
  indptr : List Int
  pages : List Int
  last : List Int

-- `torch.tensor(values, dtype=torch.long)`.
def tensor (values : List Int) : Except GraphError (List Int) :=
  if ∀ v ∈ values, IsLong v then .ok values else .error .outOfInt64

abbrev Write := InputRow × Nat × Nat × Except GraphError (List Int)

def writes : List Write → Inputs → Except GraphError Unit × Inputs
  | [], s => (.ok (), s)
  | (_, _, _, .error e) :: _, s => (.error e, s)
  | (row, start, stop, .ok values) :: rest, s =>
    match setSlice (s row) start stop values with
    | none => (.error .shapeMismatch, s)
    | some r => writes rest (Function.update s row r)

def padding (count width : Nat) : List Int := (List.replicate count ((List.range width).map Int.ofNat)).flatten

variable (d : DecodeGraphs)

def padSlots (count : Nat) : List Int := (padding count d.width).map (· + d.dummyBlock * d.blockSize)

def stageWrites (ids pos slots : List Int) (g : Nat) : List Write :=
  let n := ids.length
  let w := d.width
  [(.ids, 0, n, tensor ids), (.pos, 0, n, tensor pos), (.slots, 0, n, tensor slots)] ++
    if n < g * w then
      [(.ids, n, g * w, .ok [0]), (.pos, n, g * w, .ok (padding (g - n / w) w)),
        (.slots, n, g * w, .ok (d.padSlots (g - n / w)))]
    else []

def stage (ids pos slots : List Int) (g : Nat) : Except GraphError Unit × DecodeGraphs :=
  match writes (d.stageWrites ids pos slots g) d.staging with
  | (.error e, s) => (.error e, { d with staging := s })
  | (.ok (), s) => (.ok (), { d with staging := s, inputs := s })

def applyFill (fill : List (Nat × Int)) : Except GraphError Unit × DecodeGraphs :=
  match indexCopy (d.inputs .ids) fill with
  | none => (.error .indexOutOfRange, d)
  | some ids => (.ok (), { d with inputs := Function.update d.inputs .ids ids })

def plan (g : Nat) (tables : List SizedTable) : Except GraphError Buffers × DecodeGraphs :=
  match d.packed.pack tables ((g : Int) - tables.length) d.dummyBlock d.width with
  | (.error e, packed) => (.error (.packing e), { d with packed })
  | (.ok v, packed) =>
    if d.indices.length < v.indices.length then (.error .indexBufferTooSmall, { d with packed })
    else (.ok v, { d with packed, indices := v.indices ++ d.indices.drop v.indices.length })

def run (call : Call) : Except GraphError Replay × DecodeGraphs :=
  let b := call.tables.length
  if call.ids.length ≠ b * d.width then (.error (.tokenCount call.ids.length b d.width), d)
  else
    match bucketFor d.buckets b with
    | .error e => (.error e, d)
    | .ok g =>
      match d.stage call.ids call.pos call.slots g with
      | (.error e, d) => (.error e, d)
      | (.ok (), d) =>
        match d.applyFill call.fill with
        | (.error e, d) => (.error e, d)
        | (.ok (), d) =>
          match d.plan g call.tables with
          | (.error e, d) => (.error e, d)
          | (.ok v, d) =>
            (.ok {
              g
              inputs := fun row => (d.inputs row).take (g * d.width)
              indptr := v.indptr
              pages := d.indices.take v.indices.length
              last := v.last }, d)

def captureAll : List Nat → DecodeGraphs → Except GraphError Unit × DecodeGraphs
  | [], d => (.ok (), d)
  | g :: rest, d =>
    match d.stage [] [] [] g with
    | (.error e, d) => (.error e, d)
    | (.ok (), d) =>
      match d.plan g [] with
      | (.error e, d) => (.error e, d)
      | (.ok _, d) => captureAll rest d

def new (buckets : List Nat) (width numBlocks blockSize dummyBlock : Nat) : Except GraphError DecodeGraphs :=
  if ¬ (1 ≤ width ∧ width ≤ blockSize) then .error (.badWidth blockSize width)
  else
    let buckets := buckets.insertionSort (· ≤ ·)
    match buckets.getLast? with
    | none => .error .noBuckets
    | some gmax =>
      let d : DecodeGraphs := {
        width, numBlocks, blockSize, dummyBlock, buckets
        staging := fun _ => List.replicate (gmax * width) 0
        inputs := fun _ => List.replicate (gmax * width) 0
        indices := List.replicate (gmax * numBlocks) 0
        packed := .new gmax (gmax * 64) }
      match captureAll buckets.reverse d with
      | (.error e, _) => .error e
      | (.ok (), d) => .ok d

-- Any sequence of calls, over a pool of one block more than its allocator's.
inductive Reach (maxBs width numBlocks blockSize : Nat) : DecodeGraphs → Prop
  | new {buckets : List Nat} {d : DecodeGraphs} : graphBuckets maxBs = .ok buckets →
      new buckets width (numBlocks + 1) blockSize numBlocks = .ok d → Reach maxBs width numBlocks blockSize d
  | run {d : DecodeGraphs} (call : Call) : Reach maxBs width numBlocks blockSize d →
      Reach maxBs width numBlocks blockSize (d.run call).2

end DecodeGraphs

section Buckets

variable {maxBs fuel b n g : Nat} {buckets : List Nat}

theorem bucketsLoop_ge (h : g ∈ bucketsLoop maxBs fuel b) : b ≤ g ∧ g < maxBs := by
  induction fuel generalizing b with
  | zero => simp [bucketsLoop] at h
  | succ fuel ih =>
    rw [bucketsLoop] at h
    split at h
    · next hlt =>
      rcases List.mem_cons.mp h with rfl | h
      · exact ⟨le_rfl, hlt⟩
      · have := ih h
        omega
    · simp at h

theorem bucketsLoop_pairwise (hb : 1 ≤ b) : (bucketsLoop maxBs fuel b ++ [maxBs]).Pairwise (· < ·) := by
  induction fuel generalizing b with
  | zero => simp [bucketsLoop]
  | succ fuel ih =>
    rw [bucketsLoop]
    split
    · next hlt =>
      apply List.Pairwise.cons _ (ih (by omega))
      intro g hg
      rcases List.mem_append.mp hg with hg | hg
      · have := bucketsLoop_ge hg
        omega
      · rw [List.mem_singleton.mp hg]
        exact hlt
    · simp

theorem bucketsLoop_find (hn : n ≤ maxBs) (hb : b < 2 * n) (hfuel : maxBs ≤ b * 2 ^ fuel) :
    ∃ g, (bucketsLoop maxBs fuel b ++ [maxBs]).find? (n ≤ ·) = some g ∧ g < 2 * n := by
  induction fuel generalizing b with
  | zero =>
    refine ⟨maxBs, by simp [bucketsLoop, hn], ?_⟩
    rw [pow_zero, mul_one] at hfuel
    omega
  | succ fuel ih =>
    rw [bucketsLoop]
    split
    · next hlt =>
      rw [List.cons_append, List.find?_cons]
      by_cases hle : n ≤ b
      · exact ⟨b, by simp [hle], hb⟩
      · simp only [hle, decide_false]
        exact ih (by omega) (by rw [Nat.mul_assoc, ← pow_succ']; exact hfuel)
    · exact ⟨maxBs, by simp [hn], by omega⟩

theorem graphBuckets_cases (h : graphBuckets maxBs = .ok buckets) :
    1 ≤ maxBs ∧ buckets = bucketsLoop maxBs maxBs 1 ++ [maxBs] := by
  unfold graphBuckets at h
  split at h
  · simp at h
  · next hge =>
    rw [Int.toNat_natCast] at h
    exact ⟨by omega, (Except.ok.inj h).symm⟩

theorem graphBuckets_sorted (h : graphBuckets maxBs = .ok buckets) : buckets.Pairwise (· < ·) := by
  obtain ⟨-, rfl⟩ := graphBuckets_cases h
  exact bucketsLoop_pairwise le_rfl

theorem graphBuckets_last (h : graphBuckets maxBs = .ok buckets) : buckets.getLast? = some maxBs := by
  obtain ⟨-, rfl⟩ := graphBuckets_cases h
  exact List.getLast?_concat ..

theorem graphBuckets_le (h : graphBuckets maxBs = .ok buckets) (hg : g ∈ buckets) : g ≤ maxBs := by
  obtain ⟨-, rfl⟩ := graphBuckets_cases h
  rcases List.mem_append.mp hg with hg | hg
  · exact (bucketsLoop_ge hg).2.le
  · exact (List.mem_singleton.mp hg).le

theorem bucketFor_smallest (h : graphBuckets maxBs = .ok buckets) (hn : 1 ≤ n) (hle : n ≤ maxBs) :
    ∃ g, bucketFor buckets n = .ok g ∧ g ∈ buckets ∧ n ≤ g ∧ (∀ g' ∈ buckets, n ≤ g' → g ≤ g') ∧ g < 2 * n := by
  have hsorted := graphBuckets_sorted h
  obtain ⟨-, hb⟩ := graphBuckets_cases h
  have hfuel : maxBs ≤ 1 * 2 ^ maxBs := by
    rw [one_mul]
    exact Nat.lt_two_pow_self.le
  obtain ⟨g, hfind, hlt⟩ := bucketsLoop_find hle (by omega) hfuel
  rw [← hb] at hfind
  have hng : n ≤ g := by simpa using List.find?_some hfind
  refine ⟨g, by simp only [bucketFor, hfind], List.mem_of_find?_eq_some hfind, hng, fun g' hg' hng' => ?_, hlt⟩
  obtain ⟨-, l, r, hsplit, hl⟩ := List.find?_eq_some_iff_append.mp hfind
  rw [hsplit] at hg' hsorted
  rcases List.mem_append.mp hg' with hmem | hmem
  · have := hl g' hmem
    simp at this
    omega
  · rcases List.mem_cons.mp hmem with rfl | hmem
    · exact le_rfl
    · exact ((List.pairwise_cons.mp (List.pairwise_append.mp hsorted).2.1).1 g' hmem).le

end Buckets

namespace DecodeGraphs

section Stage

variable {row values ids pos slots r : List Int} {start stop b g n k c w : Nat} {s s' : Inputs} {d : DecodeGraphs}
  {f h : InputRow → List Int} {l l' : List Write} {fill : List (Nat × Int)}

theorem setSlice_length (hr : setSlice row start stop values = some r) : r.length = row.length := by
  unfold setSlice at hr
  simp only at hr
  split at hr
  · next hlen =>
    obtain rfl := Option.some.inj hr
    simp only [List.length_append, List.length_take, List.length_drop, hlen]
    omega
  · split at hr
    · obtain rfl := Option.some.inj hr
      simp only [List.length_append, List.length_take, List.length_drop, List.length_replicate]
      omega
    · simp at hr

theorem setSlice_exact (pre rest values : List Int) (hstop : stop = pre.length + values.length)
    (hle : values.length ≤ rest.length) :
    setSlice (pre ++ rest) pre.length stop values = some (pre ++ values ++ rest.drop values.length) := by
  have hk : min stop (pre ++ rest).length - pre.length = values.length := by
    rw [List.length_append]
    omega
  simp only [setSlice, hk, if_true, List.take_left, ← List.drop_drop, List.drop_left]

theorem setSlice_scalar (pre rest : List Int) (hstop : pre.length ≤ stop) (hle : stop ≤ (pre ++ rest).length) (v : Int) :
    setSlice (pre ++ rest) pre.length stop [v] =
      some (pre ++ List.replicate (stop - pre.length) v ++ rest.drop (stop - pre.length)) := by
  have hk : min stop (pre ++ rest).length - pre.length = stop - pre.length := by omega
  rw [setSlice, hk]
  split
  · next hone =>
    rw [← hone, List.length_singleton, List.replicate_one, List.take_left, ← List.drop_drop, List.drop_left]
  · simp only [List.take_left, ← List.drop_drop, List.drop_left]

theorem writes_length (row : InputRow) : ((writes l s).2 row).length = (s row).length := by
  induction l generalizing s with
  | nil => rfl
  | cons x l ih =>
    obtain ⟨row', start, stop, _ | values⟩ := x
    · rfl
    simp only [writes]
    cases hr : setSlice (s row') start stop values with
    | none => rfl
    | some r =>
      rw [ih]
      rcases eq_or_ne row row' with rfl | hne
      · rw [Function.update_self, setSlice_length hr]
      · rw [Function.update_of_ne hne]

theorem writes_append (hl : writes l s = (.ok (), s')) : writes (l ++ l') s = writes l' s' := by
  induction l generalizing s with
  | nil =>
    obtain rfl : s = s' := congrArg Prod.snd hl
    rfl
  | cons x l ih =>
    obtain ⟨row, start, stop, _ | values⟩ := x
    · simp [writes] at hl
    simp only [writes, List.cons_append] at hl ⊢
    split at hl
    · simp at hl
    · exact ih hl

theorem writes_all (hf : ∀ row, setSlice (s row) start stop (f row) = some (h row)) :
    writes [(.ids, start, stop, .ok (f .ids)), (.pos, start, stop, .ok (f .pos)),
      (.slots, start, stop, .ok (f .slots))] s =
      (.ok (), h) := by
  have hpos : InputRow.pos ≠ .ids := by decide
  have hslots : InputRow.slots ≠ .ids := by decide
  have hslots' : InputRow.slots ≠ .pos := by decide
  simp only [writes, hf, Function.update_of_ne hpos, Function.update_of_ne hslots, Function.update_of_ne hslots']
  congr 1
  funext row
  cases row <;> rfl

theorem tensor_ok (h : ∀ v ∈ values, IsLong v) : tensor values = .ok values := if_pos h

theorem tensor_error (h : ¬ ∀ v ∈ values, IsLong v) : tensor values = .error .outOfInt64 := if_neg h

theorem writes_overflow (hf : ∀ row, ∃ r, setSlice (s row) start stop (f row) = some r)
    (hbad : ∃ row, ¬ ∀ v ∈ f row, IsLong v) : ∃ s', writes ([(.ids, start, stop, tensor (f .ids)),
      (.pos, start, stop, tensor (f .pos)), (.slots, start, stop, tensor (f .slots))] ++ l) s =
          (.error .outOfInt64, s') := by
  obtain ⟨ids, hids⟩ := hf .ids
  obtain ⟨pos, hpos⟩ := hf .pos
  by_cases h1 : ∀ v ∈ f .ids, IsLong v
  · by_cases h2 : ∀ v ∈ f .pos, IsLong v
    · have h3 : ¬ ∀ v ∈ f .slots, IsLong v := by
        obtain ⟨row, hrow⟩ := hbad
        cases row with
        | ids => exact absurd h1 hrow
        | pos => exact absurd h2 hrow
        | slots => exact hrow
      simp [writes, tensor_ok h1, tensor_ok h2, tensor_error h3, hids, hpos]
    · simp [writes, tensor_ok h1, tensor_error h2, hids]
  · simp [writes, tensor_error h1]

theorem padding_length : (padding c w).length = c * w := by simp [padding]

def padded (d : DecodeGraphs) (ids pos slots : List Int) (c : Nat) : Inputs
  | .ids => ids ++ List.replicate (c * d.width) 0
  | .pos => pos ++ padding c d.width
  | .slots => slots ++ d.padSlots c

def own (ids pos slots : List Int) : Inputs
  | .ids => ids
  | .pos => pos
  | .slots => slots

theorem padded_length (hids : ids.length = b * d.width) (hpos : pos.length = ids.length)
    (hslots : slots.length = ids.length)
    (hbg : b ≤ g) (row : InputRow) : (padded d ids pos slots (g - b) row).length = g * d.width := by
  have hsum : b * d.width + (g - b) * d.width = g * d.width := by rw [← Nat.add_mul, Nat.add_sub_cancel' hbg]
  cases row with
  | ids => rw [padded, List.length_append, List.length_replicate, hids, hsum]
  | pos => rw [padded, List.length_append, padding_length, hpos, hids, hsum]
  | slots => rw [padded, List.length_append, padSlots, List.length_map, padding_length, hslots, hids, hsum]

theorem own_length (hpos : pos.length = ids.length) (hslots : slots.length = ids.length) (row : InputRow) :
    (own ids pos slots row).length = ids.length := by
  cases row with
  | ids => rfl
  | pos => exact hpos
  | slots => exact hslots

theorem setSlice_own (hpos : pos.length = ids.length) (hslots : slots.length = ids.length)
    (hle : ∀ row, ids.length ≤ (d.staging row).length) (row : InputRow) :
    setSlice (d.staging row) 0 ids.length (own ids pos slots row) =
      some (own ids pos slots row ++ (d.staging row).drop ids.length) := by
  have hown := own_length hpos hslots row
  have hset : setSlice ([] ++ d.staging row) ([] : List Int).length ids.length (own ids pos slots row) =
      some ([] ++ own ids pos slots row ++ (d.staging row).drop (own ids pos slots row).length) :=
    setSlice_exact _ _ _ (by simp [hown]) (by rw [hown]; exact hle row)
  rw [hown] at hset
  exact hset

theorem stage_overflow (hpos : pos.length = ids.length) (hslots : slots.length = ids.length)
    (hle : ∀ row, ids.length ≤ (d.staging row).length) (hbad : ∃ row, ¬ ∀ v ∈ own ids pos slots row, IsLong v) :
    ∃ s, d.stage ids pos slots g = (.error .outOfInt64, { d with staging := s }) := by
  have hwrites := @writes_overflow 0 ids.length d.staging (own ids pos slots)
    (if ids.length < g * d.width then
      [(.ids, ids.length, g * d.width, .ok [0]),
        (.pos, ids.length, g * d.width, .ok (padding (g - ids.length / d.width) d.width)),
        (.slots, ids.length, g * d.width, .ok (d.padSlots (g - ids.length / d.width)))]
    else []) (fun row => ⟨_, setSlice_own hpos hslots hle row⟩) hbad
  obtain ⟨s, hs⟩ := hwrites
  have hs : writes (d.stageWrites ids pos slots g) d.staging = (.error .outOfInt64, s) := hs
  exact ⟨s, by rw [stage, hs]⟩

theorem stage_ok (hw : 1 ≤ d.width) (hids : ids.length = b * d.width) (hpos : pos.length = ids.length)
    (hslots : slots.length = ids.length) (hbg : b ≤ g) (hlen : ∀ row, (d.staging row).length = k) (hk : g * d.width ≤ k)
    (hlong : ∀ row, ∀ v ∈ own ids pos slots row, IsLong v) :
    ∃ s, d.stage ids pos slots g = (.ok (), { d with staging := s, inputs := s }) ∧
      ∀ row, (s row).take (g * d.width) = padded d ids pos slots (g - b) row := by
  have hn : ids.length ≤ g * d.width := by
    rw [hids]
    exact Nat.mul_le_mul_right _ hbg
  have hown := setSlice_own hpos hslots fun row => hn.trans (hk.trans (hlen row).ge)
  have hfirst : writes [(.ids, 0, ids.length, tensor ids), (.pos, 0, ids.length, tensor pos),
      (.slots, 0, ids.length, tensor slots)] d.staging =
      (.ok (), fun row => own ids pos slots row ++ (d.staging row).drop ids.length) := by
    rw [show tensor ids = .ok ids from tensor_ok (hlong .ids), show tensor pos = .ok pos from tensor_ok (hlong .pos),
      show tensor slots = .ok slots from tensor_ok (hlong .slots)]
    exact writes_all hown
  have hcount : ids.length / d.width = b := by rw [hids, Nat.mul_div_cancel b hw]
  have hlong := padded_length (d := d) hids hpos hslots hbg
  by_cases hlt : ids.length < g * d.width
  · have hrest : g * d.width - ids.length = (g - b) * d.width := by rw [hids, Nat.sub_mul]
    have hpad : ∀ row, setSlice (own ids pos slots row ++ (d.staging row).drop ids.length) ids.length (g * d.width)
        (own [0] (padding (g - b) d.width) (d.padSlots (g - b)) row) =
        some (padded d ids pos slots (g - b) row ++ ((d.staging row).drop ids.length).drop ((g - b) * d.width)) := by
      intro row
      have hdrop : ((d.staging row).drop ids.length).length = k - ids.length := by rw [List.length_drop, hlen]
      cases row with
      | ids =>
        have hset := setSlice_scalar ids ((d.staging .ids).drop ids.length) hn
          (by rw [List.length_append, hdrop]; omega) 0
        rw [hrest] at hset
        exact hset
      | pos =>
        have hvals : (padding (g - b) d.width).length = (g - b) * d.width := padding_length
        have hset := setSlice_exact pos ((d.staging .pos).drop ids.length) (padding (g - b) d.width)
          (by rw [hvals, hpos]; omega : g * d.width = _) (by omega)
        rw [hvals, hpos] at hset
        exact hset
      | slots =>
        have hvals : (d.padSlots (g - b)).length = (g - b) * d.width := by
          rw [padSlots, List.length_map, padding_length]
        have hset := setSlice_exact slots ((d.staging .slots).drop ids.length) (d.padSlots (g - b))
          (by rw [hvals, hslots]; omega : g * d.width = _) (by omega)
        rw [hvals, hslots] at hset
        exact hset
    have hsecond : writes [(.ids, ids.length, g * d.width, .ok [0]),
      (.pos, ids.length, g * d.width, .ok (padding (g - b) d.width)),
        (.slots, ids.length, g * d.width, .ok (d.padSlots (g - b)))]
        (fun row => own ids pos slots row ++ (d.staging row).drop ids.length) =
          (.ok (), fun row => padded d ids pos slots (g - b) row ++
          ((d.staging row).drop ids.length).drop ((g - b) * d.width)) := writes_all hpad
    refine ⟨fun row => padded d ids pos slots (g - b) row ++
      ((d.staging row).drop ids.length).drop ((g - b) * d.width), ?_, fun row => ?_⟩
    · simp only [stage, stageWrites, if_pos hlt, hcount]
      rw [writes_append hfirst, hsecond]
    · exact List.take_left' (hlong row)
  · have hgb : g - b = 0 := by
      have := Nat.le_of_mul_le_mul_right (a := g) (b := b) (c := d.width) (by omega) hw
      omega
    refine ⟨fun row => own ids pos slots row ++ (d.staging row).drop ids.length, ?_, fun row => ?_⟩
    · simp only [stage, stageWrites, if_neg hlt, List.append_nil]
      rw [hfirst]
    · have hsame : own ids pos slots row = padded d ids pos slots (g - b) row := by
        rw [hgb]
        cases row <;> simp [own, padded, padSlots, padding]
      dsimp only
      rw [hsame]
      exact List.take_left' (hlong row)

end Stage

section Ready

variable {maxBs width N bs g : Nat} {d : DecodeGraphs} {ids pos slots : List Int} {fill : List (Nat × Int)}
  {tables : List SizedTable} {row r : List Int}

structure Ready (maxBs width N bs : Nat) (d : DecodeGraphs) : Prop where
  width_eq : d.width = width
  width_mem : 1 ≤ width ∧ width ≤ bs
  blockSize_eq : d.blockSize = bs
  dummyBlock_eq : d.dummyBlock = N
  buckets_eq : graphBuckets maxBs = .ok d.buckets
  staging : ∀ row, (d.staging row).length = maxBs * width
  inputs : ∀ row, (d.inputs row).length = maxBs * width
  indices : d.indices.length = maxBs * (N + 1)
  packed : d.packed.Sized

theorem Ready.stage (h : Ready maxBs width N bs d) (ids pos slots : List Int) (g : Nat) :
    Ready maxBs width N bs (d.stage ids pos slots g).2 := by
  have hlen : ∀ row, ((writes (d.stageWrites ids pos slots g) d.staging).2 row).length = maxBs * width :=
    fun row => (writes_length row).trans (h.staging row)
  unfold DecodeGraphs.stage
  split
  · next heq =>
    rw [heq] at hlen
    exact { h with staging := hlen }
  · next heq =>
    rw [heq] at hlen
    exact { h with staging := hlen, inputs := hlen }

theorem indexCopy_some (hr : indexCopy row fill = some r) :
    (∀ x ∈ fill, x.1 < row.length) ∧ r = fill.foldl (fun l x => l.set x.1 x.2) row := by
  unfold indexCopy at hr
  split at hr
  · next hlt => exact ⟨hlt, (Option.some.inj hr).symm⟩
  · simp at hr

theorem foldl_set_length (fill : List (Nat × Int)) (row : List Int) :
    (fill.foldl (fun l x => l.set x.1 x.2) row).length = row.length := by
  induction fill generalizing row with
  | nil => rfl
  | cons x fill ih => rw [List.foldl_cons, ih, List.length_set]

theorem Ready.applyFill (h : Ready maxBs width N bs d) (fill : List (Nat × Int)) :
    Ready maxBs width N bs (d.applyFill fill).2 := by
  unfold DecodeGraphs.applyFill
  cases hr : indexCopy (d.inputs .ids) fill with
  | none => exact h
  | some r =>
    refine { h with inputs := fun row => ?_ }
    dsimp only
    rcases eq_or_ne row .ids with rfl | hne
    · rw [Function.update_self, (indexCopy_some hr).2, foldl_set_length, h.inputs]
    · rw [Function.update_of_ne hne, h.inputs]

theorem Ready.plan (h : Ready maxBs width N bs d) (g : Nat) (tables : List SizedTable) :
    Ready maxBs width N bs (d.plan g tables).2 := by
  have hpacked := h.packed.pack tables ((g : Int) - tables.length) d.dummyBlock d.width
  unfold DecodeGraphs.plan
  split
  · next heq =>
    rw [heq] at hpacked
    exact { h with packed := hpacked }
  · next heq =>
    rw [heq] at hpacked
    split
    · exact { h with packed := hpacked }
    · next hfits =>
      refine { h with packed := hpacked, indices := ?_ }
      have := h.indices
      simp only [List.length_append, List.length_drop]
      omega

theorem Ready.run (h : Ready maxBs width N bs d) (call : Call) : Ready maxBs width N bs (d.run call).2 := by
  unfold DecodeGraphs.run
  simp only
  split
  · exact h
  · split
    · exact h
    · next g _ =>
      have h1 := h.stage call.ids call.pos call.slots g
      split
      · next heq => simpa only [heq] using h1
      · next d1 heq =>
        simp only [heq] at h1
        have h2 := h1.applyFill call.fill
        split
        · next heq => simpa only [heq] using h2
        · next d2 heq =>
          simp only [heq] at h2
          have h3 := h2.plan g call.tables
          split
          · next heq => simpa only [heq] using h3
          · next heq => simpa only [heq] using h3

theorem Ready.captureAll {l : List Nat} (h : Ready maxBs width N bs d) :
    Ready maxBs width N bs (DecodeGraphs.captureAll l d).2 := by
  induction l generalizing d with
  | nil => exact h
  | cons g l ih =>
    have h1 := h.stage [] [] [] g
    simp only [DecodeGraphs.captureAll]
    split
    · next heq => simpa only [heq] using h1
    · next d1 heq =>
      simp only [heq] at h1
      have h2 := h1.plan g []
      split
      · next heq => simpa only [heq] using h2
      · next heq =>
        simp only [heq] at h2
        exact ih h2

theorem Reach.ready (h : Reach maxBs width N bs d) : Ready maxBs width N bs d := by
  induction h with
  | run call _ ih => exact ih.run call
  | @new buckets d hb hnew =>
    have hsort : buckets.insertionSort (· ≤ ·) = buckets :=
      ((graphBuckets_sorted hb).imp fun h => h.le).insertionSort_eq
    have hmax := (graphBuckets_cases hb).1
    unfold DecodeGraphs.new at hnew
    simp only [hsort, graphBuckets_last hb] at hnew
    split at hnew
    · simp at hnew
    · next hwidth =>
      have hw := not_not.mp hwidth
      split at hnew
      · simp at hnew
      · next d' heq =>
        obtain rfl := Except.ok.inj hnew
        have hzero : Ready maxBs width N bs {
            width, numBlocks := N + 1, blockSize := bs, dummyBlock := N, buckets
            staging := fun _ => List.replicate (maxBs * width) 0
            inputs := fun _ => List.replicate (maxBs * width) 0
            indices := List.replicate (maxBs * (N + 1)) 0
            packed := .new maxBs (maxBs * 64) } := {
          width_eq := rfl
          width_mem := hw
          blockSize_eq := rfl
          dummyBlock_eq := rfl
          buckets_eq := hb
          staging := fun _ => List.length_replicate
          inputs := fun _ => List.length_replicate
          indices := List.length_replicate
          packed := PackedTables.new_sized maxBs (maxBs * 64) hmax (by omega) }
        have hready := hzero.captureAll (l := buckets.reverse)
        rw [heq] at hready
        exact hready

end Ready

section Run

variable {maxBs width N bs b g : Nat} {d : DecodeGraphs} {call : Call} {fill : List (Nat × Int)}
  {tables : List SizedTable}

-- A call as the runners make it: the tokens listed sequence by sequence, the tables over the allocator's blocks.
structure Call.WellFormed (maxBs width N : Nat) (call : Call) : Prop where
  batch : 1 ≤ call.tables.length ∧ call.tables.length ≤ maxBs
  ids : call.ids.length = call.tables.length * width
  pos : call.pos.length = call.ids.length
  slots : call.slots.length = call.ids.length
  fill : ∀ x ∈ call.fill, x.1 < call.ids.length
  distinct : ∀ t ∈ call.tables, t.table.blocks.Nodup
  allocated : ∀ t ∈ call.tables, ∀ blk ∈ t.table.blocks, 0 ≤ blk ∧ blk < N

theorem foldl_set_append (l r : List Int) (h : ∀ x ∈ fill, x.1 < l.length) :
    fill.foldl (fun l x => l.set x.1 x.2) (l ++ r) = fill.foldl (fun l x => l.set x.1 x.2) l ++ r := by
  induction fill generalizing l with
  | nil => rfl
  | cons x fill ih =>
    obtain ⟨hx, h⟩ := List.forall_mem_cons.mp h
    rw [List.foldl_cons, List.foldl_cons, List.set_append_left _ _ hx]
    apply ih
    intro y hy
    rw [List.length_set]
    exact h y hy

theorem foldl_set_take (k : Nat) (l : List Int) :
    (fill.foldl (fun l x => l.set x.1 x.2) l).take k = fill.foldl (fun l x => l.set x.1 x.2) (l.take k) := by
  induction fill generalizing l with
  | nil => rfl
  | cons x fill ih => rw [List.foldl_cons, List.foldl_cons, ih, List.take_set]

theorem length_le_of_allocated {blocks : List Int} (hd : blocks.Nodup) (ha : ∀ blk ∈ blocks, 0 ≤ blk ∧ blk < N) :
    blocks.length ≤ N := by
  have hsub : blocks.toFinset ⊆ Finset.Ico (0 : Int) N := by
    intro blk hblk
    exact Finset.mem_Ico.mpr (ha blk (List.mem_toFinset.mp hblk))
  have hcard := Finset.card_le_card hsub
  rwa [List.toFinset_card_of_nodup hd, Int.card_Ico, sub_zero, Int.toNat_natCast] at hcard

theorem numPages_le (hd : ∀ t ∈ tables, t.table.blocks.Nodup)
    (ha : ∀ t ∈ tables, ∀ blk ∈ t.table.blocks, 0 ≤ blk ∧ blk < N) : Packing.numPages tables ≤ tables.length * N := by
  have hle : ∀ n ∈ tables.map (fun t => t.table.blocks.length), n ≤ N := by
    intro n hn
    obtain ⟨t, ht, rfl⟩ := List.mem_map.mp hn
    exact length_le_of_allocated (hd t ht) (ha t ht)
  have hsum := List.sum_le_card_nsmul _ N hle
  rwa [List.length_map, smul_eq_mul] at hsum

-- A shared prefix is listed once for each of its holders, so the bound is rows times blocks.
theorem pages_fit (hc : call.WellFormed maxBs width N) (hg : call.tables.length ≤ g) (hmax : g ≤ maxBs) :
    Packing.numPages call.tables + (g - call.tables.length) ≤ maxBs * (N + 1) := by
  have hpages := numPages_le hc.distinct hc.allocated
  have hrows : call.tables.length * N ≤ g * N := Nat.mul_le_mul_right N hg
  have hbuf : g * (N + 1) ≤ maxBs * (N + 1) := Nat.mul_le_mul_right _ hmax
  rw [Nat.mul_succ] at hbuf
  omega

theorem mem_padSlots {x : Int} {c : Nat} (h : Ready maxBs width N bs d) (hx : x ∈ d.padSlots c) :
    ∃ o < width, x = N * bs + o := by
  rw [padSlots, h.width_eq, h.dummyBlock_eq, h.blockSize_eq] at hx
  obtain ⟨y, hy, rfl⟩ := List.mem_map.mp hx
  obtain ⟨l, hl, hyl⟩ := List.mem_flatten.mp hy
  rw [List.eq_of_mem_replicate hl] at hyl
  obtain ⟨o, ho, rfl⟩ := List.mem_map.mp hyl
  exact ⟨o, List.mem_range.mp ho, by simp [add_comm]⟩

theorem padSlots_unallocated {x : Int} {c : Nat} (h : Ready maxBs width N bs d) (hx : x ∈ d.padSlots c) :
    ∀ blk o : Nat, blk < N → o < bs → x ≠ blk * bs + o := by
  obtain ⟨k, -, rfl⟩ := mem_padSlots h hx
  intro blk o hblk ho heq
  have hle : (blk + 1) * bs ≤ N * bs := Nat.mul_le_mul_right bs hblk
  rw [Nat.add_mul, one_mul] at hle
  have heq' : N * bs + k = blk * bs + o := by exact_mod_cast heq
  omega

theorem Ready.plan_cases {g : Nat} (h : Ready maxBs width N bs d) (hg : call.tables.length ≤ g)
    (hfit : Packing.numPages call.tables + (g - call.tables.length) ≤ maxBs * (N + 1)) :
    (∃ d', d.plan g call.tables = (.error (.packing .outOfInt32), d') ∧
      ∃ x ∈ Packing.written call.tables (g - call.tables.length) N width, ¬ Packing.Fits x) ∨
      ∃ packed, d.plan g call.tables = (.ok (Packing.views call.tables (g - call.tables.length) N width), { d with
        packed
        indices := (Packing.views call.tables (g - call.tables.length) N width).indices ++
          d.indices.drop (Packing.views call.tables (g - call.tables.length) N width).indices.length }) := by
  have hpad : ((g : Int) - call.tables.length) = (g - call.tables.length : Nat) := by omega
  have hlen : (Packing.views call.tables (g - call.tables.length) N width).indices.length =
      Packing.numPages call.tables + (g - call.tables.length) := Packing.flatten_length
  have hfits : ¬ d.indices.length < (Packing.views call.tables (g - call.tables.length) N width).indices.length := by
    rw [h.indices, hlen]
    omega
  unfold DecodeGraphs.plan
  rw [h.dummyBlock_eq, h.width_eq, hpad]
  have hcases := @PackedTables.Sized.pack_cases _ call.tables (g - call.tables.length) N width h.packed
  rcases hcases with ⟨p, hpack, hbig, -⟩ | ⟨p, hpack, -⟩
  · rw [hpack]
    exact .inl ⟨_, rfl, hbig⟩
  · rw [hpack]
    simp only [if_neg hfits]
    exact .inr ⟨p, rfl⟩

-- A call returns unless a number it is given or packs does not fit its tensor.
def Call.TooLarge (call : Call) (pads N width : Nat) (e : GraphError) : Prop :=
  (e = .packing .outOfInt32 ∧ ∃ x ∈ Packing.written call.tables pads N width, ¬ Packing.Fits x) ∨
    (e = .outOfInt64 ∧ ∃ v ∈ call.ids ++ call.pos ++ call.slots, ¬ IsLong v)

theorem Call.mem_own {row : InputRow} {v : Int} (h : v ∈ own call.ids call.pos call.slots row) :
    v ∈ call.ids ++ call.pos ++ call.slots := by
  cases row with
  | ids => exact List.mem_append_left _ (List.mem_append_left _ h)
  | pos => exact List.mem_append_left _ (List.mem_append_right _ h)
  | slots => exact List.mem_append_right _ h

theorem Reach.replay (h : Reach maxBs width N bs d) (hc : call.WellFormed maxBs width N)
    (hfor : bucketFor d.buckets call.tables.length = .ok g) :
    (∃ e d', d.run call = (.error e, d') ∧ call.TooLarge (g - call.tables.length) N width e) ∨
      ∃ r d', d.run call = (.ok r, d') ∧ r.g = g ∧ (∀ v ∈ call.ids, IsLong v) ∧
        r.inputs .ids = call.fill.foldl (fun l x => l.set x.1 x.2) call.ids ++
          List.replicate ((g - call.tables.length) * width) 0 ∧
        r.inputs .pos = call.pos ++ padding (g - call.tables.length) width ∧
        r.inputs .slots = call.slots ++ d.padSlots (g - call.tables.length) ∧
        PackedTables.Packed (Packing.rowPages call.tables (g - call.tables.length) N)
          (Packing.rowLasts call.tables (g - call.tables.length) width) ⟨r.indptr, r.pages, r.last⟩ := by
  have hr := h.ready
  obtain ⟨hb1, hb2⟩ := hc.batch
  obtain ⟨g', hfor', hmem, hbg, -⟩ := bucketFor_smallest hr.buckets_eq hb1 hb2
  obtain rfl : g = g' := Except.ok.inj (hfor.symm.trans hfor')
  have hmax := graphBuckets_le hr.buckets_eq hmem
  have hids : call.ids.length = call.tables.length * d.width := by rw [hr.width_eq]; exact hc.ids
  have hwidth : 1 ≤ d.width := by rw [hr.width_eq]; exact hr.width_mem.1
  have hk : g * d.width ≤ maxBs * width := by rw [hr.width_eq]; exact Nat.mul_le_mul_right _ hmax
  have hn : call.ids.length ≤ g * d.width := by rw [hids]; exact Nat.mul_le_mul_right _ hbg
  have hcount : ¬ call.ids.length ≠ call.tables.length * d.width := not_not.mpr hids
  by_cases hlong : ∀ row, ∀ v ∈ own call.ids call.pos call.slots row, IsLong v
  · obtain ⟨s, hstage, hrows⟩ := stage_ok hwidth hids hc.pos hc.slots hbg hr.staging hk hlong
    have h1 := hr.stage call.ids call.pos call.slots g
    rw [hstage] at h1
    have hcopy : indexCopy (s .ids) call.fill = some (call.fill.foldl (fun l x => l.set x.1 x.2) (s .ids)) := by
      apply if_pos
      intro x hx
      have hlen : (s .ids).length = maxBs * width := h1.inputs .ids
      have := hc.fill x hx
      omega
    have h2 := h1.applyFill call.fill
    simp only [applyFill, hcopy] at h2
    rcases h2.plan_cases hbg (pages_fit hc hbg hmax) with ⟨d', hplan, hbig⟩ | ⟨p, hplan⟩
    · left
      simp only [DecodeGraphs.run, if_neg hcount, hfor, hstage, applyFill, hcopy, hplan]
      exact ⟨_, _, rfl, .inl ⟨rfl, hbig⟩⟩
    · right
      simp only [DecodeGraphs.run, if_neg hcount, hfor, hstage, applyFill, hcopy, hplan]
      refine ⟨_, _, rfl, rfl, hlong .ids, ?_, ?_, ?_, ?_⟩
      · have hrow := hrows .ids
        simp only [Function.update_self]
        rw [foldl_set_take, hrow, padded, foldl_set_append _ _ hc.fill, hr.width_eq]
      · have hrow := hrows .pos
        exact hrow.trans (by rw [padded, hr.width_eq])
      · have hrow := hrows .slots
        exact hrow.trans (by rw [padded])
      · simp only [List.take_left]
        exact PackedTables.views_packed
  · left
    obtain ⟨row, hrow⟩ := not_forall.mp hlong
    obtain ⟨s, hstage⟩ := stage_overflow (g := g) hc.pos hc.slots
      (fun row => hn.trans (hk.trans (hr.staging row).ge)) ⟨row, hrow⟩
    simp only [DecodeGraphs.run, if_neg hcount, hfor, hstage]
    obtain ⟨v, hv⟩ := not_forall.mp hrow
    obtain ⟨hv, hbad⟩ := Classical.not_imp.mp hv
    exact ⟨_, _, rfl, .inr ⟨rfl, v, Call.mem_own hv, hbad⟩⟩

theorem run_isolated (h : Reach maxBs width N bs d) (hc : call.WellFormed maxBs width N) :
    ∃ g, graphBuckets maxBs = .ok d.buckets ∧ bucketFor d.buckets call.tables.length = .ok g ∧ g ∈ d.buckets ∧
      call.tables.length ≤ g ∧ (∀ g' ∈ d.buckets, call.tables.length ≤ g' → g ≤ g') ∧ g < 2 * call.tables.length ∧
      Packing.numPages call.tables + (g - call.tables.length) ≤ maxBs * (N + 1) ∧
      (∀ x ∈ d.padSlots (g - call.tables.length), (∃ o < width, x = N * bs + o) ∧
        ∀ blk o : Nat, blk < N → o < bs → x ≠ blk * bs + o) ∧
      (∀ e, (d.run call).1 = .error e → call.TooLarge (g - call.tables.length) N width e) ∧
      ((∀ v ∈ call.ids ++ call.pos ++ call.slots, IsLong v) →
        (∀ x ∈ Packing.written call.tables (g - call.tables.length) N width, Packing.Fits x) →
          ∃ r, (d.run call).1 = .ok r) ∧
      ∀ r, (d.run call).1 = .ok r → r.g = g ∧
        r.inputs .ids = call.fill.foldl (fun l x => l.set x.1 x.2) call.ids ++
          List.replicate ((g - call.tables.length) * width) 0 ∧
        r.inputs .pos = call.pos ++ padding (g - call.tables.length) width ∧
        r.inputs .slots = call.slots ++ (padding (g - call.tables.length) width).map (· + (N : Int) * bs) ∧
        PackedTables.Packed (Packing.rowPages call.tables (g - call.tables.length) N)
          (Packing.rowLasts call.tables (g - call.tables.length) width) ⟨r.indptr, r.pages, r.last⟩ := by
  have hr := h.ready
  obtain ⟨hb1, hb2⟩ := hc.batch
  obtain ⟨g, hfor, hmem, hbg, hmin, hlt⟩ := bucketFor_smallest hr.buckets_eq hb1 hb2
  refine ⟨g, hr.buckets_eq, hfor, hmem, hbg, hmin, hlt, pages_fit hc hbg (graphBuckets_le hr.buckets_eq hmem),
    fun x hx => ⟨mem_padSlots hr hx, padSlots_unallocated hr hx⟩, ?_⟩
  rcases h.replay hc hfor with ⟨e, d', hrun, hbig⟩ | ⟨r, d', hrun, hg, -, hids, hpos, hslots, hpacked⟩
  · rw [hrun]
    refine ⟨fun e' he => Except.error.inj he ▸ hbig, fun hlong hfits => ?_, by simp⟩
    rcases hbig with ⟨-, x, hx, hn⟩ | ⟨-, v, hv, hn⟩
    · exact absurd (hfits x hx) hn
    · exact absurd (hlong v hv) hn
  · rw [hrun]
    refine ⟨by simp, fun _ _ => ⟨r, rfl⟩, fun r' hr' => ?_⟩
    obtain rfl := Except.ok.inj hr'
    refine ⟨hg, hids, hpos, ?_, hpacked⟩
    rw [hslots, padSlots, hr.width_eq, hr.dummyBlock_eq, hr.blockSize_eq]

def sharedCall : Call where
  ids := [7, 7, 8, 8, 9, 9]
  pos := [3, 4, 3, 4, 3, 4]
  slots := [3, 4, 3, 4, 3, 4]
  tables := [⟨⟨[0, 1], 5⟩, 4⟩, ⟨⟨[0, 1], 5⟩, 4⟩, ⟨⟨[0, 1], 5⟩, 4⟩]
  fill := [(0, 5)]

theorem sharedCall_wellFormed : sharedCall.WellFormed 4 2 2 :=
  ⟨by decide, by decide, by decide, by decide, by decide, by decide, by decide⟩

theorem run_isolated_shared : ∃ d, new [1, 2, 4] 2 3 4 2 = .ok d ∧ ∃ r, (d.run sharedCall).1 = .ok r ∧ r.g = 4 ∧
    r.inputs .ids = [5, 7, 8, 8, 9, 9, 0, 0] ∧ r.inputs .slots = sharedCall.slots ++ [8, 9] := by
  have hok : (new [1, 2, 4] 2 (2 + 1) 4 2).isOk = true := by decide +kernel
  obtain ⟨d, hnew⟩ : ∃ d, new [1, 2, 4] 2 (2 + 1) 4 2 = .ok d := by
    cases h : new [1, 2, 4] 2 (2 + 1) 4 2 with
    | error e => simp [h, Except.isOk, Except.toBool] at hok
    | ok d => exact ⟨d, rfl⟩
  have hbuckets : graphBuckets (4 : Nat) = .ok [1, 2, 4] := rfl
  obtain ⟨g, hd, hfor, -, -, -, -, -, -, -, hreturns, hrun⟩ := run_isolated (.new hbuckets hnew) sharedCall_wellFormed
  rw [← Except.ok.inj (hbuckets.symm.trans hd)] at hfor
  obtain rfl : 4 = g := Except.ok.inj hfor
  obtain ⟨r, hr⟩ := hreturns (by decide) (by decide +kernel)
  obtain ⟨hg, hids, -, hslots, -⟩ := hrun r hr
  exact ⟨d, hnew, r, hr, hg, hids, hslots⟩

end Run

end DecodeGraphs

end MiniServe
