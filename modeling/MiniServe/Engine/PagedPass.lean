import MiniServe.Engine.Paged
import MiniServe.Engine.Forward
import MiniServe.Engine.Trim

namespace MiniServe

open PackedTables

namespace ModelRunner

section Fill

variable {prev : Launched} {rids : List Rid} {ids : List Token} {n : Nat}

abbrev setAll (fill : List (Nat × Token)) (ids : List Token) : List Token := fill.foldl (fun l x => l.set x.1 x.2) ids

theorem holes_cons (id : Token) : holes (n + 1) (id :: ids) =
    (if id = placeholder then [0] else []) ++ (holes n ids).map (· + 1) := by
  rw [holes, List.range_succ_eq_map, List.filter_cons, holes, List.filter_map]
  by_cases h : id = placeholder <;> simp [h, Function.comp_def]

theorem holes_length (h : n ≤ ids.length) : (holes n ids).length = (ids.take n).count placeholder := by
  induction n generalizing ids with
  | zero => simp [holes]
  | succ n ih =>
    cases ids with
    | nil => simp at h
    | cons id ids =>
      have ih := ih (Nat.le_of_succ_le_succ h)
      rw [holes_cons, List.length_append, List.length_map, ih, List.take_succ_cons, List.count_cons]
      by_cases he : id = placeholder <;> simp [he, add_comm]

theorem mem_holes {i : Nat} (h : i ∈ holes n ids) : i < n := List.mem_range.mp (List.mem_filter.mp h).1

theorem setAll_succ (fill : List (Nat × Token)) (id : Token) :
    setAll (fill.map fun x => (x.1 + 1, x.2)) (id :: ids) = id :: setAll fill ids := by
  induction fill generalizing ids with
  | nil => rfl
  | cons x fill ih => exact ih

theorem fillInputs_eq (rows : List Row) (h : rows.length ≤ ids.length) : fillInputs prev rows ids =
    ((holes rows.length ids).mapM fun i => prev.lookup ((rows.map Row.rid).getD i 0)).map fun src =>
      setAll ((holes rows.length ids).zip src) ids := by
  induction rows generalizing ids with
  | nil => cases ids <;> rfl
  | cons row rows ih =>
    cases ids with
    | nil => simp at h
    | cons id ids =>
      have ih := ih (Nat.le_of_succ_le_succ h)
      have hrest : ((holes rows.length ids).map (· + 1)).mapM
        (fun i => prev.lookup (((row :: rows).map Row.rid).getD i 0)) =
          (holes rows.length ids).mapM fun i => prev.lookup ((rows.map Row.rid).getD i 0) := by
        rw [List.mapM_map]
        rfl
      have hset : ∀ src : List Token, ((holes rows.length ids).map (· + 1)).zip src =
          ((holes rows.length ids).zip src).map fun x => (x.1 + 1, x.2) := fun src => by
        rw [List.zip_map_left]
        rfl
      have hfirst : ((row :: rows).map Row.rid).getD 0 0 = row.rid := rfl
      generalize ((holes rows.length ids).mapM fun i => prev.lookup ((rows.map Row.rid).getD i 0)) = res at ih hrest
      rw [fillInputs, ih, List.length_cons, holes_cons]
      by_cases he : id = placeholder
      · rw [if_pos he, if_pos he, List.singleton_append, List.mapM_cons, hrest, hfirst]
        cases prev.lookup row.rid with
        | error err => rfl
        | ok tok =>
          cases res with
          | error err => rfl
          | ok src =>
            show Except.ok (tok :: setAll ((holes rows.length ids).zip src) ids) =
              Except.ok (setAll (((holes rows.length ids).map (· + 1)).zip src) (tok :: ids))
            rw [hset, setAll_succ]
      · rw [if_neg he, if_neg he, List.nil_append, hrest]
        cases res with
        | error err => rfl
        | ok src =>
          show Except.ok (id :: setAll ((holes rows.length ids).zip src) ids) =
            Except.ok (setAll (((holes rows.length ids).map (· + 1)).zip src) (id :: ids))
          rw [hset, setAll_succ]

theorem fillIdx_lt {batch : Batch} {fill : List (Nat × Token)} {prev : Option Launched}
    (h : fillIdx batch ids prev = .ok fill) :
    ∀ x ∈ fill, x.1 < batch.numDecode := by
  intro x hx
  simp only [fillIdx] at h
  split at h
  · simp at h
  · split at h
    · obtain rfl := Except.ok.inj h
      simp at hx
    · cases prev with
      | none => simp at h
      | some prev =>
        simp only at h
        cases hres : (holes batch.numDecode ids).mapM fun i => prev.lookup ((batch.rows.map Row.rid).getD i 0) with
        | error e =>
          rw [hres] at h
          simp [Except.map] at h
        | ok src =>
          rw [hres] at h
          obtain rfl := Except.ok.inj h
          exact mem_holes (List.of_mem_zip hx).1

theorem mapM_congr {α β ε : Type} {f g : α → Except ε β} {l : List α} (h : ∀ a ∈ l, f a = g a) :
    l.mapM f = l.mapM g := by
  induction l with
  | nil => rfl
  | cons a l ih =>
    rw [List.mapM_cons, List.mapM_cons, h a List.mem_cons_self, ih fun x hx => h x (List.mem_cons_of_mem _ hx)]

theorem fillRows_eq (batch : Batch) (prev : Option Launched) (hn : batch.numDecode ≤ batch.rows.length)
    (hl : batch.numDecode ≤ ids.length) :
    fillRows batch ids prev = (fillIdx batch ids prev).map fun fill => setAll fill ids := by
  have hlen := holes_length hl
  have hnil : holes batch.numDecode ids = [] ↔ (ids.take batch.numDecode).count placeholder = 0 := by
    rw [← hlen, List.length_eq_zero_iff]
  simp only [fillRows, fillIdx, hlen, hnil]
  split
  · rfl
  · split
    · rfl
    · cases prev with
      | none => rfl
      | some prev =>
        have hrows : (batch.rows.take batch.numDecode).length = batch.numDecode := by simpa using hn
        have h := @fillInputs_eq prev ids (batch.rows.take batch.numDecode) (by omega)
        rw [hrows] at h
        have hget : ∀ i ∈ holes batch.numDecode ids,
          prev.lookup (((batch.rows.take batch.numDecode).map Row.rid).getD i 0) =
            prev.lookup ((batch.rows.map Row.rid).getD i 0) := by
          intro i hi
          have := mem_holes hi
          simp only [List.getD_eq_getElem?_getD, List.getElem?_map, List.getElem?_take_of_lt this]
        rw [mapM_congr hget] at h
        simp only [h]
        cases (holes batch.numDecode ids).mapM fun i => prev.lookup ((batch.rows.map Row.rid).getD i 0) with
        | error e => rfl
        | ok src => rfl

end Fill

section Writes

variable {d d' d'' : Device} {n : Int} {ws ws' : List (Int × Token × Nat)}

def SameBelow (n : Int) (d d' : Device) : Prop := ∀ slot < n, d' slot = d slot

theorem SameBelow.refl (n : Int) (d : Device) : SameBelow n d d := fun _ _ => rfl

theorem SameBelow.trans (h : SameBelow n d d') (h' : SameBelow n d' d'') : SameBelow n d d'' :=
  fun slot hs => (h' slot hs).trans (h slot hs)

theorem SameBelow.write (h : SameBelow n d d') : SameBelow n (write d ws) (write d' ws) := by
  induction ws generalizing d d' with
  | nil => exact h
  | cons w ws ih =>
    apply ih
    intro slot hs
    by_cases he : slot = w.1
    · rw [he, Function.update_self, Function.update_self]
    · rw [Function.update_of_ne he, Function.update_of_ne he, h slot hs]

theorem write_append : write d (ws ++ ws') = write (write d ws) ws' := by
  induction ws generalizing d with
  | nil => rfl
  | cons w ws ih => exact ih

theorem sameBelow_write (h : ∀ w ∈ ws, n ≤ w.1) : SameBelow n d (write d ws) := by
  intro slot hs
  apply write_other
  intro hmem
  obtain ⟨w, hw, rfl⟩ := List.mem_map.mp hmem
  exact absurd (h w hw) (not_le.mpr hs)

theorem SameBelow.history {bs : Nat} {t : BlockTable} (h : SameBelow n d d')
    (ht : ∀ pos < t.numTokens, t.slotAt bs pos < n) :
    ModelRunner.history d' bs t = ModelRunner.history d bs t :=
  List.map_congr_left fun pos hpos => h _ (ht pos (List.mem_range.mp hpos))

end Writes

section Gather

variable {α β : Type} {rows : List β} {f : β → List α} {n : β → Nat} {g : β → α}

theorem gather_from (pre : List α)
    (h : ∀ row ∈ rows, (f row).length = n row ∧ 1 ≤ n row ∧ (f row)[n row - 1]? = some (g row)) :
    gather (pre ++ rows.flatMap f) ((((rows.map n).scanl (· + ·) pre.length).tail).map (· - 1)) = some (rows.map g) := by
  induction rows generalizing pre with
  | nil => rfl
  | cons row rows ih =>
    obtain ⟨hlen, hpos, hlast⟩ := h row List.mem_cons_self
    have ih := ih (pre ++ f row) fun x hx => h x (List.mem_cons_of_mem _ hx)
    rw [List.length_append, hlen] at ih
    have hscan : (((row :: rows).map n).scanl (· + ·) pre.length).tail =
        (pre.length + n row) :: ((rows.map n).scanl (· + ·) (pre.length + n row)).tail := by
      rw [List.map_cons, List.scanl_cons, List.tail_cons]
      cases rows <;> simp [List.scanl_cons]
    have hget : (pre ++ (row :: rows).flatMap f)[pre.length + n row - 1]? = some (g row) := by
      rw [List.getElem?_append_right (by omega), List.flatMap_cons, List.getElem?_append_left (by omega), ← hlast]
      congr 1
      omega
    rw [hscan, List.map_cons, gather, List.mapM_cons, hget]
    rw [gather, List.append_assoc] at ih
    rw [List.flatMap_cons, ih]
    rfl

theorem gather_last (h : ∀ row ∈ rows, (f row).length = n row ∧ 1 ≤ n row ∧ (f row)[n row - 1]? = some (g row)) :
    gather (rows.flatMap f) (lastRows (rows.map n)) = some (rows.map g) := gather_from [] h

end Gather

end ModelRunner

structure PassInput.WellFormed (N bs : Nat) (x : PassInput) : Prop where
  sized : ∀ t ∈ x.tables, t.blockSize = bs
  paged : ∀ t ∈ x.tables, t.table.Paged bs
  capacity : ∀ t ∈ x.tables, t.table.numTokens ≤ t.table.blocks.length * bs
  distinct : ∀ t ∈ x.tables, t.table.blocks.Nodup
  allocated : ∀ t ∈ x.tables, ∀ blk ∈ t.table.blocks, 0 ≤ blk ∧ blk < N
  lens : x.seqLens.length = x.tables.length
  covers : ∀ y ∈ x.tables.zip x.seqLens, 1 ≤ y.2 ∧ y.2 ≤ y.1.table.numTokens
  ids : x.ids.length = x.seqLens.sum
  pos : x.pos.length = x.ids.length
  slots : x.slots.length = x.ids.length
  fill : ∀ y ∈ x.fill, y.1 < x.ids.length

def queryRow (y : SizedTable × Nat) : QueryRow := ⟨y.1.table.blocks, y.1.lastBlockLen, y.2⟩

def PassInput.rows (x : PassInput) : List QueryRow := (x.tables.zip x.seqLens).map queryRow

namespace PassInput

open ModelRunner

variable {N bs : Nat} {x : PassInput} {d : Device}

def filled (x : PassInput) : List Token := setAll x.fill x.ids

def device (x : PassInput) (d : Device) : Device := write d (x.slots.zip (x.filled.zip x.pos))

def histories (x : PassInput) (bs : Nat) (d : Device) : Histories := x.tables.map fun t => history d bs t.table

-- A number of the pass that the tensor it goes into cannot hold.
inductive TooLarge (x : PassInput) (N : Nat) : PassError → Prop
  | packed {v : Int} (hv : v ∈ Packing.written x.tables 0 0 1)
      (hn : ¬ Packing.Fits v) : TooLarge x N (.packing .outOfInt32)
  | queryOffset {o : Nat} (ho : o ∈ offsets x.seqLens) (hn : ¬ Packing.Fits o) : TooLarge x N .queryOffset
  | graph {pads : Nat} {e : GraphError} (hp : pads < x.tables.length)
      (he : x.call.TooLarge pads N 1 e) : TooLarge x N (.graph e)
  | long {v : Int} (hv : v ∈ x.ids ++ x.pos.map Int.ofNat ++ x.slots) (hn : ¬ IsLong v) : TooLarge x N .outOfInt64

theorem setAll_length (fill : List (Nat × Token)) (ids : List Token) : (setAll fill ids).length = ids.length := by
  induction fill generalizing ids with
  | nil => rfl
  | cons y fill ih => exact (ih _).trans (List.length_set ..)

namespace WellFormed

variable (h : x.WellFormed N bs)

include h

theorem numTokens_pos {t : SizedTable} (ht : t ∈ x.tables) : 0 < t.table.numTokens := by
  have hp := (h.paged t ht).1
  unfold BlockTable.lastBlockLen at hp
  split at hp
  · omega
  · omega

theorem kvLen_row {y : SizedTable × Nat} (hy : y ∈ x.tables.zip x.seqLens) :
    (queryRow y).kvLen bs = y.1.table.numTokens := by
  obtain ⟨ht, -⟩ := List.of_mem_zip hy
  have hpos := h.numTokens_pos ht
  simp only [QueryRow.kvLen, queryRow, SizedTable.lastBlockLen, BlockTable.lastBlockLen, h.sized _ ht]
  rw [if_neg (by omega)]
  omega

theorem legal : ∀ row ∈ x.rows, row.Legal (N + 1) bs := by
  intro row hrow
  obtain ⟨y, hy, rfl⟩ := List.mem_map.mp hrow
  obtain ⟨ht, -⟩ := List.of_mem_zip hy
  have hpos := h.numTokens_pos ht
  have hcap := h.capacity _ ht
  refine ⟨?_, fun page hp => ?_, ?_, ?_⟩
  · intro hnil
    simp only [queryRow] at hnil
    rw [hnil] at hcap
    simp at hcap
    omega
  · have := h.allocated _ ht page hp
    omega
  · have := h.paged _ ht
    rw [queryRow, SizedTable.lastBlockLen, h.sized _ ht]
    exact this
  · rw [h.kvLen_row hy]
    exact h.covers y hy

theorem rows_pages : x.rows.map QueryRow.pages = x.tables.map fun t => t.table.blocks := by
  have hz : x.tables = (x.tables.zip x.seqLens).map Prod.fst := (List.map_fst_zip h.lens.ge).symm
  conv_rhs => rw [hz]
  rw [rows, List.map_map, List.map_map]
  rfl

theorem rows_last : x.rows.map QueryRow.last = x.tables.map SizedTable.lastBlockLen := by
  have hz : x.tables = (x.tables.zip x.seqLens).map Prod.fst := (List.map_fst_zip h.lens.ge).symm
  conv_rhs => rw [hz]
  rw [rows, List.map_map, List.map_map]
  rfl

theorem rows_queries : x.rows.map QueryRow.queries = x.seqLens := by
  have hz : x.seqLens = (x.tables.zip x.seqLens).map Prod.snd := (List.map_snd_zip h.lens.le).symm
  conv_rhs => rw [hz]
  rw [rows, List.map_map]
  rfl

theorem last_cells : x.rows.map (fun row => row.cells bs d (row.kvLen bs)) = x.histories bs d := by
  have hz : x.tables = (x.tables.zip x.seqLens).map Prod.fst := (List.map_fst_zip h.lens.ge).symm
  rw [histories]
  conv_rhs => rw [hz]
  rw [rows, List.map_map, List.map_map]
  apply List.map_congr_left
  intro y hy
  rw [Function.comp_apply, h.kvLen_row hy]
  rfl

theorem causal_last {row : QueryRow} (hrow : row ∈ x.rows) :
    (row.causal bs d).length = row.queries ∧ 1 ≤ row.queries ∧
      (row.causal bs d)[row.queries - 1]? = some (row.cells bs d (row.kvLen bs)) := by
  have hq := (h.legal row hrow).queries
  refine ⟨by simp [QueryRow.causal], hq.1, ?_⟩
  rw [QueryRow.causal, List.getElem?_map, List.getElem?_range (by omega), Option.map_some]
  congr 2
  omega

theorem runEager {K : PagedKernel} {k : Kernels} {prefill : Bool} (hK : K.Documented) (hk : k.packed.Sized)
    (hp : prefill = true ∨ ∀ n ∈ x.seqLens, n = 1) :
    ∃ packed : PackedTables, packed.Sized ∧
      ((∃ e, x.TooLarge N e ∧ ModelRunner.runEager K (N + 1) bs prefill x d k = (.error e, { k with packed })) ∨
        (∀ id ∈ x.ids, IsLong id) ∧ ModelRunner.runEager K (N + 1) bs prefill x d k =
          (.ok (x.device d, x.histories bs (x.device d)), { k with packed })) := by
  have hdec : ¬ (¬ prefill = true ∧ ∃ n ∈ x.seqLens, n ≠ 1) := by
    rintro ⟨hn, n, hmem, hne⟩
    exact hne (hp.resolve_left hn n hmem)
  have hcopy : indexCopy x.ids x.fill = some x.filled := if_pos h.fill
  have hlen : x.filled.length = x.seqLens.sum := (setAll_length _ _).trans h.ids
  unfold ModelRunner.runEager
  rw [if_neg hdec]
  rcases @Sized.pack_cases _ x.tables 0 0 1 hk with ⟨packed, hpack, ⟨v, hv, hbig⟩, hs⟩ | ⟨packed, hpack, hs⟩
  · refine ⟨packed, hs, .inl ⟨_, .packed hv hbig, ?_⟩⟩
    simp only [show ((0 : Nat) : Int) = 0 from rfl] at hpack
    rw [hpack]
  · refine ⟨packed, hs, ?_⟩
    simp only [show ((0 : Nat) : Int) = 0 from rfl] at hpack
    simp only [hpack]
    by_cases hoff : prefill = true ∧ ∃ o ∈ offsets x.seqLens, ¬ Packing.Fits o
    · obtain ⟨o, ho, hbig⟩ := hoff.2
      exact .inl ⟨_, .queryOffset ho hbig, if_pos hoff⟩
    rw [if_neg hoff]
    by_cases hlong : (∃ v ∈ x.slots, ¬ IsLong v) ∨ ∃ v ∈ x.ids, ¬ IsLong v
    · left
      refine ⟨.outOfInt64, ?_, if_pos hlong⟩
      rcases hlong with ⟨v, hv, hbig⟩ | ⟨v, hv, hbig⟩
      · exact .long (List.mem_append_right _ hv) hbig
      · exact .long (List.mem_append_left _ (List.mem_append_left _ hv)) hbig
    rw [if_neg hlong]
    simp only [hcopy]
    by_cases hpos : ∃ v ∈ x.pos.map Int.ofNat, ¬ IsLong v
    · obtain ⟨v, hv, hbig⟩ := hpos
      exact .inl ⟨.outOfInt64, .long (List.mem_append_left _ (List.mem_append_right _ hv)) hbig, if_pos ⟨v, hv, hbig⟩⟩
    right
    have hids : ∀ id ∈ x.ids, IsLong id := fun id hid => by_contra fun hn => hlong (.inr ⟨id, hid, hn⟩)
    have hv := @views_packed x.tables 0 0 1
    simp only [Packing.rowPages, Packing.rowLasts, List.replicate_zero, List.append_nil] at hv
    rw [← h.rows_pages, ← h.rows_last] at hv
    have hatt := hK (N + 1) bs x.rows _ (x.device d) h.legal hv
    rw [h.rows_queries] at hatt
    have hgather := gather_last (n := QueryRow.queries) fun row hrow => h.causal_last (d := x.device d) hrow
    rw [h.rows_queries, h.last_cells] at hgather
    rw [if_neg hpos]
    simp only [hlen, ne_eq, not_true_eq_false, if_false]
    rw [← device, hatt, hgather]
    exact ⟨hids, rfl⟩

end WellFormed

end PassInput

namespace DecodeGraphs

variable {maxBs width N bs : Nat} {d : DecodeGraphs} {call : Call}

theorem Reach.maxBatch (h : Reach maxBs width N bs d) : d.maxBatch = maxBs := by
  have hl := graphBuckets_last h.ready.buckets_eq
  rw [DecodeGraphs.maxBatch, List.getLastD_eq_getLast?, hl, Option.getD_some]

end DecodeGraphs

namespace PassInput

open ModelRunner

variable {N bs maxBs : Nat} {x : PassInput} {d : Device}

def paddingRows (N count : Nat) : List QueryRow := List.replicate count ⟨[(N : Int)], 1, 1⟩

theorem paddingRows_legal {count : Nat} (hbs : 1 ≤ bs) : ∀ row ∈ paddingRows N count, row.Legal (N + 1) bs := by
  intro row hrow
  obtain rfl := List.eq_of_mem_replicate hrow
  refine ⟨by simp, ?_, ⟨le_rfl, Int.ofNat_le.mpr hbs⟩, ⟨le_rfl, by simp [QueryRow.kvLen]⟩⟩
  intro page hp
  obtain rfl := List.mem_singleton.mp hp
  omega

namespace WellFormed

variable (h : x.WellFormed N bs) (hone : ∀ n ∈ x.seqLens, n = 1)

include h hone

theorem seqLens_eq : x.seqLens = List.replicate x.tables.length 1 := by
  rw [← h.lens]
  exact List.eq_replicate_iff.mpr ⟨rfl, hone⟩

theorem ids_length : x.ids.length = x.tables.length := by
  rw [h.ids, h.seqLens_eq hone, List.sum_replicate, smul_eq_mul, Nat.mul_one]

theorem causal_one : x.rows.flatMap (QueryRow.causal bs · d) = x.histories bs d := by
  rw [← h.last_cells, List.map_eq_flatMap]
  apply List.flatMap_congr
  intro row hrow
  have hq : row.queries = 1 := by
    apply hone
    rw [← h.rows_queries]
    exact List.mem_map_of_mem hrow
  have hk := (h.legal row hrow).queries.2
  rw [QueryRow.causal, hq]
  simp only [List.range_one, List.map_cons, List.map_nil]
  congr 2
  omega

theorem runGraph {K : PagedKernel} {k : Kernels} {g : DecodeGraphs} (hK : K.Documented)
    (hg : DecodeGraphs.Reach maxBs 1 N bs g)
    (hbs : 1 ≤ bs) (hb : 1 ≤ x.tables.length ∧ x.tables.length ≤ maxBs) :
    ∃ g', DecodeGraphs.Reach maxBs 1 N bs g' ∧
      ((∃ e, x.TooLarge N e ∧ ModelRunner.runGraph K (N + 1) bs g x d k = (.error e, { k with graphs := some g' })) ∨
        ∃ d', (∀ id ∈ x.ids, IsLong id) ∧
          ModelRunner.runGraph K (N + 1) bs g x d k = (.ok (d', x.histories bs d'), { k with graphs := some g' }) ∧
          SameBelow (N * bs) (x.device d) d') := by
  have hids := h.ids_length hone
  have hcall : x.call.WellFormed maxBs 1 N :=
    ⟨hb, by rw [Nat.mul_one]; exact hids, (List.length_map _).trans h.pos, h.slots, h.fill, h.distinct, h.allocated⟩
  have hg' := hg.run x.call
  obtain ⟨n, hfor, -, hle, -, hlt⟩ := bucketFor_smallest hg.ready.buckets_eq hcall.batch.1 hcall.batch.2
  rcases hg.replay hcall hfor with ⟨e, g', hrun, hbig⟩ | ⟨r, g', hrun, rfl, hlong, hi, hp, hs, hv⟩
  · have hpads : n - x.call.tables.length < x.tables.length := by
      have : x.call.tables.length = x.tables.length := rfl
      omega
    rw [hrun] at hg'
    refine ⟨g', hg', .inl ⟨_, .graph hpads hbig, ?_⟩⟩
    rw [ModelRunner.runGraph, hrun]
  · rw [hrun] at hg'
    have hwidth : g'.width = 1 := hg'.ready.width_eq
    generalize hcount : r.g - x.call.tables.length = count at *
    let pads := (g.padSlots count).zip
      ((List.replicate (count * 1) (0 : Int)).zip ((DecodeGraphs.padding count 1).map Int.toNat))
    have hwrites : (r.inputs .slots).zip ((r.inputs .ids).zip ((r.inputs .pos).map Int.toNat)) =
        x.slots.zip (x.filled.zip x.pos) ++ pads := by
      have hpos : (x.call.pos ++ DecodeGraphs.padding count 1).map Int.toNat =
          x.pos ++ (DecodeGraphs.padding count 1).map Int.toNat := by
        rw [List.map_append, PassInput.call, List.map_map]
        congr 1
        exact List.map_id _
      have hfilled : x.filled.length = x.ids.length := setAll_length _ _
      rw [hi, hp, hs, hpos, List.zip_append (by rw [h.pos]; exact hfilled), List.zip_append]
      · rfl
      · rw [List.length_zip, h.pos]
        show x.slots.length = min x.filled.length _
        have := h.slots
        omega
    have hrows : (x.rows ++ paddingRows N count).map QueryRow.queries = List.replicate r.g 1 := by
      rw [List.map_append, h.rows_queries, h.seqLens_eq hone, paddingRows, List.map_replicate,
        List.replicate_append_replicate]
      congr 1
      have : x.call.tables.length = x.tables.length := rfl
      omega
    have hpacked : Packed ((x.rows ++ paddingRows N count).map QueryRow.pages)
        ((x.rows ++ paddingRows N count).map QueryRow.last) ⟨r.indptr, r.pages, r.last⟩ := by
      rw [List.map_append, List.map_append, h.rows_pages, h.rows_last, paddingRows,
        List.map_replicate, List.map_replicate]
      exact hv
    have hlegal : ∀ row ∈ x.rows ++ paddingRows N count, row.Legal (N + 1) bs := by
      intro row hrow
      rcases List.mem_append.mp hrow with hrow | hrow
      · exact h.legal row hrow
      · exact paddingRows_legal hbs row hrow
    let d' := write d ((r.inputs .slots).zip ((r.inputs .ids).zip ((r.inputs .pos).map Int.toNat)))
    have hatt := hK (N + 1) bs _ _ d' hlegal hpacked
    rw [hrows, List.flatMap_append, h.causal_one hone] at hatt
    refine ⟨g', hg', .inr ⟨d', hlong, ?_, ?_⟩⟩
    · have htake : (x.histories bs d' ++
        (paddingRows N count).flatMap (QueryRow.causal bs · d')).take (x.tables.length * 1) =
          x.histories bs d' := by
        rw [Nat.mul_one]
        exact List.take_left' (by rw [histories, List.length_map])
      rw [ModelRunner.runGraph, hrun]
      simp only [hwidth]
      rw [← htake, ← hatt]
    · have hd : d' = write (x.device d) pads := by
        show write d _ = _
        rw [hwrites, write_append]
        rfl
      rw [hd]
      apply sameBelow_write
      intro w hw
      obtain ⟨o, -, ho⟩ := DecodeGraphs.mem_padSlots hg.ready (List.of_mem_zip hw).1
      rw [ho]
      omega

end WellFormed

end PassInput

end MiniServe
