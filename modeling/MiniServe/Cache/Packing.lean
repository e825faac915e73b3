import MiniServe.Cache.BlockTable
import MiniServe.Lib.Ragged

namespace MiniServe

structure SizedTable where
  table : BlockTable
  blockSize : Nat
  deriving DecidableEq, Repr

def SizedTable.lastBlockLen (t : SizedTable) : Int := t.table.lastBlockLen t.blockSize

inductive PackError where
  | negativePadRows
  | buffersTooSmall (indptr indices last : Int)
  | outOfInt32
  deriving DecidableEq, Repr

structure Buffers where
  indptr : List Int
  indices : List Int
  last : List Int
  deriving DecidableEq, Repr

namespace Packing

def Fits (x : Int) : Prop := -2 ^ 31 ≤ x ∧ x < 2 ^ 31

instance (x : Int) : Decidable (Fits x) := inferInstanceAs (Decidable (_ ∧ _))

-- `arr[: len(values)] = values` for an int32 array.
def store (arr values : List Int) : Option (List Int) :=
  if ∀ v ∈ values, Fits v then some (values ++ arr.drop values.length) else none

def tooSmall (rows total : Int) (b : Buffers) : Prop :=
  b.indptr.length < rows + 1 ∨ b.last.length < rows ∨ b.indices.length < total

instance (rows total : Int) (b : Buffers) : Decidable (tooSmall rows total b) :=
  inferInstanceAs (Decidable (_ ∨ _ ∨ _))

variable (tables : List SizedTable) (padRows padBlock padLast : Int)

def numPages : Nat := (tables.map fun t => t.table.blocks.length).sum

def packBlockTables (b : Buffers) : Except PackError Nat × Buffers :=
  let rows := tables.length + padRows
  let lens := tables.map fun t => t.table.blocks.length
  let total := lens.sum + padRows
  if padRows < 0 then (.error .negativePadRows, b)
  else if tooSmall rows total b then (.error (.buffersTooSmall (rows + 1) total rows), b)
  else
    let flat := (tables.flatMap fun t => t.table.blocks) ++ List.replicate padRows.toNat padBlock
    match store b.indices flat with
    | none => (.error .outOfInt32, b)
    | some indices =>
      let offsets := (lens ++ List.replicate padRows.toNat 1).scanl (· + ·) 0
      match store b.indptr (offsets.map Int.ofNat) with
      | none => (.error .outOfInt32, { b with indices })
      | some indptr =>
        match store b.last (tables.map SizedTable.lastBlockLen ++ List.replicate padRows.toNat padLast) with
        | none => (.error .outOfInt32, { b with indices, indptr })
        | some last => (.ok total.toNat, { indices, indptr, last })

-- The same function in C++.
namespace Cpp

def wrap (x : Int) : Int := (x + 2 ^ 31) % 2 ^ 32 - 2 ^ 31

def writeAt (arr : List Int) (n : Nat) (values : List Int) : List Int :=
  arr.take n ++ values ++ arr.drop (n + values.length)

structure Cursor where
  n : Nat
  r : Nat
  out : Buffers

def writeRow (c : Cursor) (pages : List Int) (lastLen : Int) : Cursor where
  n := c.n + pages.length
  r := c.r + 1
  out :=
    { indices := writeAt c.out.indices c.n pages
      last := writeAt c.out.last c.r [lastLen]
      indptr := writeAt c.out.indptr (c.r + 1) [wrap (c.n + pages.length : Nat)] }

def packBlockTables (out : Buffers) : Except PackError Nat × Buffers :=
  let rows := tables.length + padRows
  let total := numPages tables + padRows
  if padRows < 0 then (.error .negativePadRows, out)
  else if tooSmall rows total out then (.error (.buffersTooSmall (rows + 1) total rows), out)
  else
    let c : Cursor := ⟨0, 0, { out with indptr := writeAt out.indptr 0 [0] }⟩
    let c := tables.foldl (fun c t => writeRow c t.table.blocks t.lastBlockLen) c
    let c := (List.range padRows.toNat).foldl (fun c _ => writeRow c [padBlock] padLast) c
    (.ok c.n, c.out)

end Cpp

end Packing

structure PackedTables where
  rows : Nat
  indices : Nat
  buffers : Buffers
  deriving DecidableEq, Repr

namespace PackedTables

open Packing

def growRows (rows : Int) (p : PackedTables) : PackedTables :=
  if p.rows < rows then
    let n := (max rows (2 * p.rows)).toNat
    { p with
      rows := n
      buffers := { p.buffers with indptr := List.replicate (n + 1) 0, last := List.replicate n 0 } }
  else p

def growIndices (indices : Int) (p : PackedTables) : PackedTables :=
  if p.indices < indices then
    let n := (max indices (2 * p.indices)).toNat
    { p with indices := n, buffers := { p.buffers with indices := List.replicate n 0 } }
  else p

def grow (rows indices : Int) (p : PackedTables) : PackedTables := (p.growRows rows).growIndices indices

def new (rows indices : Nat) : PackedTables := grow rows indices ⟨0, 0, ⟨[], [], []⟩⟩

def pack (tables : List SizedTable) (padRows padBlock padLast : Int) (p : PackedTables) :
    Except PackError Buffers × PackedTables :=
  let rows := tables.length + padRows
  let p := p.grow rows (numPages tables + padRows)
  match packBlockTables tables padRows padBlock padLast p.buffers with
  | (.error e, b) => (.error e, { p with buffers := b })
  | (.ok n, b) =>
    (.ok { indptr := b.indptr.take (rows + 1).toNat, indices := b.indices.take n, last := b.last.take rows.toNat },
      { p with buffers := b })

inductive Reach : PackedTables → Prop
  | new (rows indices : Nat) : 1 ≤ rows → 1 ≤ indices → Reach (new rows indices)
  | pack (tables : List SizedTable) (padRows padBlock padLast : Int) {p : PackedTables} :
      Reach p → Reach (p.pack tables padRows padBlock padLast).2

end PackedTables

namespace Packing

variable {tables : List SizedTable} {padRows : Nat} {padBlock padLast : Int} {b b' : Buffers} {arr values out : List Int}

def rowPages (tables : List SizedTable) (padRows : Nat) (padBlock : Int) : List (List Int) :=
  tables.map (fun t => t.table.blocks) ++ List.replicate padRows [padBlock]

def rowLasts (tables : List SizedTable) (padRows : Nat) (padLast : Int) : List Int :=
  tables.map SizedTable.lastBlockLen ++ List.replicate padRows padLast

def views (tables : List SizedTable) (padRows : Nat) (padBlock padLast : Int) : Buffers where
  indptr := (Ragged.offsets 0 (rowPages tables padRows padBlock)).map Int.ofNat
  indices := (rowPages tables padRows padBlock).flatten
  last := rowLasts tables padRows padLast

def written (tables : List SizedTable) (padRows : Nat) (padBlock padLast : Int) : List Int :=
  let v := views tables padRows padBlock padLast
  v.indices ++ v.indptr ++ v.last

theorem rowPages_length : (rowPages tables padRows padBlock).length = tables.length + padRows := by simp [rowPages]

theorem rowLasts_length : (rowLasts tables padRows padLast).length = tables.length + padRows := by simp [rowLasts]

theorem rowPages_flatten :
    (rowPages tables padRows padBlock).flatten =
      (tables.flatMap fun t => t.table.blocks) ++ List.replicate padRows padBlock := by
  rw [rowPages, List.flatten_append, List.flatMap_def]
  congr 1
  induction padRows with
  | zero => rfl
  | succ n ih => simp [List.replicate_succ]

theorem flatten_length : (rowPages tables padRows padBlock).flatten.length = numPages tables + padRows := by
  rw [rowPages_flatten, List.length_append, List.length_replicate, List.length_flatMap, numPages]

theorem scanl_lengths (o : Nat) (rows : List (List Int)) :
    (rows.map List.length).scanl (· + ·) o = Ragged.offsets o rows := by
  induction rows generalizing o with
  | nil => rfl
  | cons row rows ih => simp [Ragged.offsets, ih]

theorem offsets_eq (padBlock : Int) :
    ((tables.map fun t : SizedTable => t.table.blocks.length) ++ List.replicate padRows 1).scanl (· + ·) 0 =
      Ragged.offsets 0 (rowPages tables padRows padBlock) := by
  rw [← scanl_lengths, rowPages, List.map_append, List.map_map, List.map_replicate]
  rfl

theorem store_some (h : store arr values = some out) : out = values ++ arr.drop values.length := by
  unfold store at h
  split at h
  · exact (Option.some.inj h).symm
  · simp at h

theorem store_length (h : store arr values = some out) (hlen : values.length ≤ arr.length) :
    out.length = arr.length := by
  rw [store_some h, List.length_append, List.length_drop]
  omega

theorem take_store (h : store arr values = some out) {n : Nat} (hn : values.length = n) : out.take n = values := by
  rw [store_some h]
  exact List.take_left' hn

theorem store_fits (h : store arr values = some out) : ∀ v ∈ values, Fits v := by
  unfold store at h
  split at h
  · next hfits => exact hfits
  · simp at h

theorem store_none (h : store arr values = none) : ∃ x ∈ values, ¬ Fits x := by
  unfold store at h
  split at h
  · simp at h
  · next hfits => simpa only [not_forall, exists_prop] using hfits

theorem packBlockTables_cases (padBlock padLast : Int)
    (hsize : ¬ tooSmall (tables.length + (padRows : Int)) (numPages tables + padRows) b) :
    (∃ b', packBlockTables tables padRows padBlock padLast b = (.error .outOfInt32, b') ∧
      (∃ x ∈ written tables padRows padBlock padLast, ¬ Fits x) ∧ b'.indptr.length = b.indptr.length ∧
        b'.indices.length = b.indices.length ∧ b'.last.length = b.last.length) ∨
    ∃ indptr indices last, store b.indices (rowPages tables padRows padBlock).flatten = some indices ∧
      store b.indptr ((Ragged.offsets 0 (rowPages tables padRows padBlock)).map Int.ofNat) = some indptr ∧
      store b.last (rowLasts tables padRows padLast) = some last ∧
      packBlockTables tables padRows padBlock padLast b =
          (.ok (numPages tables + padRows), ⟨indptr, indices, last⟩) := by
  have hneg : ¬ (padRows : Int) < 0 := by omega
  have hbig : ¬ tooSmall (tables.length + (padRows : Int))
      ((tables.map fun t => t.table.blocks.length).sum + (padRows : Int)) b := by exact_mod_cast hsize
  simp only [tooSmall, not_or, not_lt] at hsize
  have hlen1 : (rowPages tables padRows padBlock).flatten.length ≤ b.indices.length := by
    rw [flatten_length]
    omega
  have hlen2 : ((Ragged.offsets 0 (rowPages tables padRows padBlock)).map Int.ofNat).length ≤ b.indptr.length := by
    rw [List.length_map, Ragged.offsets_length, rowPages_length]
    omega
  simp only [packBlockTables, if_neg hneg, if_neg hbig, Int.toNat_natCast, ← rowPages_flatten, offsets_eq padBlock]
  cases h1 : store b.indices (rowPages tables padRows padBlock).flatten with
  | none =>
    obtain ⟨x, hx, hfits⟩ := store_none h1
    exact .inl ⟨_, rfl, ⟨x, by simp [written, views, hx], hfits⟩, rfl, rfl, rfl⟩
  | some indices =>
    cases h2 : store b.indptr ((Ragged.offsets 0 (rowPages tables padRows padBlock)).map Int.ofNat) with
    | none =>
      obtain ⟨x, hx, hfits⟩ := store_none h2
      have hmem : x ∈ written tables padRows padBlock padLast :=
        List.mem_append_left _ (List.mem_append_right _ hx)
      exact .inl ⟨_, rfl, ⟨x, hmem, hfits⟩, rfl, store_length h1 hlen1, rfl⟩
    | some indptr =>
      cases h3 : store b.last (tables.map SizedTable.lastBlockLen ++ List.replicate padRows padLast) with
      | none =>
        obtain ⟨x, hx, hfits⟩ := store_none h3
        exact .inl ⟨_, rfl, ⟨x, List.mem_append_right _ hx, hfits⟩, store_length h2 hlen2, store_length h1 hlen1, rfl⟩
      | some last => exact .inr ⟨indptr, indices, last, rfl, rfl, h3, rfl⟩

namespace Cpp

variable {n r : Nat} {rows : List (List Int)} {lasts w : List Int}

theorem writeAt_nil : writeAt arr n [] = arr := by simp [writeAt]

theorem writeAt_writeAt (h : n + values.length ≤ arr.length) :
    writeAt (writeAt arr n values) (n + values.length) w = writeAt arr n (values ++ w) := by
  have hlen : (arr.take n ++ values).length = n + values.length := by
    rw [List.length_append, List.length_take, Nat.min_eq_left (by omega)]
  have hdrop : (arr.take n ++ values ++ arr.drop (n + values.length)).drop (n + values.length + w.length) =
      arr.drop (n + (values ++ w).length) := by
    rw [← hlen, ← List.drop_drop, List.drop_left, List.drop_drop, hlen, List.length_append, Nat.add_assoc]
  rw [writeAt, writeAt, hdrop, List.take_left' hlen, writeAt]
  simp

theorem writeAt_length (h : n + values.length ≤ arr.length) : (writeAt arr n values).length = arr.length := by
  simp only [writeAt, List.length_append, List.length_take, List.length_drop]
  omega

theorem wrap_eq {x : Int} (h : Fits x) : wrap x = x := by
  unfold Fits at h
  unfold wrap
  omega

def writeRows (c : Cursor) (l : List (List Int × Int)) : Cursor := l.foldl (fun c x => writeRow c x.1 x.2) c

theorem writeRows_eq {l : List (List Int × Int)} {out : Buffers}
    (hi : n + (l.map Prod.fst).flatten.length ≤ out.indices.length)
    (hl : r + l.length ≤ out.last.length) (hp : r + l.length + 1 ≤ out.indptr.length) :
    writeRows ⟨n, r, out⟩ l = ⟨n + (l.map Prod.fst).flatten.length, r + l.length,
      { indptr := writeAt out.indptr (r + 1) ((Ragged.offsets n (l.map Prod.fst)).tail.map fun o : Nat => wrap o)
        indices := writeAt out.indices n (l.map Prod.fst).flatten
        last := writeAt out.last r (l.map Prod.snd) }⟩ := by
  induction l generalizing n r out with
  | nil => simp [writeRows, Ragged.offsets, writeAt_nil]
  | cons x l ih =>
    obtain ⟨pages, lastLen⟩ := x
    simp only [List.map_cons, List.flatten_cons, List.length_append, List.length_cons] at hi hl hp
    have hstep : writeRows ⟨n, r, out⟩ ((pages, lastLen) :: l) = writeRows (writeRow ⟨n, r, out⟩ pages lastLen) l := rfl
    have h1 : (writeAt out.indices n pages).length = out.indices.length := writeAt_length (by omega)
    have h2 : (writeAt out.last r [lastLen]).length = out.last.length := writeAt_length (by simpa using by omega)
    have h3 : (writeAt out.indptr (r + 1) [wrap (n + pages.length : Nat)]).length = out.indptr.length :=
      writeAt_length (by simpa using by omega)
    rw [hstep, writeRow, ih (by simp only [h1]; omega) (by simp only [h2]; omega) (by simp only [h3]; omega)]
    have hoff : (Ragged.offsets (n + pages.length) (l.map Prod.fst)) =
        (n + pages.length) :: (Ragged.offsets (n + pages.length) (l.map Prod.fst)).tail := by
      cases l with
      | nil => rfl
      | cons y l => rfl
    have hindices : writeAt (writeAt out.indices n pages) (n + pages.length) (l.map Prod.fst).flatten =
        writeAt out.indices n (pages ++ (l.map Prod.fst).flatten) := writeAt_writeAt (by omega)
    have hlast : writeAt (writeAt out.last r [lastLen]) (r + 1) (l.map Prod.snd) =
        writeAt out.last r (lastLen :: l.map Prod.snd) := writeAt_writeAt (by simpa using by omega)
    have hindptr : writeAt (writeAt out.indptr (r + 1) [wrap (n + pages.length : Nat)]) (r + 1 + 1)
        ((Ragged.offsets (n + pages.length) (l.map Prod.fst)).tail.map fun o : Nat => wrap o) =
        writeAt out.indptr (r + 1) ((Ragged.offsets (n + pages.length) (l.map Prod.fst)).map fun o : Nat => wrap o) := by
      conv_rhs => rw [hoff]
      exact writeAt_writeAt (by simpa using by omega)
    simp only [hindices, hlast, hindptr, List.map_cons, List.flatten_cons, List.length_append, List.length_cons,
      Ragged.offsets, List.tail_cons, Nat.add_assoc, Nat.add_comm 1]

theorem writeRows_tables (c : Cursor) :
    (List.range padRows).foldl (fun c _ => writeRow c [padBlock] padLast)
        (tables.foldl (fun c t => writeRow c t.table.blocks t.lastBlockLen) c) =
      writeRows c ((rowPages tables padRows padBlock).zip (rowLasts tables padRows padLast)) := by
  have hpads : ∀ c : Cursor, (List.range padRows).foldl (fun c _ => writeRow c [padBlock] padLast) c =
      writeRows c (List.replicate padRows ([padBlock], padLast)) := by
    intro c
    induction padRows generalizing c with
    | zero => rfl
    | succ k ih =>
      rw [List.range_succ_eq_map, List.foldl_cons, List.foldl_map, ih]
      rfl
  have hzip : (rowPages tables padRows padBlock).zip (rowLasts tables padRows padLast) =
      (tables.map fun t => (t.table.blocks, t.lastBlockLen)) ++ List.replicate padRows ([padBlock], padLast) := by
    rw [rowPages, rowLasts, List.zip_append (by simp), List.zip_map', List.zip_replicate']
  rw [hpads, hzip, writeRows, writeRows, List.foldl_append, List.foldl_map]

theorem writeAt_zero : writeAt arr 0 values = values ++ arr.drop values.length := by simp [writeAt]

theorem packBlockTables_eq (h : (Packing.packBlockTables tables padRows padBlock padLast b).1 = .ok n) :
    packBlockTables tables padRows padBlock padLast b = Packing.packBlockTables tables padRows padBlock padLast b := by
  have hneg : ¬ (padRows : Int) < 0 := by omega
  have hsize : ¬ tooSmall (tables.length + (padRows : Int)) (numPages tables + padRows) b := by
    intro hbad
    have herr : Packing.packBlockTables tables padRows padBlock padLast b =
        (.error (.buffersTooSmall (tables.length + padRows + 1) (numPages tables + padRows)
            (tables.length + padRows)), b) := by
      rw [Packing.packBlockTables, if_neg hneg]
      exact if_pos hbad
    rw [herr] at h
    simp at h
  rcases packBlockTables_cases padBlock padLast hsize with ⟨b', hpack, -⟩ | ⟨indptr, indices, last, h1, h2, h3, hpack⟩
  · rw [hpack] at h
    simp at h
  · have hlen : (rowPages tables padRows padBlock).length = (rowLasts tables padRows padLast).length := by
      rw [rowPages_length, rowLasts_length]
    have hfst := List.map_fst_zip hlen.le
    have hsnd := List.map_snd_zip hlen.ge
    have hsize' := hsize
    simp only [tooSmall, not_or, not_lt] at hsize'
    have hfirst : (writeAt b.indptr 0 [0]).length = b.indptr.length := writeAt_length (by simpa using by omega)
    have hwraps : (Ragged.offsets 0 (rowPages tables padRows padBlock)).map (fun o : Nat => wrap o) =
        (Ragged.offsets 0 (rowPages tables padRows padBlock)).map Int.ofNat := by
      apply List.map_congr_left
      intro o ho
      exact wrap_eq (store_fits h2 _ (List.mem_map_of_mem ho))
    have hoff : Ragged.offsets 0 (rowPages tables padRows padBlock) =
        0 :: (Ragged.offsets 0 (rowPages tables padRows padBlock)).tail := by
      cases rowPages tables padRows padBlock <;> rfl
    have hindptr : writeAt (writeAt b.indptr 0 [0]) 1
        ((Ragged.offsets 0 (rowPages tables padRows padBlock)).tail.map fun o : Nat => wrap o) = indptr := by
      rw [store_some h2, ← hwraps, ← writeAt_zero, hoff]
      exact writeAt_writeAt (by simpa using by omega)
    have hindices : writeAt b.indices 0 (rowPages tables padRows padBlock).flatten = indices := by
      rw [store_some h1, writeAt_zero]
    have hlast : writeAt b.last 0 (rowLasts tables padRows padLast) = last := by rw [store_some h3, writeAt_zero]
    rw [packBlockTables, if_neg hneg, if_neg hsize, hpack]
    simp only [Int.toNat_natCast, writeRows_tables]
    rw [writeRows_eq]
    · simp only [hfst, hsnd, flatten_length, Nat.zero_add, hindices, hlast, hindptr]
    · rw [hfst, flatten_length]
      dsimp only
      omega
    · rw [List.length_zip, ← hlen, min_self, rowPages_length]
      dsimp only
      omega
    · rw [List.length_zip, ← hlen, min_self, rowPages_length]
      simp only [hfirst]
      omega

end Cpp

end Packing

namespace PackedTables

open Packing

variable {p : PackedTables} {tables : List SizedTable} {padRows : Nat} {padBlock padLast : Int} {v : Buffers}

structure Sized (p : PackedTables) : Prop where
  indptr : p.buffers.indptr.length = p.rows + 1
  indices : p.buffers.indices.length = p.indices
  last : p.buffers.last.length = p.rows

theorem Sized.growRows (h : p.Sized) (rows : Int) :
    (p.growRows rows).Sized ∧ rows ≤ (p.growRows rows).rows ∧ (p.growRows rows).indices = p.indices := by
  unfold PackedTables.growRows
  split
  · exact ⟨⟨by simp, h.indices, by simp⟩, by simp, rfl⟩
  · next hle => exact ⟨h, not_lt.mp hle, rfl⟩

theorem Sized.growIndices (h : p.Sized) (indices : Int) :
    (p.growIndices indices).Sized ∧ indices ≤ (p.growIndices indices).indices ∧
    (p.growIndices indices).rows = p.rows := by
  unfold PackedTables.growIndices
  split
  · exact ⟨⟨h.indptr, by simp, h.last⟩, by simp, rfl⟩
  · next hle => exact ⟨h, not_lt.mp hle, rfl⟩

theorem Sized.grow (h : p.Sized) (rows indices : Int) :
    (p.grow rows indices).Sized ∧ ¬ tooSmall rows indices (p.grow rows indices).buffers := by
  obtain ⟨h1, hrows, -⟩ := h.growRows rows
  obtain ⟨h2, hindices, hsame⟩ := h1.growIndices indices
  refine ⟨h2, ?_⟩
  have hi := h2.indptr
  have hn := h2.indices
  have hl := h2.last
  rw [hsame] at hi hl
  unfold PackedTables.grow tooSmall
  omega

theorem new_sized (rows indices : Nat) (hr : 1 ≤ rows) (hi : 1 ≤ indices) : (new rows indices).Sized := by
  have hr' : ((0 : Nat) : Int) < rows := by omega
  have hi' : ((0 : Nat) : Int) < indices := by omega
  simp only [new, PackedTables.grow, PackedTables.growRows, if_pos hr', PackedTables.growIndices, if_pos hi']
  exact ⟨by simp, by simp, by simp⟩

theorem Sized.pack_cases (padBlock padLast : Int) (h : p.Sized) :
    (∃ p', p.pack tables padRows padBlock padLast = (.error .outOfInt32, p') ∧
      (∃ x ∈ written tables padRows padBlock padLast, ¬ Fits x) ∧ p'.Sized) ∨
      ∃ p', p.pack tables padRows padBlock padLast = (.ok (views tables padRows padBlock padLast), p') ∧ p'.Sized := by
  obtain ⟨hg, hsize⟩ := h.grow (tables.length + (padRows : Int)) (numPages tables + padRows)
  rcases packBlockTables_cases padBlock padLast hsize with ⟨b, hpack, hfits, h1, h2, h3⟩ |
    ⟨indptr, indices, last, h1, h2, h3, hpack⟩
  · left
    refine ⟨{ p.grow (tables.length + (padRows : Int)) (numPages tables + padRows) with buffers := b }, ?_, ?_⟩
    · simp only [pack, hpack]
    · exact ⟨hfits, h1.trans hg.indptr, h2.trans hg.indices, h3.trans hg.last⟩
  · right
    have hrows : ((tables.length : Int) + padRows).toNat = tables.length + padRows := by omega
    have hrows1 : ((tables.length : Int) + padRows + 1).toNat = tables.length + padRows + 1 := by omega
    have hlen2 : ((Ragged.offsets 0 (rowPages tables padRows padBlock)).map Int.ofNat).length =
        tables.length + padRows + 1 := by
      rw [List.length_map, Ragged.offsets_length, rowPages_length]
    simp only [tooSmall, not_or, not_lt] at hsize
    refine ⟨{ p.grow (tables.length + (padRows : Int)) (numPages tables + padRows) with
      buffers := ⟨indptr, indices, last⟩ }, ?_, ?_⟩
    · simp only [pack, hpack, hrows, hrows1, take_store h1 flatten_length, take_store h2 hlen2,
        take_store h3 rowLasts_length]
      rfl
    · refine ⟨(store_length h2 ?_).trans hg.indptr, (store_length h1 ?_).trans hg.indices,
        (store_length h3 ?_).trans hg.last⟩
      · omega
      · rw [flatten_length]
        omega
      · rw [rowLasts_length]
        omega

theorem Sized.pack (h : p.Sized) (tables : List SizedTable) (padRows padBlock padLast : Int) :
    (p.pack tables padRows padBlock padLast).2.Sized := by
  rcases lt_or_ge padRows 0 with hneg | hnonneg
  · obtain ⟨hg, -⟩ := h.grow (tables.length + padRows) (numPages tables + padRows)
    have hpack : ∀ b, packBlockTables tables padRows padBlock padLast b = (.error .negativePadRows, b) :=
      fun b => if_pos hneg
    simp only [PackedTables.pack, hpack]
    exact hg
  · lift padRows to Nat using hnonneg
    rcases h.pack_cases padBlock padLast with ⟨p', hpack, -, hp⟩ | ⟨p', hpack, hp⟩
    · rw [hpack]
      exact hp
    · rw [hpack]
      exact hp

theorem Reach.sized (h : Reach p) : p.Sized := by
  induction h with
  | new rows indices hr hi => exact new_sized rows indices hr hi
  | pack tables padRows padBlock padLast _ ih => exact ih.pack tables padRows padBlock padLast

structure Packed (rows : List (List Int)) (lasts : List Int) (v : Buffers) : Prop where
  length : v.indptr.length = rows.length + 1
  first : v.indptr[0]? = some 0
  final : v.indptr[rows.length]? = some (v.indices.length : Int)
  mono : ∀ i j, i ≤ j → j ≤ rows.length → v.indptr.getD i 0 ≤ v.indptr.getD j 0
  pages : ∀ i row, rows[i]? = some row →
    Ragged.slice v.indices (v.indptr.getD i 0).toNat (v.indptr.getD (i + 1) 0).toNat = row
  last : v.last = lasts

theorem views_packed :
    Packed (rowPages tables padRows padBlock) (rowLasts tables padRows padLast)
    (views tables padRows padBlock padLast) := by
  have hget : ∀ i, ((Ragged.offsets 0 (rowPages tables padRows padBlock)).map Int.ofNat).getD i 0 =
      ((Ragged.offsets 0 (rowPages tables padRows padBlock)).getD i 0 : Nat) := by
    intro i
    rw [List.getD_eq_getElem?_getD, List.getD_eq_getElem?_getD, List.getElem?_map]
    cases (Ragged.offsets 0 (rowPages tables padRows padBlock))[i]? <;> rfl
  refine ⟨?_, ?_, ?_, ?_, ?_, rfl⟩
  · rw [views, List.length_map, Ragged.offsets_length]
  · simp only [views, List.getElem?_map, Ragged.offsets_get (Nat.zero_le _)]
    rfl
  · simp only [views, List.getElem?_map, Ragged.offsets_get le_rfl, List.take_length, Nat.zero_add]
    rfl
  · intro i j hij hj
    simp only [views, hget]
    exact_mod_cast Ragged.offsets_mono hij hj
  · intro i row h
    simp only [views, hget, Int.toNat_natCast]
    exact Ragged.rowAt_offsets h

theorem pack_lossless (h : Reach p) (tables : List SizedTable) (padRows : Nat) (padBlock padLast : Int) :
    (∀ a b c, (p.pack tables padRows padBlock padLast).1 ≠ .error (.buffersTooSmall a b c)) ∧
      ((∀ x ∈ written tables padRows padBlock padLast, Fits x) →
        (p.pack tables padRows padBlock padLast).1 = .ok (views tables padRows padBlock padLast)) ∧
      (∀ v, (p.pack tables padRows padBlock padLast).1 = .ok v →
        Packed (rowPages tables padRows padBlock) (rowLasts tables padRows padLast) v) ∧
      ∀ b n, (packBlockTables tables padRows padBlock padLast b).1 = .ok n →
        Cpp.packBlockTables tables padRows padBlock padLast b = packBlockTables tables padRows padBlock padLast b := by
  have hcpp : ∀ b n, (packBlockTables tables padRows padBlock padLast b).1 = .ok n → _ :=
    fun b n => Cpp.packBlockTables_eq
  rcases h.sized.pack_cases padBlock padLast with ⟨p', hpack, ⟨x, hx, hfits⟩, -⟩ | ⟨p', hpack, -⟩
  · rw [hpack]
    exact ⟨by simp, fun hall => absurd (hall x hx) hfits, by simp, hcpp⟩
  · rw [hpack]
    refine ⟨by simp, fun _ => rfl, fun v hv => ?_, hcpp⟩
    obtain rfl := Except.ok.inj hv
    exact views_packed

def twoTables : List SizedTable := [⟨⟨[5, 2], 7⟩, 4⟩, ⟨⟨[], 0⟩, 4⟩]

theorem pack_lossless_twoTables :
    ((new 1 1).pack twoTables 2 9 1).1 = .ok (views twoTables 2 9 1) ∧
      Packed [[5, 2], [], [9], [9]] [3, 0, 1, 1] (views twoTables 2 9 1) := by
  have h := pack_lossless (.new 1 1 le_rfl le_rfl) twoTables 2 9 1
  have hok := h.2.1 (by unfold Fits; decide +kernel)
  exact ⟨hok, h.2.2.1 _ hok⟩

example : (((new 1 1).pack twoTables 2 9 1).2.pack twoTables 0 0 1).1 = .ok ⟨[0, 2, 2], [5, 2], [3, 0]⟩ := by
  decide +kernel

end PackedTables

end MiniServe
