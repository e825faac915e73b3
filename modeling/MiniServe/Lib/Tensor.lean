import Mathlib.Logic.Function.Basic
import Mathlib.Tactic

namespace Tensors

-- A view of a storage: the cell of each element, in row-major order.
structure Tensor where
  storage : Nat
  cells : List Nat
  shape : List Nat
  cells_length : cells.length = shape.prod
  deriving DecidableEq, Repr

structure Memory (α : Type) where
  next : Nat
  size : Nat → Nat
  value : Nat → Nat → α

namespace Tensor

def numel (t : Tensor) : Nat := t.shape.prod

def slice (t : Tensor) (start stop : Nat) : Tensor where
  storage := t.storage
  cells := (t.cells.take stop).drop start
  shape := [((t.cells.take stop).drop start).length]
  cells_length := by simp

def view (t : Tensor) (shape : List Nat) : Option Tensor :=
  if h : t.cells.length = shape.prod then some ⟨t.storage, t.cells, shape, h⟩ else none

def contiguous (storage start : Nat) (shape : List Nat) : Tensor :=
  ⟨storage, List.range' start shape.prod, shape, List.length_range'⟩

end Tensor

variable {α : Type}

def writeCells (f : Nat → α) (cells : List Nat) (values : List α) : Nat → α :=
  (cells.zip values).foldl (fun f x => Function.update f x.1 x.2) f

namespace Memory

def read (m : Memory α) (t : Tensor) : List α := t.cells.map (m.value t.storage)

-- The new storage holds whatever the memory held there.
def empty (m : Memory α) (n : Nat) : Tensor × Memory α :=
  (.contiguous m.next 0 [n], { m with next := m.next + 1, size := Function.update m.size m.next n })

def copy (m : Memory α) (dst src : Tensor) : Memory α :=
  { m with value := Function.update m.value dst.storage (writeCells (m.value dst.storage) dst.cells (m.read src)) }

end Memory

section Lemmas

variable {m : Memory α} {t dst src : Tensor} {f : Nat → α} {cells : List Nat} {values : List α} {c s start stop n : Nat}

@[simp] theorem numel_contiguous {shape : List Nat} : (Tensor.contiguous s start shape).numel = shape.prod := rfl

theorem writeCells_other (h : c ∉ cells) : writeCells f cells values c = f c := by
  induction cells generalizing f values with
  | nil => rfl
  | cons d cells ih =>
    obtain ⟨hne, hmem⟩ := not_or.mp (List.mem_cons.not.mp h)
    cases values with
    | nil => rfl
    | cons v values =>
      have hrest := @ih (Function.update f d v) values hmem
      rw [Function.update_of_ne hne] at hrest
      exact hrest

theorem map_writeCells (hn : cells.Nodup) (hl : cells.length = values.length) :
    cells.map (writeCells f cells values) = values := by
  induction cells generalizing f values with
  | nil => exact (List.length_eq_zero_iff.mp hl.symm).symm
  | cons d cells ih =>
    obtain ⟨hd, hn⟩ := List.nodup_cons.mp hn
    cases values with
    | nil => simp at hl
    | cons v values =>
      have hstep : writeCells f (d :: cells) (v :: values) = writeCells (Function.update f d v) cells values := rfl
      have hhead : writeCells (Function.update f d v) cells values d = v := by
        rw [writeCells_other hd, Function.update_self]
      rw [hstep, List.map_cons, hhead, ih hn (by simpa using hl)]

theorem read_copy_self (hn : dst.cells.Nodup) (hl : dst.numel = src.numel) :
    (m.copy dst src).read dst = m.read src := by
  have hlen : dst.cells.length = (m.read src).length := by
    rw [Memory.read, List.length_map, dst.cells_length, src.cells_length]
    exact hl
  simp only [Memory.read, Memory.copy, Function.update_self]
  exact map_writeCells hn hlen

theorem copy_other (h : s ≠ dst.storage) : (m.copy dst src).value s = m.value s := by
  simp [Memory.copy, h]

theorem copy_cell (h : c ∉ dst.cells) : (m.copy dst src).value s c = m.value s c := by
  rcases eq_or_ne s dst.storage with rfl | hs
  · simp [Memory.copy, writeCells_other h]
  · rw [copy_other hs]

theorem read_congr {m' : Memory α} (h : ∀ c ∈ t.cells, m'.value t.storage c = m.value t.storage c) :
    m'.read t = m.read t := List.map_congr_left h

theorem slice_contiguous (h : stop ≤ n) (hle : start ≤ stop) :
    ((Tensor.contiguous s 0 [n]).slice start stop).cells = List.range' start (stop - start) := by
  simp only [Tensor.slice, Tensor.contiguous, List.prod_singleton]
  apply List.ext_getElem
  · simp
    omega
  · intro i h1 h2
    simp

theorem view_slice {shape : List Nat} (h : start + shape.prod ≤ n) :
    ((Tensor.contiguous s 0 [n]).slice start (start + shape.prod)).view shape =
      some (Tensor.contiguous s start shape) := by
  have hcells := slice_contiguous (s := s) h (Nat.le_add_right start shape.prod)
  rw [Nat.add_sub_cancel_left] at hcells
  rw [Tensor.view, dif_pos (by rw [hcells, List.length_range'])]
  simp only [Tensor.contiguous, Option.some.injEq, Tensor.mk.injEq]
  exact ⟨rfl, hcells, trivial⟩

end Lemmas

end Tensors
