import Mathlib.Tactic

namespace Utf8

def replacement : Char := Char.ofNat 0xFFFD

-- Between characters, or inside one: `left` bytes are missing, the next one lies in `lo .. hi`, and `acc` holds
-- the bits read so far.
inductive State where
  | idle
  | inside (left : Nat) (lo hi : UInt8) (acc : Nat)
  deriving DecidableEq, Repr

def start (b : UInt8) : List Char × State :=
  if b ≤ 0x7F then ([Char.ofNat b.toNat], .idle)
  else if 0xC2 ≤ b ∧ b ≤ 0xDF then ([], .inside 1 0x80 0xBF (b.toNat % 0x20))
  else if b = 0xE0 then ([], .inside 2 0xA0 0xBF (b.toNat % 0x10))
  else if b = 0xED then ([], .inside 2 0x80 0x9F (b.toNat % 0x10))
  else if 0xE1 ≤ b ∧ b ≤ 0xEF then ([], .inside 2 0x80 0xBF (b.toNat % 0x10))
  else if b = 0xF0 then ([], .inside 3 0x90 0xBF (b.toNat % 0x08))
  else if b = 0xF4 then ([], .inside 3 0x80 0x8F (b.toNat % 0x08))
  else if 0xF1 ≤ b ∧ b ≤ 0xF3 then ([], .inside 3 0x80 0xBF (b.toNat % 0x08))
  else ([replacement], .idle)

-- A byte that cannot go on with a character ends it, as one replacement for all of its bytes, and starts the next.
def step : State → UInt8 → List Char × State
  | .idle, b => start b
  | .inside left lo hi acc, b =>
    if lo ≤ b ∧ b ≤ hi then
      let acc := acc * 0x40 + b.toNat % 0x40
      if left ≤ 1 then ([Char.ofNat acc], .idle) else ([], .inside (left - 1) 0x80 0xBF acc)
    else (replacement :: (start b).1, (start b).2)

def flush : State → List Char
  | .idle => []
  | .inside .. => [replacement]

def run : State → List UInt8 → List Char × State
  | s, [] => ([], s)
  | s, b :: bytes => ((step s b).1 ++ (run (step s b).2 bytes).1, (run (step s b).2 bytes).2)

def decodeLossy (bytes : List UInt8) : List Char := (run .idle bytes).1 ++ flush (run .idle bytes).2

def Complete (bytes : List UInt8) : Prop := (run .idle bytes).2 = .idle

variable {s : State} {a b : List UInt8}

theorem run_append (s : State) (a b : List UInt8) :
    run s (a ++ b) = ((run s a).1 ++ (run (run s a).2 b).1, (run (run s a).2 b).2) := by
  induction a generalizing s with
  | nil => rfl
  | cons x a ih => simp only [List.cons_append, run, ih, List.append_assoc]

theorem complete_nil : Complete [] := rfl

theorem Complete.run_append (h : Complete a) :
    run .idle (a ++ b) = ((run .idle a).1 ++ (run .idle b).1, (run .idle b).2) := by
  rw [Utf8.run_append, show (run .idle a).2 = .idle from h]

theorem Complete.append_iff (h : Complete a) : Complete (a ++ b) ↔ Complete b := by
  rw [Complete, h.run_append, Complete]

theorem Complete.decodeLossy_append (h : Complete a) : decodeLossy (a ++ b) = decodeLossy a ++ decodeLossy b := by
  have ha : decodeLossy a = (run .idle a).1 := by
    rw [decodeLossy, show (run .idle a).2 = .idle from h, flush, List.append_nil]
  rw [ha, decodeLossy, h.run_append, decodeLossy, List.append_assoc]

theorem complete_of_getLast? (h : (decodeLossy a).getLast? ≠ some replacement) : Complete a := by
  rw [decodeLossy] at h
  cases hs : (run .idle a).2 with
  | idle => exact hs
  | inside left lo hi acc =>
    rw [hs] at h
    exact absurd (by simp [flush]) h

example : decodeLossy [0x68, 0xC3, 0xA9, 0xE2, 0x82, 0xFF, 0xF0, 0x9F] =
    ['h', Char.ofNat 0xE9, replacement, replacement, replacement] := by decide +kernel

end Utf8
