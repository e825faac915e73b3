import MiniServe.Cache.BlockTable
import Mathlib.Data.Rat.Defs

namespace MiniServe

inductive RequestState where
  | waiting | prefill | decode | finished | aborted
  deriving DecidableEq, Repr

def RequestState.next : RequestState → List RequestState
  | .waiting => [.prefill, .aborted, .finished]
  | .prefill => [.decode, .finished, .aborted, .waiting]
  | .decode => [.finished, .aborted, .waiting]
  | .finished => []
  | .aborted => []

def placeholder : Token := -1

theorem placeholder_long : IsLong placeholder := by decide

-- Ids the engine can feed: no marker among them, and none that a tensor of dtype `long` cannot hold.
def Plain (ids : List Token) : Prop := placeholder ∉ ids ∧ ∀ id ∈ ids, IsLong id

instance (ids : List Token) : Decidable (Plain ids) := inferInstanceAs (Decidable (_ ∧ _))

-- A Python float: the finite ones as exact numbers, and the three others.
inductive PyFloat where
  | finite (q : Rat) | inf | negInf | nan
  deriving DecidableEq, Repr

instance (n : Nat) : OfNat PyFloat n := ⟨.finite n⟩

def PyFloat.Nonneg : PyFloat → Prop
  | finite q => 0 ≤ q
  | inf => True
  | negInf | nan => False

instance : (x : PyFloat) → Decidable x.Nonneg
  | .finite q => inferInstanceAs (Decidable (0 ≤ q))
  | .inf => .isTrue trivial
  | .negInf | .nan => .isFalse id

theorem PyFloat.nonneg_zero : PyFloat.Nonneg 0 := by decide

theorem topP_one : 0 < (1 : Rat) ∧ (1 : Rat) ≤ 1 := by decide

theorem seed_none : ∀ s, (none : Option Nat) = some s → s < 2 ^ 32 := by decide

structure SamplingParams where
  maxNewTokens : Nat
  stopTokenIds : List Token := []
  temperature : PyFloat := 0
  topP : Rat := 1
  seed : Option Nat := none
  maxNewTokens_pos : 1 ≤ maxNewTokens := by
    first | exact Nat.one_pos | exact Nat.two_pos | exact Nat.succ_pos (nat_lit 2) |
      exact Nat.succ_pos (nat_lit 3) | decide
  temperature_nonneg : temperature.Nonneg := by first | exact PyFloat.nonneg_zero | decide
  topP_mem : 0 < topP ∧ topP ≤ 1 := by first | exact topP_one | decide
  seed_lt : ∀ s, seed = some s → s < 2 ^ 32 := by first | exact seed_none | decide

def SamplingParams.isGreedy (p : SamplingParams) : Bool := p.temperature = 0

structure Request where
  rid : Rid
  promptIds : List Token
  params : SamplingParams
  outputIds : List Token := []
  state : RequestState := .waiting
  cache : Option BlockTable := none
  cacheNode : Option Nat := none
  numCachedTokens : Nat := 0
  numPreemptions : Nat := 0
  seed : Nat := 0
  numPending : Nat := 0

namespace Request

variable (r : Request)

def new (rid : Rid) (promptIds : List Token) (params : SamplingParams) : Except Error Request :=
  if promptIds = [] then .error .emptyPrompt else .ok { rid, promptIds, params }

def transition (new : RequestState) : Except Error Request :=
  if new ∈ r.state.next then .ok { r with state := new } else .error (.badTransition r.rid)

def isDone : Prop := r.state = .finished ∨ r.state = .aborted

instance : Decidable r.isDone := inferInstanceAs (Decidable (_ ∨ _))

def tokens : List Token := r.promptIds ++ r.outputIds

def seqLen : Nat := r.promptIds.length + r.outputIds.length

def tokenSlice (start n : Nat) : List Token :=
  let p := r.promptIds.length
  if p ≤ start then (r.outputIds.drop (start - p)).take n
  else if start + n ≤ p then (r.promptIds.drop start).take n
  else r.promptIds.drop start ++ r.outputIds.take (start + n - p)

def readyIds : List Token := r.outputIds.take (r.outputIds.length - r.numPending)

def reachedMaxTokens : Prop := r.params.maxNewTokens ≤ r.outputIds.length

instance : Decidable r.reachedMaxTokens := inferInstanceAs (Decidable (_ ≤ _))

def dropPending : Request :=
  if r.numPending = 0 then r
  else { r with outputIds := r.outputIds.take (r.outputIds.length - r.numPending), numPending := 0 }

def maxLen : Nat := r.promptIds.length + r.params.maxNewTokens

def tableBlocks : List Int :=
  match r.cache with
  | none => []
  | some t => t.blocks

def covered : Nat :=
  match r.cache with
  | none => 0
  | some t => t.numTokens

variable {r}

@[simp] theorem tokens_length : r.tokens.length = r.seqLen := by simp [tokens, seqLen]

theorem tokenSlice_eq (start n : Nat) : r.tokenSlice start n = (r.tokens.drop start).take n := by
  unfold tokenSlice tokens
  simp only
  split
  · next h =>
    rw [List.drop_append, List.drop_eq_nil_of_le h, List.nil_append]
  · next h =>
    rw [List.drop_append_of_le_length (by omega)]
    split
    · rw [List.take_append_of_le_length (by rw [List.length_drop]; omega)]
    · have hl : (r.promptIds.drop start).length ≤ n := by rw [List.length_drop]; omega
      rw [List.take_append, List.take_of_length_le hl, List.length_drop]
      congr 2
      omega

theorem transition_ok {new : RequestState} (h : new ∈ r.state.next) :
    r.transition new = .ok { r with state := new } := by
  simp [transition, h]

theorem transition_eq_ok {new : RequestState} {q : Request} (h : r.transition new = .ok q) :
    new ∈ r.state.next ∧ q = { r with state := new } := by
  unfold transition at h
  split at h
  · next hm => exact ⟨hm, (Except.ok.inj h).symm⟩
  · simp at h

@[simp] theorem dropPending_state : r.dropPending.state = r.state := by unfold dropPending; split <;> rfl
@[simp] theorem dropPending_cache : r.dropPending.cache = r.cache := by unfold dropPending; split <;> rfl
@[simp] theorem dropPending_cacheNode : r.dropPending.cacheNode = r.cacheNode := by unfold dropPending; split <;> rfl
@[simp] theorem dropPending_promptIds : r.dropPending.promptIds = r.promptIds := by unfold dropPending; split <;> rfl
@[simp] theorem dropPending_params : r.dropPending.params = r.params := by unfold dropPending; split <;> rfl
@[simp] theorem dropPending_seed : r.dropPending.seed = r.seed := by unfold dropPending; split <;> rfl
@[simp] theorem dropPending_numPending : r.dropPending.numPending = 0 := by
  unfold dropPending; split <;> simp_all

theorem dropPending_of_none (h : r.numPending = 0) : r.dropPending = r := if_pos h

theorem dropPending_outputIds :
    r.dropPending.outputIds = r.outputIds.take (r.outputIds.length - r.numPending) := by
  unfold dropPending
  split
  · next h => simp [h]
  · rfl

end Request

end MiniServe
