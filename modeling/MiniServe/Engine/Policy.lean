import MiniServe.Cache.KVCache

namespace MiniServe

inductive SchedulePolicy where
  | fcfs | sjf | cache
  deriving DecidableEq, Repr

def remainingWork (r : Request) : Int :=
  (r.seqLen : Int) - r.covered + r.params.maxNewTokens - r.outputIds.length

def lastLargest (work : Rid → Int) : Rid → List Rid → Rid
  | best, [] => best
  | best, r :: rest => lastLargest work (if work best ≤ work r then r else best) rest

namespace SchedulePolicy

def order (policy : SchedulePolicy) (reqs : Rid → Request) (kv : KVCacheManager) (waiting : List Rid) : List Rid :=
  match policy with
  | .fcfs => waiting
  | .sjf => waiting.insertionSort (fun i j => remainingWork (reqs i) ≤ remainingWork (reqs j))
  | .cache => kv.orderByCachedPrefix (fun i => (reqs i).tokens) waiting

def pickVictim (policy : SchedulePolicy) (reqs : Rid → Request) (first : Rid) (rest : List Rid) : Rid :=
  match policy with
  | .fcfs | .cache => (first :: rest).getLast (List.cons_ne_nil first rest)
  | .sjf => lastLargest (fun i => remainingWork (reqs i)) first rest

variable {reqs : Rid → Request} {kv : KVCacheManager}

theorem perm_order (policy : SchedulePolicy) (waiting : List Rid) : (policy.order reqs kv waiting).Perm waiting := by
  cases policy with
  | fcfs => exact List.Perm.refl _
  | sjf => exact List.perm_insertionSort _ _
  | cache =>
    simp only [order, KVCacheManager.orderByCachedPrefix]
    cases kv.tree with
    | none => exact List.Perm.refl _
    | some t => exact List.perm_insertionSort _ _

theorem lastLargest_mem (work : Rid → Int) (best : Rid) (rest : List Rid) :
    lastLargest work best rest ∈ best :: rest := by
  induction rest generalizing best with
  | nil => simp [lastLargest]
  | cons r rest ih =>
    rw [lastLargest]
    split
    · exact List.mem_cons_of_mem _ (ih r)
    · rcases List.mem_cons.mp (ih best) with h | h
      · rw [h]; exact List.mem_cons_self
      · exact List.mem_cons_of_mem _ (List.mem_cons_of_mem _ h)

theorem pickVictim_mem (policy : SchedulePolicy) (first : Rid) (rest : List Rid) :
    policy.pickVictim reqs first rest ∈ first :: rest := by
  cases policy with
  | fcfs => exact List.getLast_mem _
  | sjf => exact lastLargest_mem _ first rest
  | cache => exact List.getLast_mem _

end SchedulePolicy

end MiniServe
