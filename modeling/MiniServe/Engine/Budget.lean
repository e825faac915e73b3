import MiniServe.Engine.Queues

namespace MiniServe

namespace Scheduler

variable {s s' : Scheduler} {older : List Entry} {r : Rid} {l : List Rid} {c c' : Chunks} {b : Batch}

structure Paid (c c' : Chunks) : Prop where
  total : ((c'.rows.map Row.len).sum : Int) + c'.budget = (c.rows.map Row.len).sum + c.budget
  nonneg : 0 ≤ c.budget → 0 ≤ c'.budget
  le : c'.budget ≤ c.budget

theorem Paid.refl (c : Chunks) : Paid c c := ⟨rfl, id, le_rfl⟩

theorem Paid.trans {c'' : Chunks} (h1 : Paid c c') (h2 : Paid c' c'') : Paid c c'' :=
  ⟨h2.total.trans h1.total, fun h => h2.nonneg (h1.nonneg h), h2.le.trans h1.le⟩

theorem Paid.take {start seqLen : Nat} (h : ∀ row ∈ (c.take r start seqLen).rows, 1 ≤ row.len) :
    Paid c (c.take r start seqLen) := by
  have hlen : 1 ≤ (min ((seqLen : Int) - start) c.budget).toNat :=
    h ⟨r, start, (min ((seqLen : Int) - start) c.budget).toNat⟩ (by simp [Chunks.take])
  refine ⟨?_, fun _ => ?_, ?_⟩
  · simp only [Chunks.take, List.map_append, List.map_singleton, List.sum_append, List.sum_singleton]
    omega
  · simp only [Chunks.take]
    omega
  · simp only [Chunks.take]
    omega

end Scheduler

namespace Engine

variable {e : Engine} {model : Model} {c : EngineConfig} {ok : List Token → Prop} {s : Scheduler} {b : Batch}

end Engine

end MiniServe
