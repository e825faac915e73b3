import MiniServe.Minicore.RadixTree

namespace MiniServe.Minicore

open Forest

variable {on : Bool} {bs : Nat} {n m : RadixNode} {leaf : Bool} {l l' : List RadixNode} {index : List IndexKey}

structure Tracked (on : Bool) (l : List RadixNode) (index : List IndexKey) : Prop where
  sorted : SortedSet.Sorted index
  mem_iff : ∀ k, k ∈ index ↔ ∃ n ∈ l, n.indexed = true ∧ n.indexKey = k
  off : ∀ n ∈ l, n.indexed = true → on = true
  nodup : (l.map fun n => n.uid).Nodup

theorem Tracked.perm (h : Tracked on l index) (hp : l.Perm l') : Tracked on l' index :=
  ⟨h.sorted, fun k => (h.mem_iff k).trans (by simp only [hp.mem_iff]), fun n hn => h.off n (hp.mem_iff.mpr hn),
    (hp.map _).nodup_iff.mp h.nodup⟩

theorem Tracked.head_notMem (h : Tracked on (n :: l) index) : n.uid ∉ l.map fun n => n.uid :=
  (List.nodup_cons.mp h.nodup).1

theorem Tracked.key_ne (h : Tracked on (n :: l) index) (hm : m ∈ l) : m.indexKey ≠ n.indexKey := by
  intro he
  have hu : m.uid = n.uid := congrArg (fun k : IndexKey => (ofLex k).2) he
  exact h.head_notMem (hu ▸ List.mem_map_of_mem hm)

theorem Tracked.cons (h : Tracked on l index) (hn : n.indexed = false) (hu : n.uid ∉ l.map fun n => n.uid) :
    Tracked on (n :: l) index := by
  refine ⟨h.sorted, fun k => ?_, fun m hm hi => ?_, List.nodup_cons.mpr ⟨hu, h.nodup⟩⟩
  · rw [h.mem_iff]
    simp [hn]
  · rcases List.mem_cons.mp hm with rfl | hm
    · simp [hn] at hi
    · exact h.off m hm hi

theorem Tracked.tail (h : Tracked on (n :: l) index) (hn : n.indexed = false) : Tracked on l index := by
  refine ⟨h.sorted, fun k => ?_, fun m hm => h.off m (List.mem_cons_of_mem n hm), (List.nodup_cons.mp h.nodup).2⟩
  rw [h.mem_iff]
  simp [hn]

theorem Tracked.replace (h : Tracked on (n :: l) index) (hi : m.indexed = n.indexed) (hk : m.indexKey = n.indexKey) :
    Tracked on (m :: l) index := by
  have hu : m.uid = n.uid := congrArg (fun k : IndexKey => (ofLex k).2) hk
  refine ⟨h.sorted, fun k => ?_, fun x hx => ?_, ?_⟩
  · rw [h.mem_iff]
    simp [hi, hk]
  · rcases List.mem_cons.mp hx with rfl | hx
    · rw [hi]
      exact h.off n List.mem_cons_self
    · exact h.off x (List.mem_cons_of_mem n hx)
  · have := h.nodup
    rwa [List.map_cons, ← hu] at this

namespace RadixNode

theorem unindex_fst (n : RadixNode) (index : List IndexKey) : (n.unindex index).1 = { n with indexed := false } := by
  unfold unindex
  split
  · rfl
  · next h => rw [← Bool.eq_false_iff.mpr h]

@[simp] theorem unindex_toRadixNode (n : RadixNode) (index : List IndexKey) :
    (n.unindex index).1.toRadixNode = n.toRadixNode := by
  rw [unindex_fst]

@[simp] theorem reindex_toRadixNode (on : Bool) (n : RadixNode) (leaf : Bool) (index : List IndexKey) :
    (n.reindex on leaf index).1.toRadixNode = n.toRadixNode := by
  unfold reindex
  split
  · rfl
  · split
    · rfl
    · split
      · exact unindex_toRadixNode n index
      · rfl

@[simp] theorem touch_toRadixNode (on : Bool) (n : RadixNode) (leaf : Bool) (index : List IndexKey) (clock : Nat) :
    (n.touch on leaf index clock).1.toRadixNode = n.toRadixNode.touch clock := by
  unfold touch
  split
  · next h => rw [MiniServe.RadixNode.touch, ← h]
  · simp [MiniServe.RadixNode.touch, unindex_fst]

end RadixNode

theorem Tracked.unindex (h : Tracked on (n :: l) index) :
    Tracked on ((n.unindex index).1 :: l) (n.unindex index).2 := by
  unfold RadixNode.unindex
  split
  · next hi =>
    suffices hl : Tracked on l (SortedSet.erase n.indexKey index) from hl.cons rfl h.head_notMem
    refine ⟨h.sorted.erase _, fun k => ?_, fun m hm => h.off m (List.mem_cons_of_mem n hm),
      (List.nodup_cons.mp h.nodup).2⟩
    rw [h.sorted.mem_erase, h.mem_iff]
    constructor
    · rintro ⟨⟨m, hm, hmi, rfl⟩, hne⟩
      rcases List.mem_cons.mp hm with rfl | hm
      · exact absurd rfl hne
      · exact ⟨m, hm, hmi, rfl⟩
    · rintro ⟨m, hm, hmi, rfl⟩
      exact ⟨⟨m, List.mem_cons_of_mem n hm, hmi, rfl⟩, h.key_ne hm⟩
  · exact h

theorem Tracked.added (h : Tracked on (n :: l) index) (hon : on = true) :
    Tracked on ({ n with indexed := true } :: l) (SortedSet.insert n.indexKey index) := by
  refine ⟨h.sorted.insert _, fun k => ?_, fun _ _ _ => hon, h.nodup⟩
  rw [SortedSet.mem_insert, h.mem_iff]
  constructor
  · rintro (rfl | ⟨m, hm, hmi, rfl⟩)
    · exact ⟨_, List.mem_cons_self, rfl, rfl⟩
    · rcases List.mem_cons.mp hm with rfl | hm
      · exact ⟨_, List.mem_cons_self, rfl, rfl⟩
      · exact ⟨m, List.mem_cons_of_mem _ hm, hmi, rfl⟩
  · rintro ⟨m, hm, hmi, rfl⟩
    rcases List.mem_cons.mp hm with rfl | hm
    · exact .inl rfl
    · exact .inr ⟨m, List.mem_cons_of_mem n hm, hmi, rfl⟩

theorem Tracked.reindex (h : Tracked on (n :: l) index) (leaf : Bool) :
    Tracked on ((n.reindex on leaf index).1 :: l) (n.reindex on leaf index).2 ∧
      (n.reindex on leaf index).1 = { n with indexed := on && n.evictable leaf } := by
  have hoff := h.off n List.mem_cons_self
  unfold RadixNode.reindex
  cases on with
  | false =>
    have hn : n.indexed = false := Bool.eq_false_iff.mpr fun hi => by simp [hi] at hoff
    rw [if_pos (by simp)]
    refine ⟨h, ?_⟩
    rw [Bool.false_and, ← hn]
  | true =>
    rw [if_neg (by simp), Bool.true_and]
    by_cases he : n.evictable leaf = true
    · by_cases hi : n.indexed = true
      · have h1 : ¬ (n.evictable leaf ∧ ¬ n.indexed) := fun hc => hc.2 hi
        have h2 : ¬ (¬ n.evictable leaf ∧ n.indexed) := fun hc => hc.1 he
        rw [if_neg h1, if_neg h2]
        refine ⟨h, ?_⟩
        rw [he, ← hi]
      · rw [if_pos ⟨he, hi⟩]
        exact ⟨h.added rfl, by rw [he]⟩
    · have h1 : ¬ (n.evictable leaf ∧ ¬ n.indexed) := fun hc => he hc.1
      have he' : n.evictable leaf = false := Bool.eq_false_iff.mpr he
      rw [if_neg h1]
      by_cases hi : n.indexed = true
      · rw [if_pos ⟨he, hi⟩]
        exact ⟨h.unindex, by rw [RadixNode.unindex_fst, he']⟩
      · have h2 : ¬ (¬ n.evictable leaf ∧ n.indexed) := fun hc => hi hc.2
        rw [if_neg h2]
        exact ⟨h, by rw [he', ← Bool.eq_false_iff.mpr hi]⟩

theorem Tracked.touch (h : Tracked on (n :: l) index) (hf : n.indexed = (on && n.evictable leaf)) (clock : Nat) :
    Tracked on ((n.touch on leaf index clock).1 :: l) (n.touch on leaf index clock).2 ∧
      (n.touch on leaf index clock).1 = { n with lastAccess := clock, indexed := on && n.evictable leaf } := by
  unfold RadixNode.touch
  split
  · next he => exact ⟨h, by rw [← he, ← hf]⟩
  · have hu := h.unindex
    have hfst := n.unindex_fst index
    generalize n.unindex index = u at hu hfst ⊢
    obtain ⟨n', index'⟩ := u
    simp only at hu hfst
    subst hfst
    have hmoved : Tracked on ({ n with lastAccess := clock, indexed := false } :: l) index' :=
      (hu.tail rfl).cons rfl hu.head_notMem
    exact hmoved.reindex leaf

end MiniServe.Minicore
