import MiniServe.Lib.ForestOrder
import MiniServe.Cache.RadixInsert

namespace MiniServe

open Forest

variable {bs : Nat}

def RadixNode.bare (n : RadixNode) : RadixNode := { n with lock := 0 }

theorem cells_bare (p : List Token) (F : Forest RadixNode) : cells bs p (F.map RadixNode.bare) = cells bs p F := by
  induction F generalizing p with
  | nil => rfl
  | cons n b r ihb ihr => simp [Forest.map, cells, RadixNode.bare, ihb, ihr]

theorem keys_bare (F : Forest RadixNode) : keys RadixNode.uid (F.map RadixNode.bare) = keys RadixNode.uid F := by
  simp [keys, labels_map, Function.comp_def, RadixNode.bare]

theorem tops_bare (F : Forest RadixNode) : (F.map RadixNode.bare).tops = F.tops.map RadixNode.bare := by
  induction F with
  | nil => rfl
  | cons n b r _ ihr => simp [Forest.map, ihr]

theorem WF_bare (F : Forest RadixNode) : WF bs (F.map RadixNode.bare) ↔ WF bs F := by
  induction F with
  | nil => exact Iff.rfl
  | cons n b r ihb ihr =>
    simp only [Forest.map, WF, ihb, ihr, tops_bare, List.forall_mem_map]
    exact Iff.rfl

namespace RadixTree

variable {t t' : RadixTree} {ts : List Token} {blocks : List Int} {a : BlockAllocator}

structure Relocked (t t' : RadixTree) : Prop where
  forest : t'.forest.map RadixNode.bare = t.forest.map RadixNode.bare
  rootUid : t'.rootUid = t.rootUid
  nextUid : t'.nextUid = t.nextUid
  clock : t'.clock = t.clock

theorem Relocked.cells (h : Relocked t t') : MiniServe.cells bs [] t'.forest = MiniServe.cells bs [] t.forest := by
  rw [← cells_bare, h.forest, cells_bare]

theorem Relocked.shaped (h : Relocked t t') (hs : t.Shaped bs) : t'.Shaped bs := by
  have hk : keys RadixNode.uid t'.forest = keys RadixNode.uid t.forest := by rw [← keys_bare, h.forest, keys_bare]
  refine ⟨?_, hk ▸ hs.keys_nodup, ?_, ?_, ?_⟩
  · rw [← WF_bare, h.forest, WF_bare]; exact hs.wf
  · rw [hk, h.nextUid]; exact hs.keys_lt
  · rw [h.rootUid, h.nextUid]; exact hs.root_lt
  · rw [h.rootUid, hk]; exact hs.root_not_mem

theorem lock_relocked (t : RadixTree) (u : Nat) : Relocked t (t.lock u) := by
  refine ⟨map_climb (fun {n n' d} hv => ?_) t.forest, rfl, rfl, rfl⟩
  simp only [RadixNode.lockVisit, Option.some.injEq, Prod.mk.injEq] at hv
  rw [← hv.1]
  rfl

theorem unlock_relocked (t : RadixTree) (u : Nat) : Relocked t (t.unlock u).2 := by
  have hmap : (t.forest.climb RadixNode.uid u RadixNode.unlockVisit).2.1.map RadixNode.bare =
      t.forest.map RadixNode.bare := by
    refine map_climb (fun {n n' d} hv => ?_) t.forest
    unfold RadixNode.unlockVisit at hv
    split at hv
    · exact absurd hv (by simp)
    · simp only [Option.some.injEq, Prod.mk.injEq] at hv
      rw [← hv.1]
      rfl
  unfold unlock
  split
  · next he => rw [he] at hmap; exact ⟨hmap, rfl, rfl, rfl⟩
  · next he => rw [he] at hmap; exact ⟨hmap, rfl, rfl, rfl⟩

theorem matchPrefix_snd (t : RadixTree) (ts : List Token) : (t.matchPrefix bs ts).2 = t.walked bs ts := by
  unfold matchPrefix
  simp only
  split <;> rfl

theorem Shaped.detach (hs : t.Shaped bs) {node : RadixNode} (hl : node ∈ t.forest.leaves) :
    (t.detach node).Shaped bs := by
  have hleaf := leaf_unique hs.keys_nodup hl
  have hsub : ∀ k ∈ keys RadixNode.uid (t.detach node).forest, k ∈ keys RadixNode.uid t.forest :=
    fun k hk => ((mem_keys_remove hleaf).mp hk).1
  refine ⟨WF_remove _ hs.wf, ?_, fun k hk => hs.keys_lt k (hsub k hk), hs.root_lt, fun hm => hs.root_not_mem (hsub _ hm)⟩
  rw [RadixTree.detach, keys_remove hleaf]
  exact hs.keys_nodup.filter _

inductive Move (bs : Nat) (t : RadixTree) : RadixTree → Prop
  | walk (ts : List Token) : Move bs t (t.walked bs ts)
  | grow (ts : List Token) (blocks : List Int) (hlen : ts.length = blocks.length * bs)
      (hm : (t.walk bs ts).matched < blocks.length) : Move bs t (t.grown bs ts blocks)
  | relock {t' : RadixTree} (h : Relocked t t') : Move bs t t'
  | detach {node : RadixNode} (hn : node ∈ t.unlockedLeaves) : Move bs t (t.detach node)

theorem Move.shaped (hbs : 0 < bs) (h : Move bs t t') (hs : t.Shaped bs) : t'.Shaped bs := by
  cases h with
  | walk ts => exact hs.walked ts
  | grow ts blocks hlen hm => exact hs.grown hbs hlen hm
  | relock h => exact h.shaped hs
  | detach hn => exact hs.detach (mem_unlockedLeaves.mp hn).1

abbrev Moves (bs : Nat) : RadixTree → RadixTree → Prop := Relation.ReflTransGen (Move bs)

theorem Moves.rule {P : RadixTree → Prop} (hbs : 0 < bs) (hstep : ∀ {t t'}, t.Shaped bs → P t → Move bs t t' → P t')
    (h : Moves bs t t') (hs : t.Shaped bs) (hP : P t) : t'.Shaped bs ∧ P t' := by
  induction h with
  | refl => exact ⟨hs, hP⟩
  | tail _ hm ih => exact ⟨hm.shaped hbs ih.1, hstep ih.1 ih.2 hm⟩

theorem Moves.single (h : Move bs t t') : Moves bs t t' := Relation.ReflTransGen.single h

inductive InsertCase (bs : Nat) (t : RadixTree) (a : BlockAllocator) (ts : List Token) (blocks : List Int) :
    Except Error Nat × BlockAllocator × RadixTree → Prop
  | mismatch (h : ts.length ≠ blocks.length * bs) :
      InsertCase bs t a ts blocks (.error (.tokensForBlocks ts.length blocks.length bs), a, t)
  | cached (hlen : ts.length = blocks.length * bs) (hm : (t.walk bs ts).matched = blocks.length) :
      InsertCase bs t a ts blocks (.ok (t.walkNode bs ts), a, t.walked bs ts)
  | refused {e : Error} (hlen : ts.length = blocks.length * bs) (hm : (t.walk bs ts).matched < blocks.length)
      (h : a.incref (blocks.drop (t.walk bs ts).matched) = (.error e, a)) :
      InsertCase bs t a ts blocks (.error e, a, t.walked bs ts)
  | grown {a' : BlockAllocator} (hlen : ts.length = blocks.length * bs) (hm : (t.walk bs ts).matched < blocks.length)
      (h : a.incref (blocks.drop (t.walk bs ts).matched) = (.ok (), a')) :
      InsertCase bs t a ts blocks (.ok (newLeaf bs t ts blocks).uid, a', t.grown bs ts blocks)

theorem insert_case (hbs : 0 < bs) (hs : t.Shaped bs) (a : BlockAllocator) (ts : List Token) (blocks : List Int) :
    InsertCase bs t a ts blocks (t.insert bs a ts blocks) := by
  unfold insert
  split
  · next h => exact .mismatch h
  · next h =>
    have hlen : ts.length = blocks.length * bs := not_not.mp h
    have hle : (t.walk bs ts).matched ≤ blocks.length := by
      have := (hs.walkNode_spec ts).2.1
      rw [hlen] at this
      exact Nat.le_of_mul_le_mul_right this hbs
    simp only
    split
    · next hm => exact .cached hlen hm
    · next hm =>
      have hlt : (t.walk bs ts).matched < blocks.length := lt_of_le_of_ne hle hm
      split
      · next e a' hinc =>
        have ha : a' = a := by
          unfold BlockAllocator.incref at hinc
          split at hinc <;> simp_all
        subst ha
        exact .refused hlen hlt hinc
      · next a' hinc => exact .grown hlen hlt hinc

theorem insert_moves (hbs : 0 < bs) (hs : t.Shaped bs) (a : BlockAllocator) (ts : List Token) (blocks : List Int) :
    Moves bs t (t.insert bs a ts blocks).2.2 := by
  have h := insert_case hbs hs a ts blocks
  generalize t.insert bs a ts blocks = out at h ⊢
  cases h with
  | mismatch => exact .refl
  | cached => exact .single (.walk ts)
  | refused => exact .single (.walk ts)
  | grown hlen hm => exact .single (.grow ts blocks hlen hm)

theorem evict_moves (hbs : 0 < bs) (hs : t.Shaped bs) (a : BlockAllocator) (n : Int) : Moves bs t (t.evict a n).2.2 := by
  obtain ⟨k, r, a', t', he, ⟨-, hm⟩, -⟩ := evict_trace (N := n) (a := a) (t := t)
    (P := fun _ _ _ t' => t'.Shaped bs ∧ Moves bs t t') (fun h => h.1.keys_nodup)
    (fun {l k a t1 node a1} h hnode _ _ _ =>
      ⟨(Move.detach hnode).shaped hbs h.1, h.2.tail (.detach hnode)⟩) ⟨hs, .refl⟩
  rw [he]
  exact hm

theorem clear_moves (hbs : 0 < bs) (hs : t.Shaped bs) (a : BlockAllocator) : Moves bs t (t.clear a).2.2 := by
  have h := evict_moves hbs hs a t.numCachedBlocks
  unfold clear
  split
  · exact .refl
  · split
    · next he => rw [he] at h; exact h
    · next he => rw [he] at h; exact h

inductive Reachable (bs : Nat) : RadixTree → Prop
  | new (uid : Nat) : Reachable bs (new uid)
  | matchPrefix {t : RadixTree} (ts : List Token) (h : Reachable bs t) : Reachable bs (t.matchPrefix bs ts).2
  | insert {t : RadixTree} (a : BlockAllocator) (ts : List Token) (blocks : List Int) (h : Reachable bs t) :
      Reachable bs (t.insert bs a ts blocks).2.2
  | lock {t : RadixTree} (node : Nat) (h : Reachable bs t) : Reachable bs (t.lock node)
  | unlock {t : RadixTree} (node : Nat) (h : Reachable bs t) : Reachable bs (t.unlock node).2
  | evict {t : RadixTree} (a : BlockAllocator) (n : Int) (h : Reachable bs t) : Reachable bs (t.evict a n).2.2
  | clear {t : RadixTree} (a : BlockAllocator) (h : Reachable bs t) : Reachable bs (t.clear a).2.2

theorem new_shaped (uid : Nat) : (new uid).Shaped bs := ((new_sound uid fun _ => 0) : (new uid).Sound bs _).shaped

theorem Reachable.rule {P : RadixTree → Prop} (hbs : 0 < bs) (hnew : ∀ uid, P (RadixTree.new uid))
    (hstep : ∀ {t t'}, t.Shaped bs → P t → Move bs t t' → P t') (h : Reachable bs t) : t.Shaped bs ∧ P t := by
  induction h with
  | new uid => exact ⟨new_shaped uid, hnew uid⟩
  | matchPrefix ts _ ih => rw [matchPrefix_snd]; exact Moves.rule hbs hstep (.single (.walk ts)) ih.1 ih.2
  | insert a ts blocks _ ih => exact Moves.rule hbs hstep (insert_moves hbs ih.1 a ts blocks) ih.1 ih.2
  | lock node _ ih => exact Moves.rule hbs hstep (.single (.relock (lock_relocked _ node))) ih.1 ih.2
  | unlock node _ ih => exact Moves.rule hbs hstep (.single (.relock (unlock_relocked _ node))) ih.1 ih.2
  | evict a n _ ih => exact Moves.rule hbs hstep (evict_moves hbs ih.1 a n) ih.1 ih.2
  | clear a _ ih => exact Moves.rule hbs hstep (clear_moves hbs ih.1 a) ih.1 ih.2

theorem Reachable.shaped (hbs : 0 < bs) (h : Reachable bs t) : t.Shaped bs :=
  (h.rule (P := fun _ => True) hbs (fun _ => trivial) fun _ _ _ => trivial).1

end RadixTree

end MiniServe
