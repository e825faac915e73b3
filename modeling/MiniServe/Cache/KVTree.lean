import MiniServe.Cache.KVReach
import MiniServe.Cache.RadixMoves

namespace MiniServe

namespace KVCacheManager

variable {bs : Nat} {kv kv' : KVCacheManager} {q q' : Request}

def TreeReachable (kv : KVCacheManager) (bs : Nat) : Prop := ∀ t, kv.tree = some t → RadixTree.Reachable bs t

theorem unlockNode_tree {node : Option Nat} (he : kv.unlockNode node = .ok kv') (h : kv.TreeReachable bs) :
    kv'.TreeReachable bs := by
  unfold KVCacheManager.unlockNode at he
  split at he
  · next t u ht =>
    split at he
    · exact absurd he (by simp)
    · next t' hu =>
      obtain rfl := Except.ok.inj he
      intro t1 ht1
      obtain rfl : t' = t1 := Option.some.inj ht1
      have hr := (h t ht).unlock u
      rwa [hu] at hr
  · obtain rfl := Except.ok.inj he
    exact h

theorem dropTable_tree {table : BlockTable} (he : kv.dropTable table = .ok kv') : kv'.tree = kv.tree := by
  unfold dropTable at he
  split at he
  · exact absurd he (by simp)
  · rw [← Except.ok.inj he]

theorem acquire_tree {k : Nat} (he : kv.acquire q = .ok (k, kv', q')) (h : kv.TreeReachable kv.blockSize) :
    kv'.TreeReachable kv.blockSize := by
  unfold KVCacheManager.acquire at he
  split at he
  · exact absurd he (by simp)
  · split at he
    · exact absurd he (by simp)
    · next node blocks tree hl =>
      split at he
      · exact absurd he (by simp)
      · simp only [Except.ok.injEq, Prod.mk.injEq] at he
        obtain ⟨-, rfl, -⟩ := he
        intro t' ht'
        have ht' : tree = some t' := ht'
        unfold KVCacheManager.lookup at hl
        split at hl
        · simp only [Except.ok.injEq, Prod.mk.injEq] at hl
          obtain ⟨-, -, rfl⟩ := hl
          simp at ht'
        · next t ht =>
          split at hl
          · exact absurd hl (by simp)
          · next u bl t1 hm =>
            simp only [Except.ok.injEq, Prod.mk.injEq] at hl
            obtain ⟨-, -, rfl⟩ := hl
            obtain rfl := Option.some.inj ht'
            have hr := (h t ht).matchPrefix (q.tokens.take (q.seqLen - 1))
            rw [hm] at hr
            exact hr.lock u

theorem abandon_tree (he : kv.abandon q = .ok (kv', q')) (h : kv.TreeReachable bs) : kv'.TreeReachable bs := by
  unfold KVCacheManager.abandon at he
  split at he
  · exact absurd he (by simp)
  · next kv1 h1 =>
    split at he
    · exact absurd he (by simp)
    · split at he
      · exact absurd he (by simp)
      · next kv2 h2 =>
        simp only [Except.ok.injEq, Prod.mk.injEq] at he
        obtain ⟨rfl, -⟩ := he
        intro t ht
        rw [dropTable_tree h2] at ht
        exact unlockNode_tree h1 h t ht

theorem commit_tree (he : kv.commit q = .ok (kv', q')) (h : kv.TreeReachable kv.blockSize) :
    kv'.TreeReachable kv.blockSize := by
  unfold KVCacheManager.commit at he
  split at he
  · next t table ht _ =>
    simp only at he
    split at he
    · exact absurd he (by simp)
    · next node a t' hi =>
      split at he
      · exact absurd he (by simp)
      · next kv1 h1 =>
        simp only [Except.ok.injEq, Prod.mk.injEq] at he
        obtain ⟨rfl, -⟩ := he
        refine unlockNode_tree h1 fun t1 ht1 => ?_
        obtain rfl := Option.some.inj ht1
        have hr := (h t ht).insert kv.allocator (q.tokens.take (table.numTokens / kv.blockSize * kv.blockSize))
          (table.blocks.take (table.numTokens / kv.blockSize))
        rw [hi] at hr
        exact hr.lock node
  · simp only [Except.ok.injEq, Prod.mk.injEq] at he
    obtain ⟨rfl, -⟩ := he
    exact h

theorem release_tree (he : kv.release q = .ok (kv', q')) (h : kv.TreeReachable kv.blockSize) :
    kv'.TreeReachable kv.blockSize := by
  unfold KVCacheManager.release at he
  split at he
  · simp only [Except.ok.injEq, Prod.mk.injEq] at he
    obtain ⟨rfl, -⟩ := he
    exact h
  · split at he
    · exact absurd he (by simp)
    · next kv1 q1 h1 =>
      split at he
      · exact absurd he (by simp)
      · next kv2 h2 =>
        split at he
        · exact absurd he (by simp)
        · next kv3 h3 =>
          simp only [Except.ok.injEq, Prod.mk.injEq] at he
          obtain ⟨rfl, -⟩ := he
          intro t ht
          rw [dropTable_tree h3] at ht
          exact unlockNode_tree h2 (commit_tree h1 h) t ht

theorem reserve_tree (n : Int) (h : kv.TreeReachable bs) : (kv.reserve n).2.TreeReachable bs := by
  have hshort (k : Int) : (kv.evictShort k).2.TreeReachable bs := by
    unfold evictShort
    split
    · exact h
    · next t ht =>
      have hr := (h t ht).evict kv.allocator k
      split
      · split
        · next he =>
          rw [he] at hr
          exact fun t1 ht1 => Option.some.inj ht1 ▸ hr
        · next he =>
          rw [he] at hr
          exact fun t1 ht1 => Option.some.inj ht1 ▸ hr
      · exact h
  have h' := hshort (n - kv.allocator.numFree)
  unfold KVCacheManager.reserve
  split
  · next he => rw [he] at h'; exact h'
  · next he =>
    rw [he] at h'
    split <;> exact h'

end KVCacheManager

namespace KVClient

variable {s : KVClient} {bs : Nat}

open KVCacheManager

theorem ahead_tree (r : Rid) (n : Nat) (h : s.kv.TreeReachable bs) : (s.ahead r n).kv.TreeReachable bs := by
  unfold ahead
  split
  · exact h
  · next tb _ =>
    have hr := reserve_tree (tb.need s.kv.blockSize n) h
    split
    · next he => rw [he] at hr; exact hr
    · next he => rw [he] at hr; exact hr

theorem step_tree (op : KVOp) (h : s.kv.TreeReachable s.kv.blockSize) : (s.step op).kv.TreeReachable s.kv.blockSize := by
  cases op with
  | acquire r =>
    simp only [step]
    split
    · next he => exact acquire_tree he h
    · exact h
  | abandon r =>
    simp only [step]
    split
    · next he => exact abandon_tree he h
    · exact h
  | extend r n =>
    simp only [step]
    split
    · exact h
    · next tb _ =>
      have hr := reserve_tree (tb.need s.kv.blockSize n) h
      split
      · split
        · next he => rw [he] at hr; exact hr
        · next he => rw [he] at hr; exact hr
      · exact h
  | commit r =>
    simp only [step]
    split
    · next he => exact commit_tree he h
    · exact h
  | release r =>
    simp only [step]
    split
    · next he => exact release_tree he h
    · exact h
  | reserve n => exact reserve_tree n h
  | output r ids =>
    simp only [step]
    split <;> exact h

theorem Effect.blockSize {s' : KVClient} {op : KVOp} (h : Effect s op s') : s'.kv.blockSize = s.kv.blockSize := by
  cases h with
  | same => rfl
  | acquire _ h => exact h.frame.blockSize
  | abandon _ h => exact h.frame.blockSize
  | evict h => exact h.frame.blockSize
  | extend _ h h' => exact h'.frame.blockSize.trans h.frame.blockSize
  | commit _ h => exact h.frame.blockSize
  | release _ h => exact h.frame.blockSize
  | output => rfl

theorem Reachable.tree (h : s.Reachable) : s.kv.TreeReachable s.kv.blockSize := by
  induction h with
  | start hn hb radix prompt params =>
    intro t ht
    cases radix with
    | false => simp [KVClient.start, KVCacheManager.new] at ht
    | true =>
      obtain rfl : RadixTree.new 0 = t := by simpa [KVClient.start, KVCacheManager.new] using ht
      exact .new 0
  | @step s op h ih =>
    have := (h.sound.step_effect op).blockSize
    rw [this]
    exact step_tree op ih
  | @ahead s r n ht h ih =>
    exact ahead_tree r n fun t ht' => by simp [ht] at ht'
  | @rewind s r n hn h ih =>
    unfold KVClient.rewind
    split <;> exact ih
  | @setRadix s enabled hl h ih =>
    unfold KVClient.setRadix KVCacheManager.setRadix
    split
    · next kv' he =>
      split at he
      · exact absurd he (by simp)
      · next kv1 _ =>
        obtain rfl := Except.ok.inj he
        intro t ht
        cases enabled with
        | false => simp at ht
        | true =>
          obtain rfl : RadixTree.new 0 = t := by simpa using ht
          exact .new 0
    · exact ih

end KVClient

end MiniServe
