import MiniServe.Cache.RadixEvict

namespace MiniServe

open Forest

namespace RadixTree

variable {bs : Nat} {t : RadixTree} {h : Nat → Nat}

theorem cell_of_path (hs : t.Shaped bs) {u i : Nat} {b : Int}
    (hb : (MiniServe.pathBlocks t.forest u)[i]? = some b) :
    ((pathTokens t.forest u).take ((i + 1) * bs), b) ∈ cells bs [] t.forest :=
  path_cells hs.wf u (mem_edgeCells.mpr ⟨i, hb, by simp⟩)

theorem matchPrefix_ok (hs : t.Shaped bs) (ts : List Token) :
    t.matchPrefix bs ts = (.ok (t.walkNode bs ts, MiniServe.pathBlocks (t.walked bs ts).forest (t.walkNode bs ts)),
      t.walked bs ts) := by
  have hl := (hs.walkNode_spec ts).2.2.2
  unfold matchPrefix
  exact if_pos hl

theorem le_matched (hs : t.Shaped bs) (hbs : 0 < bs) {u : Nat} {ts : List Token}
    (hu : pathTokens t.forest u <+: ts) :
    (MiniServe.pathBlocks t.forest u).length ≤ (t.walk bs ts).matched := by
  have hlen := pathTokens_length hs.wf u
  have hle := hu.length_le
  cases hj : (MiniServe.pathBlocks t.forest u).length with
  | zero => omega
  | succ j =>
    have hlt : j < (MiniServe.pathBlocks t.forest u).length := by omega
    have hc := cell_of_path hs (List.getElem?_eq_getElem hlt)
    rw [hlen, hj] at hle
    rw [List.prefix_iff_eq_take.mp hu, List.take_take, hlen, hj, Nat.min_self] at hc
    exact walk_max (p := []) hbs hs.wf (Nat.succ_pos j) hle (by simpa using hc)

theorem found_of_walk (hs : t.Shaped bs) {ts : List Token} {i : Nat} {b : Int}
    (hb : (MiniServe.pathBlocks (t.walked bs ts).forest (t.walkNode bs ts))[i]? = some b) :
    (ts.take ((i + 1) * bs), b) ∈ cells bs [] t.forest := by
  obtain ⟨-, hle, htok, hlen⟩ := hs.walkNode_spec ts
  have hc := path_cells (p := []) (@walk_WF bs (t.clock + 1) t.nextUid t.forest ts hs.wf)
    (t.walkNode bs ts) (mem_edgeCells.mpr ⟨i, hb, rfl⟩)
  rw [walk_cells] at hc
  have hi : i < (t.walk bs ts).matched := by
    have := (List.getElem?_eq_some_iff.mp hb).1; omega
  have hmin : (i + 1) * bs ≤ (t.walk bs ts).matched * bs := Nat.mul_le_mul_right bs hi
  change ([] ++ (pathTokens (t.walked bs ts).forest (t.walkNode bs ts)).take ((i + 1) * bs), b) ∈ _ at hc
  rw [htok, List.take_take, Nat.min_eq_left hmin] at hc
  exact hc

structure Inserted (t t' : RadixTree) (a a' : BlockAllocator) (bs : Nat) (ts : List Token)
    (blocks : List Int) (node m : Nat) : Prop where
  matched_le : m ≤ blocks.length
  rootUid : t'.rootUid = t.rootUid
  nextUid : t.nextUid ≤ t'.nextUid
  holds : t'.Holds node
  tokens : pathTokens t'.forest node = ts
  length : (MiniServe.pathBlocks t'.forest node).length = blocks.length
  added : (MiniServe.pathBlocks t'.forest node).drop m = blocks.drop m
  found : ∀ i b, i < m → (MiniServe.pathBlocks t'.forest node)[i]? = some b →
    (ts.take ((i + 1) * bs), b) ∈ MiniServe.cells bs [] t.forest
  old_holds : ∀ u, t.Holds u → t'.Holds u
  old_tokens : ∀ u, t.Holds u → pathTokens t'.forest u = pathTokens t.forest u
  old_blocks : ∀ u, t.Holds u → MiniServe.pathBlocks t'.forest u = MiniServe.pathBlocks t.forest u
  cells : (MiniServe.cells bs [] t'.forest).Perm (MiniServe.cells bs [] t.forest ++
    edgeCells bs (ts.take (m * bs)) (ts.drop (m * bs)) (blocks.drop m))
  treeBlocks : (MiniServe.treeBlocks t'.forest).Perm (MiniServe.treeBlocks t.forest ++ blocks.drop m)
  nodes : ∀ n' ∈ t'.forest.labels, n'.blocks = blocks.drop m ∨ ∃ n ∈ t.forest.labels, n'.blocks ⊆ n.blocks
  ref : a' = { a with ref := fun b => a.ref b + (blocks.drop m).count b }

variable {a : BlockAllocator} {ts : List Token} {blocks : List Int}

theorem insert_all_cached (hs : t.Shaped bs) (hlen : ts.length = blocks.length * bs)
    (hm : (t.walk bs ts).matched = blocks.length) :
    t.insert bs a ts blocks = (.ok (t.walkNode bs ts), a, t.walked bs ts) ∧
      Inserted t (t.walked bs ts) a a bs ts blocks (t.walkNode bs ts) (t.walk bs ts).matched := by
  obtain ⟨hh, hle, htok, hpl⟩ := hs.walkNode_spec ts
  refine ⟨by simp [insert, hlen, hm, walkNode], ?_⟩
  constructor
  · exact hm.le
  · rfl
  · exact walk_nextUid t.forest ts
  · exact hh
  · rw [htok, hm, ← hlen, List.take_length]
  · rw [hpl, hm]
  · rw [List.drop_of_length_le hpl.le, hm, List.drop_length]
  · exact fun i b _ hb => found_of_walk hs hb
  · exact fun u hu => walked_holds hs hu
  · exact fun u hu => walked_pathTokens hs hu
  · exact fun u hu => walked_pathBlocks hs hu
  · rw [hm, List.drop_length]
    simp only [edgeCells, List.append_nil]
    exact (walk_cells t.forest [] ts) ▸ List.Perm.refl _
  · rw [hm, List.drop_length, List.append_nil, walked_treeBlocks]
  · intro n' hn'
    obtain ⟨n, hn, hsub, -⟩ := walk_uniform t.forest ts n' hn'
    exact .inr ⟨n, hn, hsub⟩
  · rw [hm, List.drop_length]
    simp

def newLeaf (bs : Nat) (t : RadixTree) (ts : List Token) (blocks : List Int) : RadixNode where
  tokens := ts.drop ((t.walk bs ts).matched * bs)
  blocks := blocks.drop (t.walk bs ts).matched
  lock := 0
  lastAccess := (t.walked bs ts).clock
  uid := (t.walked bs ts).nextUid

def grown (bs : Nat) (t : RadixTree) (ts : List Token) (blocks : List Int) : RadixTree :=
  { t.walked bs ts with
    forest := (t.walked bs ts).attach (t.walkNode bs ts) (newLeaf bs t ts blocks) (t.walked bs ts).forest
    numCachedBlocks := (t.walked bs ts).numCachedBlocks + (newLeaf bs t ts blocks).blocks.length
    numEvictable := (t.walked bs ts).numEvictable + (newLeaf bs t ts blocks).blocks.length
    nextUid := (t.walked bs ts).nextUid + 1 }

theorem walked_cells (ts : List Token) : cells bs [] (t.walked bs ts).forest = cells bs [] t.forest :=
  walk_cells t.forest [] ts

theorem newLeaf_whole (hlen : ts.length = blocks.length * bs) (hm : (t.walk bs ts).matched < blocks.length) :
    Whole bs (newLeaf bs t ts blocks) := by
  refine ⟨by simp [newLeaf, List.drop_eq_nil_iff]; omega, ?_⟩
  simp only [newLeaf, List.length_drop, hlen, Nat.sub_mul]

theorem newLeaf_key (hs : t.Shaped bs) (hbs : 0 < bs) (hlen : ts.length = blocks.length * bs)
    (hm : (t.walk bs ts).matched < blocks.length) (b : Int) :
    (pathTokens (t.walked bs ts).forest (t.walkNode bs ts) ++ (newLeaf bs t ts blocks).key bs, b) ∉
      cells bs [] (t.walked bs ts).forest := by
  intro hb
  rw [walked_cells, (hs.walkNode_spec ts).2.2.1] at hb
  have hmax : (t.walk bs ts).matched + 1 ≤ (t.walk bs ts).matched := by
    refine walk_max (p := []) (c := b) hbs hs.wf (Nat.succ_pos _) ?_ ?_
    · rw [hlen]; exact Nat.mul_le_mul_right bs hm
    · rw [List.nil_append, Nat.succ_mul, List.take_add]
      exact hb
  omega

theorem insert_new (hs : t.Shaped bs) (hlen : ts.length = blocks.length * bs)
    (hm : (t.walk bs ts).matched < blocks.length)
    (hinc : a.incref (blocks.drop (t.walk bs ts).matched) =
      (.ok (), { a with ref := fun b => a.ref b + (blocks.drop (t.walk bs ts).matched).count b })) :
    t.insert bs a ts blocks = (.ok (newLeaf bs t ts blocks).uid,
      { a with ref := fun b => a.ref b + (blocks.drop (t.walk bs ts).matched).count b }, t.grown bs ts blocks) ∧
    Inserted t (t.grown bs ts blocks) a
      { a with ref := fun b => a.ref b + (blocks.drop (t.walk bs ts).matched).count b }
      bs ts blocks (newLeaf bs t ts blocks).uid (t.walk bs ts).matched := by
  obtain ⟨hhold, hle, htok, hpl⟩ := hs.walkNode_spec ts
  have hw := hs.walked ts
  set leaf := newLeaf bs t ts blocks with hleaf
  have hnext : t.nextUid ≤ (t.walked bs ts).nextUid := walk_nextUid t.forest ts
  have hfresh : leaf.uid ∉ keys RadixNode.uid (t.walked bs ts).forest := fun hk =>
    absurd (hw.keys_lt _ hk) (lt_irrefl _)
  have hne (u : Nat) (hu : t.Holds u) : u ≠ leaf.uid := by
    have := hs.holds_lt hu
    simp only [hleaf, newLeaf]; omega
  have hpnew : (t.grown bs ts blocks).forest.path RadixNode.uid leaf.uid =
      (t.walked bs ts).forest.path RadixNode.uid (t.walkNode bs ts) ++ [leaf] := attach_path_new hw hhold hfresh
  have hpold (u : Nat) (hu : t.Holds u) : (t.grown bs ts blocks).forest.path RadixNode.uid u =
      (t.walked bs ts).forest.path RadixNode.uid u := attach_path_old (hne u hu)
  have hlabels : (t.grown bs ts blocks).forest.labels.Perm (leaf :: (t.walked bs ts).forest.labels) :=
    attach_labels hw hhold
  refine ⟨?_, ?_⟩
  · rw [insert, if_neg (by simpa using hlen)]
    simp only
    rw [if_neg (by omega)]
    simp only [hinc]
    rfl
  constructor
  · exact hm.le
  · rfl
  · exact hnext.trans (Nat.le_succ _)
  · exact .inr ((mem_keys _).mpr ⟨leaf, hlabels.mem_iff.mpr (by simp), rfl⟩)
  · simp only [pathTokens, hpnew, List.flatMap_append]
    have := htok
    simp only [pathTokens] at this
    rw [this]
    simp [hleaf, newLeaf]
  · simp only [MiniServe.pathBlocks, hpnew, List.flatMap_append]
    simp only [MiniServe.pathBlocks] at hpl
    simp [hpl, hleaf, newLeaf]
    omega
  · simp only [MiniServe.pathBlocks, hpnew, List.flatMap_append]
    simp only [MiniServe.pathBlocks] at hpl
    rw [List.drop_append, List.drop_of_length_le hpl.le, hpl]
    simp [hleaf, newLeaf]
  · intro i b hi hb
    apply found_of_walk hs
    simp only [MiniServe.pathBlocks, hpnew, List.flatMap_append] at hb
    simp only [MiniServe.pathBlocks] at hpl ⊢
    rwa [List.getElem?_append_left (by omega)] at hb
  · intro u hu
    rcases @walked_holds bs t ts u hs hu with h1 | h1
    · exact .inl h1
    · obtain ⟨n, hn, e⟩ := (mem_keys _).mp h1
      exact .inr ((mem_keys _).mpr ⟨n, hlabels.mem_iff.mpr (by simp [hn]), e⟩)
  · intro u hu
    simp only [pathTokens, hpold u hu]
    exact walked_pathTokens hs hu
  · intro u hu
    simp only [MiniServe.pathBlocks, hpold u hu]
    exact walked_pathBlocks hs hu
  · have hc := @attach_cells bs _ _ leaf hw hhold
    rw [htok, walked_cells] at hc
    exact hc
  · have hp := hlabels.flatMap_right RadixNode.blocks
    have hb := @walked_treeBlocks bs t ts
    rw [List.flatMap_cons] at hp
    refine List.Perm.trans hp (List.perm_append_comm.trans ?_)
    rw [← hb]
    rfl
  · intro n' hn'
    rcases List.mem_cons.mp (hlabels.mem_iff.mp hn') with rfl | hn'
    · exact .inl rfl
    · obtain ⟨n, hn, hsub, -⟩ := walk_uniform t.forest ts n' hn'
      exact .inr ⟨n, hn, hsub⟩
  · rfl

theorem Shaped.grown (hs : t.Shaped bs) (hbs : 0 < bs) (hlen : ts.length = blocks.length * bs)
    (hm : (t.walk bs ts).matched < blocks.length) : (t.grown bs ts blocks).Shaped bs :=
  (hs.walked ts).attach (hs.walkNode_spec ts).1 (newLeaf_whole hlen hm) rfl (newLeaf_key hs hbs hlen hm)

theorem insert_spec (hs : t.Sound bs h) (hh : ∀ u, t.nextUid ≤ u → h u = 0) (hbs : 0 < bs)
    (hlen : ts.length = blocks.length * bs) (hnd : blocks.Nodup)
    (href : ∀ b ∈ blocks, a.InRange b ∧ 0 < a.ref b)
    (hnew : ∀ b ∈ blocks.drop (t.walk bs ts).matched, b ∉ treeBlocks t.forest) :
    ∃ node a' t', t.insert bs a ts blocks = (.ok node, a', t') ∧ t'.Sound bs h ∧
      Inserted t t' a a' bs ts blocks node (t.walk bs ts).matched := by
  have hle : (t.walk bs ts).matched ≤ blocks.length := by
    have := (hs.shaped.walkNode_spec ts).2.1
    rw [hlen] at this
    exact Nat.le_of_mul_le_mul_right this hbs
  rcases hle.eq_or_lt with e | hlt
  · obtain ⟨he, hi⟩ := insert_all_cached (a := a) hs.shaped hlen e
    exact ⟨_, _, _, he, hs.walked ts (hh _ le_rfl), hi⟩
  · have hinc := @BlockAllocator.incref_ok a (blocks.drop (t.walk bs ts).matched)
      fun b hb => href b (List.mem_of_mem_drop hb)
    obtain ⟨he, hi⟩ := insert_new hs.shaped hlen hlt hinc
    refine ⟨_, _, _, he, ?_, hi⟩
    have hblk : ∀ b ∈ (newLeaf bs t ts blocks).blocks, b ∉ treeBlocks (t.walked bs ts).forest := by
      intro b hb; rw [walked_treeBlocks]; exact hnew b hb
    exact (hs.walked ts (hh _ le_rfl)).attach (hs.shaped.walkNode_spec ts).1 (newLeaf_whole hlen hlt) rfl rfl
      (hh _ (walk_nextUid t.forest ts)) (newLeaf_key hs.shaped hbs hlen hlt)
      (hnd.sublist (List.drop_sublist _ _)) hblk

end RadixTree

end MiniServe
