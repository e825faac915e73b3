import MiniServe.Lib.ForestEdit
import MiniServe.Cache.RadixWalk

namespace MiniServe

open Forest

variable {bs : Nat}

def evictableLen (n : RadixNode) : Nat := if n.lock = 0 then n.blocks.length else 0

def treeBlocks (F : Forest RadixNode) : List Int := F.labels.flatMap RadixNode.blocks

theorem length_treeBlocks (F : Forest RadixNode) :
    (treeBlocks F).length = weight (fun n => n.blocks.length) F := by
  simp [treeBlocks, weight, List.length_flatMap]

structure RadixTree.Sound (t : RadixTree) (bs : Nat) (h : Nat → Nat) : Prop where
  wf : WF bs t.forest
  keys_nodup : (keys RadixNode.uid t.forest).Nodup
  keys_lt : ∀ k ∈ keys RadixNode.uid t.forest, k < t.nextUid
  root_lt : t.rootUid < t.nextUid
  root_not_mem : t.rootUid ∉ keys RadixNode.uid t.forest
  carries : Carries RadixNode.uid RadixNode.lock h t.forest
  cached : t.numCachedBlocks = weight (fun n => n.blocks.length) t.forest
  evictable : t.numEvictable = weight evictableLen t.forest
  blocks_nodup : (treeBlocks t.forest).Nodup

structure RadixTree.Shaped (t : RadixTree) (bs : Nat) : Prop where
  wf : WF bs t.forest
  keys_nodup : (keys RadixNode.uid t.forest).Nodup
  keys_lt : ∀ k ∈ keys RadixNode.uid t.forest, k < t.nextUid
  root_lt : t.rootUid < t.nextUid
  root_not_mem : t.rootUid ∉ keys RadixNode.uid t.forest

namespace RadixTree

def Holds (t : RadixTree) (u : Nat) : Prop := u = t.rootUid ∨ u ∈ keys RadixNode.uid t.forest

theorem new_sound (uid : Nat) (h : Nat → Nat) : (new uid).Sound bs h where
  wf := trivial
  keys_nodup := by simp [new]
  keys_lt := by simp [new]
  root_lt := by simp [new]
  root_not_mem := by simp [new]
  carries := trivial
  cached := rfl
  evictable := rfl
  blocks_nodup := by simp [new, treeBlocks]

variable {t : RadixTree} {h : Nat → Nat}

theorem Sound.shaped (hs : t.Sound bs h) : t.Shaped bs :=
  ⟨hs.wf, hs.keys_nodup, hs.keys_lt, hs.root_lt, hs.root_not_mem⟩

theorem Shaped.holds_lt (hs : t.Shaped bs) {u : Nat} (hu : t.Holds u) : u < t.nextUid := by
  rcases hu with rfl | hu
  · exact hs.root_lt
  · exact hs.keys_lt u hu

theorem Shaped.root_path (hs : t.Shaped bs) : t.forest.path RadixNode.uid t.rootUid = [] :=
  path_eq_nil hs.root_not_mem

theorem Sound.congr {h' : Nat → Nat} (hs : t.Sound bs h)
    (he : ∀ k ∈ keys RadixNode.uid t.forest, h' k = h k) : t.Sound bs h' :=
  { hs with carries := carries_congr he hs.carries }

theorem walked_treeBlocks (ts : List Token) : treeBlocks (t.walked bs ts).forest = treeBlocks t.forest := by
  rw [treeBlocks, treeBlocks, ← @cells_snd bs [], ← @cells_snd bs []]
  exact congrArg _ (walk_cells t.forest [] ts)

theorem Shaped.walked (hs : t.Shaped bs) (ts : List Token) : (t.walked bs ts).Shaped bs where
  wf := walk_WF hs.wf
  keys_nodup := walk_keys_nodup hs.keys_nodup hs.keys_lt
  keys_lt := walk_keys_lt hs.keys_lt
  root_lt := lt_of_lt_of_le hs.root_lt (walk_nextUid t.forest ts)
  root_not_mem := fun hm => hs.root_not_mem ((walk_mem_keys hs.root_lt).mp hm)

theorem Sound.walked (hs : t.Sound bs h) (ts : List Token) (hu : h t.nextUid = 0) :
    (t.walked bs ts).Sound bs h where
  wf := (hs.shaped.walked ts).wf
  keys_nodup := (hs.shaped.walked ts).keys_nodup
  keys_lt := (hs.shaped.walked ts).keys_lt
  root_lt := (hs.shaped.walked ts).root_lt
  root_not_mem := (hs.shaped.walked ts).root_not_mem
  carries := walk_carries hu hs.carries
  cached := by
    have := @walk_weight bs (t.clock + 1) t.nextUid (fun n => n.blocks.length)
      (fun n m => by simp [RadixNode.upper, RadixNode.lower]; omega) (fun _ => rfl) t.forest ts
    rw [show (t.walked bs ts).numCachedBlocks = t.numCachedBlocks from rfl, hs.cached, ← this]
    rfl
  evictable := by
    have := @walk_weight bs (t.clock + 1) t.nextUid evictableLen
      (fun n m => by
        unfold evictableLen
        simp only [RadixNode.upper, RadixNode.lower, List.length_take, List.length_drop]
        split <;> omega) (fun _ => rfl) t.forest ts
    rw [show (t.walked bs ts).numEvictable = t.numEvictable from rfl, hs.evictable, ← this]
    rfl
  blocks_nodup := by rw [walked_treeBlocks]; exact hs.blocks_nodup

theorem walked_holds {ts : List Token} {u : Nat} (hs : t.Shaped bs) (hu : t.Holds u) :
    (t.walked bs ts).Holds u := by
  rcases hu with rfl | hu
  · exact .inl rfl
  · exact .inr ((walk_mem_keys (hs.keys_lt u hu)).mpr hu)

theorem walked_pathTokens {ts : List Token} {u : Nat} (hs : t.Shaped bs) (hu : t.Holds u) :
    pathTokens (t.walked bs ts).forest u = pathTokens t.forest u :=
  walk_pathTokens (hs.holds_lt hu) hs.keys_nodup

theorem walked_pathBlocks {ts : List Token} {u : Nat} (hs : t.Shaped bs) (hu : t.Holds u) :
    MiniServe.pathBlocks (t.walked bs ts).forest u = MiniServe.pathBlocks t.forest u :=
  walk_pathBlocks (hs.holds_lt hu) hs.keys_nodup

def walkNode (bs : Nat) (t : RadixTree) (ts : List Token) : Nat := (t.walk bs ts).node.getD t.rootUid

theorem Shaped.walkNode_spec (hs : t.Shaped bs) (ts : List Token) :
    (t.walked bs ts).Holds (t.walkNode bs ts) ∧ (t.walk bs ts).matched * bs ≤ ts.length ∧
      pathTokens (t.walked bs ts).forest (t.walkNode bs ts) = ts.take ((t.walk bs ts).matched * bs) ∧
      (MiniServe.pathBlocks (t.walked bs ts).forest (t.walkNode bs ts)).length = (t.walk bs ts).matched := by
  have he := @walk_ends bs (t.clock + 1) t.nextUid t.forest ts hs.wf hs.keys_nodup hs.keys_lt
  have hroot : t.rootUid ∉ keys RadixNode.uid (t.walked bs ts).forest :=
    fun hm => hs.root_not_mem ((walk_mem_keys hs.root_lt).mp hm)
  have hpath := path_eq_nil hroot
  cases hn : (t.walk bs ts).node with
  | none =>
    have hz : (t.walk bs ts).matched = 0 := he.none_matched hn
    simp only [walkNode, hn, Option.getD_none, hz, pathTokens, MiniServe.pathBlocks, hpath]
    exact ⟨.inl rfl, by simp, by simp, by simp⟩
  | some u =>
    simp only [walkNode, hn, Option.getD_some]
    exact ⟨.inr (he.mem_keys u hn), he.matched_le, he.tokens u hn, he.blocks u hn⟩

theorem attach_labels {node : Nat} {leaf : RadixNode} (hs : t.Shaped bs) (hu : t.Holds node) :
    (t.attach node leaf t.forest).labels.Perm (leaf :: t.forest.labels) := by
  unfold attach
  split
  · rw [labels_append]; exact List.perm_append_singleton leaf _
  · next hne => exact perm_labels_addUnder leaf hs.keys_nodup (hu.resolve_left hne)

theorem attach_path_old {node k : Nat} {leaf : RadixNode} (hk : k ≠ leaf.uid) :
    (t.attach node leaf t.forest).path RadixNode.uid k = t.forest.path RadixNode.uid k := by
  unfold attach
  split
  · exact path_append_old hk _
  · exact path_addUnder_old hk _

theorem attach_path_new {node : Nat} {leaf : RadixNode} (hs : t.Shaped bs) (hu : t.Holds node)
    (hl : leaf.uid ∉ keys RadixNode.uid t.forest) :
    (t.attach node leaf t.forest).path RadixNode.uid leaf.uid =
      t.forest.path RadixNode.uid node ++ [leaf] := by
  unfold attach
  split
  · next e => rw [e, hs.root_path, path_append_new hl]; rfl
  · next hne => exact path_addUnder_new hs.keys_nodup (hu.resolve_left hne) hl

theorem cells_append (p : List Token) (x : RadixNode) (F : Forest RadixNode) :
    cells bs p (F.append x) = cells bs p F ++ edgeCells bs p x.tokens x.blocks := by
  induction F with
  | nil => simp [Forest.append, cells]
  | cons n b r _ ihr => simp [Forest.append, cells, ihr]

theorem cells_addUnder {p : List Token} {x : RadixNode} {u : Nat} {F : Forest RadixNode}
    (hn : (keys RadixNode.uid F).Nodup) (hu : u ∈ keys RadixNode.uid F) :
    (cells bs p (F.addUnder RadixNode.uid u x)).Perm
      (cells bs p F ++ edgeCells bs (p ++ pathTokens F u) x.tokens x.blocks) := by
  induction F generalizing p with
  | nil => simp at hu
  | cons n b r ihb ihr =>
    obtain ⟨hnb, hnr, hb, hr, hd⟩ := nodup_keys_cons RadixNode.uid hn
    simp only [addUnder, pathTokens, path]
    by_cases e : n.uid = u
    · simp only [e, if_true, cells, cells_append, List.flatMap_cons, List.flatMap_nil, List.append_nil,
        List.append_assoc]
      refine List.Perm.append_left _ (List.Perm.append_left _ ?_)
      exact List.perm_append_comm
    · simp only [e, if_false, cells]
      rcases (by simpa [Ne.symm e] using hu : u ∈ keys RadixNode.uid b ∨ u ∈ keys RadixNode.uid r) with hub | hur
      · rw [addUnder_absent x (hd u hub), if_pos hub]
        have := ihb (p := p ++ n.tokens) hb hub
        simp only [pathTokens, List.append_assoc] at this
        simp only [List.flatMap_cons, List.append_assoc]
        refine List.Perm.append_left _ ?_
        refine (this.append_right _).trans ?_
        rw [List.append_assoc]
        exact List.Perm.append_left _ List.perm_append_comm
      · have hub : u ∉ keys RadixNode.uid b := fun h => hd u h hur
        rw [addUnder_absent x hub, if_neg hub]
        have := ihr (p := p) hr hur
        simp only [pathTokens] at this
        simp only [List.append_assoc]
        exact List.Perm.append_left _ (List.Perm.append_left _ this)

theorem attach_cells {node : Nat} {leaf : RadixNode} (hs : t.Shaped bs) (hu : t.Holds node) :
    (cells bs [] (t.attach node leaf t.forest)).Perm
      (cells bs [] t.forest ++ edgeCells bs (pathTokens t.forest node) leaf.tokens leaf.blocks) := by
  unfold attach
  split
  · next e => rw [cells_append, e, pathTokens, hs.root_path]; simp
  · next hne => simpa using cells_addUnder (p := []) hs.keys_nodup (hu.resolve_left hne)

theorem WF_append {x : RadixNode} {F : Forest RadixNode} (hx : Whole bs x) (hw : WF bs F)
    (hk : ∀ m ∈ F.tops, m.key bs ≠ x.key bs) : WF bs (F.append x) := by
  induction F with
  | nil => exact ⟨hx, by simp, trivial, trivial⟩
  | cons n b r _ ihr =>
    obtain ⟨h1, h2, h3, h4⟩ := hw
    refine ⟨h1, ?_, h3, ihr h4 fun m hm => hk m (by simp [hm])⟩
    intro m hm
    rw [tops_append, List.mem_append, List.mem_singleton] at hm
    rcases hm with hm | rfl
    · exact h2 m hm
    · exact (hk n (by simp)).symm

theorem top_cell {F : Forest RadixNode} (hw : WF bs F) (p : List Token) {m : RadixNode} (hm : m ∈ F.tops) :
    ∃ b, (p ++ m.key bs, b) ∈ cells bs p F := by
  induction F with
  | nil => simp at hm
  | cons n b r _ ihr =>
    rcases List.mem_cons.mp hm with rfl | hm
    · obtain ⟨c, bl, hb⟩ := List.exists_cons_of_ne_nil hw.1.1
      exact ⟨c, by simp [cells, hb, edgeCells, RadixNode.key]⟩
    · obtain ⟨c, hc⟩ := ihr hw.2.2.2 hm
      exact ⟨c, by simp [cells, hc]⟩

theorem addUnder_tops {x : RadixNode} {u : Nat} (F : Forest RadixNode) :
    (F.addUnder RadixNode.uid u x).tops = F.tops := by
  induction F with
  | nil => rfl
  | cons n b r _ ihr => rw [addUnder]; split <;> simp [ihr]

theorem WF_addUnder {x : RadixNode} {u : Nat} {F : Forest RadixNode} {p : List Token} (hx : Whole bs x)
    (hw : WF bs F) (hn : (keys RadixNode.uid F).Nodup) (hu : u ∈ keys RadixNode.uid F)
    (hk : ∀ b, (p ++ (pathTokens F u ++ x.key bs), b) ∉ cells bs p F) :
    WF bs (F.addUnder RadixNode.uid u x) := by
  induction F generalizing p with
  | nil => trivial
  | cons n b r ihb ihr =>
    obtain ⟨h1, h2, h3, h4⟩ := hw
    obtain ⟨hnb, hnr, hb, hr, hd⟩ := nodup_keys_cons RadixNode.uid hn
    simp only [pathTokens, path, cells, List.mem_append, not_or] at hk
    by_cases e : n.uid = u
    · simp only [e, if_true, List.flatMap_cons, List.flatMap_nil, List.append_nil] at hk
      rw [addUnder, if_pos e]
      refine ⟨h1, h2, WF_append hx h3 fun m hm hme => ?_, h4⟩
      obtain ⟨c, hc⟩ := top_cell h3 (p ++ n.tokens) hm
      rw [hme] at hc
      exact (hk c).2.1 (by simpa using hc)
    · rw [addUnder, if_neg e]
      rcases (by simpa [Ne.symm e] using hu : u ∈ keys RadixNode.uid b ∨ u ∈ keys RadixNode.uid r) with hub | hur
      · simp only [e, if_false, if_pos hub, List.flatMap_cons] at hk
        rw [addUnder_absent x (hd u hub)]
        refine ⟨h1, h2, ihb (p := p ++ n.tokens) h3 hb hub fun c hc => (hk c).2.1 ?_, h4⟩
        simpa [pathTokens] using hc
      · have hub : u ∉ keys RadixNode.uid b := fun h => hd u h hur
        simp only [e, if_false, if_neg hub] at hk
        rw [addUnder_absent x hub]
        refine ⟨h1, ?_, h3, ihr (p := p) h4 hr hur fun c hc => (hk c).2.2 hc⟩
        rw [addUnder_tops]; exact h2

theorem Shaped.attach {node : Nat} {leaf : RadixNode} {c e : Int} (hs : t.Shaped bs) (hu : t.Holds node)
    (hx : Whole bs leaf) (huid : leaf.uid = t.nextUid)
    (hk : ∀ b, (pathTokens t.forest node ++ leaf.key bs, b) ∉ cells bs [] t.forest) :
    RadixTree.Shaped { t with
      forest := t.attach node leaf t.forest
      numCachedBlocks := c
      numEvictable := e
      nextUid := t.nextUid + 1 } bs := by
  have hkeys : (keys RadixNode.uid (t.attach node leaf t.forest)).Perm
      (leaf.uid :: keys RadixNode.uid t.forest) := (attach_labels hs hu).map _
  have hfresh : leaf.uid ∉ keys RadixNode.uid t.forest := fun hm => by
    have := hs.keys_lt _ hm; omega
  constructor
  · change WF bs (t.attach node leaf t.forest)
    unfold RadixTree.attach
    split
    · next e =>
      apply WF_append hx hs.wf
      intro m hm hme
      obtain ⟨c, hc⟩ := top_cell hs.wf [] hm
      rw [hme] at hc
      refine hk c ?_
      rw [e, pathTokens, hs.root_path]
      exact hc
    · next hne => exact WF_addUnder (p := []) hx hs.wf hs.keys_nodup (hu.resolve_left hne) (by simpa using hk)
  · exact hkeys.nodup_iff.mpr (List.nodup_cons.mpr ⟨hfresh, hs.keys_nodup⟩)
  · intro k hk'
    rcases List.mem_cons.mp (hkeys.mem_iff.mp hk') with rfl | hk'
    · simp only; omega
    · have := hs.keys_lt k hk'; simp only; omega
  · have := hs.root_lt; simp only; omega
  · intro hm
    rcases List.mem_cons.mp (hkeys.mem_iff.mp hm) with e | hm
    · have := hs.root_lt; simp only at e; omega
    · exact hs.root_not_mem hm

theorem Sound.attach {node : Nat} {leaf : RadixNode} (hs : t.Sound bs h) (hu : t.Holds node)
    (hx : Whole bs leaf) (hl : leaf.lock = 0) (huid : leaf.uid = t.nextUid) (hh : h t.nextUid = 0)
    (hk : ∀ b, (pathTokens t.forest node ++ leaf.key bs, b) ∉ cells bs [] t.forest)
    (hnd : leaf.blocks.Nodup) (hdj : ∀ b ∈ leaf.blocks, b ∉ treeBlocks t.forest) :
    RadixTree.Sound { t with
      forest := t.attach node leaf t.forest
      numCachedBlocks := t.numCachedBlocks + leaf.blocks.length
      numEvictable := t.numEvictable + leaf.blocks.length
      nextUid := t.nextUid + 1 } bs h := by
  have hperm := @attach_labels bs t node leaf hs.shaped hu
  have hweight (f : RadixNode → Nat) : weight f (t.attach node leaf t.forest) = f leaf + weight f t.forest := by
    simpa [weight] using (hperm.map f).sum_eq
  obtain ⟨hwf, hkn, hkl, hrl, hrn⟩ := hs.shaped.attach (c := t.numCachedBlocks + leaf.blocks.length)
    (e := t.numEvictable + leaf.blocks.length) hu hx huid hk
  refine ⟨hwf, hkn, hkl, hrl, hrn, ?_, ?_, ?_, ?_⟩
  · change Carries _ _ h (t.attach node leaf t.forest)
    unfold RadixTree.attach
    split
    · exact carries_append (by rw [huid, hh]) hl hs.carries
    · exact carries_addUnder (by rw [huid, hh]) hl hs.carries
  · simp only [hweight, hs.cached]; push_cast; ring
  · simp only [hweight, hs.evictable, evictableLen, hl, if_true]; push_cast; ring
  · have hp : (treeBlocks (t.attach node leaf t.forest)).Perm (leaf.blocks ++ treeBlocks t.forest) := by
      simpa [treeBlocks] using hperm.flatMap_right RadixNode.blocks
    rw [hp.nodup_iff, List.nodup_append']
    exact ⟨hnd, hs.blocks_nodup, fun b h1 h2 => hdj b h1 h2⟩

theorem cells_mapPath {u : Nat} {f : RadixNode → RadixNode} (htok : ∀ n, (f n).tokens = n.tokens)
    (hbl : ∀ n, (f n).blocks = n.blocks) (p : List Token) (F : Forest RadixNode) :
    cells bs p (F.mapPath RadixNode.uid u f) = cells bs p F := by
  induction F generalizing p with
  | nil => rfl
  | cons n b r ihb ihr =>
    rw [mapPath]
    split_ifs <;> simp [cells, htok, hbl, ihb, ihr]

theorem WF_mapPath {u : Nat} {f : RadixNode → RadixNode} (htok : ∀ n, (f n).tokens = n.tokens)
    (hbl : ∀ n, (f n).blocks = n.blocks) {F : Forest RadixNode} (hw : WF bs F) :
    WF bs (F.mapPath RadixNode.uid u f) := by
  have htops (G : Forest RadixNode) : (G.mapPath RadixNode.uid u f).tops.map (RadixNode.key bs) =
      G.tops.map (RadixNode.key bs) := by
    induction G with
    | nil => rfl
    | cons n b r _ ihr => rw [mapPath]; split_ifs <;> simp [RadixNode.key, htok, ihr]
  induction F with
  | nil => trivial
  | cons n b r ihb ihr =>
    obtain ⟨h1, h2, h3, h4⟩ := hw
    have hwn : Whole bs (f n) := by rw [Whole, htok, hbl]; exact h1
    have hkn : (f n).key bs = n.key bs := by simp [RadixNode.key, htok]
    rw [mapPath]
    split_ifs
    · exact ⟨hwn, by rw [hkn]; exact h2, h3, h4⟩
    · exact ⟨hwn, by rw [hkn]; exact h2, ihb h3, h4⟩
    · refine ⟨h1, ?_, h3, ihr h4⟩
      intro m hm e
      have hmk : m.key bs ∈ (r.mapPath RadixNode.uid u f).tops.map (RadixNode.key bs) := List.mem_map_of_mem hm
      rw [htops] at hmk
      obtain ⟨m', hm', e'⟩ := List.mem_map.mp hmk
      exact h2 m' hm' (e'.trans e)

theorem flatMap_mapPath {u : Nat} {f : RadixNode → RadixNode} (hbl : ∀ n, (f n).blocks = n.blocks)
    (F : Forest RadixNode) : treeBlocks (F.mapPath RadixNode.uid u f) = treeBlocks F := by
  have := @map_labels_mapPath _ _ _ RadixNode.uid _ u _ RadixNode.blocks hbl F
  simp only [treeBlocks, List.flatMap_def, this]

structure SameShape (t t' : RadixTree) (bs : Nat) : Prop where
  rootUid : t'.rootUid = t.rootUid
  nextUid : t'.nextUid = t.nextUid
  cells : cells bs [] t'.forest = cells bs [] t.forest
  keys : keys RadixNode.uid t'.forest = keys RadixNode.uid t.forest
  tokens : ∀ u, pathTokens t'.forest u = pathTokens t.forest u
  blocks : ∀ u, MiniServe.pathBlocks t'.forest u = MiniServe.pathBlocks t.forest u
  labels : t'.forest.labels.map RadixNode.blocks = t.forest.labels.map RadixNode.blocks
  numCachedBlocks : t'.numCachedBlocks = t.numCachedBlocks

theorem SameShape.refl (t : RadixTree) (bs : Nat) : SameShape t t bs :=
  ⟨rfl, rfl, rfl, rfl, fun _ => rfl, fun _ => rfl, rfl, rfl⟩

theorem SameShape.trans {t t' t'' : RadixTree} (h1 : SameShape t t' bs) (h2 : SameShape t' t'' bs) :
    SameShape t t'' bs :=
  ⟨h2.rootUid.trans h1.rootUid, h2.nextUid.trans h1.nextUid, h2.cells.trans h1.cells,
    h2.keys.trans h1.keys, fun u => (h2.tokens u).trans (h1.tokens u),
    fun u => (h2.blocks u).trans (h1.blocks u), h2.labels.trans h1.labels,
    h2.numCachedBlocks.trans h1.numCachedBlocks⟩

theorem SameShape.treeBlocks {t' : RadixTree} (hs : SameShape t t' bs) :
    treeBlocks t'.forest = treeBlocks t.forest := by
  simp only [MiniServe.treeBlocks, List.flatMap_def, hs.labels]

theorem SameShape.label_blocks {t' : RadixTree} (hs : SameShape t t' bs) {n : RadixNode} (hn : n ∈ t'.forest.labels) :
    ∃ m ∈ t.forest.labels, m.blocks = n.blocks := by
  have hmem : n.blocks ∈ t'.forest.labels.map RadixNode.blocks := List.mem_map_of_mem hn
  rw [hs.labels] at hmem
  simpa using hmem

theorem SameShape.holds {t' : RadixTree} (hs : SameShape t t' bs) {u : Nat} : t'.Holds u ↔ t.Holds u := by
  simp only [Holds, hs.rootUid, hs.keys]

theorem mapPath_sameShape {u : Nat} {f : RadixNode → RadixNode} {d : Int} (huid : ∀ n, (f n).uid = n.uid)
    (htok : ∀ n, (f n).tokens = n.tokens) (hbl : ∀ n, (f n).blocks = n.blocks) :
    SameShape t { t with
      forest := t.forest.mapPath RadixNode.uid u f
      numEvictable := t.numEvictable + d } bs where
  rootUid := rfl
  nextUid := rfl
  cells := cells_mapPath htok hbl [] t.forest
  keys := keys_mapPath huid t.forest
  tokens := fun k => by
    simp only [pathTokens, List.flatMap_def, map_path_mapPath huid RadixNode.tokens htok]
  blocks := fun k => by
    simp only [MiniServe.pathBlocks, List.flatMap_def, map_path_mapPath huid RadixNode.blocks hbl]
  labels := map_labels_mapPath RadixNode.blocks hbl t.forest
  numCachedBlocks := rfl

theorem lock_eq_absent {u : Nat} (hu : u ∉ keys RadixNode.uid t.forest) : t.lock u = t := by
  simp [lock, climb_absent _ hu]

theorem lock_eq {u : Nat} (hu : u ∈ keys RadixNode.uid t.forest) :
    t.lock u = { t with
      forest := t.forest.mapPath RadixNode.uid u RadixNode.locked
      numEvictable := t.numEvictable + ((t.forest.path RadixNode.uid u).map
        (fun n => if n.lock = 0 then -(n.blocks.length : Int) else 0)).sum } := by
  have hc := @climb_reached _ _ RadixNode.uid _ u RadixNode.lockVisit RadixNode.locked
    (d := fun n => if n.lock = 0 then -(n.blocks.length : Int) else 0)
    (F := t.forest) (fun _ _ => rfl) hu
  simp [lock, hc]

theorem lock_sameShape (u : Nat) : SameShape t (t.lock u) bs := by
  by_cases hu : u ∈ keys RadixNode.uid t.forest
  · rw [lock_eq hu]
    exact mapPath_sameShape (fun _ => rfl) (fun _ => rfl) (fun _ => rfl)
  · rw [lock_eq_absent hu]
    exact SameShape.refl t bs

theorem Sound.mapPath {h' : Nat → Nat} {u : Nat} {f : RadixNode → RadixNode} {d : Int}
    (hs : t.Sound bs h) (huid : ∀ n, (f n).uid = n.uid) (htok : ∀ n, (f n).tokens = n.tokens)
    (hbl : ∀ n, (f n).blocks = n.blocks)
    (hcar : Carries RadixNode.uid RadixNode.lock h' (t.forest.mapPath RadixNode.uid u f))
    (hev : t.numEvictable + d = weight evictableLen (t.forest.mapPath RadixNode.uid u f)) :
    RadixTree.Sound { t with
      forest := t.forest.mapPath RadixNode.uid u f
      numEvictable := t.numEvictable + d } bs h' := by
  have hk := keys_mapPath (k := u) huid t.forest
  have hb := flatMap_mapPath (u := u) hbl t.forest
  refine ⟨WF_mapPath htok hbl hs.wf, ?_, ?_, hs.root_lt, ?_, hcar, ?_, hev, ?_⟩
  · rw [hk]; exact hs.keys_nodup
  · intro k hk'; rw [hk] at hk'; exact hs.keys_lt k hk'
  · rw [hk]; exact hs.root_not_mem
  · rw [← length_treeBlocks, hb, length_treeBlocks]; exact hs.cached
  · rw [hb]; exact hs.blocks_nodup

theorem Sound.lock {h' : Nat → Nat} {u : Nat} (hs : t.Sound bs h) (hu : h' u = h u + 1)
    (ho : ∀ x, x ≠ u → h' x = h x) : (t.lock u).Sound bs h' := by
  by_cases hm : u ∈ keys RadixNode.uid t.forest
  · rw [lock_eq hm]
    refine hs.mapPath (fun _ => rfl) (fun _ => rfl) (fun _ => rfl)
      (carries_mapPath (c := 0) (d := 1) (fun _ => rfl) (fun _ _ => rfl) hu ho hs.keys_nodup hm hs.carries) ?_
    have hev := @weight_mapPath _ _ RadixNode.uid _ u RadixNode.locked evictableLen t.forest
    have hz : ((t.forest.path RadixNode.uid u).map (evictableLen ∘ RadixNode.locked)).sum = 0 :=
      List.sum_eq_zero (by simp [evictableLen, RadixNode.locked])
    have hd : ((t.forest.path RadixNode.uid u).map
        (fun n => if n.lock = 0 then -(n.blocks.length : Int) else 0)).sum =
        -(((t.forest.path RadixNode.uid u).map evictableLen).sum : Int) := by
      generalize t.forest.path RadixNode.uid u = l
      induction l with
      | nil => rfl
      | cons n l ih =>
        simp only [List.map_cons, List.sum_cons, ih, Nat.cast_add, evictableLen]
        split
        · simp; ring
        · simp
    rw [hs.evictable, hd]; omega
  · rw [lock_eq_absent hm]
    exact hs.congr fun k hk => ho k fun e => hm (e ▸ hk)

theorem unlock_eq_absent {u : Nat} (hu : u ∉ keys RadixNode.uid t.forest) : t.unlock u = (.ok (), t) := by
  simp [unlock, climb_absent _ hu]

theorem unlock_eq {u : Nat} (hu : u ∈ keys RadixNode.uid t.forest)
    (hl : ∀ n ∈ t.forest.path RadixNode.uid u, n.lock ≠ 0) :
    t.unlock u = (.ok (), { t with
      forest := t.forest.mapPath RadixNode.uid u RadixNode.unlocked
      numEvictable := t.numEvictable + ((t.forest.path RadixNode.uid u).map
        (fun n => if n.lock - 1 = 0 then (n.blocks.length : Int) else 0)).sum }) := by
  have hc := @climb_reached _ _ RadixNode.uid _ u RadixNode.unlockVisit RadixNode.unlocked
    (d := fun n => if n.lock - 1 = 0 then (n.blocks.length : Int) else 0)
    (F := t.forest) (fun n hn => by simp [RadixNode.unlockVisit, hl n hn]) hu
  simp [unlock, hc]

theorem Sound.unlock {h' : Nat → Nat} {u : Nat} (hs : t.Sound bs h) (hu : h' u + 1 = h u)
    (ho : ∀ x, x ≠ u → h' x = h x) :
    ∃ t', t.unlock u = (.ok (), t') ∧ t'.Sound bs h' ∧ SameShape t t' bs := by
  by_cases hm : u ∈ keys RadixNode.uid t.forest
  · have hpos : ∀ n ∈ t.forest.path RadixNode.uid u, n.lock ≠ 0 := fun n hn => by
      have := carries_path hs.carries n hn; omega
    refine ⟨_, unlock_eq hm hpos, ?_, mapPath_sameShape (fun _ => rfl) (fun _ => rfl) (fun _ => rfl)⟩
    refine hs.mapPath (fun _ => rfl) (fun _ => rfl) (fun _ => rfl)
      (carries_mapPath (c := 1) (d := 0) (fun _ => rfl)
        (fun n hn => by have := hpos n hn; simp [RadixNode.unlocked]; omega) hu ho hs.keys_nodup hm hs.carries) ?_
    have hev := @weight_mapPath _ _ RadixNode.uid _ u RadixNode.unlocked evictableLen t.forest
    have hz : ((t.forest.path RadixNode.uid u).map evictableLen).sum = 0 := by
      apply List.sum_eq_zero
      intro x hx
      obtain ⟨n, hn, rfl⟩ := List.mem_map.mp hx
      simp [evictableLen, hpos n hn]
    have hd : ((t.forest.path RadixNode.uid u).map
        (fun n => if n.lock - 1 = 0 then (n.blocks.length : Int) else 0)).sum =
        (((t.forest.path RadixNode.uid u).map (evictableLen ∘ RadixNode.unlocked)).sum : Int) := by
      generalize t.forest.path RadixNode.uid u = l
      induction l with
      | nil => rfl
      | cons n l ih =>
        simp only [List.map_cons, List.sum_cons, ih, Nat.cast_add, Function.comp_apply]
        congr 1
        by_cases hz : n.lock - 1 = 0 <;> simp [evictableLen, RadixNode.unlocked, hz]
    rw [hs.evictable, hd]; omega
  · exact ⟨t, unlock_eq_absent hm, hs.congr fun k hk => ho k fun e => hm (e ▸ hk), SameShape.refl t bs⟩

end RadixTree

end MiniServe
