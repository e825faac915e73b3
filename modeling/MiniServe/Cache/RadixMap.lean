import MiniServe.Lib.LongestPrefix
import MiniServe.Cache.RadixMoves

namespace MiniServe

open Forest PrefixMap

variable {bs : Nat} {F : Forest RadixNode}

theorem cells_length {p k : List Token} {b : Int} (hw : WF bs F) (h : (k, b) ∈ cells bs p F) :
    ∃ i, k.length = p.length + (i + 1) * bs := by
  induction F generalizing p with
  | nil => simp [cells] at h
  | cons n below rest ihb ihr =>
    obtain ⟨hn, -, hb, hr⟩ := hw
    simp only [cells, List.mem_append] at h
    rcases h with h | h | h
    · obtain ⟨i, hi, rfl⟩ := mem_edgeCells.mp h
      have hlt := (List.getElem?_eq_some_iff.mp hi).1
      have hle : (i + 1) * bs ≤ n.tokens.length := by rw [hn.2]; exact Nat.mul_le_mul_right bs hlt
      exact ⟨i, by rw [List.length_append, List.length_take, Nat.min_eq_left hle]⟩
    · obtain ⟨i, hi⟩ := ihb hb h
      refine ⟨n.blocks.length + i, ?_⟩
      rw [hi, List.length_append, hn.2]
      ring
    · exact ihr hr h

theorem cells_prefix {p k : List Token} {b : Int} {F : Forest RadixNode} (hw : WF bs F) (h : (k, b) ∈ cells bs p F) :
    p <+: k := by
  obtain ⟨n, -, s, rfl⟩ := cells_key h hw
  exact List.prefix_append _ _

theorem cells_closed {p k : List Token} {b : Int} {j : Nat} (hbs : 0 < bs) (hw : WF bs F)
    (h : (k, b) ∈ cells bs p F) (hj : 0 < j)
    (hle : p.length + j * bs ≤ k.length) : ∃ c, (k.take (p.length + j * bs), c) ∈ cells bs p F := by
  induction F generalizing p j with
  | nil => simp [cells] at h
  | cons n below rest ihb ihr =>
    obtain ⟨hn, -, hb, hr⟩ := hw
    have hedge (s : List Token) (e : k = p ++ (n.tokens ++ s)) (hjn : j ≤ n.blocks.length) :
        ∃ c, (k.take (p.length + j * bs), c) ∈ cells bs p (.cons n below rest) := by
      have hlt : j - 1 < n.blocks.length := by omega
      have hjt : j * bs ≤ n.tokens.length := by rw [hn.2]; exact Nat.mul_le_mul_right bs hjn
      refine ⟨n.blocks[j - 1], ?_⟩
      simp only [cells, List.mem_append]
      refine .inl (mem_edgeCells.mpr ⟨j - 1, List.getElem?_eq_getElem hlt, ?_⟩)
      rw [Nat.sub_add_cancel hj, e, List.take_length_add_append, List.take_append_of_le_length hjt]
    simp only [cells, List.mem_append] at h
    rcases h with h | h | h
    · obtain ⟨i, hi, e⟩ := mem_edgeCells.mp h
      have hlt := (List.getElem?_eq_some_iff.mp hi).1
      have hit : (i + 1) * bs ≤ n.tokens.length := by rw [hn.2]; exact Nat.mul_le_mul_right bs hlt
      have hjk : j * bs ≤ (i + 1) * bs := by
        rw [e, List.length_append, List.length_take, Nat.min_eq_left hit] at hle
        omega
      have hji : j ≤ i + 1 := Nat.le_of_mul_le_mul_right hjk hbs
      have hlt' : j - 1 < n.blocks.length := by omega
      refine ⟨n.blocks[j - 1], ?_⟩
      simp only [cells, List.mem_append]
      refine .inl (mem_edgeCells.mpr ⟨j - 1, List.getElem?_eq_getElem hlt', ?_⟩)
      rw [Nat.sub_add_cancel hj, e, List.take_length_add_append, List.take_take, Nat.min_eq_left hjk]
    · obtain ⟨s, hs⟩ := cells_prefix hb h
      rw [List.append_assoc] at hs
      by_cases hjn : j ≤ n.blocks.length
      · exact hedge s hs.symm hjn
      · have hj' : j * bs = n.tokens.length + (j - n.blocks.length) * bs := by
          rw [hn.2, ← Nat.add_mul, Nat.add_sub_cancel' (by omega)]
        obtain ⟨c, hc⟩ := ihb (p := p ++ n.tokens) (j := j - n.blocks.length) hb h (by omega)
          (by rw [List.length_append]; omega)
        refine ⟨c, ?_⟩
        simp only [cells, List.mem_append]
        rw [List.length_append, Nat.add_assoc, ← hj'] at hc
        exact .inr (.inl hc)
    · obtain ⟨c, hc⟩ := ihr hr h hj hle
      exact ⟨c, by simp only [cells, List.mem_append]; exact .inr (.inr hc)⟩

theorem cells_on_path {p : List Token} {c : List Token × Int} (hw : WF bs F) (hn : (keys RadixNode.uid F).Nodup)
    (h : c ∈ cells bs p F) : ∃ u ∈ keys RadixNode.uid F, c ∈ edgeCells bs p (pathTokens F u) (pathBlocks F u) := by
  induction F generalizing p with
  | nil => simp [cells] at h
  | cons n b r ihb ihr =>
    obtain ⟨hnb, hnr, hb, hr, hd⟩ := nodup_keys_cons RadixNode.uid hn
    obtain ⟨hwn, -, hwb, hwr⟩ := hw
    simp only [cells, List.mem_append] at h
    rcases h with h | h | h
    · exact ⟨n.uid, by simp, by simpa [pathTokens, pathBlocks, path] using h⟩
    · obtain ⟨u, hu, hc⟩ := ihb hwb hb h
      have hne : n.uid ≠ u := fun e => hnb (e ▸ hu)
      refine ⟨u, by simp [hu], ?_⟩
      simp only [pathTokens, pathBlocks, path, if_neg hne, if_pos hu, List.flatMap_cons] at hc ⊢
      rw [edgeCells_append _ hwn.2]
      exact List.mem_append_right _ hc
    · obtain ⟨u, hu, hc⟩ := ihr hwr hr h
      have hne : n.uid ≠ u := fun e => hnr (e ▸ hu)
      have hub : u ∉ keys RadixNode.uid b := fun h => hd u h hu
      refine ⟨u, by simp [hu], ?_⟩
      simpa only [pathTokens, pathBlocks, path, if_neg hne, if_neg hub] using hc

theorem prefixLenBelow_eq (clock uid : Nat) (F : Forest RadixNode) (ts : List Token) :
    prefixLenBelow bs F ts = (walkBelow bs clock uid F ts).matched * bs := by
  induction F generalizing ts with
  | nil => simp [prefixLenBelow, walkBelow]
  | cons n b r ihb ihr =>
    simp only [prefixLenBelow, walkBelow]
    split
    · split
      · rfl
      · rw [ihb, Nat.add_mul]
    · exact ihr ts

namespace RadixTree

variable {t t' : RadixTree} {ts : List Token} {blocks : List Int}

def prefixMap (bs : Nat) (t : RadixTree) (k : List Token) : Option Int :=
  ((cells bs [] t.forest).find? (fun c => c.1 = k)).map Prod.snd

theorem prefixMap_eq_some (hbs : 0 < bs) (hs : t.Shaped bs) {k : List Token} {b : Int} :
    t.prefixMap bs k = some b ↔ (k, b) ∈ cells bs [] t.forest := by
  unfold prefixMap
  constructor
  · intro h
    obtain ⟨⟨k', c⟩, hf, rfl⟩ := Option.map_eq_some_iff.mp h
    obtain rfl : k' = k := by simpa using List.find?_some hf
    exact List.mem_of_find?_eq_some hf
  · intro h
    cases hf : (cells bs [] t.forest).find? (fun c => c.1 = k) with
    | none => simpa using List.find?_eq_none.mp hf _ h
    | some c =>
      obtain ⟨k', b'⟩ := c
      obtain rfl : k' = k := by simpa using List.find?_some hf
      have hb := cells_functional hbs hs.wf (List.mem_of_find?_eq_some hf) h
      simp [hb]

theorem prefixMap_congr (h : cells bs [] t'.forest = cells bs [] t.forest) : t'.prefixMap bs = t.prefixMap bs := by
  funext k
  simp only [prefixMap, h]

theorem prefixMap_closed (hbs : 0 < bs) (hs : t.Shaped bs) : Closed bs (t.prefixMap bs) := by
  intro k hk j hj hle
  obtain ⟨b, hb⟩ := Option.isSome_iff_exists.mp hk
  obtain ⟨c, hc⟩ := cells_closed hbs hs.wf ((prefixMap_eq_some hbs hs).mp hb) hj (by simpa using hle)
  rw [(prefixMap_eq_some hbs hs).mpr (by simpa using hc)]
  rfl

theorem prefixMap_spelled (hbs : 0 < bs) (hs : t.Shaped bs) {k : List Token} {b : Int} :
    t.prefixMap bs k = some b ↔ ∃ u ∈ keys RadixNode.uid t.forest, ∃ i,
      (MiniServe.pathBlocks t.forest u)[i]? = some b ∧ k = (pathTokens t.forest u).take ((i + 1) * bs) := by
  rw [prefixMap_eq_some hbs hs]
  constructor
  · intro h
    obtain ⟨u, hu, hc⟩ := cells_on_path hs.wf hs.keys_nodup h
    obtain ⟨i, hi, e⟩ := mem_edgeCells.mp hc
    exact ⟨u, hu, i, hi, by simpa using e⟩
  · rintro ⟨u, -, i, hi, rfl⟩
    exact cell_of_path hs hi

theorem walk_longest (hbs : 0 < bs) (hs : t.Shaped bs) (ts : List Token) :
    Longest bs (t.prefixMap bs) ts (t.walk bs ts).matched := by
  obtain ⟨-, hle, htok, hlen⟩ := hs.walkNode_spec ts
  refine ⟨hle, fun j hj hjm => ?_, fun hl => ?_⟩
  · have hlt : j - 1 < (MiniServe.pathBlocks (t.walked bs ts).forest (t.walkNode bs ts)).length := by omega
    have hc := found_of_walk hs (List.getElem?_eq_getElem hlt)
    rw [Nat.sub_add_cancel hj] at hc
    rw [(prefixMap_eq_some hbs hs).mpr hc]
    rfl
  · cases hb : t.prefixMap bs (ts.take (((t.walk bs ts).matched + 1) * bs)) with
    | none => rfl
    | some b =>
      have hc := (prefixMap_eq_some hbs hs).mp hb
      have := @walk_max bs (t.clock + 1) t.nextUid t.forest [] ts _ b hbs hs.wf (Nat.succ_pos _) hl (by simpa using hc)
      have hw : (walkBelow bs (t.clock + 1) t.nextUid t.forest ts).matched = (t.walk bs ts).matched := rfl
      omega

theorem prefixMap_fill (hbs : 0 < bs) (hs : t.Shaped bs) (hs' : t'.Shaped bs) (hlen : ts.length = blocks.length * bs)
    (hc : (cells bs [] t'.forest).Perm (cells bs [] t.forest ++ edgeCells bs (ts.take ((t.walk bs ts).matched * bs))
      (ts.drop ((t.walk bs ts).matched * bs)) (blocks.drop (t.walk bs ts).matched))) :
    t'.prefixMap bs = fill bs (t.prefixMap bs) ts blocks := by
  have hlong := walk_longest hbs hs ts
  generalize (t.walk bs ts).matched = m at hc hlong
  have hedge (k : List Token) (b : Int) : (k, b) ∈ edgeCells bs (ts.take (m * bs)) (ts.drop (m * bs)) (blocks.drop m) ↔
      ∃ i, m ≤ i ∧ blocks[i]? = some b ∧ k = ts.take ((i + 1) * bs) := by
    rw [mem_edgeCells]
    constructor
    · rintro ⟨i, hi, rfl⟩
      rw [List.getElem?_drop] at hi
      exact ⟨m + i, by omega, hi, by rw [← List.take_add, ← Nat.add_mul, Nat.add_assoc]⟩
    · rintro ⟨i, hmi, hi, rfl⟩
      refine ⟨i - m, by rw [List.getElem?_drop, Nat.add_sub_cancel' hmi]; exact hi, ?_⟩
      rw [← List.take_add, ← Nat.add_mul]
      congr 2
      omega
  have hin (i : Nat) (b : Int) (hi : blocks[i]? = some b) : (i + 1) * bs ≤ ts.length := by
    rw [hlen]; exact Nat.mul_le_mul_right bs (List.getElem?_eq_some_iff.mp hi).1
  funext k
  refine Option.ext fun b => ?_
  rw [prefixMap_eq_some hbs hs', hc.mem_iff, List.mem_append, hedge]
  cases hk : t.prefixMap bs k with
  | some c =>
    rw [fill_of_some hk]
    have hkc := (prefixMap_eq_some hbs hs).mp hk
    constructor
    · rintro (h | ⟨i, hmi, hi, rfl⟩)
      · rw [cells_functional hbs hs.wf hkc h]
      · exfalso
        have hle := hin i b hi
        have hmul : (m + 1) * bs ≤ (i + 1) * bs := Nat.mul_le_mul_right bs (by omega)
        have hcl := prefixMap_closed hbs hs _ (by rw [hk]; rfl) (m + 1) (Nat.succ_pos m)
          (by rw [List.length_take, Nat.min_eq_left hle]; exact hmul)
        rw [List.take_take, Nat.min_eq_left hmul, hlong.stops (hmul.trans hle)] at hcl
        simp at hcl
    · intro h
      exact .inl (by rw [← Option.some.inj h]; exact hkc)
  | none =>
    rw [fill_eq_some hbs hlen hk]
    constructor
    · rintro (h | ⟨i, -, hi, rfl⟩)
      · rw [(prefixMap_eq_some hbs hs).mpr h] at hk
        simp at hk
      · exact ⟨i, hi, rfl⟩
    · rintro ⟨i, hi, rfl⟩
      refine .inr ⟨i, ?_, hi, rfl⟩
      by_contra hlt
      have := hlong.cached (i + 1) (Nat.succ_pos i) (by omega)
      rw [hk] at this
      simp at this

-- The tree stands for a map from block-aligned token lists to blocks, and every call is an operation
-- on that map.
structure RefinesPrefixMap (bs : Nat) (t : RadixTree) : Prop where
  spelled : ∀ k b, t.prefixMap bs k = some b ↔ ∃ u ∈ keys RadixNode.uid t.forest, ∃ i,
    (MiniServe.pathBlocks t.forest u)[i]? = some b ∧ k = (pathTokens t.forest u).take ((i + 1) * bs)
  aligned : ∀ k b, t.prefixMap bs k = some b → k ≠ [] ∧ bs ∣ k.length
  closed : Closed bs (t.prefixMap bs)
  matchPrefix : ∀ ts, ∃ node blocks t', t.matchPrefix bs ts = (.ok (node, blocks), t') ∧
    Longest bs (t.prefixMap bs) ts blocks.length ∧
    (∀ i < blocks.length, t.prefixMap bs (ts.take ((i + 1) * bs)) = blocks[i]?) ∧
    t'.Holds node ∧ pathTokens t'.forest node = ts.take (blocks.length * bs) ∧ t'.prefixMap bs = t.prefixMap bs
  prefixLen : ∀ ts m, Longest bs (t.prefixMap bs) ts m → t.prefixLen bs ts ts.length = m * bs
  lock : ∀ u, (t.lock u).prefixMap bs = t.prefixMap bs
  unlock : ∀ u, (t.unlock u).2.prefixMap bs = t.prefixMap bs
  insert_ok : ∀ a ts blocks, ts.length = blocks.length * bs → (∀ b ∈ blocks, a.InRange b ∧ 0 < a.ref b) →
    ∃ node, (t.insert bs a ts blocks).1 = .ok node
  insert_fill : ∀ a ts blocks node, (t.insert bs a ts blocks).1 = .ok node →
    (t.insert bs a ts blocks).2.2.prefixMap bs = fill bs (t.prefixMap bs) ts blocks
  insert_error : ∀ a ts blocks e, (t.insert bs a ts blocks).1 = .error e →
    (t.insert bs a ts blocks).2.2.prefixMap bs = t.prefixMap bs
  evict_removes : ∀ a n k b, (t.evict a n).2.2.prefixMap bs k = some b → t.prefixMap bs k = some b
  evict_closed : ∀ a n, Closed bs ((t.evict a n).2.2.prefixMap bs)

theorem Shaped.insert_ok (hbs : 0 < bs) (hs : t.Shaped bs) (a : BlockAllocator) (hlen : ts.length = blocks.length * bs)
    (href : ∀ b ∈ blocks, a.InRange b ∧ 0 < a.ref b) : ∃ node, (t.insert bs a ts blocks).1 = .ok node := by
  have h := insert_case hbs hs a ts blocks
  generalize t.insert bs a ts blocks = out at h ⊢
  cases h with
  | mismatch h => exact absurd hlen h
  | cached => exact ⟨_, rfl⟩
  | refused _ _ h =>
    rw [BlockAllocator.incref_ok fun b hb => href b (List.mem_of_mem_drop hb)] at h
    simp at h
  | grown => exact ⟨_, rfl⟩

theorem Shaped.insert_map (hbs : 0 < bs) (hs : t.Shaped bs) (a : BlockAllocator) (ts : List Token) (blocks : List Int) :
    (∀ node, (t.insert bs a ts blocks).1 = .ok node →
      (t.insert bs a ts blocks).2.2.prefixMap bs = fill bs (t.prefixMap bs) ts blocks) ∧
    (∀ e, (t.insert bs a ts blocks).1 = .error e → (t.insert bs a ts blocks).2.2.prefixMap bs = t.prefixMap bs) := by
  have h := insert_case hbs hs a ts blocks
  generalize t.insert bs a ts blocks = out at h ⊢
  have hwalk : (t.walked bs ts).prefixMap bs = t.prefixMap bs := prefixMap_congr (walked_cells ts)
  cases h with
  | mismatch => exact ⟨fun _ h => absurd h (by simp), fun _ _ => rfl⟩
  | cached hlen hm =>
    refine ⟨fun _ _ => prefixMap_fill hbs hs (hs.walked ts) hlen ?_, fun _ _ => hwalk⟩
    rw [hm, List.drop_length, walked_cells]
    simp [edgeCells]
  | refused => exact ⟨fun _ h => absurd h (by simp), fun _ _ => hwalk⟩
  | grown hlen hm =>
    refine ⟨fun _ _ => prefixMap_fill hbs hs (hs.grown hbs hlen hm) hlen ?_, fun _ h => absurd h (by simp)⟩
    have hc := @attach_cells bs _ _ (newLeaf bs t ts blocks) (hs.walked ts) (hs.walkNode_spec ts).1
    rw [(hs.walkNode_spec ts).2.2.1, walked_cells] at hc
    exact hc

theorem Shaped.evict_cells (hs : t.Shaped bs) (a : BlockAllocator) (n : Int) :
    cells bs [] (t.evict a n).2.2.forest ⊆ cells bs [] t.forest := by
  obtain ⟨k, r, a', t', he, ⟨-, hm⟩, -⟩ := evict_trace (N := n) (a := a) (t := t)
    (P := fun _ _ _ t' => t'.Shaped bs ∧ cells bs [] t'.forest ⊆ cells bs [] t.forest) (fun h => h.1.keys_nodup)
    (fun {l k a t1 node a1} h hnode _ _ _ => by
      have hl := (mem_unlockedLeaves.mp hnode).1
      exact ⟨h.1.detach hl, List.Subset.trans (cells_remove _ _ (leaf_unique h.1.keys_nodup hl)) h.2⟩)
    ⟨hs, fun _ h => h⟩
  rw [he]
  exact hm

theorem Shaped.evict (hbs : 0 < bs) (hs : t.Shaped bs) (a : BlockAllocator) (n : Int) : (t.evict a n).2.2.Shaped bs :=
  (Moves.rule (P := fun _ => True) hbs (fun _ _ _ => trivial) (evict_moves hbs hs a n) hs trivial).1

theorem Shaped.refinesPrefixMap (hbs : 0 < bs) (hs : t.Shaped bs) : RefinesPrefixMap bs t where
  spelled := fun _ _ => prefixMap_spelled hbs hs
  aligned := fun k b h => by
    obtain ⟨i, hi⟩ := cells_length hs.wf ((prefixMap_eq_some hbs hs).mp h)
    rw [List.length_nil, Nat.zero_add] at hi
    have hpos : 0 < (i + 1) * bs := Nat.mul_pos (Nat.succ_pos i) hbs
    exact ⟨List.ne_nil_of_length_pos (by omega), hi ▸ Nat.dvd_mul_left bs (i + 1)⟩
  closed := prefixMap_closed hbs hs
  matchPrefix := fun ts => by
    obtain ⟨hh, hle, htok, hlen⟩ := hs.walkNode_spec ts
    refine ⟨_, _, _, matchPrefix_ok hs ts,
      by rw [hlen]; exact walk_longest hbs hs ts, fun i hi => ?_, hh, by rw [htok, hlen],
      prefixMap_congr (walked_cells ts)⟩
    rw [List.getElem?_eq_getElem hi]
    exact (prefixMap_eq_some hbs hs).mpr (found_of_walk hs (List.getElem?_eq_getElem hi))
  prefixLen := fun ts m h => by
    have e := (walk_longest hbs hs ts).unique h
    rw [RadixTree.prefixLen, Int.toNat_natCast, List.take_length, prefixLenBelow_eq (t.clock + 1) t.nextUid, e]
    rfl
  lock := fun u => prefixMap_congr (lock_relocked t u).cells
  unlock := fun u => prefixMap_congr (unlock_relocked t u).cells
  insert_ok := fun a _ _ hlen href => hs.insert_ok hbs a hlen href
  insert_fill := fun a ts blocks node h => (hs.insert_map hbs a ts blocks).1 node h
  insert_error := fun a ts blocks e h => (hs.insert_map hbs a ts blocks).2 e h
  evict_removes := fun a n k b h =>
    (prefixMap_eq_some hbs hs).mpr (hs.evict_cells a n ((prefixMap_eq_some hbs (hs.evict hbs a n)).mp h))
  evict_closed := fun a n => prefixMap_closed hbs (hs.evict hbs a n)

end RadixTree

end MiniServe
