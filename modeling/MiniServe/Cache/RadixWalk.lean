import MiniServe.Cache.PrefixMap

namespace MiniServe

open Forest

variable {bs : Nat}

theorem matchLen_le (blocks : List Int) (c ts : List Token) :
    matchLen bs blocks c ts ≤ blocks.length := by
  induction blocks generalizing c ts with
  | nil => simp [matchLen]
  | cons b blocks ih =>
    simp only [matchLen]
    split
    · have := ih (c.drop bs) (ts.drop bs); simp; omega
    · simp

theorem matchLen_mul_le (blocks : List Int) (c ts : List Token) :
    matchLen bs blocks c ts * bs ≤ ts.length := by
  induction blocks generalizing c ts with
  | nil => simp [matchLen]
  | cons b blocks ih =>
    simp only [matchLen]
    split
    · next h =>
      have := ih (c.drop bs) (ts.drop bs)
      rw [List.length_drop] at this
      rw [Nat.succ_mul]
      omega
    · simp

theorem matchLen_take (blocks : List Int) (c ts : List Token) :
    c.take (matchLen bs blocks c ts * bs) = ts.take (matchLen bs blocks c ts * bs) := by
  induction blocks generalizing c ts with
  | nil => simp [matchLen]
  | cons b blocks ih =>
    simp only [matchLen]
    split
    · next h => rw [Nat.succ_mul, Nat.add_comm, List.take_add, List.take_add, h.2, ih]
    · simp

theorem le_matchLen {blocks : List Int} {c ts : List Token} {m : Nat} (h1 : m ≤ blocks.length)
    (h2 : m * bs ≤ ts.length) (h3 : c.take (m * bs) = ts.take (m * bs)) :
    m ≤ matchLen bs blocks c ts := by
  induction blocks generalizing c ts m with
  | nil => simp at h1; simp [h1]
  | cons b blocks ih =>
    cases m with
    | zero => simp
    | succ m =>
      rw [Nat.succ_mul, Nat.add_comm] at h2 h3
      rw [List.take_add, List.take_add] at h3
      have hlen : bs ≤ ts.length := by omega
      have hkey : c.take bs = ts.take bs := by
        have := congrArg (List.take bs) h3
        by_cases hc : bs ≤ c.length
        · rwa [List.take_append_of_le_length (by simp; omega), List.take_append_of_le_length (by simp; omega),
            List.take_take, List.take_take, Nat.min_self] at this
        · have hd : c.drop bs = [] := List.drop_eq_nil_of_le (by omega)
          rw [hd, List.take_nil, List.append_nil] at h3
          have hl := congrArg List.length h3
          simp at hl
          omega
      rw [hkey] at h3
      have ih' := @ih (c.drop bs) (ts.drop bs) m (by simpa using h1)
        (by rw [List.length_drop]; omega) (List.append_cancel_left h3)
      simp only [matchLen, hlen, hkey, and_self, if_true]
      omega

theorem matchedBlocks_eq {n : RadixNode} {ts : List Token} (hn : n.blocks ≠ []) (hl : bs ≤ ts.length)
    (hk : n.key bs = ts.take bs) : matchedBlocks bs n ts = matchLen bs n.blocks n.tokens ts := by
  obtain ⟨b, bl, hb⟩ := List.exists_cons_of_ne_nil hn
  unfold RadixNode.key at hk
  simp [matchedBlocks, hb, matchLen, hl, hk]

theorem upper_key {n : RadixNode} {m u : Nat} (hm : 0 < m) :
    (n.upper bs m u).key bs = n.key bs := by
  have : bs ≤ m * bs := Nat.le_mul_of_pos_left bs hm
  simp [RadixNode.key, RadixNode.upper, List.take_take, Nat.min_eq_left this]

theorem upper_whole {n : RadixNode} {m u : Nat} (hn : Whole bs n) (h0 : 0 < m) (hm : m ≤ n.blocks.length) :
    Whole bs (n.upper bs m u) := by
  have hle := Nat.mul_le_mul_right bs hm
  refine ⟨?_, ?_⟩
  · have : (n.blocks.take m).length = m := by simp [hm]
    intro h
    rw [show (n.upper bs m u).blocks = n.blocks.take m from rfl] at h
    rw [h] at this; simp at this; omega
  · simp only [RadixNode.upper, List.length_take, hn.2, Nat.min_eq_left hle, Nat.min_eq_left hm]

theorem lower_whole {n : RadixNode} {m : Nat} (hn : Whole bs n) (hm : m < n.blocks.length) :
    Whole bs (n.lower bs m) := by
  refine ⟨?_, ?_⟩
  · intro h
    have := congrArg List.length h
    simp [RadixNode.lower] at this
    omega
  · simp only [RadixNode.lower, List.length_drop, hn.2, Nat.sub_mul]

-- After a split the loop of `_walk` goes on at the upper half; it stops at once.
theorem walkBelow_after_split {n : RadixNode} {ts : List Token} {below : Forest RadixNode} {clock uid : Nat}
    (hn : Whole bs n) (hl : bs ≤ ts.length) (hk : n.key bs = ts.take bs)
    (hm : matchedBlocks bs n ts < n.blocks.length) :
    let m := matchedBlocks bs n ts
    walkBelow bs clock uid (.cons (n.lower bs m) below .nil) (ts.drop (m * bs)) =
      ⟨.cons (n.lower bs m) below .nil, none, 0, uid⟩ := by
  intro m
  have hme : m = matchLen bs n.blocks n.tokens ts := matchedBlocks_eq hn.1 hl hk
  have hm' : m < n.blocks.length := hm
  clear_value m
  have hno : ¬ (bs ≤ (ts.drop (m * bs)).length ∧ (n.lower bs m).key bs = (ts.drop (m * bs)).take bs) := by
    rintro ⟨h1, h2⟩
    rw [List.length_drop] at h1
    have hmul := @matchLen_mul_le bs n.blocks n.tokens ts
    rw [← hme] at hmul
    have htake := @matchLen_take bs n.blocks n.tokens ts
    rw [← hme] at htake
    have hmax : m + 1 ≤ matchLen bs n.blocks n.tokens ts := by
      apply le_matchLen hm'
      · rw [Nat.succ_mul]; omega
      · rw [Nat.succ_mul, List.take_add, List.take_add, htake]
        exact congrArg _ h2
    omega
  simp only [walkBelow]
  rw [if_neg hno]

section Walk

variable {clock uid : Nat}

theorem walk_nextUid (F : Forest RadixNode) (ts : List Token) :
    uid ≤ (walkBelow bs clock uid F ts).nextUid := by
  induction F generalizing ts with
  | nil => simp [walkBelow]
  | cons n b r ihb ihr =>
    simp only [walkBelow]
    split
    · split
      · simp
      · exact ihb _
    · exact ihr _

theorem walk_keys (F : Forest RadixNode) (ts : List Token) :
    (keys RadixNode.uid (walkBelow bs clock uid F ts).forest).Perm
      (List.range' uid ((walkBelow bs clock uid F ts).nextUid - uid) ++ keys RadixNode.uid F) := by
  induction F generalizing ts with
  | nil => simp [walkBelow]
  | cons n b r ihb ihr =>
    simp only [walkBelow]
    split
    · split
      · simp [RadixNode.upper, RadixNode.lower, RadixNode.touch]
      · have h := ihb (ts.drop (matchedBlocks bs n ts * bs))
        simp only [keys_cons, RadixNode.touch]
        refine ((h.append_right _).cons _).trans ?_
        rw [List.append_assoc]
        exact List.perm_middle.symm
    · have h := ihr ts
      simp only [keys_cons]
      refine ((h.append_left _).cons _).trans ?_
      refine List.Perm.trans ?_ List.perm_middle.symm
      refine List.Perm.cons _ ?_
      rw [← List.append_assoc, ← List.append_assoc]
      exact List.perm_append_comm.append_right _

theorem walk_mem_keys {F : Forest RadixNode} {ts : List Token} {k : Nat} (hk : k < uid) :
    k ∈ keys RadixNode.uid (walkBelow bs clock uid F ts).forest ↔ k ∈ keys RadixNode.uid F := by
  rw [(walk_keys F ts).mem_iff, List.mem_append, List.mem_range'_1]
  exact ⟨fun h => h.resolve_left (by omega), .inr⟩

theorem walk_keys_lt {F : Forest RadixNode} {ts : List Token} (h : ∀ k ∈ keys RadixNode.uid F, k < uid) :
    ∀ k ∈ keys RadixNode.uid (walkBelow bs clock uid F ts).forest,
      k < (walkBelow bs clock uid F ts).nextUid := by
  intro k hk
  have hu := @walk_nextUid bs clock uid F ts
  rw [(walk_keys F ts).mem_iff, List.mem_append, List.mem_range'_1] at hk
  rcases hk with hk | hk
  · omega
  · have := h k hk; omega

theorem walk_keys_nodup {F : Forest RadixNode} {ts : List Token} (hn : (keys RadixNode.uid F).Nodup)
    (h : ∀ k ∈ keys RadixNode.uid F, k < uid) :
    (keys RadixNode.uid (walkBelow bs clock uid F ts).forest).Nodup := by
  rw [(walk_keys F ts).nodup_iff, List.nodup_append']
  refine ⟨List.nodup_range', hn, fun k h1 h2 => ?_⟩
  have := h k h2
  have := (List.mem_range'_1.mp h1).1
  omega

theorem walk_cells (F : Forest RadixNode) (p ts : List Token) :
    cells bs p (walkBelow bs clock uid F ts).forest = cells bs p F := by
  induction F generalizing p ts with
  | nil => rfl
  | cons n b r ihb ihr =>
    simp only [walkBelow]
    split
    · split
      · simp only [cells, RadixNode.touch, RadixNode.upper, RadixNode.lower, List.append_assoc,
          List.append_nil]
        rw [edgeCells_split (matchedBlocks bs n ts) p n.tokens n.blocks]
        simp
      · simp only [cells, RadixNode.touch, ihb]
    · simp only [cells, ihr]

theorem walk_tops (F : Forest RadixNode) (ts : List Token) :
    (walkBelow bs clock uid F ts).forest.tops.map (RadixNode.key bs) = F.tops.map (RadixNode.key bs) := by
  induction F generalizing ts with
  | nil => rfl
  | cons n b r _ ihr =>
    simp only [walkBelow]
    split
    · split
      · have := @upper_key bs n (matchedBlocks bs n ts) uid (by simp [matchedBlocks])
        simpa [RadixNode.touch, RadixNode.key] using this
      · simp [RadixNode.touch, RadixNode.key]
    · simp [ihr]

theorem walk_WF {F : Forest RadixNode} {ts : List Token} (hw : WF bs F) :
    WF bs (walkBelow bs clock uid F ts).forest := by
  induction F generalizing ts with
  | nil => trivial
  | cons n b r ihb ihr =>
    obtain ⟨hn, hs, hb, hr⟩ := hw
    simp only [walkBelow]
    split
    · split
      · next hm =>
        have h0 : 0 < matchedBlocks bs n ts := by simp [matchedBlocks]
        refine ⟨upper_whole (u := uid) hn h0 hm.le, ?_, ⟨lower_whole hn hm, by simp, hb, trivial⟩, hr⟩
        intro m hmr
        have := @upper_key bs n _ uid h0
        exact fun e => hs m hmr (e.trans this)
      · exact ⟨hn, hs, ihb hb, hr⟩
    · refine ⟨hn, ?_, hb, ihr hr⟩
      intro m hm e
      have hmk : m.key bs ∈ (walkBelow bs clock uid r ts).forest.tops.map (RadixNode.key bs) :=
        List.mem_map_of_mem hm
      rw [walk_tops] at hmk
      obtain ⟨m', hm', e'⟩ := List.mem_map.mp hmk
      exact hs m' hm' (e'.trans e)

theorem walk_path_old {β : Type} (f : RadixNode → List β)
    (hsplit : ∀ n m, f (n.upper bs m uid) ++ f (n.lower bs m) = f n)
    (htouch : ∀ n : RadixNode, f (n.touch clock) = f n) {F : Forest RadixNode} {ts : List Token} {k : Nat} (hk : k < uid)
    (hn : (keys RadixNode.uid F).Nodup) :
    ((walkBelow bs clock uid F ts).forest.path RadixNode.uid k).flatMap f =
      (F.path RadixNode.uid k).flatMap f := by
  induction F generalizing ts with
  | nil => rfl
  | cons n b r ihb ihr =>
    obtain ⟨hnb, hnr, hb, hr, hd⟩ := nodup_keys_cons RadixNode.uid hn
    simp only [walkBelow]
    split
    · split
      · have e1 : ((n.upper bs (matchedBlocks bs n ts) uid).touch clock).uid ≠ k := by
          simp [RadixNode.touch, RadixNode.upper]; omega
        have e2 : (n.lower bs (matchedBlocks bs n ts)).uid = n.uid := rfl
        simp only [path, if_neg e1, e2, keys_cons, keys_nil, List.append_nil, List.mem_cons]
        by_cases h1 : n.uid = k
        · simp [h1, htouch, hsplit]
        · by_cases h2 : k ∈ keys RadixNode.uid b
          · simp only [h1, h2, or_true, if_true, if_false, List.flatMap_cons, htouch, ← List.append_assoc,
              hsplit]
          · simp [h1, Ne.symm h1, h2]
      · have e1 : (n.touch clock).uid = n.uid := rfl
        simp only [path, e1, walk_mem_keys hk]
        split_ifs
        · simp [htouch]
        · simp only [List.flatMap_cons, htouch, ihb hb]
        · rfl
    · simp only [path]
      split_ifs
      · rfl
      · rfl
      · exact ihr hr

theorem walk_pathTokens {F : Forest RadixNode} {ts : List Token} {k : Nat} (hk : k < uid)
    (hn : (keys RadixNode.uid F).Nodup) :
    pathTokens (walkBelow bs clock uid F ts).forest k = pathTokens F k :=
  walk_path_old RadixNode.tokens (fun _ _ => List.take_append_drop _ _) (fun _ => rfl) hk hn

theorem walk_pathBlocks {F : Forest RadixNode} {ts : List Token} {k : Nat} (hk : k < uid)
    (hn : (keys RadixNode.uid F).Nodup) :
    pathBlocks (walkBelow bs clock uid F ts).forest k = pathBlocks F k :=
  walk_path_old RadixNode.blocks (fun _ _ => List.take_append_drop _ _) (fun _ => rfl) hk hn

theorem walk_weight (f : RadixNode → Nat) (hsplit : ∀ n m, f (n.upper bs m uid) + f (n.lower bs m) = f n)
    (htouch : ∀ n : RadixNode, f (n.touch clock) = f n) (F : Forest RadixNode) (ts : List Token) :
    weight f (walkBelow bs clock uid F ts).forest = weight f F := by
  induction F generalizing ts with
  | nil => rfl
  | cons n b r ihb ihr =>
    simp only [walkBelow]
    split
    · split
      · have := hsplit n (matchedBlocks bs n ts)
        simp [htouch]; omega
      · simp [htouch, ihb]
    · simp [ihr]

theorem walk_carries {h : Nat → Nat} {F : Forest RadixNode} {ts : List Token} (hu : h uid = 0)
    (hc : Carries RadixNode.uid RadixNode.lock h F) :
    Carries RadixNode.uid RadixNode.lock h (walkBelow bs clock uid F ts).forest := by
  induction F generalizing ts with
  | nil => trivial
  | cons n b r ihb ihr =>
    obtain ⟨h1, h2, h3⟩ := hc
    simp only [walkBelow]
    split
    · split
      · refine ⟨?_, ⟨h1, h2, trivial⟩, h3⟩
        simp [RadixNode.touch, RadixNode.upper, RadixNode.lower, hu, h1]
      · refine ⟨?_, ihb h2, h3⟩
        rw [walk_weight (h ∘ RadixNode.uid) (fun n m => by simp [RadixNode.upper, RadixNode.lower, hu])
          (fun n => rfl)]
        exact h1
    · exact ⟨h1, h2, ihr h3⟩

theorem walk_uniform (F : Forest RadixNode) (ts : List Token) :
    ∀ n' ∈ (walkBelow bs clock uid F ts).forest.labels, ∃ n ∈ F.labels,
      n'.blocks ⊆ n.blocks ∧ n'.lock = n.lock := by
  induction F generalizing ts with
  | nil => simp [walkBelow]
  | cons n b r ihb ihr =>
    have keep : ∀ m ∈ b.labels ++ r.labels, ∃ n' ∈ (cons n b r).labels, m.blocks ⊆ n'.blocks ∧ m.lock = n'.lock :=
      fun m hm => ⟨m, List.mem_cons_of_mem _ hm, fun _ h => h, rfl⟩
    intro x hx
    simp only [walkBelow] at hx
    split at hx
    · split at hx
      · simp only [labels_cons, labels_nil, List.append_nil, List.cons_append, List.mem_cons] at hx
        rcases hx with rfl | rfl | hx
        · exact ⟨n, by simp, List.take_subset _ _, rfl⟩
        · exact ⟨n, by simp, List.drop_subset _ _, rfl⟩
        · exact keep x hx
      · simp only [labels_cons, List.mem_cons, List.mem_append] at hx
        rcases hx with rfl | hx | hx
        · exact ⟨n, by simp, fun _ h => h, rfl⟩
        · obtain ⟨m, hm, h⟩ := ihb _ x hx
          exact ⟨m, by simp [hm], h⟩
        · exact keep x (by simp [hx])
    · simp only [labels_cons, List.mem_cons, List.mem_append] at hx
      rcases hx with rfl | hx | hx
      · exact ⟨x, by simp, fun _ h => h, rfl⟩
      · exact keep x (by simp [hx])
      · obtain ⟨m, hm, h⟩ := ihr _ x hx
        exact ⟨m, by simp [hm], h⟩

structure WalkEnds (W : Walk) (bs : Nat) (ts : List Token) : Prop where
  matched_le : W.matched * bs ≤ ts.length
  none_matched : W.node = none → W.matched = 0
  mem_keys : ∀ u, W.node = some u → u ∈ keys RadixNode.uid W.forest
  tokens : ∀ u, W.node = some u → pathTokens W.forest u = ts.take (W.matched * bs)
  blocks : ∀ u, W.node = some u → (pathBlocks W.forest u).length = W.matched

theorem walk_ends {F : Forest RadixNode} {ts : List Token} (hw : WF bs F)
    (hn : (keys RadixNode.uid F).Nodup) (hlt : ∀ k ∈ keys RadixNode.uid F, k < uid) :
    WalkEnds (walkBelow bs clock uid F ts) bs ts := by
  induction F generalizing ts with
  | nil => exact ⟨by simp [walkBelow], fun _ => rfl, by simp [walkBelow], by simp [walkBelow], by simp [walkBelow]⟩
  | cons n b r ihb ihr =>
    obtain ⟨hwn, -, hwb, hwr⟩ := hw
    obtain ⟨hnb, hnr, hb, hr, hd⟩ := nodup_keys_cons RadixNode.uid hn
    have hltn : n.uid < uid := hlt _ (by simp)
    have hltb : ∀ k ∈ keys RadixNode.uid b, k < uid := fun k hk => hlt k (by simp [hk])
    have hltr : ∀ k ∈ keys RadixNode.uid r, k < uid := fun k hk => hlt k (by simp [hk])
    simp only [walkBelow]
    split
    · next hkey =>
      have hme := matchedBlocks_eq hwn.1 hkey.1 hkey.2
      have hmul := @matchLen_mul_le bs n.blocks n.tokens ts
      have htk := @matchLen_take bs n.blocks n.tokens ts
      rw [← hme] at hmul htk
      split
      · next hm =>
        refine ⟨hmul, by simp, ?_, ?_, ?_⟩
        · rintro u ⟨⟩; simp [RadixNode.touch, RadixNode.upper]
        · rintro u ⟨⟩
          simp [pathTokens, path, RadixNode.touch, RadixNode.upper, htk]
        · rintro u ⟨⟩
          simp [pathBlocks, path, RadixNode.touch, RadixNode.upper, hm.le]
      · next hm =>
        have hfull : matchedBlocks bs n ts = n.blocks.length := by
          have := @matchLen_le bs n.blocks n.tokens ts
          omega
        have hntok : n.tokens = ts.take (matchedBlocks bs n ts * bs) := by
          rw [← htk, hfull, ← hwn.2, List.take_length]
        obtain ⟨e1, e2, e3, e4, e5⟩ := @ihb (ts.drop (matchedBlocks bs n ts * bs)) hwb hb hltb
        generalize hW : walkBelow bs clock uid b (ts.drop (matchedBlocks bs n ts * bs)) = W at *
        have hfresh : ∀ u, W.node = some u → n.uid ≠ u := by
          intro u hu e
          have hmem := e3 u hu
          rw [← hW, ← e, walk_mem_keys hltn] at hmem
          exact hnb hmem
        refine ⟨?_, by simp, ?_, ?_, ?_⟩
        · rw [List.length_drop] at e1; rw [Nat.add_mul]; omega
        · rintro u ⟨⟩
          cases hnode : W.node with
          | none => simp [RadixNode.touch]
          | some v => simp [e3 v hnode]
        · rintro u ⟨⟩
          cases hnode : W.node with
          | none =>
            have e0 : (n.touch clock).uid = n.uid := rfl
            simp only [e2 hnode, Nat.add_zero, pathTokens, path, Option.getD_none, e0, if_true]
            simpa [RadixNode.touch] using hntok
          | some v =>
            have e0 : (n.touch clock).uid ≠ v := hfresh v hnode
            have h4 := e4 v hnode
            unfold pathTokens at h4
            simp only [pathTokens, path, Option.getD_some, if_neg e0, if_pos (e3 v hnode), List.flatMap_cons, h4,
              Nat.add_mul, List.take_add]
            rw [show (n.touch clock).tokens = n.tokens from rfl, ← hntok]
        · rintro u ⟨⟩
          cases hnode : W.node with
          | none =>
            simp [e2 hnode, pathBlocks, path, RadixNode.touch, hfull]
          | some v =>
            have e0 : (n.touch clock).uid ≠ v := hfresh v hnode
            have h5 := e5 v hnode
            unfold pathBlocks at h5
            simp only [pathBlocks, path, Option.getD_some, if_neg e0, if_pos (e3 v hnode), List.flatMap_cons,
              List.length_append, h5, hfull]
            rfl
    · obtain ⟨e1, e2, e3, e4, e5⟩ := @ihr ts hwr hr hltr
      generalize hW : walkBelow bs clock uid r ts = W at *
      have hfresh : ∀ u, W.node = some u → n.uid ≠ u ∧ u ∉ keys RadixNode.uid b := by
        intro u hu
        have hmem := e3 u hu
        constructor
        · intro e
          rw [← hW, ← e, walk_mem_keys hltn] at hmem
          exact hnr hmem
        · intro hub
          rw [← hW, walk_mem_keys (hltb u hub)] at hmem
          exact hd u hub hmem
      refine ⟨e1, e2, fun u hu => by simp [e3 u hu], fun u hu => ?_, fun u hu => ?_⟩
      · obtain ⟨f1, f2⟩ := hfresh u hu
        have h4 := e4 u hu
        unfold pathTokens at h4
        simp only [pathTokens, path, if_neg f1, if_neg f2, h4]
      · obtain ⟨f1, f2⟩ := hfresh u hu
        have h5 := e5 u hu
        unfold pathBlocks at h5
        simp only [pathBlocks, path, if_neg f1, if_neg f2, h5]

section Cells

variable {n : RadixNode} {b : Forest RadixNode} {p ts : List Token} {j : Nat} {c : Int}

theorem take_take_first (hj : 0 < j) : (ts.take (j * bs)).take bs = ts.take bs := by
  rw [List.take_take, Nat.min_eq_left (Nat.le_mul_of_pos_left bs hj)]

theorem Whole.cell_key (hn : Whole bs n) (hw : WF bs b) (hj : 0 < j)
    (hc : (p ++ ts.take (j * bs), c) ∈ edgeCells bs p n.tokens n.blocks ++ cells bs (p ++ n.tokens) b) :
    n.key bs = ts.take bs := by
  rcases List.mem_append.mp hc with hc | hc
  · obtain ⟨i, -, e⟩ := mem_edgeCells.mp hc
    have e' := congrArg (List.take bs) (List.append_cancel_left e)
    rw [take_take_first hj, List.take_take, Nat.min_eq_left (Nat.le_mul_of_pos_left bs (by omega))] at e'
    exact e'.symm
  · obtain ⟨m, -, s, e⟩ := cells_key hc hw
    have hkl := hn.key_length
    rw [List.append_assoc] at e
    have e' := congrArg (List.take bs) (List.append_cancel_left e)
    rw [take_take_first hj, List.take_append_of_le_length] at e'
    · exact e'.symm
    · rw [RadixNode.key, List.length_take] at hkl; omega

theorem WF.cell_key (hw : WF bs b) (hj : 0 < j) (hc : (p ++ ts.take (j * bs), c) ∈ cells bs p b) :
    ∃ m ∈ b.tops, m.key bs = ts.take bs := by
  obtain ⟨m, hm, s, e⟩ := cells_key hc hw
  have e' := congrArg (List.take bs) (List.append_cancel_left e)
  rw [take_take_first hj, (hw.whole m (tops_subset_labels _ m hm)).take_key_append] at e'
  exact ⟨m, hm, e'.symm⟩

theorem Whole.edge_matched (hn : Whole bs n) (hbs : 0 < bs) (hl : j * bs ≤ ts.length)
    (hc : (p ++ ts.take (j * bs), c) ∈ edgeCells bs p n.tokens n.blocks) : j ≤ matchLen bs n.blocks n.tokens ts := by
  obtain ⟨i, hi, e⟩ := mem_edgeCells.mp hc
  have hlt := (List.getElem?_eq_some_iff.mp hi).1
  have e' := List.append_cancel_left e
  have hle : (i + 1) * bs ≤ n.tokens.length := by rw [hn.2]; exact Nat.mul_le_mul_right bs hlt
  have hji : j = i + 1 := by
    have hlen := congrArg List.length e'
    rw [List.length_take, List.length_take, Nat.min_eq_left hl, Nat.min_eq_left hle] at hlen
    exact Nat.eq_of_mul_eq_mul_right hbs hlen
  exact le_matchLen (by omega) hl (by rw [e', hji])

theorem Whole.below_longer (hn : Whole bs n) (hbs : 0 < bs) (hw : WF bs b) (hl : j * bs ≤ ts.length)
    (hc : (p ++ ts.take (j * bs), c) ∈ cells bs (p ++ n.tokens) b) :
    n.blocks.length < j ∧ n.tokens = ts.take (n.blocks.length * bs) := by
  obtain ⟨m, hm, s, e⟩ := cells_key hc hw
  have hml := (hw.whole m (tops_subset_labels _ m hm)).key_length
  rw [List.append_assoc] at e
  have e' := List.append_cancel_left e
  have hlen := congrArg List.length e'
  rw [List.length_take, Nat.min_eq_left hl, List.length_append, List.length_append, hn.2] at hlen
  have hlt : n.blocks.length < j := by
    by_contra hge
    have := Nat.mul_le_mul_right bs (not_lt.mp hge)
    omega
  refine ⟨hlt, ?_⟩
  have hcut := congrArg (List.take n.tokens.length) e'
  rw [List.take_append_of_le_length le_rfl, List.take_length, List.take_take, Nat.min_eq_left] at hcut
  · rw [← hn.2]; exact hcut.symm
  · rw [hn.2]; exact Nat.mul_le_mul_right bs hlt.le

end Cells

theorem walk_max {F : Forest RadixNode} {p ts : List Token} {j : Nat} {c : Int} (hbs : 0 < bs) (hw : WF bs F)
    (hj : 0 < j) (hl : j * bs ≤ ts.length) (hc : (p ++ ts.take (j * bs), c) ∈ cells bs p F) :
    j ≤ (walkBelow bs clock uid F ts).matched := by
  induction F generalizing p ts j with
  | nil => simp [cells] at hc
  | cons n b r ihb ihr =>
    obtain ⟨hwn, hs, hwb, hwr⟩ := hw
    have hjb : bs ≤ j * bs := Nat.le_mul_of_pos_left bs hj
    simp only [cells, List.mem_append] at hc
    simp only [walkBelow]
    split
    · next hkey =>
      have hme := matchedBlocks_eq hwn.1 hkey.1 hkey.2
      have hnr : (p ++ ts.take (j * bs), c) ∉ cells bs p r := by
        intro h
        obtain ⟨m, hm, e⟩ := hwr.cell_key hj h
        exact hs m hm (e.trans hkey.2.symm)
      split
      · next hm =>
        rcases hc with hc | hc | hc
        · exact (hwn.edge_matched hbs hl hc).trans hme.ge
        · obtain ⟨h1, h2⟩ := hwn.below_longer hbs hwb hl hc
          have hle : n.blocks.length ≤ matchLen bs n.blocks n.tokens ts := by
            apply le_matchLen le_rfl
            · exact (Nat.mul_le_mul_right bs h1.le).trans hl
            · rw [← h2, ← hwn.2, List.take_length]
          omega
        · exact absurd hc hnr
      · next hm =>
        have hfull : matchedBlocks bs n ts = n.blocks.length := by
          have := @matchLen_le bs n.blocks n.tokens ts
          omega
        rcases hc with hc | hc | hc
        · exact ((hwn.edge_matched hbs hl hc).trans hme.ge).trans (Nat.le_add_right _ _)
        · obtain ⟨h1, h2⟩ := hwn.below_longer hbs hwb hl hc
          have hj' : j = n.blocks.length + (j - n.blocks.length) := by omega
          have hsplit : ts.take (j * bs) =
              n.tokens ++ (ts.drop (n.blocks.length * bs)).take ((j - n.blocks.length) * bs) := by
            conv_lhs => rw [hj', Nat.add_mul, List.take_add, ← h2]
          rw [hsplit, ← List.append_assoc] at hc
          have hrec := @ihb (p ++ n.tokens) (ts.drop (matchedBlocks bs n ts * bs))
            (j := j - n.blocks.length) hwb (by omega)
            (by rw [List.length_drop, hfull, Nat.sub_mul]; omega)
            (by rw [hfull]; exact hc)
          simp only
          omega
        · exact absurd hc hnr
    · next hkey =>
      rcases hc with hc | hc | hc
      · exact absurd ⟨by omega, hwn.cell_key hwb hj (List.mem_append_left _ hc)⟩ hkey
      · exact absurd ⟨by omega, hwn.cell_key hwb hj (List.mem_append_right _ hc)⟩ hkey
      · exact ihr hwr hj hl hc

end Walk

end MiniServe
