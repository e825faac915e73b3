import MiniServe.Lib.ForestLoad
import MiniServe.Cache.RadixTree

namespace MiniServe

open Forest

def edgeCells (bs : Nat) (p : List Token) : List Token → List Int → List (List Token × Int)
  | _, [] => []
  | ts, b :: blocks => (p ++ ts.take bs, b) :: edgeCells bs (p ++ ts.take bs) (ts.drop bs) blocks

def cells (bs : Nat) (p : List Token) : Forest RadixNode → List (List Token × Int)
  | .nil => []
  | .cons n below rest =>
    edgeCells bs p n.tokens n.blocks ++ (cells bs (p ++ n.tokens) below ++ cells bs p rest)

def Whole (bs : Nat) (n : RadixNode) : Prop :=
  n.blocks ≠ [] ∧ n.tokens.length = n.blocks.length * bs

def WF (bs : Nat) : Forest RadixNode → Prop
  | .nil => True
  | .cons n below rest =>
    Whole bs n ∧ (∀ m ∈ rest.tops, m.key bs ≠ n.key bs) ∧ WF bs below ∧ WF bs rest

variable {bs : Nat}

theorem edgeCells_split (m : Nat) (p ts : List Token) (blocks : List Int) :
    edgeCells bs p ts blocks = edgeCells bs p (ts.take (m * bs)) (blocks.take m) ++
      edgeCells bs (p ++ ts.take (m * bs)) (ts.drop (m * bs)) (blocks.drop m) := by
  induction m generalizing p ts blocks with
  | zero => simp [edgeCells]
  | succ m ih =>
    cases blocks with
    | nil => simp [edgeCells]
    | cons b blocks =>
      have h1 : (ts.take ((m + 1) * bs)).take bs = ts.take bs := by
        rw [List.take_take, Nat.min_eq_left (by rw [Nat.succ_mul]; omega)]
      have h2 : (ts.take ((m + 1) * bs)).drop bs = (ts.drop bs).take (m * bs) := by
        rw [List.drop_take, Nat.succ_mul, Nat.add_sub_cancel]
      have h3 : ts.take ((m + 1) * bs) = ts.take bs ++ (ts.drop bs).take (m * bs) := by
        rw [← List.take_add, Nat.succ_mul, Nat.add_comm]
      have h4 : ts.drop ((m + 1) * bs) = (ts.drop bs).drop (m * bs) := by
        rw [List.drop_drop, Nat.succ_mul, Nat.add_comm]
      simp only [edgeCells, List.take_succ_cons, List.drop_succ_cons, h1, h2]
      rw [ih (p ++ ts.take bs) (ts.drop bs) blocks, h3, h4]
      simp

theorem edgeCells_append {ts ts' : List Token} {bl bl' : List Int} (p : List Token)
    (h : ts.length = bl.length * bs) :
    edgeCells bs p (ts ++ ts') (bl ++ bl') =
      edgeCells bs p ts bl ++ edgeCells bs (p ++ ts) ts' bl' := by
  rw [edgeCells_split bl.length, ← h]
  simp

theorem mem_edgeCells {p ts k : List Token} {blocks : List Int} {b : Int} :
    (k, b) ∈ edgeCells bs p ts blocks ↔
      ∃ i, blocks[i]? = some b ∧ k = p ++ ts.take ((i + 1) * bs) := by
  induction blocks generalizing p ts with
  | nil => simp [edgeCells]
  | cons c blocks ih =>
    simp only [edgeCells, List.mem_cons, Prod.mk.injEq, ih]
    have hstep (i : Nat) : p ++ ts.take bs ++ (ts.drop bs).take ((i + 1) * bs) =
        p ++ ts.take ((i + 1 + 1) * bs) := by
      rw [List.append_assoc, ← List.take_add, Nat.succ_mul (i + 1), Nat.add_comm bs]
    constructor
    · rintro (⟨rfl, rfl⟩ | ⟨i, hi, rfl⟩)
      · exact ⟨0, by simp⟩
      · exact ⟨i + 1, by simpa using hi, hstep i⟩
    · rintro ⟨i, hi, rfl⟩
      cases i with
      | zero => left; simp at hi ⊢; exact hi.symm
      | succ i => right; exact ⟨i, by simpa using hi, (hstep i).symm⟩

theorem edgeCells_snd (p ts : List Token) (blocks : List Int) :
    (edgeCells bs p ts blocks).map Prod.snd = blocks := by
  induction blocks generalizing p ts with
  | nil => rfl
  | cons b blocks ih => simp [edgeCells, ih]

theorem cells_snd (p : List Token) (F : Forest RadixNode) :
    (cells bs p F).map Prod.snd = F.labels.flatMap RadixNode.blocks := by
  induction F generalizing p with
  | nil => rfl
  | cons n b r ihb ihr => simp [cells, edgeCells_snd, ihb, ihr]

theorem cells_key {p k : List Token} {b : Int} {F : Forest RadixNode} (h : (k, b) ∈ cells bs p F)
    (hw : WF bs F) : ∃ n ∈ F.tops, ∃ s, k = p ++ (n.key bs ++ s) := by
  induction F generalizing p with
  | nil => simp [cells] at h
  | cons n below rest ihb ihr =>
    obtain ⟨hn, -, hb, hr⟩ := hw
    simp only [cells, List.mem_append] at h
    rcases h with h | h | h
    · obtain ⟨i, -, rfl⟩ := mem_edgeCells.mp h
      refine ⟨n, by simp, (n.tokens.drop bs).take (i * bs), ?_⟩
      rw [RadixNode.key, ← List.take_add, Nat.succ_mul, Nat.add_comm]
    · obtain ⟨m, -, s, rfl⟩ := ihb h hb
      refine ⟨n, by simp, n.tokens.drop bs ++ (m.key bs ++ s), ?_⟩
      have hsplit : n.key bs ++ n.tokens.drop bs = n.tokens := List.take_append_drop _ _
      rw [List.append_assoc, ← List.append_assoc (n.key bs), hsplit]
    · obtain ⟨m, hm, s, hs⟩ := ihr h hr
      exact ⟨m, by simp [hm], s, hs⟩

theorem Whole.key_length {n : RadixNode} (hn : Whole bs n) : (n.key bs).length = bs := by
  rw [RadixNode.key, List.length_take, hn.2]
  have : 1 ≤ n.blocks.length := List.length_pos_iff.mpr hn.1
  have := Nat.mul_le_mul_right bs this
  omega

theorem Whole.take_key_append {n : RadixNode} (hn : Whole bs n) (s : List Token) :
    (n.key bs ++ s).take bs = n.key bs := by
  have hl := hn.key_length
  rw [List.take_append_of_le_length (by omega), List.take_of_length_le (by omega)]

theorem WF.whole {F : Forest RadixNode} (hw : WF bs F) : ∀ n ∈ F.labels, Whole bs n := by
  induction F with
  | nil => simp
  | cons n b r ihb ihr =>
    intro m hm
    simp only [labels_cons, List.mem_cons, List.mem_append] at hm
    rcases hm with rfl | hm | hm
    · exact hw.1
    · exact ihb hw.2.2.1 m hm
    · exact ihr hw.2.2.2 m hm

theorem edgeCells_key_nodup {p ts : List Token} {blocks : List Int} (hbs : 0 < bs)
    (h : blocks.length * bs ≤ ts.length) : ((edgeCells bs p ts blocks).map Prod.fst).Nodup := by
  induction blocks generalizing p ts with
  | nil => simp [edgeCells]
  | cons b blocks ih =>
    simp only [List.length_cons, Nat.succ_mul] at h
    simp only [edgeCells, List.map_cons, List.nodup_cons]
    constructor
    · intro hm
      obtain ⟨⟨k, c⟩, hk, e⟩ := List.mem_map.mp hm
      obtain ⟨i, hi, rfl⟩ := mem_edgeCells.mp hk
      have hlt := List.getElem?_eq_some_iff.mp hi |>.1
      have hl := congrArg List.length e
      have h2 : (i + 1) * bs ≤ blocks.length * bs := Nat.mul_le_mul_right bs hlt
      have h3 : 0 < (i + 1) * bs := Nat.mul_pos (by omega) hbs
      simp at hl
      omega
    · apply ih; rw [List.length_drop]; omega

theorem cells_key_nodup {p : List Token} {F : Forest RadixNode} (hbs : 0 < bs) (hw : WF bs F) :
    ((cells bs p F).map Prod.fst).Nodup := by
  induction F generalizing p with
  | nil => simp [cells]
  | cons n below rest ihb ihr =>
    obtain ⟨hn, hs, hb, hr⟩ := hw
    simp only [cells, List.map_append, List.nodup_append']
    refine ⟨edgeCells_key_nodup hbs (by rw [hn.2]), ⟨ihb hb, ihr hr, ?_⟩, ?_⟩
    · intro k h1 h2
      obtain ⟨⟨k, b⟩, hk, rfl⟩ := List.mem_map.mp h1
      obtain ⟨⟨k', b'⟩, hk', e⟩ := List.mem_map.mp h2
      obtain ⟨m, hm, s, hms⟩ := cells_key hk' hr
      obtain ⟨m', -, s', hms'⟩ := cells_key hk hb
      have e2 : m.key bs ++ s = n.tokens ++ (m'.key bs ++ s') := by
        have : k' = k := e
        rw [hms, hms', List.append_assoc] at this
        exact List.append_cancel_left this
      have e3 : m.key bs = n.key bs := by
        have := congrArg (List.take bs) e2
        rw [(hr.whole m (tops_subset_labels _ m hm)).take_key_append, List.take_append_of_le_length] at this
        · exact this
        · have := hn.key_length; rw [RadixNode.key, List.length_take] at this; omega
      exact hs m hm e3
    · intro k h1 h2
      obtain ⟨⟨k, b⟩, hk, rfl⟩ := List.mem_map.mp h1
      obtain ⟨i, hi, rfl⟩ := mem_edgeCells.mp hk
      have hlt := List.getElem?_eq_some_iff.mp hi |>.1
      have hle : (i + 1) * bs ≤ n.blocks.length * bs := Nat.mul_le_mul_right bs hlt
      have hge : bs ≤ (i + 1) * bs := by rw [Nat.succ_mul]; omega
      rcases List.mem_append.mp h2 with h2 | h2
      · obtain ⟨⟨k', b'⟩, hk', e⟩ := List.mem_map.mp h2
        obtain ⟨m', hm', s', hms'⟩ := cells_key hk' hb
        have hlen := (hb.whole m' (tops_subset_labels _ m' hm')).key_length
        have e' : k' = p ++ n.tokens.take ((i + 1) * bs) := e
        have := congrArg List.length (hms'.symm.trans e')
        have htok := hn.2
        simp at this
        omega
      · obtain ⟨⟨k', b'⟩, hk', e⟩ := List.mem_map.mp h2
        obtain ⟨m, hm, s, hms⟩ := cells_key hk' hr
        have e2 : m.key bs ++ s = n.tokens.take ((i + 1) * bs) := by
          have : k' = p ++ n.tokens.take ((i + 1) * bs) := e
          exact List.append_cancel_left (hms.symm.trans this)
        have e3 : m.key bs = n.key bs := by
          have := congrArg (List.take bs) e2
          rw [(hr.whole m (tops_subset_labels _ m hm)).take_key_append, List.take_take,
            Nat.min_eq_left hge] at this
          exact this
        exact hs m hm e3

theorem cells_functional {p k : List Token} {F : Forest RadixNode} (hbs : 0 < bs) (hw : WF bs F)
    {b c : Int} (h1 : (k, b) ∈ cells bs p F) (h2 : (k, c) ∈ cells bs p F) : b = c :=
  congrArg Prod.snd (List.inj_on_of_nodup_map (cells_key_nodup hbs hw) h1 h2 rfl)

def pathTokens (F : Forest RadixNode) (u : Nat) : List Token :=
  (F.path RadixNode.uid u).flatMap RadixNode.tokens

def pathBlocks (F : Forest RadixNode) (u : Nat) : List Int :=
  (F.path RadixNode.uid u).flatMap RadixNode.blocks

theorem path_whole_length {l : List RadixNode} (h : ∀ n ∈ l, Whole bs n) :
    (l.flatMap RadixNode.tokens).length = (l.flatMap RadixNode.blocks).length * bs := by
  induction l with
  | nil => simp
  | cons n l ih =>
    have h1 := (h n (by simp)).2
    have h2 := ih (fun m hm => h m (by simp [hm]))
    simp only [List.flatMap_cons, List.length_append, h1, h2, Nat.add_mul]

theorem pathTokens_length {F : Forest RadixNode} (hw : WF bs F) (u : Nat) :
    (pathTokens F u).length = (pathBlocks F u).length * bs :=
  path_whole_length fun n hn => hw.whole n (path_subset u F n hn)

theorem path_cells {p : List Token} {F : Forest RadixNode} (hw : WF bs F) (u : Nat) :
    edgeCells bs p (pathTokens F u) (pathBlocks F u) ⊆ cells bs p F := by
  induction F generalizing p with
  | nil => simp [pathBlocks, path, edgeCells]
  | cons n b r ihb ihr =>
    obtain ⟨hn, -, hb, hr⟩ := hw
    simp only [pathTokens, pathBlocks, path, cells]
    split_ifs with h1 h2
    · simp
    · simp only [List.flatMap_cons]
      rw [edgeCells_append _ hn.2]
      intro x hx
      rcases List.mem_append.mp hx with hx | hx
      · simp [hx]
      · have := ihb hb hx; simp [this]
    · intro x hx
      have := ihr hr hx; simp [this]

theorem pathBlocks_subset (F : Forest RadixNode) (u : Nat) :
    ∀ b ∈ pathBlocks F u, b ∈ F.labels.flatMap RadixNode.blocks := by
  intro b hb
  obtain ⟨n, hn, hbn⟩ := List.mem_flatMap.mp hb
  exact List.mem_flatMap.mpr ⟨n, path_subset u F n hn, hbn⟩

theorem pathBlocks_prefix {F : Forest RadixNode} (hbs : 0 < bs) (hw : WF bs F) {u v : Nat}
    (h : pathTokens F u <+: pathTokens F v) : pathBlocks F u <+: pathBlocks F v := by
  have hlu := pathTokens_length hw u
  have hlv := pathTokens_length hw v
  have hle : (pathBlocks F u).length ≤ (pathBlocks F v).length := by
    have := h.length_le
    rw [hlu, hlv] at this
    exact Nat.le_of_mul_le_mul_right this hbs
  rw [List.prefix_iff_eq_take]
  apply List.ext_getElem
  · simp; omega
  · intro i hi hi'
    have hmu : (([] : List Token) ++ (pathTokens F u).take ((i + 1) * bs), (pathBlocks F u)[i]) ∈ cells bs [] F :=
      path_cells hw u (mem_edgeCells.mpr ⟨i, by simp, rfl⟩)
    have hiv : i < (pathBlocks F v).length := by omega
    have hmv : (([] : List Token) ++ (pathTokens F v).take ((i + 1) * bs), (pathBlocks F v)[i]) ∈ cells bs [] F :=
      path_cells hw v (mem_edgeCells.mpr ⟨i, by simp, rfl⟩)
    have htk : (pathTokens F v).take ((i + 1) * bs) = (pathTokens F u).take ((i + 1) * bs) := by
      have hle2 : (i + 1) * bs ≤ (pathTokens F u).length := by
        rw [hlu]; exact Nat.mul_le_mul_right bs hi
      rw [List.prefix_iff_eq_take.mp h, List.take_take, Nat.min_eq_left hle2]
    rw [htk] at hmv
    rw [List.getElem_take]
    exact cells_functional hbs hw hmu hmv

end MiniServe
