import MiniServe.Lib.Forest

namespace Forest

variable {α κ : Type} [DecidableEq κ] {key : α → κ}

def Carries (key : α → κ) (w : α → Nat) (h : κ → Nat) : Forest α → Prop
  | nil => True
  | cons a b r => w a = h (key a) + weight (h ∘ key) b ∧ Carries key w h b ∧ Carries key w h r

omit [DecidableEq κ] in
theorem weight_le_of_mem_keys (h : κ → Nat) {F : Forest α} {k : κ} (hk : k ∈ keys key F) :
    h k ≤ weight (h ∘ key) F := by
  obtain ⟨a, ha, rfl⟩ := (mem_keys key).mp hk
  exact weight_le_of_mem (h ∘ key) F ha

theorem weight_update {h h' : κ → Nat} {k : κ} {c d : Nat} (hk : h' k + c = h k + d)
    (ho : ∀ x, x ≠ k → h' x = h x) {F : Forest α} (hn : (keys key F).Nodup) :
    if k ∈ keys key F then weight (h' ∘ key) F + c = weight (h ∘ key) F + d
    else weight (h' ∘ key) F = weight (h ∘ key) F := by
  induction F with
  | nil => simp
  | cons a b r ihb ihr =>
    obtain ⟨hab, har, hb, hr, hd⟩ := nodup_keys_cons key hn
    have ihb := ihb hb
    have ihr := ihr hr
    simp only [keys_cons, List.mem_cons, List.mem_append, weight_cons, Function.comp_apply]
    by_cases e : key a = k
    · subst e
      simp only [hab, har, if_false] at ihb ihr
      simp only [true_or, if_true]; omega
    · have ha := ho (key a) e
      by_cases h1 : k ∈ keys key b
      · simp only [h1, hd k h1, if_true, if_false] at ihb ihr
        simp only [h1, true_or, or_true, if_true]; omega
      · by_cases h2 : k ∈ keys key r
        · simp only [h1, h2, if_true, if_false] at ihb ihr
          simp only [h2, or_true, if_true]; omega
        · simp only [h1, h2, if_false] at ihb ihr
          simp only [Ne.symm e, h1, h2, or_self, if_false]; omega

omit [DecidableEq κ] in
theorem carries_congr {w : α → Nat} {h h' : κ → Nat} {F : Forest α}
    (hk : ∀ k ∈ keys key F, h' k = h k) (hc : Carries key w h F) : Carries key w h' F := by
  induction F with
  | nil => trivial
  | cons a b r ihb ihr =>
    obtain ⟨h1, h2, h3⟩ := hc
    refine ⟨?_, ihb (fun k hk' => hk k (by simp [hk'])) h2, ihr (fun k hk' => hk k (by simp [hk'])) h3⟩
    rw [h1, hk (key a) (by simp)]
    congr 1
    apply weight_congr
    intro c hc
    exact (hk (key c) (by simp [(mem_keys key).mpr ⟨c, hc, rfl⟩])).symm

theorem carries_mapPath {w : α → Nat} {f : α → α} {h h' : κ → Nat} {k : κ} {c d : Nat}
    {F : Forest α} (hf : ∀ a, key (f a) = key a) (hw : ∀ a ∈ path key k F, w (f a) + c = w a + d)
    (hk : h' k + c = h k + d) (ho : ∀ x, x ≠ k → h' x = h x) (hn : (keys key F).Nodup)
    (hm : k ∈ keys key F) (hc : Carries key w h F) : Carries key w h' (mapPath key k f F) := by
  induction F with
  | nil => simp at hm
  | cons a b r ihb ihr =>
    obtain ⟨hab, har, hb, hr, hd⟩ := nodup_keys_cons key hn
    obtain ⟨h1, h2, h3⟩ := hc
    have frame : ∀ {G : Forest α}, k ∉ keys key G → Carries key w h G → Carries key w h' G :=
      fun hG => carries_congr fun x hx => ho x fun e => hG (e ▸ hx)
    by_cases e : key a = k
    · have hwa := hw a (by simp [path, e])
      have hwt := weight_update hk ho (F := b) hb
      rw [if_neg (by rwa [← e])] at hwt
      rw [mapPath, if_pos e]
      refine ⟨?_, frame (by rwa [← e]) h2, frame (by rwa [← e]) h3⟩
      rw [hf, e]; rw [e] at h1; omega
    · by_cases hkb : k ∈ keys key b
      · have hwa := hw a (by simp [path, e, hkb])
        have hwt := weight_update hk ho (F := b) hb
        rw [if_pos hkb] at hwt
        have hkeep : weight (h' ∘ key) (mapPath key k f b) = weight (h' ∘ key) b := by
          unfold weight
          rw [map_labels_mapPath (h' ∘ key) (fun x => congrArg h' (hf x))]
        rw [mapPath, if_neg e, if_pos hkb]
        refine ⟨?_, ihb (fun x hx => hw x (by simp [path, e, hkb, hx])) hb hkb h2, frame (hd k hkb) h3⟩
        rw [hf, hkeep, ho _ e]; omega
      · have hkr : k ∈ keys key r := by simpa [Ne.symm e, hkb] using hm
        rw [mapPath, if_neg e, if_neg hkb]
        have hwt := weight_update hk ho (F := b) hb
        rw [if_neg hkb] at hwt
        refine ⟨?_, frame hkb h2, ihr (fun x hx => hw x (by simpa [path, e, hkb] using hx)) hr hkr h3⟩
        rw [ho _ e, hwt, h1]

theorem carries_remove {w : α → Nat} {h : κ → Nat} {k : κ} {F : Forest α} (hk : h k = 0)
    (hl : ∀ x ∈ F.nodes, key x.1 = k → x.2 = nil) (hc : Carries key w h F) :
    Carries key w h (remove key k F) := by
  induction F with
  | nil => trivial
  | cons a b r ihb ihr =>
    obtain ⟨h1, h2, h3⟩ := hc
    have hb := ihb (fun x hx => hl x (by simp [hx])) h2
    have hr := ihr (fun x hx => hl x (by simp [hx])) h3
    by_cases e : key a = k
    · simpa [remove, e] using hr
    · rw [remove, if_neg e]
      refine ⟨?_, hb, hr⟩
      have hwr := @weight_remove _ _ key _ k b (fun x hx => hl x (by simp [hx])) (h ∘ key)
      have hz : weight (fun a => if key a = k then (h ∘ key) a else 0) b = 0 := by
        rw [weight_congr (g := fun _ => 0)]
        · simp [weight]
        · intro c _; simp only [Function.comp_apply]; split
          · next e' => rw [e', hk]
          · rfl
      omega

omit [DecidableEq κ] in
theorem carries_append {w : α → Nat} {h : κ → Nat} {x : α} {F : Forest α} (hx : h (key x) = 0)
    (hw : w x = 0) (hc : Carries key w h F) : Carries key w h (append x F) := by
  induction F with
  | nil => exact ⟨by simp [hx, hw], trivial, trivial⟩
  | cons a b r _ ihr => exact ⟨hc.1, hc.2.1, ihr hc.2.2⟩

theorem weight_addUnder_of_zero {f : α → Nat} {x : α} (k : κ) (F : Forest α) (hx : f x = 0) :
    weight f (addUnder key k x F) = weight f F := by
  induction F with
  | nil => rfl
  | cons a b r ihb ihr =>
    rw [addUnder]
    split
    · simp [weight_append, hx]
    · simp [ihb, ihr]

theorem carries_addUnder {w : α → Nat} {h : κ → Nat} {x : α} {k : κ} {F : Forest α}
    (hx : h (key x) = 0) (hw : w x = 0) (hc : Carries key w h F) :
    Carries key w h (addUnder key k x F) := by
  induction F with
  | nil => trivial
  | cons a b r ihb ihr =>
    obtain ⟨h1, h2, h3⟩ := hc
    rw [addUnder]
    split
    · exact ⟨by rw [weight_append, h1]; simp [hx], carries_append hx hw h2, h3⟩
    · refine ⟨?_, ihb h2, ihr h3⟩
      rw [weight_addUnder_of_zero (f := h ∘ key) k b hx, h1]

theorem carries_path {w : α → Nat} {h : κ → Nat} {k : κ} {F : Forest α} (hc : Carries key w h F) :
    ∀ a ∈ path key k F, h k ≤ w a := by
  induction F with
  | nil => simp [path]
  | cons a b r ihb ihr =>
    obtain ⟨h1, h2, h3⟩ := hc
    intro x hx
    simp only [path] at hx
    split_ifs at hx with e hb
    · simp only [List.mem_singleton] at hx
      subst hx; rw [e] at h1; omega
    · rcases List.mem_cons.mp hx with rfl | hx
      · have := weight_le_of_mem_keys h hb; omega
      · exact ihb h2 x hx
    · exact ihr h3 x hx

omit [DecidableEq κ] in
theorem carries_nodes {w : α → Nat} {h : κ → Nat} {F : Forest α} (hc : Carries key w h F) :
    ∀ x ∈ F.nodes, w x.1 = h (key x.1) + weight (h ∘ key) x.2 ∧ Carries key w h x.2 := by
  induction F with
  | nil => simp
  | cons a b r ihb ihr =>
    obtain ⟨h1, h2, h3⟩ := hc
    intro x hx
    simp only [nodes_cons, List.mem_cons, List.mem_append] at hx
    rcases hx with rfl | hx | hx
    · exact ⟨h1, h2⟩
    · exact ihb h2 x hx
    · exact ihr h3 x hx

omit [DecidableEq κ] in
theorem carries_le_weight {w : α → Nat} {h : κ → Nat} {F : Forest α} (hc : Carries key w h F) :
    ∀ a ∈ F.labels, w a ≤ weight (h ∘ key) F := by
  induction F with
  | nil => simp
  | cons c b r ihb ihr =>
    obtain ⟨h1, h2, h3⟩ := hc
    intro a ha
    simp only [labels_cons, List.mem_cons, List.mem_append] at ha
    simp only [weight_cons, Function.comp_apply]
    rcases ha with rfl | ha | ha
    · omega
    · have := ihb h2 a ha; omega
    · have := ihr h3 a ha; omega

omit [DecidableEq κ] in
theorem carries_below_le {w : α → Nat} {h : κ → Nat} {F : Forest α} (hc : Carries key w h F)
    {x : α × Forest α} (hx : x ∈ F.nodes) : ∀ a ∈ x.2.labels, w a ≤ w x.1 := by
  obtain ⟨h1, h2⟩ := carries_nodes hc x hx
  intro a ha
  have := carries_le_weight h2 a ha
  omega

omit [DecidableEq κ] in
theorem exists_leaf_of_zero {w : α → Nat} {h : κ → Nat} {F : Forest α} (hc : Carries key w h F)
    {a : α} (ha : a ∈ F.labels) (hw : w a = 0) : ∃ c ∈ F.leaves, w c = 0 := by
  induction F generalizing a with
  | nil => simp at ha
  | cons c b r ihb ihr =>
    obtain ⟨h1, h2, h3⟩ := hc
    have below : ∀ {x : α}, x ∈ b.labels → w x = 0 → ∃ c' ∈ (cons c b r).leaves, w c' = 0 := by
      intro x hx hwx
      obtain ⟨l, hl, hwl⟩ := ihb h2 hx hwx
      refine ⟨l, ?_, hwl⟩
      cases b with
      | nil => simp at hx
      | cons d e f => exact List.mem_append_left _ hl
    simp only [labels_cons, List.mem_cons, List.mem_append] at ha
    rcases ha with rfl | ha | ha
    · cases b with
      | nil => exact ⟨a, by simp [leaves], hw⟩
      | cons d e f =>
        have hd : w d = 0 := by
          have := carries_le_weight h2 d (by simp)
          omega
        exact below (by simp) hd
    · exact below ha hw
    · obtain ⟨l, hl, hwl⟩ := ihr h3 ha hw
      refine ⟨l, ?_, hwl⟩
      cases b with
      | nil => exact List.mem_cons_of_mem _ hl
      | cons d e f => exact List.mem_append_right _ hl

omit [DecidableEq κ] in
theorem nodup_subtree {F : Forest α} (hn : (keys key F).Nodup) {x : α × Forest α} (hx : x ∈ F.nodes) :
    (key x.1 :: keys key x.2).Nodup := by
  induction F with
  | nil => simp at hx
  | cons a b r ihb ihr =>
    obtain ⟨hnb, -, hb, hr, -⟩ := nodup_keys_cons key hn
    simp only [nodes_cons, List.mem_cons, List.mem_append] at hx
    rcases hx with rfl | hx | hx
    · exact List.nodup_cons.mpr ⟨hnb, hb⟩
    · exact ihb hb hx
    · exact ihr hr hx

theorem path_below {F : Forest α} (hn : (keys key F).Nodup) {x : α × Forest α} (hx : x ∈ F.nodes) {k : κ}
    (hk : k ∈ keys key x.2) : x.1 ∈ path key k F ∧ k ∈ keys key F := by
  induction F with
  | nil => simp at hx
  | cons a b r ihb ihr =>
    obtain ⟨hnb, hnr, hb, hr, hd⟩ := nodup_keys_cons key hn
    simp only [nodes_cons, List.mem_cons, List.mem_append] at hx
    rcases hx with rfl | hx | hx
    · have hne : key a ≠ k := fun e => hnb (e ▸ hk)
      rw [path, if_neg hne, if_pos hk]
      simp [hk]
    · obtain ⟨h1, h2⟩ := ihb hb hx
      have hne : key a ≠ k := fun e => hnb (e ▸ h2)
      rw [path, if_neg hne, if_pos h2]
      simp [h1, h2]
    · obtain ⟨h1, h2⟩ := ihr hr hx
      have hne : key a ≠ k := fun e => hnr (e ▸ h2)
      rw [path, if_neg hne, if_neg (fun h => hd k h h2)]
      simp [h1, h2]

theorem exists_path_of_pos {w : α → Nat} {h : κ → Nat} {F : Forest α} (hn : (keys key F).Nodup)
    (hc : Carries key w h F) {a : α} (ha : a ∈ F.labels) (hw : 0 < w a) : ∃ k, 0 < h k ∧ a ∈ path key k F := by
  rw [labels_eq_nodes] at ha
  obtain ⟨x, hx, rfl⟩ := List.mem_map.mp ha
  have he := (carries_nodes hc x hx).1
  by_cases h0 : h (key x.1) = 0
  · have hpos : 0 < weight (h ∘ key) x.2 := by omega
    obtain ⟨v, hv, hv0⟩ := List.sum_pos_iff_exists_pos_nat.mp hpos
    obtain ⟨c, hcm, rfl⟩ := List.mem_map.mp hv
    exact ⟨key c, hv0, (path_below hn hx ((mem_keys key).mpr ⟨c, hcm, rfl⟩)).1⟩
  · refine ⟨key x.1, Nat.pos_of_ne_zero h0, mem_path_self hn ?_⟩
    rw [labels_eq_nodes]
    exact List.mem_map_of_mem hx

end Forest
