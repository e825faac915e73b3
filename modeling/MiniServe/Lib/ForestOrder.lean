import MiniServe.Lib.ForestEdit
import MiniServe.Lib.ForestLoad

namespace Forest

variable {α κ : Type} {f : α → Nat} {F : Forest α}

def Falling (f : α → Nat) : Forest α → Prop
  | nil => True
  | cons a b r => (∀ c ∈ b.labels, f c ≤ f a) ∧ Falling f b ∧ Falling f r

theorem falling_nodes (h : Falling f F) : ∀ x ∈ F.nodes, ∀ c ∈ x.2.labels, f c ≤ f x.1 := by
  induction F with
  | nil => simp
  | cons a b r ihb ihr =>
    intro x hx
    simp only [nodes_cons, List.mem_cons, List.mem_append] at hx
    rcases hx with rfl | hx | hx
    · exact h.1
    · exact ihb h.2.1 x hx
    · exact ihr h.2.2 x hx

theorem labels_map {β : Type} (g : α → β) (F : Forest α) : (F.map g).labels = F.labels.map g := by
  induction F with
  | nil => rfl
  | cons a b r ihb ihr => simp [map, ihb, ihr]

theorem falling_map {g : α → α} (hg : ∀ a, f (g a) = f a) : Falling f (F.map g) ↔ Falling f F := by
  induction F with
  | nil => exact Iff.rfl
  | cons a b r ihb ihr => simp [map, Falling, labels_map, hg, ihb, ihr]

theorem falling_append {x : α} (h : Falling f F) : Falling f (append x F) := by
  induction F with
  | nil => exact ⟨by simp, trivial, trivial⟩
  | cons a b r _ ihr => exact ⟨h.1, h.2.1, ihr h.2.2⟩

theorem nodes_trans {x y : α × Forest α} (hx : x ∈ F.nodes) (hy : y ∈ x.2.nodes) : y ∈ F.nodes := by
  induction F with
  | nil => simp at hx
  | cons a b r ihb ihr =>
    simp only [nodes_cons, List.mem_cons, List.mem_append] at hx ⊢
    rcases hx with rfl | hx | hx
    · exact .inr (.inl hy)
    · exact .inr (.inl (ihb hx))
    · exact .inr (.inr (ihr hx))

theorem exists_leaf_below {w : α → Nat} {h : κ → Nat} {key : α → κ} (hc : Carries key w h F) {x : α × Forest α}
    (hx : x ∈ F.nodes) (hw : w x.1 = 0) : ∃ c ∈ F.leaves, w c = 0 ∧ (c = x.1 ∨ c ∈ x.2.labels) := by
  obtain ⟨a, G⟩ := x
  cases G with
  | nil => exact ⟨a, (mem_leaves_iff F a).mpr hx, hw, .inl rfl⟩
  | cons c b r =>
    have hzero : w c = 0 := by
      have := carries_below_le hc hx c (by simp)
      omega
    obtain ⟨l, hl, hl0⟩ := exists_leaf_of_zero (carries_nodes hc _ hx).2 (a := c) (by simp) hzero
    refine ⟨l, ?_, hl0, .inr (leaves_subset_labels _ l hl)⟩
    exact (mem_leaves_iff F l).mpr (nodes_trans hx ((mem_leaves_iff _ l).mp hl))

variable [DecidableEq κ] {key : α → κ}

theorem remove_labels_subset (k : κ) (F : Forest α) : ∀ a ∈ (remove key k F).labels, a ∈ F.labels := by
  induction F with
  | nil => simp [remove]
  | cons a b r ihb ihr =>
    intro x hx
    rw [remove] at hx
    split at hx
    · simp [ihr x hx]
    · simp only [labels_cons, List.mem_cons, List.mem_append] at hx ⊢
      rcases hx with hx | hx | hx
      · exact .inl hx
      · exact .inr (.inl (ihb x hx))
      · exact .inr (.inr (ihr x hx))

theorem falling_remove (k : κ) (h : Falling f F) : Falling f (remove key k F) := by
  induction F with
  | nil => trivial
  | cons a b r ihb ihr =>
    rw [remove]
    split
    · exact ihr h.2.2
    · exact ⟨fun c hc => h.1 c (remove_labels_subset k b c hc), ihb h.2.1, ihr h.2.2⟩

theorem falling_addUnder {x : α} {u : κ} (hn : (keys key F).Nodup) (hx : ∀ a ∈ path key u F, f x ≤ f a)
    (h : Falling f F) : Falling f (addUnder key u x F) := by
  induction F with
  | nil => trivial
  | cons a b r ihb ihr =>
    obtain ⟨hab, har, hb, hr, hd⟩ := nodup_keys_cons key hn
    by_cases e : key a = u
    · rw [addUnder, if_pos e]
      refine ⟨fun c hc => ?_, falling_append h.2.1, h.2.2⟩
      rw [labels_append] at hc
      rcases List.mem_append.mp hc with hc | hc
      · exact h.1 c hc
      · rw [List.mem_singleton.mp hc]
        exact hx a (by simp [path, e])
    · rw [addUnder, if_neg e]
      by_cases hub : u ∈ keys key b
      · rw [addUnder_absent x (hd u hub)]
        have hpath : path key u (cons a b r) = a :: path key u b := by simp [path, e, hub]
        rw [hpath] at hx
        refine ⟨fun c hc => ?_, ihb hb (fun c hc => hx c (List.mem_cons_of_mem _ hc)) h.2.1, h.2.2⟩
        rcases List.mem_cons.mp ((perm_labels_addUnder x hb hub).mem_iff.mp hc) with rfl | hc
        · exact hx a (by simp)
        · exact h.1 c hc
      · rw [addUnder_absent x hub]
        have hpath : path key u (cons a b r) = path key u r := by simp [path, e, hub]
        exact ⟨h.1, h.2.1, ihr hr (hpath ▸ hx) h.2.2⟩

theorem nodes_remove {k : κ} {F : Forest α} (hl : ∀ x ∈ F.nodes, key x.1 = k → x.2 = nil) {c : α} {G : Forest α}
    (hc : (c, G) ∈ F.nodes) (hk : key c ≠ k) : (c, remove key k G) ∈ (remove key k F).nodes := by
  induction F with
  | nil => simp at hc
  | cons a b r ihb ihr =>
    have hlb : ∀ x ∈ b.nodes, key x.1 = k → x.2 = nil := fun x hx => hl x (by simp [hx])
    have hlr : ∀ x ∈ r.nodes, key x.1 = k → x.2 = nil := fun x hx => hl x (by simp [hx])
    simp only [nodes_cons, List.mem_cons, List.mem_append] at hc
    by_cases e : key a = k
    · obtain rfl : b = nil := hl (a, b) (by simp) e
      rw [remove, if_pos e]
      rcases hc with hc | hc | hc
      · exact absurd (congrArg (fun x => key x.1) hc ▸ e) hk
      · simp at hc
      · exact ihr hlr hc
    · rw [remove, if_neg e]
      simp only [nodes_cons, List.mem_cons, List.mem_append]
      rcases hc with hc | hc | hc
      · obtain ⟨rfl, rfl⟩ := Prod.mk.inj hc
        exact .inl rfl
      · exact .inr (.inl (ihb hlb hc))
      · exact .inr (.inr (ihr hlr hc))

-- What is left of a forest when the nodes of a list have been removed one by one, each as a leaf.
structure Pruned (F : Forest α) (removed : List α) (F' : Forest α) : Prop where
  perm : F.labels.Perm (removed ++ F'.labels)
  nodes : ∀ x ∈ F.nodes, x.1 ∉ removed →
    ∃ G, (x.1, G) ∈ F'.nodes ∧ ∀ d, d ∈ G.labels ↔ d ∈ x.2.labels ∧ d ∉ removed

omit [DecidableEq κ] in
theorem Pruned.refl (F : Forest α) : Pruned F [] F :=
  ⟨List.Perm.refl _, fun x hx _ => ⟨x.2, hx, fun d => by simp⟩⟩

variable {F' : Forest α} {removed : List α}

theorem Pruned.remove (h : Pruned F removed F') (hn : (keys key F').Nodup) {a : α} (ha : a ∈ F'.leaves) :
    Pruned F (removed ++ [a]) (Forest.remove key (key a) F') := by
  have hleaf := leaf_unique hn ha
  refine ⟨?_, fun x hx hnot => ?_⟩
  · refine h.perm.trans ?_
    rw [List.append_assoc]
    exact List.Perm.append_left _ (perm_remove hn ha)
  · simp only [List.mem_append, List.mem_singleton, not_or] at hnot
    obtain ⟨G, hG, hlabels⟩ := h.nodes x hx hnot.1
    have hin (d : α) (hd : d ∈ G.labels) : d ∈ F'.labels := by
      rw [labels_eq_nodes] at hd ⊢
      obtain ⟨y, hy, rfl⟩ := List.mem_map.mp hd
      exact List.mem_map_of_mem (nodes_trans hG hy)
    have hx' : x.1 ∈ F'.labels := by rw [labels_eq_nodes]; exact List.mem_map.mpr ⟨_, hG, rfl⟩
    have hlab := leaves_subset_labels F' a ha
    have hkey (d : α) (hd : d ∈ F'.labels) : key d ≠ key a ↔ d ≠ a :=
      not_congr ⟨fun e => label_unique key hn hd hlab e, fun e => congrArg key e⟩
    refine ⟨Forest.remove key (key a) G, nodes_remove hleaf hG ((hkey x.1 hx').mpr hnot.2), fun d => ?_⟩
    rw [labels_remove fun y hy => hleaf y (nodes_trans hG hy), List.mem_filter, decide_eq_true_eq]
    simp only [List.mem_append, List.mem_singleton, not_or]
    constructor
    · rintro ⟨hd, hne⟩
      exact ⟨((hlabels d).mp hd).1, ((hlabels d).mp hd).2, (hkey d (hin d hd)).mp hne⟩
    · rintro ⟨hd, hnr, hne⟩
      have hdG := (hlabels d).mpr ⟨hd, hnr⟩
      exact ⟨hdG, (hkey d (hin d hdG)).mpr hne⟩

omit [DecidableEq κ] in
theorem Pruned.leaf_iff (h : Pruned F removed F') (hn : (keys key F).Nodup) (hn' : (keys key F').Nodup)
    {x : α × Forest α} (hx : x ∈ F.nodes) :
    x.1 ∈ F'.leaves ↔ x.1 ∉ removed ∧ ∀ d ∈ x.2.labels, d ∈ removed := by
  constructor
  · intro hl
    have hnot : x.1 ∉ removed := by
      intro hm
      have hnd : (removed ++ F'.labels).Nodup := h.perm.nodup_iff.mp (List.Nodup.of_map key hn)
      exact (List.nodup_append'.mp hnd).2.2 hm (leaves_subset_labels _ _ hl)
    obtain ⟨G, hG, hlabels⟩ := h.nodes x hx hnot
    obtain rfl : G = nil := leaf_unique hn' hl _ hG rfl
    refine ⟨hnot, fun d hd => ?_⟩
    by_contra hdr
    simpa using (hlabels d).mpr ⟨hd, hdr⟩
  · rintro ⟨hnot, hall⟩
    obtain ⟨G, hG, hlabels⟩ := h.nodes x hx hnot
    have hnil : G = nil := by
      cases G with
      | nil => rfl
      | cons c b r =>
        have := (hlabels c).mp (by simp)
        exact absurd (hall c this.1) this.2
    exact (mem_leaves_iff F' x.1).mpr (hnil ▸ hG)

end Forest
