import MiniServe.Lib.Forest

namespace Forest

variable {α κ : Type} [DecidableEq κ] {key : α → κ}

omit [DecidableEq κ] in
theorem mem_keys_append {x : α} {k : κ} (hk : k ≠ key x) (F : Forest α) :
    k ∈ keys key (append x F) ↔ k ∈ keys key F := by
  simp [keys, labels_append, hk]

theorem path_append_old {x : α} {k : κ} (hk : k ≠ key x) (F : Forest α) :
    path key k (append x F) = path key k F := by
  induction F with
  | nil => simp [append, path, Ne.symm hk]
  | cons a b r _ ihr => simp only [append, path, ihr]

theorem path_append_new {x : α} {F : Forest α} (h : key x ∉ keys key F) :
    path key (key x) (append x F) = [x] := by
  induction F with
  | nil => simp [append, path]
  | cons a b r _ ihr =>
    simp only [keys_cons, List.mem_cons, List.mem_append, not_or] at h
    simp [append, path, Ne.symm h.1, h.2.1, ihr h.2.2]

theorem mem_keys_addUnder {x : α} {k u : κ} (hk : k ≠ key x) (F : Forest α) :
    k ∈ keys key (addUnder key u x F) ↔ k ∈ keys key F := by
  induction F with
  | nil => simp [addUnder]
  | cons a b r ihb ihr =>
    rw [addUnder]
    split
    · simp [mem_keys_append hk]
    · simp [ihb, ihr]

theorem path_addUnder_old {x : α} {k u : κ} (hk : k ≠ key x) (F : Forest α) :
    path key k (addUnder key u x F) = path key k F := by
  induction F with
  | nil => rfl
  | cons a b r ihb ihr =>
    rw [addUnder]
    split
    · simp only [path, mem_keys_append hk, path_append_old hk]
    · simp only [path, mem_keys_addUnder hk, ihb, ihr]

theorem mem_keys_addUnder_new {x : α} {u : κ} {F : Forest α} (hn : (keys key F).Nodup)
    (hu : u ∈ keys key F) : key x ∈ keys key (addUnder key u x F) := by
  rw [mem_keys]
  exact ⟨x, (perm_labels_addUnder x hn hu).mem_iff.mpr (by simp), rfl⟩

theorem path_addUnder_new {x : α} {u : κ} {F : Forest α} (hn : (keys key F).Nodup)
    (hu : u ∈ keys key F) (hx : key x ∉ keys key F) :
    path key (key x) (addUnder key u x F) = path key u F ++ [x] := by
  induction F with
  | nil => simp at hu
  | cons a b r ihb ihr =>
    obtain ⟨hab, har, hb, hr, hd⟩ := nodup_keys_cons key hn
    simp only [keys_cons, List.mem_cons, List.mem_append, not_or] at hx hu
    obtain ⟨hxa, hxb, hxr⟩ := hx
    by_cases e : key a = u
    · have hm : key x ∈ keys key (append x b) := by simp [keys, labels_append]
      simp [addUnder, path, e ▸ Ne.symm hxa, e, hm, path_append_new hxb]
    · rw [addUnder, if_neg e]
      rcases hu with hu | hu | hu
      · exact absurd hu.symm e
      · simp [path, Ne.symm hxa, mem_keys_addUnder_new hb hu, e, hu, ihb hb hu hxb]
      · have hub : u ∉ keys key b := fun h => hd u h hu
        rw [addUnder_absent x hub]
        simp [path, Ne.symm hxa, hxb, e, hub, ihr hr hu hxr]

theorem path_mapPath {k : κ} {f : α → α} (hf : ∀ a, key (f a) = key a) (F : Forest α) :
    path key k (mapPath key k f F) = (path key k F).map f := by
  induction F with
  | nil => rfl
  | cons a b r ihb ihr =>
    simp only [mapPath, path]
    split_ifs with h1 h2
    · simp [path, hf, h1]
    · simp [path, hf, h1, keys_mapPath hf, h2, ihb]
    · simp [path, h1, h2, ihr]

theorem mapPath_mapPath {k : κ} {f g : α → α} (hf : ∀ a, key (f a) = key a) (hg : ∀ a, g (f a) = a)
    (F : Forest α) : mapPath key k g (mapPath key k f F) = F := by
  induction F with
  | nil => rfl
  | cons a b r ihb ihr =>
    simp only [mapPath]
    split_ifs with h1 h2
    · simp [mapPath, hf, h1, hg]
    · simp [mapPath, hf, h1, keys_mapPath hf, h2, hg, ihb]
    · simp [mapPath, h1, h2, ihr]

theorem map_climb {β : Type} {k : κ} {visit : α → Option (α × Int)} {g : α → β}
    (hv : ∀ {a a' d}, visit a = some (a', d) → g a' = g a) (F : Forest α) :
    (climb key k visit F).2.1.map g = F.map g := by
  induction F with
  | nil => rfl
  | cons a b r ihb ihr =>
    rw [climb]
    split
    · split
      · next h => simp [map, hv h]
      · rfl
    · split
      · simp [map, ihr]
      · next h =>
        rw [h] at ihb
        simp [map, ihb]
      · next h =>
        rw [h] at ihb
        split
        · next h' => simp [map, hv h', ihb]
        · simp [map, ihb]

theorem keys_remove {k : κ} {F : Forest α} (h : ∀ x ∈ F.nodes, key x.1 = k → x.2 = nil) :
    keys key (remove key k F) = (keys key F).filter (· ≠ k) := by
  unfold keys
  rw [labels_remove h, List.filter_map]
  rfl

theorem mem_keys_remove {k u : κ} {F : Forest α} (h : ∀ x ∈ F.nodes, key x.1 = u → x.2 = nil) :
    k ∈ keys key (remove key u F) ↔ k ∈ keys key F ∧ k ≠ u := by
  rw [keys_remove h, List.mem_filter]
  simp

theorem path_remove {k u : κ} {F : Forest α} (h : ∀ x ∈ F.nodes, key x.1 = u → x.2 = nil)
    (hk : k ≠ u) : path key k (remove key u F) = path key k F := by
  induction F with
  | nil => rfl
  | cons a b r ihb ihr =>
    have hlb : ∀ x ∈ b.nodes, key x.1 = u → x.2 = nil := fun x hx => h x (by simp [hx])
    have hlr : ∀ x ∈ r.nodes, key x.1 = u → x.2 = nil := fun x hx => h x (by simp [hx])
    by_cases e : key a = u
    · have hnil : b = nil := h (a, b) (by simp) e
      subst hnil
      simp [remove, path, e, ihr hlr, Ne.symm hk]
    · simp [remove, path, e, mem_keys_remove hlb, hk, ihb hlb, ihr hlr]

omit [DecidableEq κ] in
theorem leaf_unique {F : Forest α} (hn : (keys key F).Nodup) {a : α} (ha : a ∈ F.leaves) :
    ∀ x ∈ F.nodes, key x.1 = key a → x.2 = nil := by
  induction F with
  | nil => simp [leaves] at ha
  | cons c b r ihb ihr =>
    obtain ⟨hcb, hcr, hb, hr, hd⟩ := nodup_keys_cons key hn
    have inKeys : ∀ {G : Forest α} {x : α × Forest α}, x ∈ G.nodes → key x.1 ∈ keys key G := by
      intro G x hx
      rw [mem_keys, labels_eq_nodes]
      exact ⟨x.1, List.mem_map_of_mem hx, rfl⟩
    have leafKeys : ∀ {G : Forest α}, a ∈ G.leaves → key a ∈ keys key G :=
      fun h => (mem_keys key).mpr ⟨a, leaves_subset_labels _ a h, rfl⟩
    intro x hx e
    simp only [nodes_cons, List.mem_cons, List.mem_append] at hx
    cases b with
    | nil =>
      rcases List.mem_cons.mp ha with rfl | ha
      · rcases hx with rfl | hx | hx
        · rfl
        · simp at hx
        · exact absurd (e ▸ inKeys hx) hcr
      · rcases hx with rfl | hx | hx
        · exact rfl
        · simp at hx
        · exact ihr hr ha x hx e
    | cons d f g =>
      rcases List.mem_append.mp ha with ha | ha
      · rcases hx with rfl | hx | hx
        · exact absurd (e ▸ leafKeys ha) hcb
        · exact ihb hb ha x hx e
        · exact absurd (e ▸ inKeys hx) (hd _ (leafKeys ha))
      · rcases hx with rfl | hx | hx
        · exact absurd (e ▸ leafKeys ha) hcr
        · exact absurd (leafKeys ha) (hd _ (e ▸ inKeys hx))
        · exact ihr hr ha x hx e

theorem parent_top {u : κ} {F : Forest α} (hn : (keys key F).Nodup) (hu : u ∈ F.tops.map key) :
    parent key u F = none := by
  induction F with
  | nil => rfl
  | cons a b r ihb ihr =>
    obtain ⟨hab, har, hb, hr, hd⟩ := nodup_keys_cons key hn
    rw [parent]
    split
    · rfl
    · next e =>
      have hur : u ∈ r.tops.map key := by
        simp only [tops_cons, List.map_cons, List.mem_cons] at hu
        exact hu.resolve_left (Ne.symm e)
      have hk : u ∈ keys key r := by
        obtain ⟨x, hx, rfl⟩ := List.mem_map.mp hur
        exact (mem_keys key).mpr ⟨x, tops_subset_labels r x hx, rfl⟩
      have hub : u ∉ keys key b := fun h => hd u h hk
      have hut : u ∉ b.tops.map key := by
        intro h
        obtain ⟨x, hx, rfl⟩ := List.mem_map.mp h
        exact hub ((mem_keys key).mpr ⟨x, tops_subset_labels b x hx, rfl⟩)
      rw [if_neg hut, if_neg hub]
      exact ihr hr hur

theorem parent_mem {u : κ} {F : Forest α} {x : α × Forest α} (h : parent key u F = some x) :
    x ∈ F.nodes ∧ u ∈ x.2.tops.map key := by
  induction F with
  | nil => simp [parent] at h
  | cons a b r ihb ihr =>
    rw [parent] at h
    split_ifs at h with h1 h2 h3
    · simp only [Option.some.injEq] at h
      subst h
      exact ⟨by simp, h2⟩
    · exact ⟨by simp [(ihb h).1], (ihb h).2⟩
    · exact ⟨by simp [(ihr h).1], (ihr h).2⟩

theorem remove_eq_nil {u : κ} {F : Forest α} (h : remove key u F = nil) :
    ∀ a ∈ F.tops, key a = u := by
  induction F with
  | nil => simp
  | cons a b r _ ihr =>
    rw [remove] at h
    split at h
    · next e =>
      intro x hx
      rcases List.mem_cons.mp hx with rfl | hx
      · exact e
      · exact ihr h x hx
    · exact absurd h (by simp)

theorem isNil_iff {F : Forest α} : F.isNil = true ↔ F = nil := by
  cases F <;> simp [isNil]

theorem leaves_cons_ne {a : α} {b r : Forest α} (h : b ≠ nil) :
    (cons a b r).leaves = b.leaves ++ r.leaves := by
  cases b with
  | nil => exact absurd rfl h
  | cons d e f => rfl

section Parent

variable {u : κ} {a c : α} {b r : Forest α}

omit [DecidableEq κ] in
theorem ne_of_leaf (h : u ∉ keys key b) (ha : a ∈ b.leaves) : key a ≠ u := fun e =>
  h ((mem_keys key).mpr ⟨a, leaves_subset_labels _ a ha, e⟩)

omit [DecidableEq κ] in
theorem notMem_tops (h : u ∉ keys key b) : u ∉ b.tops.map key := by
  intro ht
  obtain ⟨x, hx, rfl⟩ := List.mem_map.mp ht
  exact h ((mem_keys key).mpr ⟨x, tops_subset_labels b x hx, rfl⟩)

-- The node below has the key: the parent is the top `c`, which is a leaf afterwards when nothing else was below.
theorem mem_leaves_remove_top (hb : (keys key b).Nodup) (hr : u ∉ keys key r) (hc : key c ≠ u) (hub : u ∈ keys key b)
    (ht : u ∈ b.tops.map key) (ih : a ∈ (remove key u b).leaves ↔ (a ∈ b.leaves ∧ key a ≠ u) ∨
      ∃ below, parent key u b = some (a, below) ∧ (remove key u below).isNil = true) :
    a ∈ (cons c (remove key u b) r).leaves ↔ (a ∈ (cons c b r).leaves ∧ key a ≠ u) ∨
      ∃ below, parent key u (cons c b r) = some (a, below) ∧ (remove key u below).isNil = true := by
  have hne : b ≠ nil := by rintro rfl; simp at hub
  rw [parent_top hb ht] at ih
  simp only [reduceCtorEq, false_and, exists_false, or_false] at ih
  rw [parent, if_neg hc, if_pos ht, leaves_cons_ne hne]
  by_cases hz : remove key u b = nil
  · rw [hz] at ih ⊢
    simp only [leaves, List.not_mem_nil, false_iff, not_and, not_not] at ih
    simp only [leaves, List.mem_cons, List.mem_append, Option.some.injEq, Prod.mk.injEq]
    constructor
    · rintro (rfl | h)
      · exact .inr ⟨b, ⟨rfl, rfl⟩, by rw [hz]; rfl⟩
      · exact .inl ⟨.inr h, ne_of_leaf hr h⟩
    · rintro (⟨h | h, hk⟩ | ⟨_, ⟨rfl, _⟩, _⟩)
      · exact absurd (ih h) hk
      · exact .inr h
      · exact .inl rfl
  · rw [leaves_cons_ne hz]
    simp only [List.mem_append, ih, Option.some.injEq, Prod.mk.injEq]
    constructor
    · rintro (⟨h, hk⟩ | h)
      · exact .inl ⟨.inl h, hk⟩
      · exact .inl ⟨.inr h, ne_of_leaf hr h⟩
    · rintro (⟨h | h, hk⟩ | ⟨_, ⟨rfl, rfl⟩, h⟩)
      · exact .inl ⟨h, hk⟩
      · exact .inr h
      · exact absurd (isNil_iff.mp h) hz

theorem mem_leaves_remove_deep (hr : u ∉ keys key r) (hc : key c ≠ u) (hub : u ∈ keys key b)
    (ht : u ∉ b.tops.map key) (ih : a ∈ (remove key u b).leaves ↔ (a ∈ b.leaves ∧ key a ≠ u) ∨
      ∃ below, parent key u b = some (a, below) ∧ (remove key u below).isNil = true) :
    a ∈ (cons c (remove key u b) r).leaves ↔ (a ∈ (cons c b r).leaves ∧ key a ≠ u) ∨
      ∃ below, parent key u (cons c b r) = some (a, below) ∧ (remove key u below).isNil = true := by
  have hne : b ≠ nil := by rintro rfl; simp at hub
  have hz : remove key u b ≠ nil := by
    intro hz
    cases b with
    | nil => exact hne rfl
    | cons d f g =>
      have := remove_eq_nil hz d (by simp)
      exact ht (by simp [this])
  rw [parent, if_neg hc, if_neg ht, if_pos hub, leaves_cons_ne hne, leaves_cons_ne hz]
  simp only [List.mem_append, ih]
  constructor
  · rintro ((⟨h, hk⟩ | h) | h)
    · exact .inl ⟨.inl h, hk⟩
    · exact .inr h
    · exact .inl ⟨.inr h, ne_of_leaf hr h⟩
  · rintro (⟨h | h, hk⟩ | h)
    · exact .inl (.inl ⟨h, hk⟩)
    · exact .inr h
    · exact .inl (.inr h)

theorem mem_leaves_remove_rest (hb : u ∉ keys key b) (hc : key c ≠ u)
    (ih : a ∈ (remove key u r).leaves ↔ (a ∈ r.leaves ∧ key a ≠ u) ∨
      ∃ below, parent key u r = some (a, below) ∧ (remove key u below).isNil = true) :
    a ∈ (cons c b (remove key u r)).leaves ↔ (a ∈ (cons c b r).leaves ∧ key a ≠ u) ∨
      ∃ below, parent key u (cons c b r) = some (a, below) ∧ (remove key u below).isNil = true := by
  rw [parent, if_neg hc, if_neg (notMem_tops hb), if_neg hb]
  cases b with
  | nil =>
    simp only [leaves, List.mem_cons, ih]
    constructor
    · rintro (rfl | ⟨h, hk⟩ | h)
      · exact .inl ⟨.inl rfl, hc⟩
      · exact .inl ⟨.inr h, hk⟩
      · exact .inr h
    · rintro (⟨rfl | h, hk⟩ | h)
      · exact .inl rfl
      · exact .inr (.inl ⟨h, hk⟩)
      · exact .inr (.inr h)
  | cons d f g =>
    simp only [leaves, List.mem_append, ih]
    constructor
    · rintro (h | ⟨h, hk⟩ | h)
      · exact .inl ⟨.inl h, ne_of_leaf hb h⟩
      · exact .inl ⟨.inr h, hk⟩
      · exact .inr h
    · rintro (⟨h | h, hk⟩ | h)
      · exact .inl h
      · exact .inr (.inl ⟨h, hk⟩)
      · exact .inr (.inr h)

end Parent

theorem mem_leaves_remove {u : κ} {F : Forest α} (hn : (keys key F).Nodup) (hu : u ∈ keys key F)
    (hl : ∀ x ∈ F.nodes, key x.1 = u → x.2 = nil) (a : α) :
    a ∈ (remove key u F).leaves ↔ (a ∈ F.leaves ∧ key a ≠ u) ∨
      ∃ below, parent key u F = some (a, below) ∧ (remove key u below).isNil = true := by
  induction F with
  | nil => simp at hu
  | cons c b r ihb ihr =>
    obtain ⟨hcb, hcr, hb, hr, hd⟩ := nodup_keys_cons key hn
    have hlb : ∀ x ∈ b.nodes, key x.1 = u → x.2 = nil := fun x hx => hl x (by simp [hx])
    have hlr : ∀ x ∈ r.nodes, key x.1 = u → x.2 = nil := fun x hx => hl x (by simp [hx])
    by_cases e : key c = u
    · have hnil : b = nil := hl (c, b) (by simp) e
      subst hnil
      rw [remove, if_pos e, remove_absent (e ▸ hcr), parent, if_pos e]
      simp only [leaves, List.mem_cons, reduceCtorEq, false_and, exists_false, or_false]
      constructor
      · exact fun h => ⟨.inr h, ne_of_leaf (e ▸ hcr) h⟩
      · rintro ⟨rfl | h, hne⟩
        · exact absurd e hne
        · exact h
    · have hbr : u ∈ keys key b ∨ u ∈ keys key r := by
        simpa [Ne.symm e] using hu
      rw [remove, if_neg e]
      rcases hbr with hub | hur
      · rw [remove_absent (hd u hub)]
        by_cases ht : u ∈ b.tops.map key
        · exact mem_leaves_remove_top hb (hd u hub) e hub ht (ihb hb hub hlb)
        · exact mem_leaves_remove_deep (hd u hub) e hub ht (ihb hb hub hlb)
      · have hub : u ∉ keys key b := fun h => hd u h hur
        rw [remove_absent hub]
        exact mem_leaves_remove_rest hub e (ihr hr hur hlr)

theorem perm_remove {F : Forest α} (hn : (keys key F).Nodup) {a : α} (ha : a ∈ F.leaves) :
    F.labels.Perm (a :: (remove key (key a) F).labels) := by
  rw [labels_remove (leaf_unique hn ha)]
  have hm := leaves_subset_labels F a ha
  unfold keys at hn
  generalize F.labels = l at hn hm
  induction l with
  | nil => simp at hm
  | cons c l ih =>
    simp only [List.map_cons, List.nodup_cons] at hn
    rcases List.mem_cons.mp hm with rfl | hm
    · have hall : l.filter (fun c => key c ≠ key a) = l := by
        rw [List.filter_eq_self]
        intro c hc
        have hne : key c ≠ key a := fun e => hn.1 (by rw [← e]; exact List.mem_map_of_mem hc)
        simpa using hne
      simp only [ne_eq, not_true_eq_false, decide_false, Bool.false_eq_true, not_false_eq_true,
        List.filter_cons_of_neg]
      rw [hall]
    · have hne : key c ≠ key a := fun e => hn.1 (e ▸ List.mem_map_of_mem hm)
      rw [List.filter_cons_of_pos (by simpa using hne)]
      exact ((ih hn.2 hm).cons c).trans (List.Perm.swap a c _)

omit [DecidableEq κ] in
theorem nodup_leaves {F : Forest α} (hn : (keys key F).Nodup) : F.leaves.Nodup := by
  induction F with
  | nil => simp [leaves]
  | cons c b r ihb ihr =>
    obtain ⟨hcb, hcr, hb, hr, hd⟩ := nodup_keys_cons key hn
    cases b with
    | nil =>
      refine List.nodup_cons.mpr ⟨fun h => ?_, ihr hr⟩
      exact hcr ((mem_keys key).mpr ⟨c, leaves_subset_labels _ c h, rfl⟩)
    | cons d e f =>
      refine List.nodup_append'.mpr ⟨ihb hb, ihr hr, fun a h1 h2 => ?_⟩
      exact hd (key a) ((mem_keys key).mpr ⟨a, leaves_subset_labels _ a h1, rfl⟩)
        ((mem_keys key).mpr ⟨a, leaves_subset_labels _ a h2, rfl⟩)

end Forest
