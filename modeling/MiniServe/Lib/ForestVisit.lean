import MiniServe.Lib.ForestEdit
import MiniServe.Lib.ForestOrder

namespace Forest

variable {α β σ κ : Type} [DecidableEq κ] {key : α → κ}

-- The label with the key `k` and the state `s` go through `f`, which is also told whether the label is a leaf.
def visit (key : α → κ) (k : κ) (f : α → Bool → σ → α × σ) : Forest α → σ → Forest α × σ
  | nil, s => (nil, s)
  | cons a b r, s =>
    if key a = k then
      let (a', s') := f a b.isNil s
      (cons a' b r, s')
    else
      let (b', s') := visit key k f b s
      let (r', s') := visit key k f r s'
      (cons a b' r', s')

-- `climb` with a state, and with `f` told whether the label is a leaf.
def climbWith (key : α → κ) (k : κ) (f : α → Bool → σ → Option (α × σ)) : Forest α → σ → Climb × Forest α × σ
  | nil, s => (.absent, nil, s)
  | cons a b r, s =>
    if key a = k then
      match f a b.isNil s with
      | some (a', s') => (.reached, cons a' b r, s')
      | none => (.refused, cons a b r, s)
    else
      match climbWith key k f b s with
      | (.absent, _, _) =>
        let (c, r', s') := climbWith key k f r s
        (c, cons a b r', s')
      | (.refused, b', s') => (.refused, cons a b' r, s')
      | (.reached, b', s') =>
        match f a b'.isNil s' with
        | some (a', s') => (.reached, cons a' b' r, s')
        | none => (.refused, cons a b' r, s')

omit [DecidableEq κ] in
theorem isNil_map (g : α → β) (F : Forest α) : (F.map g).isNil = F.isNil := by
  cases F <;> rfl

theorem map_visit {k : κ} {f : α → Bool → σ → α × σ} {g : α → β} (hf : ∀ a l s, g (f a l s).1 = g a)
    (F : Forest α) (s : σ) :
    (visit key k f F s).1.map g = F.map g := by
  induction F generalizing s with
  | nil => rfl
  | cons a b r ihb ihr =>
    rw [visit]
    split
    · simp [map, hf]
    · simp [map, ihb, ihr]

theorem climbWith_map {k : κ} {key' : β → κ} {g : α → β} {f : α → Bool → σ → Option (α × σ)} {f' : β → Option (β × Int)}
    {sum : σ → Int} (hkey : ∀ a, key' (g a) = key a)
    (hf : ∀ a l s, (f a l s).map (fun x => (g x.1, sum x.2)) = (f' (g a)).map fun x => (x.1, sum s + x.2))
    (F : Forest α) (s : σ) :
    (climbWith key k f F s).1 = (climb key' k f' (F.map g)).1 ∧
      (climbWith key k f F s).2.1.map g = (climb key' k f' (F.map g)).2.1 ∧
      sum (climbWith key k f F s).2.2 = sum s + (climb key' k f' (F.map g)).2.2 := by
  induction F generalizing s with
  | nil => simp [climbWith, climb, map]
  | cons a b r ihb ihr =>
    have hstep : ∀ l s, (∃ a' s' d, f a l s = some (a', s') ∧ f' (g a) = some (g a', d) ∧ sum s' = sum s + d) ∨
        (f a l s = none ∧ f' (g a) = none) := by
      intro l s
      have h := hf a l s
      cases h1 : f a l s with
      | none =>
        rw [h1] at h
        exact .inr ⟨rfl, by simpa using h.symm⟩
      | some x =>
        rw [h1] at h
        obtain ⟨y, hy, he⟩ := Option.map_eq_some_iff.mp h.symm
        obtain ⟨he1, he2⟩ := Prod.mk.inj he
        exact .inl ⟨x.1, x.2, y.2, rfl, by rw [hy, ← he1], he2.symm⟩
    simp only [climbWith, climb, map, hkey]
    by_cases e : key a = k
    · rw [if_pos e, if_pos e]
      rcases hstep b.isNil s with ⟨a', s', d, h1, h2, h3⟩ | ⟨h1, h2⟩
      · simp [h1, h2, h3, map]
      · simp [h1, h2, map]
    · rw [if_neg e, if_neg e]
      obtain ⟨h1, h2, h3⟩ := ihb s
      obtain ⟨h4, h5, h6⟩ := ihr s
      generalize climb key' k f' (b.map g) = cb at h1 h2 h3 ⊢
      generalize climb key' k f' (r.map g) = cr at h4 h5 h6 ⊢
      generalize climbWith key k f b s = wb at h1 h2 h3 ⊢
      generalize climbWith key k f r s = wr at h4 h5 h6 ⊢
      obtain ⟨cb1, cb2, cb3⟩ := cb
      obtain ⟨wb1, wb2, wb3⟩ := wb
      simp only at h1 h2 h3 h4 h5 h6 ⊢
      subst h1 h2
      cases wb1 with
      | absent => exact ⟨h4, by simp [map, h5], h6⟩
      | refused => exact ⟨rfl, by simp [map], h3⟩
      | reached =>
        rcases hstep wb2.isNil wb3 with ⟨a', s', d, h1, h2, h7⟩ | ⟨h1, h2⟩
        · simp [h1, h2, map, h7, h3, Int.add_assoc]
        · simp [h1, h2, map, h3]

section Parent

variable {k : κ} {F : Forest α} {x : α × Forest α}

omit [DecidableEq κ] in
theorem mem_keys_of_top (hk : k ∈ F.tops.map key) : k ∈ keys key F := by
  obtain ⟨y, hy, rfl⟩ := List.mem_map.mp hk
  exact (mem_keys key).mpr ⟨y, tops_subset_labels F y hy, rfl⟩

omit [DecidableEq κ] in
theorem mem_keys_of_child (hx : x ∈ F.nodes) (hk : k ∈ x.2.tops.map key) : k ∈ keys key F := by
  induction F with
  | nil => simp at hx
  | cons a b r ihb ihr =>
    simp only [nodes_cons, List.mem_cons, List.mem_append] at hx
    simp only [keys_cons, List.mem_cons, List.mem_append]
    rcases hx with rfl | hx | hx
    · exact .inr (.inl (mem_keys_of_top hk))
    · exact .inr (.inl (ihb hx))
    · exact .inr (.inr (ihr hx))

theorem parent_of_child (hn : (keys key F).Nodup) (hx : x ∈ F.nodes) (hk : k ∈ x.2.tops.map key) :
    parent key k F = some x := by
  induction F with
  | nil => simp at hx
  | cons a b r ihb ihr =>
    obtain ⟨hab, har, hb, hr, hd⟩ := nodup_keys_cons key hn
    simp only [nodes_cons, List.mem_cons, List.mem_append] at hx
    rw [parent]
    rcases hx with rfl | hx | hx
    · have hne : key a ≠ k := fun e => hab (e ▸ mem_keys_of_top hk)
      rw [if_neg hne, if_pos hk]
    · have hkb := mem_keys_of_child hx hk
      have hne : key a ≠ k := fun e => hab (e ▸ hkb)
      have ih := ihb hb hx
      have ht : k ∉ b.tops.map key := fun ht => by simp [parent_top hb ht] at ih
      rw [if_neg hne, if_neg ht, if_pos hkb]
      exact ih
    · have hkr := mem_keys_of_child hx hk
      have hne : key a ≠ k := fun e => har (e ▸ hkr)
      have hkb : k ∉ keys key b := fun h => hd k h hkr
      rw [if_neg hne, if_neg (fun ht => hkb (mem_keys_of_top ht)), if_neg hkb]
      exact ihr hr hx

theorem mem_nodes_remove (hx : x ∈ (remove key k F).nodes) :
    key x.1 ≠ k ∧ ∃ b, (x.1, b) ∈ F.nodes ∧ x.2 = remove key k b := by
  induction F with
  | nil => simp [remove] at hx
  | cons a b r ihb ihr =>
    rw [remove] at hx
    split at hx
    · obtain ⟨h1, c, h2, h3⟩ := ihr hx
      exact ⟨h1, c, by simp [h2], h3⟩
    · next hne =>
      simp only [nodes_cons, List.mem_cons, List.mem_append] at hx
      rcases hx with rfl | hx | hx
      · exact ⟨hne, b, by simp, rfl⟩
      · obtain ⟨h1, c, h2, h3⟩ := ihb hx
        exact ⟨h1, c, by simp [h2], h3⟩
      · obtain ⟨h1, c, h2, h3⟩ := ihr hx
        exact ⟨h1, c, by simp [h2], h3⟩

end Parent

section Map

variable {key' : β → κ} {g : α → β}

omit [DecidableEq κ] in
theorem keys_map (hkey : ∀ a, key' (g a) = key a) (F : Forest α) : keys key' (F.map g) = keys key F := by
  simp [keys, labels_map, Function.comp_def, hkey]

theorem tops_map (g : α → β) (F : Forest α) : (F.map g).tops = F.tops.map g := by
  induction F with
  | nil => rfl
  | cons a b r _ ihr => simp [map, ihr]

theorem leaves_map (g : α → β) (F : Forest α) : (F.map g).leaves = F.leaves.map g := by
  induction F with
  | nil => rfl
  | cons a b r ihb ihr =>
    cases b with
    | nil => simp [map, leaves, ihr]
    | cons => simpa [map, leaves, ihr] using ihb

theorem path_map (hkey : ∀ a, key' (g a) = key a) (k : κ) (F : Forest α) :
    path key' k (F.map g) = (path key k F).map g := by
  induction F with
  | nil => rfl
  | cons a b r ihb ihr =>
    simp only [map, path, hkey, keys_map hkey, ihb, ihr]
    split_ifs <;> simp

theorem append_map (x : α) (F : Forest α) : (append x F).map g = append (g x) (F.map g) := by
  induction F with
  | nil => rfl
  | cons a b r _ ihr => simp [append, map, ihr]

theorem addUnder_map (hkey : ∀ a, key' (g a) = key a) (k : κ) (x : α) (F : Forest α) :
    (addUnder key k x F).map g = addUnder key' k (g x) (F.map g) := by
  induction F with
  | nil => rfl
  | cons a b r ihb ihr =>
    simp only [addUnder, map, hkey]
    split_ifs <;> simp [map, append_map, ihb, ihr]

theorem remove_map (hkey : ∀ a, key' (g a) = key a) (k : κ) (F : Forest α) :
    (remove key k F).map g = remove key' k (F.map g) := by
  induction F with
  | nil => rfl
  | cons a b r ihb ihr =>
    simp only [remove, map, hkey]
    split_ifs <;> simp [map, ihb, ihr]

theorem parent_map (hkey : ∀ a, key' (g a) = key a) (k : κ) (F : Forest α) :
    parent key' k (F.map g) = (parent key k F).map fun x => (g x.1, x.2.map g) := by
  induction F with
  | nil => rfl
  | cons a b r ihb ihr =>
    have htop : (b.map g).tops.map key' = b.tops.map key := by
      simp [tops_map, Function.comp_def, hkey]
    simp only [parent, map, hkey, htop, keys_map hkey, ihb, ihr]
    split_ifs <;> rfl

end Map

end Forest
