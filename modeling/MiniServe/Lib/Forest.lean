import Mathlib.Data.List.Basic
import Mathlib.Data.List.Nodup
import Mathlib.Algebra.BigOperators.Group.List.Basic
import Mathlib.Tactic

inductive Forest (α : Type) where
  | nil : Forest α
  | cons (label : α) (below rest : Forest α) : Forest α
  deriving DecidableEq, Repr

namespace Forest

variable {α β κ : Type}

def labels : Forest α → List α
  | nil => []
  | cons a b r => a :: (labels b ++ labels r)

def nodes : Forest α → List (α × Forest α)
  | nil => []
  | cons a b r => (a, b) :: (nodes b ++ nodes r)

def tops : Forest α → List α
  | nil => []
  | cons a _ r => a :: tops r

def leaves : Forest α → List α
  | nil => []
  | cons a nil r => a :: leaves r
  | cons _ b r => leaves b ++ leaves r

def isNil : Forest α → Bool
  | nil => true
  | cons .. => false

def map (f : α → β) : Forest α → Forest β
  | nil => nil
  | cons a b r => cons (f a) (map f b) (map f r)

def weight (f : α → Nat) (F : Forest α) : Nat := (F.labels.map f).sum

@[simp] theorem labels_nil : (nil : Forest α).labels = [] := rfl
@[simp] theorem labels_cons (a : α) (b r : Forest α) :
    (cons a b r).labels = a :: (b.labels ++ r.labels) := rfl
@[simp] theorem nodes_nil : (nil : Forest α).nodes = [] := rfl
@[simp] theorem nodes_cons (a : α) (b r : Forest α) :
    (cons a b r).nodes = (a, b) :: (b.nodes ++ r.nodes) := rfl
@[simp] theorem tops_nil : (nil : Forest α).tops = [] := rfl
@[simp] theorem tops_cons (a : α) (b r : Forest α) : (cons a b r).tops = a :: r.tops := rfl
@[simp] theorem weight_nil (f : α → Nat) : weight f nil = 0 := rfl
@[simp] theorem weight_cons (f : α → Nat) (a : α) (b r : Forest α) :
    weight f (cons a b r) = f a + weight f b + weight f r := by
  simp [weight, Nat.add_assoc]

theorem labels_eq_nodes (F : Forest α) : F.labels = F.nodes.map Prod.fst := by
  induction F with
  | nil => rfl
  | cons a b r ihb ihr => simp [ihb, ihr]

theorem tops_subset_labels (F : Forest α) : ∀ a ∈ F.tops, a ∈ F.labels := by
  induction F with
  | nil => simp
  | cons a b r _ ihr =>
    intro x hx
    rcases List.mem_cons.mp hx with rfl | hx
    · simp
    · simp [ihr x hx]

theorem leaves_subset_labels (F : Forest α) : ∀ a ∈ F.leaves, a ∈ F.labels := by
  induction F with
  | nil => simp [leaves]
  | cons a b r ihb ihr =>
    intro x hx
    cases b with
    | nil =>
      rcases List.mem_cons.mp hx with rfl | hx
      · simp
      · simp [ihr x hx]
    | cons c d e =>
      rcases List.mem_append.mp hx with hx | hx
      · have := ihb x hx; simp at this ⊢; tauto
      · have := ihr x hx; simp at this ⊢; tauto

theorem mem_leaves_iff (F : Forest α) (a : α) : a ∈ F.leaves ↔ (a, nil) ∈ F.nodes := by
  induction F with
  | nil => simp [leaves]
  | cons c b r ihb ihr =>
    cases b with
    | nil => simp [leaves, ihr]
    | cons d e f => simp only [leaves, List.mem_append, ihb, ihr, nodes_cons, List.mem_cons]; simp

theorem weight_le_of_mem (f : α → Nat) (F : Forest α) {a : α} (h : a ∈ F.labels) :
    f a ≤ weight f F :=
  List.single_le_sum (by simp) _ (List.mem_map_of_mem h)

theorem weight_congr {f g : α → Nat} (F : Forest α) (h : ∀ a ∈ F.labels, f a = g a) :
    weight f F = weight g F := by
  simp only [weight, List.map_congr_left h]

section Keyed
variable (key : α → κ)

def keys (F : Forest α) : List κ := F.labels.map key

@[simp] theorem keys_nil : keys key nil = [] := rfl
@[simp] theorem keys_cons (a : α) (b r : Forest α) :
    keys key (cons a b r) = key a :: (keys key b ++ keys key r) := by simp [keys]

theorem mem_keys {F : Forest α} {k : κ} : k ∈ keys key F ↔ ∃ a ∈ F.labels, key a = k := by
  simp [keys]

theorem nodup_keys_cons {a : α} {b r : Forest α} (h : (keys key (cons a b r)).Nodup) :
    key a ∉ keys key b ∧ key a ∉ keys key r ∧ (keys key b).Nodup ∧ (keys key r).Nodup ∧
      ∀ k ∈ keys key b, k ∉ keys key r := by
  simp only [keys_cons, List.nodup_cons, List.mem_append, List.nodup_append'] at h
  obtain ⟨hn, hb, hr, hd⟩ := h
  exact ⟨fun h => hn (.inl h), fun h => hn (.inr h), hb, hr, fun k hk hk' => hd hk hk'⟩

theorem label_unique {F : Forest α} (h : (keys key F).Nodup) {a c : α}
    (ha : a ∈ F.labels) (hc : c ∈ F.labels) (e : key a = key c) : a = c :=
  List.inj_on_of_nodup_map h ha hc e

variable [DecidableEq κ]

def path (k : κ) : Forest α → List α
  | nil => []
  | cons a b r =>
    if key a = k then [a] else if k ∈ keys key b then a :: path k b else path k r

def parent (k : κ) : Forest α → Option (α × Forest α)
  | nil => none
  | cons a b r =>
    if key a = k then none
    else if k ∈ b.tops.map key then some (a, b)
    else if k ∈ keys key b then parent k b
    else parent k r

def mapPath (k : κ) (f : α → α) : Forest α → Forest α
  | nil => nil
  | cons a b r =>
    if key a = k then cons (f a) b r
    else if k ∈ keys key b then cons (f a) (mapPath k f b) r
    else cons a b (mapPath k f r)

def remove (k : κ) : Forest α → Forest α
  | nil => nil
  | cons a b r => if key a = k then remove k r else cons a (remove k b) (remove k r)

def append (x : α) : Forest α → Forest α
  | nil => cons x nil nil
  | cons a b r => cons a b (append x r)

def addUnder (k : κ) (x : α) : Forest α → Forest α
  | nil => nil
  | cons a b r =>
    if key a = k then cons a (append x b) r else cons a (addUnder k x b) (addUnder k x r)

inductive Climb where
  | absent | reached | refused
  deriving DecidableEq, Repr

def climb (k : κ) (visit : α → Option (α × Int)) : Forest α → Climb × Forest α × Int
  | nil => (.absent, nil, 0)
  | cons a b r =>
    if key a = k then
      match visit a with
      | some (a', d) => (.reached, cons a' b r, d)
      | none => (.refused, cons a b r, 0)
    else
      match climb k visit b with
      | (.absent, _, _) => let (s, r', d) := climb k visit r; (s, cons a b r', d)
      | (.refused, b', d) => (.refused, cons a b' r, d)
      | (.reached, b', d) =>
        match visit a with
        | some (a', d') => (.reached, cons a' b' r, d + d')
        | none => (.refused, cons a b' r, d)

variable {key}

theorem path_eq_nil {k : κ} {F : Forest α} (h : k ∉ keys key F) : path key k F = [] := by
  induction F with
  | nil => rfl
  | cons a b r ihb ihr =>
    simp only [keys_cons, List.mem_cons, List.mem_append, not_or] at h
    simp [path, Ne.symm h.1, h.2.1, ihr h.2.2]

theorem path_subset (k : κ) (F : Forest α) : ∀ a ∈ path key k F, a ∈ F.labels := by
  induction F with
  | nil => simp [path]
  | cons a b r ihb ihr =>
    intro x hx
    simp only [path] at hx
    split_ifs at hx with h1 h2
    · simp_all
    · rcases List.mem_cons.mp hx with rfl | hx
      · simp
      · simp [ihb x hx]
    · simp [ihr x hx]

theorem path_sublist (k : κ) (F : Forest α) :
    (path key k F).Sublist F.labels := by
  induction F with
  | nil => simp [path]
  | cons a b r ihb ihr =>
    rw [path, labels_cons]
    split_ifs
    · simp
    · exact (ihb.trans (List.sublist_append_left _ _)).cons_cons a
    · exact (ihr.trans (List.sublist_append_right _ _)).cons a

theorem mem_path_self {F : Forest α} {a : α} (h : (keys key F).Nodup) (ha : a ∈ F.labels) :
    a ∈ path key (key a) F := by
  induction F with
  | nil => simp at ha
  | cons c b r ihb ihr =>
    obtain ⟨hcb, hcr, hb, hr, hd⟩ := nodup_keys_cons key h
    simp only [labels_cons, List.mem_cons, List.mem_append] at ha
    rcases ha with rfl | ha | ha
    · simp [path]
    · have hk : key a ∈ keys key b := (mem_keys key).mpr ⟨a, ha, rfl⟩
      have hne : key c ≠ key a := fun e => hcb (e ▸ hk)
      simp [path, hne, hk, ihb hb ha]
    · have hk : key a ∈ keys key r := (mem_keys key).mpr ⟨a, ha, rfl⟩
      have hne : key c ≠ key a := fun e => hcr (e ▸ hk)
      have hkb : key a ∉ keys key b := fun h => hd _ h hk
      simp [path, hne, hkb, ihr hr ha]

theorem labels_remove {k : κ} {F : Forest α} (h : ∀ x ∈ F.nodes, key x.1 = k → x.2 = nil) :
    (remove key k F).labels = F.labels.filter (fun a => key a ≠ k) := by
  induction F with
  | nil => rfl
  | cons a b r ihb ihr =>
    have hb := ihb (fun x hx => h x (by simp [hx]))
    have hr := ihr (fun x hx => h x (by simp [hx]))
    by_cases e : key a = k
    · have hn : b = nil := h (a, b) (by simp) e
      subst hn
      simp [remove, e, hr]
    · simp [remove, e, hb, hr]

theorem weight_remove {k : κ} {F : Forest α} (h : ∀ x ∈ F.nodes, key x.1 = k → x.2 = nil)
    (f : α → Nat) :
    weight f (remove key k F) + weight (fun a => if key a = k then f a else 0) F = weight f F := by
  simp only [weight, labels_remove h]
  generalize F.labels = l
  induction l with
  | nil => rfl
  | cons a l ih =>
    by_cases e : key a = k <;> simp only [List.filter_cons, e, List.map_cons, List.sum_cons, ne_eq,
      not_true_eq_false, not_false_eq_true, decide_true, decide_false, if_true, if_false,
      Bool.false_eq_true] at ih ⊢ <;> omega

theorem weight_append (x : α) (F : Forest α) (f : α → Nat) :
    weight f (append x F) = weight f F + f x := by
  induction F with
  | nil => simp [append]
  | cons a b r _ ihr => simp [append, ihr, Nat.add_assoc]

theorem labels_append (x : α) (F : Forest α) : (append x F).labels = F.labels ++ [x] := by
  induction F with
  | nil => rfl
  | cons a b r _ ihr => simp [append, ihr]

theorem tops_append (x : α) (F : Forest α) : (append x F).tops = F.tops ++ [x] := by
  induction F with
  | nil => rfl
  | cons a b r _ ihr => simp [append, ihr]

theorem addUnder_absent {k : κ} {F : Forest α} (x : α) (h : k ∉ keys key F) :
    addUnder key k x F = F := by
  induction F with
  | nil => rfl
  | cons a b r ihb ihr =>
    simp only [keys_cons, List.mem_cons, List.mem_append, not_or] at h
    simp [addUnder, Ne.symm h.1, ihb h.2.1, ihr h.2.2]

theorem remove_absent {k : κ} {F : Forest α} (h : k ∉ keys key F) : remove key k F = F := by
  induction F with
  | nil => rfl
  | cons a b r ihb ihr =>
    simp only [keys_cons, List.mem_cons, List.mem_append, not_or] at h
    simp [remove, Ne.symm h.1, ihb h.2.1, ihr h.2.2]

theorem perm_labels_addUnder {k : κ} {F : Forest α} (x : α) (h : (keys key F).Nodup)
    (hk : k ∈ keys key F) : (addUnder key k x F).labels.Perm (x :: F.labels) := by
  induction F with
  | nil => simp at hk
  | cons a b r ihb ihr =>
    obtain ⟨hab, har, hb, hr, hd⟩ := nodup_keys_cons key h
    by_cases e : key a = k
    · rw [addUnder, if_pos e]
      simp only [labels_cons, labels_append, List.append_assoc, List.singleton_append]
      have hm : (a :: b.labels ++ x :: r.labels).Perm (x :: (a :: b.labels ++ r.labels)) :=
        List.perm_middle
      simpa using hm
    · rw [addUnder, if_neg e]
      simp only [keys_cons, List.mem_cons, List.mem_append] at hk
      rcases hk with hk | hk | hk
      · exact absurd hk.symm e
      · rw [addUnder_absent x (hd k hk)]
        have := (ihb hb hk).append_right r.labels
        exact (this.cons a).trans (by simpa using List.Perm.swap x a _)
      · have hkb : k ∉ keys key b := fun h' => hd k h' hk
        rw [addUnder_absent x hkb]
        have h1 := ((ihr hr hk).append_left b.labels).cons a
        have h2 : (a :: (b.labels ++ x :: r.labels)).Perm (x :: a :: (b.labels ++ r.labels)) := by
          have hm : (a :: b.labels ++ x :: r.labels).Perm (x :: (a :: b.labels ++ r.labels)) :=
            List.perm_middle
          simpa using hm
        exact h1.trans h2

theorem map_labels_mapPath {k : κ} {f : α → α} (g : α → β) (hg : ∀ a, g (f a) = g a)
    (F : Forest α) : (mapPath key k f F).labels.map g = F.labels.map g := by
  induction F with
  | nil => rfl
  | cons a b r ihb ihr =>
    simp only [mapPath]
    split_ifs <;> simp [hg, ihb, ihr]

theorem keys_mapPath {k : κ} {f : α → α} (hf : ∀ a, key (f a) = key a) (F : Forest α) :
    keys key (mapPath key k f F) = keys key F :=
  map_labels_mapPath key hf F

theorem map_path_mapPath {k k' : κ} {f : α → α} (hf : ∀ a, key (f a) = key a)
    (g : α → β) (hg : ∀ a, g (f a) = g a) (F : Forest α) :
    (path key k' (mapPath key k f F)).map g = (path key k' F).map g := by
  induction F with
  | nil => rfl
  | cons a b r ihb ihr =>
    by_cases h1 : key a = k
    · simp only [mapPath, if_pos h1, path, hf]
      split_ifs <;> simp [hg]
    · by_cases h2 : k ∈ keys key b
      · simp only [mapPath, if_neg h1, if_pos h2, path, hf, keys_mapPath hf]
        split_ifs <;> simp [hg, ihb]
      · simp only [mapPath, if_neg h1, if_neg h2, path]
        split_ifs <;> simp [ihr]

theorem weight_mapPath (k : κ) (f : α → α) (g : α → Nat) (F : Forest α) :
    weight g (mapPath key k f F) + ((path key k F).map g).sum =
      weight g F + ((path key k F).map (g ∘ f)).sum := by
  induction F with
  | nil => rfl
  | cons a b r ihb ihr =>
    simp only [mapPath, path]
    split_ifs with h1 h2
    · simp; omega
    · simp only [weight_cons, List.map_cons, List.sum_cons, Function.comp_apply] at ihb ⊢; omega
    · simp only [weight_cons] at ihr ⊢; omega

theorem climb_absent {k : κ} (visit : α → Option (α × Int)) {F : Forest α}
    (h : k ∉ keys key F) : climb key k visit F = (.absent, F, 0) := by
  induction F with
  | nil => rfl
  | cons a b r ihb ihr =>
    simp only [keys_cons, List.mem_cons, List.mem_append, not_or] at h
    simp [climb, Ne.symm h.1, ihb h.2.1, ihr h.2.2]

theorem climb_reached {k : κ} {visit : α → Option (α × Int)} {f : α → α} {d : α → Int}
    {F : Forest α} (hv : ∀ a ∈ path key k F, visit a = some (f a, d a)) (h : k ∈ keys key F) :
    climb key k visit F = (.reached, mapPath key k f F, ((path key k F).map d).sum) := by
  induction F with
  | nil => simp at h
  | cons a b r ihb ihr =>
    by_cases e : key a = k
    · have := hv a (by simp [path, e])
      simp [climb, mapPath, path, e, this]
    · by_cases hb : k ∈ keys key b
      · have h1 := ihb (fun c hc => hv c (by simp [path, e, hb, hc])) hb
        have h2 := hv a (by simp [path, e, hb])
        simp [climb, mapPath, path, e, hb, h1, h2, Int.add_comm]
      · have hr : k ∈ keys key r := by
          simp only [keys_cons, List.mem_cons, List.mem_append] at h
          rcases h with h | h | h
          · exact absurd h.symm e
          · exact absurd h hb
          · exact h
        have h1 := ihr (fun c hc => hv c (by simpa [path, e, hb] using hc)) hr
        simp [climb, mapPath, path, e, hb, climb_absent visit hb, h1]

end Keyed

end Forest
