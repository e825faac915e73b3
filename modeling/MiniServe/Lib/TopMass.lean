import Mathlib.Algebra.Order.BigOperators.Group.Finset
import Mathlib.Data.List.Sort
import Mathlib.Tactic

namespace TopMass

section Stable

variable {α : Type} {r : α → α → Prop} [DecidableRel r] {key : α → Nat} {a : α} {l : List α}

def Stable (r : α → α → Prop) (key : α → Nat) (a b : α) : Prop := r a b ∧ (r b a → key a < key b)

theorem stable_orderedInsert (htotal : ∀ a b, r a b ∨ r b a) (htrans : ∀ {a b c}, r a b → r b c → r a c)
    (h : l.Pairwise (Stable r key)) (hkey : ∀ b ∈ l, key a < key b) : (l.orderedInsert r a).Pairwise (Stable r key) := by
  induction l with
  | nil => simp
  | cons b l ih =>
    obtain ⟨hb, hl⟩ := List.pairwise_cons.mp h
    by_cases hab : r a b
    · rw [List.orderedInsert_cons_of_le r l hab]
      apply List.Pairwise.cons _ h
      intro c hc
      refine ⟨?_, fun _ => hkey c hc⟩
      rcases List.mem_cons.mp hc with rfl | hc
      · exact hab
      · exact htrans hab (hb c hc).1
    · rw [List.orderedInsert_of_not_le r l hab]
      apply List.Pairwise.cons _ (ih hl fun c hc => hkey c (List.mem_cons_of_mem _ hc))
      intro c hc
      rcases (List.mem_orderedInsert r).mp hc with rfl | hc
      · exact ⟨(htotal c b).resolve_left hab, fun h => absurd h hab⟩
      · exact hb c hc

theorem stable_insertionSort (htotal : ∀ a b, r a b ∨ r b a) (htrans : ∀ {a b c}, r a b → r b c → r a c)
    (h : l.Pairwise fun a b => key a < key b) : (l.insertionSort r).Pairwise (Stable r key) := by
  induction l with
  | nil => simp
  | cons a l ih =>
    obtain ⟨ha, hl⟩ := List.pairwise_cons.mp h
    rw [List.insertionSort_cons]
    apply stable_orderedInsert htotal htrans (ih hl)
    intro b hb
    exact ha b ((List.mem_insertionSort r).mp hb)

theorem mem_take_iff {k : Nat} : a ∈ l.take k ↔ ∃ i < k, l[i]? = some a := by
  simp only [List.mem_iff_getElem?, List.getElem?_take]
  constructor
  · rintro ⟨i, hi⟩
    split at hi
    · next hlt => exact ⟨i, hlt, hi⟩
    · simp at hi
  · rintro ⟨i, hlt, hi⟩
    exact ⟨i, by rw [if_pos hlt, hi]⟩

end Stable

section Mass

variable {ι K : Type} {w : ι → K} {l : List ι} {s t : Finset ι} {before : ι → ι → Prop} {p : K} {i j k : Nat} {a : ι}

section Sum

variable [AddCommGroup K]

def massBefore (w : ι → K) (l : List ι) (i : Nat) : K := ((l.take i).map w).sum

end Sum

variable [AddCommGroup K] [LinearOrder K] [IsOrderedAddMonoid K]

theorem massBefore_mono (h0 : ∀ a ∈ l, 0 ≤ w a) (h : i ≤ j) : massBefore w l i ≤ massBefore w l j := by
  apply List.Sublist.sum_le_sum
  · exact ((List.take_prefix_take_left h).sublist).map w
  · intro x hx
    obtain ⟨a, ha, rfl⟩ := List.mem_map.mp hx
    exact h0 a (List.mem_of_mem_take ha)

theorem exists_cut (h0 : ∀ a ∈ l, 0 ≤ w a) (htotal : p ≤ massBefore w l l.length) :
    ∃ k ≤ l.length, p ≤ massBefore w l k ∧ ∀ i, massBefore w l i < p ↔ i < k := by
  have hex : ∃ k, p ≤ massBefore w l k := ⟨_, htotal⟩
  classical
  refine ⟨Nat.find hex, Nat.find_min' hex htotal, Nat.find_spec hex, fun i => ?_⟩
  constructor
  · intro hlt
    by_contra hge
    exact absurd ((Nat.find_spec hex).trans (massBefore_mono h0 (Nat.le_of_not_lt hge))) (not_le.mpr hlt)
  · intro hlt
    exact not_le.mp (Nat.find_min hex hlt)

variable [DecidableEq ι]

-- A set closed under what comes before, of mass at least `p` and of the least size of any such set.
structure Least (ground s : Finset ι) (w : ι → K) (before : ι → ι → Prop) (p : K) : Prop where
  subset : s ⊆ ground
  closed : ∀ a ∈ s, ∀ b ∈ ground, before b a → b ∈ s
  mass : p ≤ ∑ a ∈ s, w a
  least : ∀ t ⊆ ground, p ≤ ∑ a ∈ t, w a → s.card ≤ t.card

omit [LinearOrder K] [IsOrderedAddMonoid K] in
theorem massBefore_eq_sum (hl : l.Nodup) : massBefore w l i = ∑ a ∈ (l.take i).toFinset, w a :=
  (List.sum_toFinset w (hl.sublist (List.take_sublist i l))).symm

theorem card_take (hl : l.Nodup) (h : i ≤ l.length) : (l.take i).toFinset.card = i := by
  rw [List.toFinset_card_of_nodup (hl.sublist (List.take_sublist i l)), List.length_take, min_eq_left h]

theorem sum_le_massBefore (hl : l.Nodup) (hw : l.Pairwise fun a b => w b ≤ w a) (h0 : ∀ a ∈ l, 0 ≤ w a)
    (ht : t ⊆ l.toFinset) (hi : i ≤ l.length) (hc : t.card ≤ i) : ∑ a ∈ t, w a ≤ massBefore w l i := by
  rw [massBefore_eq_sum hl]
  let top := (l.take i).toFinset
  have hcard : top.card = i := card_take hl hi
  have hdiff : (t \ top).card ≤ (top \ t).card := by
    have h1 := Finset.card_sdiff_add_card_inter t top
    have h2 := Finset.card_sdiff_add_card_inter top t
    rw [Finset.inter_comm] at h2
    omega
  have hle : ∑ a ∈ t \ top, w a ≤ ∑ a ∈ top \ t, w a := by
    rcases (top \ t).eq_empty_or_nonempty with hnone | hsome
    · rw [hnone, Finset.card_empty, Nat.le_zero, Finset.card_eq_zero] at hdiff
      rw [hnone, hdiff]
    · obtain ⟨a, ha, hmin⟩ := Finset.exists_min_image (top \ t) w hsome
      have hatop : a ∈ l.take i := List.mem_toFinset.mp (Finset.mem_sdiff.mp ha).1
      have hrest : ∀ b ∈ t \ top, w b ≤ w a := by
        intro b hb
        obtain ⟨hbt, hbtop⟩ := Finset.mem_sdiff.mp hb
        have hb : b ∈ l.take i ++ l.drop i := by
          rw [List.take_append_drop]
          exact List.mem_toFinset.mp (ht hbt)
        have hdrop : b ∈ l.drop i :=
          (List.mem_append.mp hb).resolve_left fun h => hbtop (List.mem_toFinset.mpr h)
        rw [← List.take_append_drop i l] at hw
        exact (List.pairwise_append.mp hw).2.2 a hatop b hdrop
      calc ∑ b ∈ t \ top, w b ≤ (t \ top).card • w a := Finset.sum_le_card_nsmul _ _ _ hrest
        _ ≤ (top \ t).card • w a := nsmul_le_nsmul_left (h0 a (List.mem_of_mem_take hatop)) hdiff
        _ ≤ ∑ b ∈ top \ t, w b := Finset.card_nsmul_le_sum _ _ _ hmin
  calc ∑ a ∈ t, w a = ∑ a ∈ t ∩ top, w a + ∑ a ∈ t \ top, w a := (Finset.sum_inter_add_sum_sdiff t top w).symm
    _ ≤ ∑ a ∈ top ∩ t, w a + ∑ a ∈ top \ t, w a := by
      rw [Finset.inter_comm]
      exact add_le_add_right hle _
    _ = ∑ a ∈ top, w a := Finset.sum_inter_add_sum_sdiff top t w

theorem least_of_massBefore (hl : l.Nodup) (hb : l.Pairwise before) (hanti : ∀ a b, before a b → ¬ before b a)
    (hw : l.Pairwise fun a b => w b ≤ w a) (h0 : ∀ a ∈ l, 0 ≤ w a) (htotal : p ≤ massBefore w l l.length)
    (hs : ∀ a, a ∈ s ↔ ∃ i, l[i]? = some a ∧ massBefore w l i < p) : Least l.toFinset s w before p := by
  obtain ⟨k, hk, hmass, hcut⟩ := exists_cut h0 htotal
  have htake : s = (l.take k).toFinset := by
    ext a
    simp only [hs, hcut, List.mem_toFinset, mem_take_iff, and_comm]
  refine ⟨?_, ?_, ?_, ?_⟩
  · rw [htake]
    exact fun a ha => List.mem_toFinset.mpr (List.mem_of_mem_take (List.mem_toFinset.mp ha))
  · intro a ha b hbl hba
    obtain ⟨i, hi, hlt⟩ := (hs a).mp ha
    obtain ⟨j, hj⟩ := List.mem_iff_getElem?.mp (List.mem_toFinset.mp hbl)
    refine (hs b).mpr ⟨j, hj, (massBefore_mono h0 ?_).trans_lt hlt⟩
    by_contra hij
    obtain ⟨hil, rfl⟩ := List.getElem?_eq_some_iff.mp hi
    obtain ⟨hjl, rfl⟩ := List.getElem?_eq_some_iff.mp hj
    exact hanti _ _ hba (List.pairwise_iff_getElem.mp hb i j hil hjl (Nat.lt_of_not_le hij))
  · rw [htake, ← massBefore_eq_sum hl]
    exact hmass
  · intro t ht hp
    by_contra hlt
    rw [htake, card_take hl hk, not_le] at hlt
    have hle := sum_le_massBefore hl hw h0 ht (hlt.le.trans hk) le_rfl
    exact absurd (hp.trans hle) (not_le.mpr ((hcut _).mpr hlt))

end Mass

end TopMass
