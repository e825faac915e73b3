import MiniServe.Minicore.Index

namespace MiniServe.Minicore

open Forest

variable {on : Bool} {bs : Nat} {n : RadixNode} {b r F : Forest RadixNode} {l : List RadixNode} {index : List IndexKey}
  {u : Nat} {K : List Nat}

theorem isNil_of_map {α β : Type} {g : α → β} {F G : Forest α} (h : F.map g = G.map g) : F.isNil = G.isNil := by
  rw [← isNil_map g F, h, isNil_map]

theorem tracked_below : Tracked on ((Forest.cons n b r).labels ++ l) index ↔
    Tracked on (b.labels ++ n :: (r.labels ++ l)) index := by
  have hp : ((Forest.cons n b r).labels ++ l).Perm (b.labels ++ n :: (r.labels ++ l)) := by
    rw [labels_cons, List.cons_append, List.append_assoc]
    exact List.perm_middle.symm
  exact ⟨fun h => h.perm hp, fun h => h.perm hp.symm⟩

theorem tracked_rest : Tracked on ((Forest.cons n b r).labels ++ l) index ↔
    Tracked on (r.labels ++ n :: (b.labels ++ l)) index := by
  have hp : ((Forest.cons n b r).labels ++ l).Perm (r.labels ++ n :: (b.labels ++ l)) := by
    rw [labels_cons, List.cons_append, List.append_assoc]
    exact (List.perm_append_comm_assoc _ _ _ |>.cons n).trans List.perm_middle.symm
  exact ⟨fun h => h.perm hp, fun h => h.perm hp.symm⟩

theorem Tracked.keys_nodup (h : Tracked on (F.labels ++ l) index) : (keys (fun n => n.uid) F).Nodup := by
  have := h.nodup
  rw [List.map_append] at this
  exact (List.nodup_append'.mp this).1

theorem Tracked.labels (h : Tracked on (F.labels ++ []) index) : Tracked on F.labels index := by
  rwa [List.append_nil] at h

-- Each node is marked exactly when it can be evicted, the nodes named in `K` apart.
def Flagged (on : Bool) (K : List Nat) (F : Forest RadixNode) : Prop :=
  ∀ x ∈ F.nodes, x.1.uid ∉ K → x.1.indexed = (on && x.1.evictable x.2.isNil)

theorem flagged_cons : Flagged on K (.cons n b r) ↔
    (n.uid ∉ K → n.indexed = (on && n.evictable b.isNil)) ∧ Flagged on K b ∧ Flagged on K r := by
  simp only [Flagged, nodes_cons, List.mem_cons, List.mem_append, or_imp, forall_and, forall_eq]

theorem Flagged.weaken (h : Flagged on K F) (u : Nat) : Flagged on (u :: K) F :=
  fun x hx hk => h x hx fun hm => hk (List.mem_cons_of_mem u hm)

theorem Flagged.strengthen (h : Flagged on (u :: K) F) (hu : u ∉ keys (fun n => n.uid) F) : Flagged on K F := by
  refine fun x hx hk => h x hx fun hm => ?_
  rcases List.mem_cons.mp hm with e | hm
  · refine hu ((mem_keys _).mpr ⟨x.1, ?_, e⟩)
    rw [labels_eq_nodes]
    exact List.mem_map_of_mem hx
  · exact hk hm

section Visit

variable {f : RadixNode → Bool → List IndexKey → RadixNode × List IndexKey}

theorem visit_tracked (hf : ∀ n leaf index l, Tracked on (n :: l) index →
      Tracked on ((f n leaf index).1 :: l) (f n leaf index).2)
    (F : Forest RadixNode) {l : List RadixNode} {index : List IndexKey} (h : Tracked on (F.labels ++ l) index) :
    Tracked on ((F.visit (fun n => n.uid) u f index).1.labels ++ l) (F.visit (fun n => n.uid) u f index).2 := by
  induction F generalizing l index with
  | nil => exact h
  | cons n b r ihb ihr =>
    rw [visit]
    split
    · rw [labels_cons, List.cons_append] at h
      exact hf n b.isNil index _ h
    · exact tracked_rest.mpr (ihr (tracked_rest.mp (tracked_below.mpr (ihb (tracked_below.mp h)))))

theorem visit_flagged (hf : ∀ n leaf index, (f n leaf index).1.uid = n.uid) (h : Flagged on K F)
    (index : List IndexKey) :
    Flagged on (u :: K) (F.visit (fun n => n.uid) u f index).1 := by
  induction F generalizing index with
  | nil => exact h.weaken u
  | cons n b r ihb ihr =>
    obtain ⟨hn, hb, hr⟩ := flagged_cons.mp h
    rw [visit]
    split
    · next e =>
      refine flagged_cons.mpr ⟨fun hk => ?_, hb.weaken u, hr.weaken u⟩
      exact absurd (by rw [hf, e]; exact List.mem_cons_self) hk
    · refine flagged_cons.mpr ⟨fun hk => ?_, ihb hb index, ihr hr _⟩
      have hnil : (b.visit (fun n => n.uid) u f index).1.isNil = b.isNil :=
        isNil_of_map (map_visit (g := fun _ => ()) (fun _ _ _ => rfl) b index)
      rw [hnil]
      exact hn fun hm => hk (List.mem_cons_of_mem u hm)

theorem visit_reindex (F : Forest RadixNode) {l : List RadixNode} {index : List IndexKey}
    (h : Tracked on (F.labels ++ l) index) (hF : Flagged on (u :: K) F) :
    Flagged on K (F.visit (fun n => n.uid) u (RadixNode.reindex on) index).1 := by
  induction F generalizing l index with
  | nil => exact fun x hx => by simp [visit] at hx
  | cons n b r ihb ihr =>
    obtain ⟨hn, hb, hr⟩ := flagged_cons.mp hF
    obtain ⟨hnb, hnr, -⟩ := nodup_keys_cons _ h.keys_nodup
    rw [visit]
    split
    · next e =>
      rw [labels_cons, List.cons_append] at h
      obtain ⟨-, hfst⟩ := h.reindex b.isNil
      refine flagged_cons.mpr ⟨fun _ => ?_, hb.strengthen (e ▸ hnb), hr.strengthen (e ▸ hnr)⟩
      simp only [hfst]
      rfl
    · next e =>
      have hbelow := visit_tracked (u := u) (fun n leaf index l h => (h.reindex leaf).1) b (tracked_below.mp h)
      refine flagged_cons.mpr ⟨fun hk => ?_, ihb (tracked_below.mp h) hb,
        ihr (tracked_rest.mp (tracked_below.mpr hbelow)) hr⟩
      have hnil : (b.visit (fun n => n.uid) u (RadixNode.reindex on) index).1.isNil = b.isNil :=
        isNil_of_map (map_visit (g := fun _ => ()) (fun _ _ _ => rfl) b index)
      rw [hnil]
      refine hn fun hm => ?_
      rcases List.mem_cons.mp hm with e' | hm
      · exact e e'
      · exact hk hm

end Visit

section Climb

variable {f : RadixNode → Bool → List IndexKey × Int → Option (RadixNode × List IndexKey × Int)}

def Relocks (on : Bool) (f : RadixNode → Bool → List IndexKey × Int → Option (RadixNode × List IndexKey × Int)) : Prop :=
  ∀ {n leaf s n' s'}, f n leaf s = some (n', s') →
    ∃ k, (n', s'.1) = RadixNode.reindex on { n with lock := k } leaf s.1

theorem Relocks.tracked (hf : Relocks on f) {leaf : Bool} {s s' : List IndexKey × Int} {n' : RadixNode}
    (hv : f n leaf s = some (n', s')) (h : Tracked on (n :: l) s.1) :
    Tracked on (n' :: l) s'.1 ∧ n'.indexed = (on && n'.evictable leaf) := by
  obtain ⟨k, hk⟩ := hf hv
  obtain ⟨h1, h2⟩ := (h.replace (m := { n with lock := k }) rfl rfl).reindex leaf
  rw [← hk] at h1 h2
  have h3 : n' = _ := h2
  refine ⟨h1, ?_⟩
  rw [h3]
  rfl

theorem lockVisit_relocks : Relocks on (RadixNode.lockVisit on) := by
  intro n leaf s n' s' hv
  simp only [RadixNode.lockVisit, Option.some.injEq, Prod.mk.injEq] at hv
  obtain ⟨rfl, rfl⟩ := hv
  exact ⟨n.lock + 1, rfl⟩

theorem unlockVisit_relocks : Relocks on (RadixNode.unlockVisit on) := by
  intro n leaf s n' s' hv
  unfold RadixNode.unlockVisit at hv
  split at hv
  · exact absurd hv (by simp)
  · simp only [Option.some.injEq, Prod.mk.injEq] at hv
    obtain ⟨rfl, rfl⟩ := hv
    exact ⟨n.lock - 1, rfl⟩

theorem climbWith_isNil (F : Forest RadixNode) (s : List IndexKey × Int) :
    (F.climbWith (fun n => n.uid) u f s).2.1.isNil = F.isNil := by
  cases F with
  | nil => rfl
  | cons n b r =>
    rw [climbWith]
    split
    · split <;> rfl
    · split
      · rfl
      · rfl
      · split <;> rfl

theorem climbWith_upkeep (hf : Relocks on f) (F : Forest RadixNode) {l : List RadixNode} {s : List IndexKey × Int}
    (h : Tracked on (F.labels ++ l) s.1) (hF : Flagged on [] F) :
    Tracked on ((F.climbWith (fun n => n.uid) u f s).2.1.labels ++ l) (F.climbWith (fun n => n.uid) u f s).2.2.1 ∧
      Flagged on [] (F.climbWith (fun n => n.uid) u f s).2.1 := by
  induction F generalizing l s with
  | nil => exact ⟨h, hF⟩
  | cons n b r ihb ihr =>
    obtain ⟨hn, hb, hr⟩ := flagged_cons.mp hF
    have hnil := climbWith_isNil (u := u) (f := f) b s
    obtain ⟨hb1, hb2⟩ := ihb (tracked_below.mp h) hb
    obtain ⟨hr1, hr2⟩ := ihr (tracked_rest.mp h) hr
    rw [climbWith]
    split
    · split
      · next n' s' hv =>
        rw [labels_cons, List.cons_append] at h
        obtain ⟨h1, h2⟩ := hf.tracked hv h
        exact ⟨h1, flagged_cons.mpr ⟨fun _ => h2, hb, hr⟩⟩
      · exact ⟨h, hF⟩
    · generalize b.climbWith (fun n => n.uid) u f s = wb at hb1 hb2 hnil ⊢
      obtain ⟨c, b', s'⟩ := wb
      simp only at hb1 hb2 hnil
      cases c with
      | absent => exact ⟨tracked_rest.mpr hr1, flagged_cons.mpr ⟨hn, hb, hr2⟩⟩
      | refused => exact ⟨tracked_below.mpr hb1, flagged_cons.mpr ⟨by rwa [hnil], hb2, hr⟩⟩
      | reached =>
        have hcons := tracked_below.mpr hb1
        simp only
        split
        · next n' s'' hv =>
          rw [labels_cons, List.cons_append] at hcons
          obtain ⟨h1, h2⟩ := hf.tracked hv hcons
          exact ⟨h1, flagged_cons.mpr ⟨fun _ => h2, hb2, hr⟩⟩
        · exact ⟨hcons, flagged_cons.mpr ⟨by rwa [hnil], hb2, hr⟩⟩

end Climb

section Walk

variable {clock uid : Nat} {ts : List Token}

theorem walkBelow_isNil (F : Forest RadixNode) : (walkBelow on bs clock uid index F ts).forest.isNil = F.isNil := by
  cases F with
  | nil => rfl
  | cons n b r =>
    rw [walkBelow]
    split
    · dsimp only
      split <;> rfl
    · rfl

theorem walkBelow_upkeep (F : Forest RadixNode) {l : List RadixNode} {index : List IndexKey} {ts : List Token}
    (h : Tracked on (F.labels ++ l) index) (hF : Flagged on [] F) (hu : uid ∉ (F.labels ++ l).map fun n => n.uid) :
    Tracked on ((walkBelow on bs clock uid index F ts).forest.labels ++ l) (walkBelow on bs clock uid index F ts).index ∧
      Flagged on [] (walkBelow on bs clock uid index F ts).forest := by
  induction F generalizing l index ts with
  | nil => exact ⟨h, hF⟩
  | cons n b r ihb ihr =>
    obtain ⟨hn, hb, hr⟩ := flagged_cons.mp hF
    have hflag := hn (List.not_mem_nil)
    rw [walkBelow]
    split
    · dsimp only
      split
      · have hlower := h.replace (m := n.lower bs (matchedBlocks bs n ts)) rfl rfl
        have hupper := hlower.cons (n := n.upper bs (matchedBlocks bs n ts) uid) rfl hu
        have hfalse : (n.upper bs (matchedBlocks bs n ts) uid).indexed =
            (on && (n.upper bs (matchedBlocks bs n ts) uid).evictable false) := by
          simp [RadixNode.upper, RadixNode.evictable]
        obtain ⟨h1, h2⟩ := hupper.touch hfalse clock
        refine ⟨by simpa using h1, flagged_cons.mpr ⟨fun _ => ?_, flagged_cons.mpr ⟨fun _ => hflag, hb, ?_⟩, hr⟩⟩
        · rw [h2]
          rfl
        · exact fun x hx => by simp at hx
      · obtain ⟨h1, h2⟩ := Tracked.touch (l := b.labels ++ (r.labels ++ l)) (by simpa using h) hflag clock
        generalize n.touch on b.isNil index clock = n' at h1 h2 ⊢
        have hmid : Tracked on ((Forest.cons n'.1 b r).labels ++ l) n'.2 := by simpa using h1
        have hu' : uid ∉ (b.labels ++ n'.1 :: (r.labels ++ l)).map fun n => n.uid := by
          have : n'.1.uid = n.uid := by rw [h2]
          simpa [this, and_assoc, and_left_comm, or_left_comm] using hu
        obtain ⟨h3, h4⟩ := ihb (tracked_below.mp hmid) hb hu'
        refine ⟨tracked_below.mpr h3, flagged_cons.mpr ⟨fun _ => ?_, h4, hr⟩⟩
        rw [walkBelow_isNil, h2]
        rfl
    · have hu' : uid ∉ (r.labels ++ n :: (b.labels ++ l)).map fun n => n.uid := by
        simpa [and_assoc, and_left_comm, or_left_comm] using hu
      obtain ⟨h3, h4⟩ := ihr (tracked_rest.mp h) hr hu'
      exact ⟨tracked_rest.mpr h3, flagged_cons.mpr ⟨hn, hb, h4⟩⟩

end Walk

section Attach

variable {leaf : RadixNode}

theorem append_flagged (h : Flagged on K F) (hx : leaf.uid ∈ K) : Flagged on K (F.append leaf) := by
  induction F with
  | nil => exact flagged_cons.mpr ⟨fun hk => absurd hx hk, h, h⟩
  | cons n b r _ ihr =>
    obtain ⟨hn, hb, hr⟩ := flagged_cons.mp h
    exact flagged_cons.mpr ⟨hn, hb, ihr hr⟩

theorem addUnder_flagged (h : Flagged on K F) (hx : leaf.uid ∈ K) (hu : u ∈ K) :
    Flagged on K (F.addUnder (fun n => n.uid) u leaf) := by
  induction F with
  | nil => exact h
  | cons n b r ihb ihr =>
    obtain ⟨hn, hb, hr⟩ := flagged_cons.mp h
    rw [addUnder]
    split
    · next e => exact flagged_cons.mpr ⟨fun hk => absurd (e ▸ hu) hk, append_flagged hb hx, hr⟩
    · refine flagged_cons.mpr ⟨fun hk => ?_, ihb hb, ihr hr⟩
      have hnil : (b.addUnder (fun n => n.uid) u leaf).isNil = b.isNil := by
        cases b with
        | nil => rfl
        | cons =>
          rw [addUnder]
          split <;> rfl
      rw [hnil]
      exact hn hk

end Attach

section Remove

theorem remove_flagged (h : Flagged on [u] F) (hn : (keys (fun n => n.uid) F).Nodup)
    (hp : ∀ x, parent (fun n => n.uid) u F = some x → x.1.uid ∈ K) : Flagged on K (F.remove (fun n => n.uid) u) := by
  intro x hx hk
  obtain ⟨hne, b, hb, he⟩ := mem_nodes_remove hx
  have hflag := h (x.1, b) hb (by simpa using hne)
  rw [hflag, he]
  have hnil : (b.remove (fun n => n.uid) u).isNil = b.isNil := by
    cases b with
    | nil => rfl
    | cons c d e =>
      rw [Bool.eq_iff_iff, isNil_iff]
      refine ⟨fun hz => ?_, fun hz => by simp [isNil] at hz⟩
      have htop : u ∈ (Forest.cons c d e).tops.map fun n => n.uid :=
        List.mem_map.mpr ⟨c, List.mem_cons_self, remove_eq_nil hz c List.mem_cons_self⟩
      exact absurd (hp _ (parent_of_child hn hb htop)) hk
  rw [hnil]

end Remove

end MiniServe.Minicore
