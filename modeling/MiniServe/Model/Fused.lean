import MiniServe.Lib.Loop
import MiniServe.Lib.Tensor

namespace MiniServe

namespace Fused

open Tensors

inductive Entry where
  | qProj | kProj | vProj | gateProj | upProj
  | oProj | downProj | inputLayernorm | postAttentionLayernorm | qNorm | kNorm
  | qkvProj | gateUpProj
  deriving DecidableEq, Repr

def groups : List (Entry × List Entry) := [(.qkvProj, [.qProj, .kProj, .vProj]), (.gateUpProj, [.gateProj, .upProj])]

def others : List Entry := [.oProj, .downProj, .inputLayernorm, .postAttentionLayernorm, .qNorm, .kNorm]

def align : Nat := 128

def alignUp (n : Nat) : Nat := (n + (align - 1)) / align * align

abbrev Layer := Entry → Option Tensor

def parts : List (List Entry) := groups.map Prod.snd

def sources (w : Layer) : Option (List Tensor) := (parts.flatten ++ others).mapM w

def lastOfGroup : List Nat :=
  (List.range parts.length).map fun j => ((parts.take (j + 1)).map List.length).sum - 1

def grouped : Nat := (parts.map List.length).sum

def layout (j total : Nat) : List Nat → List Nat × Nat
  | [] => ([], total)
  | n :: ns =>
    let next := if grouped ≤ j ∨ j ∈ lastOfGroup then alignUp (total + n) else total + n
    let rest := layout (j + 1) next ns
    (total :: rest.1, rest.2)

variable {α : Type}

def moveAll (buf : Tensor) : List (Nat × Tensor) → Memory α → Option (List Tensor × Memory α)
  | [], m => some ([], m)
  | (o, t) :: rest, m =>
    match (buf.slice o (o + t.numel)).view t.shape with
    | none => none
    | some v =>
      match moveAll buf rest (m.copy v t) with
      | none => none
      | some (views, m') => some (v :: views, m')

def setMembers (views : List Tensor) : Nat → List Entry → Layer → Option (Nat × Layer)
  | k, [], w => some (k, w)
  | k, key :: keys, w =>
    match views[k]? with
    | none => none
    | some v => setMembers views (k + 1) keys (Function.update w key (some v))

def groupMatrix (buf : Tensor) (offsets : List Nat) (views : List Tensor) (k : Nat) (keys : List Entry) :
    Option Tensor := do
  let rows ← (List.range keys.length).mapM fun j => views[k + j]? >>= (·.shape[0]?)
  let first ← views[k]?
  let cols ← first.shape[1]?
  let o ← offsets[k]?
  (buf.slice o (o + rows.sum * cols)).view [rows.sum, cols]

def setGroups (buf : Tensor) (offsets : List Nat) (views : List Tensor) :
    Nat → List (Entry × List Entry) → Layer → Option (Nat × Layer)
  | k, [], w => some (k, w)
  | k, (group, keys) :: rest, w =>
    match groupMatrix buf offsets views k keys with
    | none => none
    | some t =>
      match setMembers views k keys (Function.update w group (some t)) with
      | none => none
      | some (k', w') => setGroups buf offsets views k' rest w'

def fuseLayer (m : Memory α) (w : Layer) : Option (Memory α × Layer) :=
  if (w .qkvProj).isSome then some (m, w)
  else
    match sources w with
    | none => none
    | some src =>
      let (offsets, total) := layout 0 0 (src.map Tensor.numel)
      let (buf, m) := m.empty total
      match moveAll buf (offsets.zip src) m with
      | none => none
      | some (views, m) =>
        match setGroups buf offsets views 0 groups w with
        | none => none
        | some (k, w) =>
          match setMembers views k others w with
          | none => none
          | some (_, w) => some (m, w)

abbrev Weights := Nat → Layer

def fuseLayers : List Nat → Memory α → Weights → Option (Memory α × Weights)
  | [], m, w => some (m, w)
  | i :: rest, m, w =>
    match fuseLayer m (w i) with
    | none => none
    | some (m', layer) => fuseLayers rest m' (Function.update w i layer)

def fuseProjections (numLayers : Nat) (m : Memory α) (w : Weights) : Option (Memory α × Weights) :=
  fuseLayers (List.range numLayers) m w

section Layout

variable {j total n : Nat} {ns : List Nat}

theorem le_alignUp (n : Nat) : n ≤ alignUp n := by
  rw [alignUp, align]
  omega

theorem dvd_alignUp (n : Nat) : align ∣ alignUp n := Dvd.intro_left _ rfl

theorem layout_length : (layout j total ns).1.length = ns.length := by
  induction ns generalizing j total with
  | nil => rfl
  | cons n ns ih => simp [layout, ih]

-- Each tensor ends before the next one starts, and the last one before the end of the buffer.
theorem layout_chain :
    (∀ x ∈ (layout j total ns).1.zip ns, total ≤ x.1 ∧ x.1 + x.2 ≤ (layout j total ns).2) ∧
      ((layout j total ns).1.zip ns).Pairwise (fun x y => x.1 + x.2 ≤ y.1) ∧ total ≤ (layout j total ns).2 := by
  induction ns generalizing j total with
  | nil => simp [layout]
  | cons n ns ih =>
    rw [layout]
    have hnext : total + n ≤ if grouped ≤ j ∨ j ∈ lastOfGroup then alignUp (total + n) else total + n := by
      split
      · exact le_alignUp _
      · exact le_rfl
    generalize (if grouped ≤ j ∨ j ∈ lastOfGroup then alignUp (total + n) else total + n) = next at hnext ⊢
    obtain ⟨hin, hpair, htotal⟩ := @ih (j + 1) next
    refine ⟨?_, ?_, by simp only; omega⟩
    · intro x hx
      rcases List.mem_cons.mp hx with rfl | hx
      · exact ⟨le_rfl, hnext.trans htotal⟩
      · have := hin x hx
        simp only at this ⊢
        omega
    · apply List.Pairwise.cons _ hpair
      intro y hy
      exact hnext.trans (hin y hy).1

end Layout

section Move

variable {buf : Tensor} {m m' : Memory α} {l : List (Nat × Tensor)} {views : List Tensor} {b size : Nat}

def place (b : Nat) (x : Nat × Tensor) : Tensor := .contiguous b x.1 x.2.shape

theorem mem_place {x : Nat × Tensor} {c : Nat} : c ∈ (place b x).cells ↔ x.1 ≤ c ∧ c < x.1 + x.2.numel :=
  List.mem_range'_1

theorem place_nodup {x : Nat × Tensor} : (place b x).cells.Nodup := List.nodup_range'

structure Moved (b : Nat) (m m' : Memory α) (l : List (Nat × Tensor)) : Prop where
  next : m'.next = m.next
  size : m'.size = m.size
  storages : ∀ s ≠ b, m'.value s = m.value s
  cells : ∀ c, (∀ x ∈ l, c ∉ (place b x).cells) → m'.value b c = m.value b c
  read : ∀ x ∈ l, m'.read (place b x) = m.read x.2

theorem moveAll_moved (hin : ∀ x ∈ l, x.1 + x.2.numel ≤ size) (hpair : l.Pairwise fun x y => x.1 + x.2.numel ≤ y.1)
    (hsrc : ∀ x ∈ l, x.2.storage ≠ b) :
    ∃ m', moveAll (.contiguous b 0 [size]) l m = some (l.map (place b), m') ∧ Moved b m m' l := by
  induction l generalizing m with
  | nil => exact ⟨m, rfl, rfl, rfl, fun _ _ => rfl, fun _ _ => rfl, by simp⟩
  | cons x l ih =>
    obtain ⟨o, t⟩ := x
    obtain ⟨hx, hin⟩ := List.forall_mem_cons.mp hin
    obtain ⟨hfirst, hpair⟩ := List.pairwise_cons.mp hpair
    obtain ⟨ht, hsrc⟩ := List.forall_mem_cons.mp hsrc
    have hview : ((Tensor.contiguous b 0 [size]).slice o (o + t.numel)).view t.shape = some (place b (o, t)) :=
      view_slice hx
    obtain ⟨m', hmove, hm⟩ := ih (m := m.copy (place b (o, t)) t) hin hpair hsrc
    refine ⟨m', by simp only [moveAll, hview, hmove, List.map_cons], hm.next, hm.size, ?_, ?_, ?_⟩
    · intro s hs
      exact (hm.storages s hs).trans (copy_other hs)
    · intro c hc
      obtain ⟨hc, hrest⟩ := List.forall_mem_cons.mp hc
      exact (hm.cells c hrest).trans (copy_cell hc)
    · intro y hy
      rcases List.mem_cons.mp hy with rfl | hy
      · have hkeep : m'.read (place b (o, t)) = (m.copy (place b (o, t)) t).read (place b (o, t)) := by
          apply read_congr
          intro c hc
          apply hm.cells
          intro z hz hcz
          have h1 := mem_place.mp hc
          have h2 := mem_place.mp hcz
          have := hfirst z hz
          simp only at h1 this
          omega
        rw [hkeep]
        exact read_copy_self place_nodup rfl
      · rw [hm.read y hy]
        apply read_congr
        intro c _
        rw [copy_other]
        exact hsrc y hy

end Move

section Offsets

def entries : List Entry := parts.flatten ++ others

def laterMembers : List Entry := groups.flatMap fun g => g.2.tail

def offset (n : Entry → Nat) (e : Entry) : Nat := (layout 0 0 (entries.map n)).1.getD (entries.idxOf e) 0

variable {n : Entry → Nat} {e e' : Entry}

theorem entries_nodup : entries.Nodup := by decide

theorem offset_get {i : Nat} (h : i < entries.length) :
    (layout 0 0 (entries.map n)).1[i]? = some (offset n (entries.get ⟨i, h⟩)) := by
  have hlen : (layout 0 0 (entries.map n)).1.length = entries.length := by rw [layout_length, List.length_map]
  rw [offset, List.get_eq_getElem, entries_nodup.idxOf_getElem i h, List.getD_eq_getElem?_getD,
    List.getElem?_eq_getElem (by omega), Option.getD_some]

theorem zip_offsets {β : Type} (f : Entry → β) :
    (layout 0 0 (entries.map n)).1.zip (entries.map f) = entries.map fun e => (offset n e, f e) := by
  apply List.ext_getElem?
  intro i
  rcases Nat.lt_or_ge i entries.length with h | h
  · simp [List.zip, List.getElem?_zipWith, offset_get h, List.getElem?_eq_getElem h]
  · simp [List.zip, List.getElem?_zipWith, List.getElem?_eq_none h]

def total (n : Entry → Nat) : Nat := (layout 0 0 (entries.map n)).2

theorem offset_le (h : e ∈ entries) : offset n e + n e ≤ total n := by
  have hin := @layout_chain 0 0 (entries.map n)
  rw [zip_offsets] at hin
  exact (hin.1 _ (List.mem_map_of_mem h)).2

theorem offset_pairwise : entries.Pairwise fun e e' => offset n e + n e ≤ offset n e' := by
  have hin := @layout_chain 0 0 (entries.map n)
  rw [zip_offsets, List.pairwise_map] at hin
  exact hin.2.1

theorem offset_disjoint (h : e ∈ entries) (h' : e' ∈ entries) (hne : e ≠ e') :
    offset n e + n e ≤ offset n e' ∨ offset n e' + n e' ≤ offset n e := by
  have : Std.Symm fun e e' => offset n e + n e ≤ offset n e' ∨ offset n e' + n e' ≤ offset n e :=
    ⟨fun _ _ => Or.symm⟩
  have hpair : entries.Pairwise fun e e' => offset n e + n e ≤ offset n e' ∨ offset n e' + n e' ≤ offset n e :=
    offset_pairwise.imp Or.inl
  exact hpair.forall h h' hne

theorem align_dvd_offset (h : e ∈ entries) (hl : e ∉ laterMembers) : align ∣ offset n e := by
  cases e with
  | qProj => exact Nat.dvd_zero _
  | kProj | vProj | upProj => exact absurd (by decide) hl
  | qkvProj | gateUpProj => exact absurd h (by decide)
  | _ => exact dvd_alignUp _

theorem offset_members : offset n .kProj = offset n .qProj + n .qProj ∧ offset n .vProj = offset n .kProj + n .kProj ∧
    offset n .upProj = offset n .gateProj + n .gateProj := ⟨rfl, rfl, rfl⟩

end Offsets

section Assign

variable {V : Entry → Tensor} {views rest : List Tensor} {offsets : List Nat} {k b size cols : Nat} {keys : List Entry}
  {w : Layer}

theorem setMembers_ok (h : views.drop k = keys.map V ++ rest) :
    setMembers views k keys w = some (k + keys.length, fun e => if e ∈ keys then some (V e) else w e) ∧
      views.drop (k + keys.length) = rest := by
  induction keys generalizing k w with
  | nil => exact ⟨by simp [setMembers], by simpa using h⟩
  | cons key keys ih =>
    have hk : views[k]? = some (V key) := by
      have := congrArg (·[0]?) h
      simpa using this
    have hdrop : views.drop (k + 1) = keys.map V ++ rest := by
      rw [← List.tail_drop, h]
      rfl
    obtain ⟨hset, hrest⟩ := ih (w := Function.update w key (some (V key))) hdrop
    refine ⟨?_, by rw [← hrest, List.length_cons, Nat.add_right_comm, Nat.add_assoc]⟩
    simp only [setMembers, hk, hset, List.length_cons, Option.some.injEq, Prod.mk.injEq]
    refine ⟨by omega, ?_⟩
    funext e
    by_cases he : e ∈ keys
    · simp [he]
    · by_cases hkey : e = key
      · subst hkey
        simp [he]
      · simp [he, hkey]

theorem groupMatrix_ok {first : Entry} {rows : Entry → Nat} {o : Nat} (h : views.drop k = (first :: keys).map V ++ rest)
    (hshape : ∀ e ∈ first :: keys, (V e).shape = [rows e, cols]) (ho : offsets[k]? = some o)
    (hsize : o + ((first :: keys).map rows).sum * cols ≤ size) :
    groupMatrix (.contiguous b 0 [size]) offsets views k (first :: keys) =
      some (.contiguous b o [((first :: keys).map rows).sum, cols]) := by
  have hget : ∀ j < (first :: keys).length, views[k + j]? = some (V ((first :: keys).getD j first)) := by
    intro j hj
    rw [← List.getElem?_drop, h, List.getElem?_append_left (by simpa using hj), List.getElem?_map,
      List.getElem?_eq_getElem hj, List.getD_eq_getElem?_getD, List.getElem?_eq_getElem hj]
    rfl
  have hrows : (List.range (first :: keys).length).mapM (fun j => views[k + j]? >>= (·.shape[0]?)) =
      some ((first :: keys).map rows) := by
    have hmap : (List.range (first :: keys).length).map (fun j => rows ((first :: keys).getD j first)) =
        (first :: keys).map rows := by
      apply List.ext_getElem
      · simp
      · intro j hj _
        have hj : j < (first :: keys).length := by simpa using hj
        rw [List.getElem_map, List.getElem_range, List.getElem_map, List.getD_eq_getElem?_getD,
          List.getElem?_eq_getElem hj, Option.getD_some]
    rw [← hmap]
    apply Loop.mapM_some
    intro j hj
    have hj := List.mem_range.mp hj
    rw [hget j hj]
    have hmem : (first :: keys).getD j first ∈ first :: keys := by
      rw [List.getD_eq_getElem?_getD, List.getElem?_eq_getElem hj]
      exact List.getElem_mem hj
    simp only [Option.bind_eq_bind, Option.bind_some, hshape _ hmem]
    rfl
  have hfirst : views[k]? = some (V first) := hget 0 (by simp)
  have hcols : (V first).shape[1]? = some cols := by simp [hshape first List.mem_cons_self]
  have hprod : [((first :: keys).map rows).sum, cols].prod = ((first :: keys).map rows).sum * cols := by simp
  have hview : ((Tensor.contiguous b 0 [size]).slice o (o + ((first :: keys).map rows).sum * cols)).view
      [((first :: keys).map rows).sum, cols] = some (.contiguous b o [((first :: keys).map rows).sum, cols]) := by
    rw [← hprod]
    exact view_slice (by rwa [hprod])
  rw [groupMatrix, hrows]
  simp only [Option.bind_eq_bind, Option.bind_some, hfirst, hcols, ho]
  exact hview

def assigned (V : Entry → Tensor) (group : Entry) (t : Tensor) (keys : List Entry) (w : Layer) : Layer :=
  fun e => if e ∈ keys then some (V e) else Function.update w group (some t) e

theorem setGroups_cons {buf t : Tensor} {group : Entry} {more : List (Entry × List Entry)}
    (h : views.drop k = keys.map V ++ rest) (ht : groupMatrix buf offsets views k keys = some t) :
    setGroups buf offsets views k ((group, keys) :: more) w =
        setGroups buf offsets views (k + keys.length) more (assigned V group t keys w) ∧
      views.drop (k + keys.length) = rest := by
  obtain ⟨hset, hrest⟩ := setMembers_ok (w := Function.update w group (some t)) h
  refine ⟨?_, hrest⟩
  simp only [setGroups, ht, hset]
  rfl

end Assign

section FuseLayer

variable {m : Memory α} {w : Layer} {T : Entry → Tensor} {rows : Entry → Nat} {c d : Nat}

def sizes (T : Entry → Tensor) (e : Entry) : Nat := (T e).numel

def relaid (b : Nat) (T : Entry → Tensor) (e : Entry) : Tensor := place b (offset (sizes T) e, T e)

def placements (T : Entry → Tensor) : List (Nat × Tensor) := entries.map fun e => (offset (sizes T) e, T e)

theorem sizes_eq {e : Entry} {r : Nat} (h : (T e).shape = [r, c]) : sizes T e = r * c := by simp [sizes, Tensor.numel, h]

def matrix (b : Nat) (T : Entry → Tensor) (rows : Entry → Nat) (first : Entry) (keys : List Entry) (c : Nat) : Tensor :=
  .contiguous b (offset (sizes T) first) [((first :: keys).map rows).sum, c]

def fused (b : Nat) (T : Entry → Tensor) (rows : Entry → Nat) (c d : Nat) (w : Layer) : Layer :=
  fun e => if e ∈ others then some (relaid b T e) else
    assigned (relaid b T) .gateUpProj (matrix b T rows .gateProj [.upProj] d) [.gateProj, .upProj]
      (assigned (relaid b T) .qkvProj (matrix b T rows .qProj [.kProj, .vProj] c) [.qProj, .kProj, .vProj] w) e

theorem fuseLayer_ok (hfresh : w .qkvProj = none) (hw : ∀ e ∈ entries, w e = some (T e))
    (hs : ∀ e ∈ entries, (T e).storage < m.next) (hc : ∀ e ∈ [Entry.qProj, .kProj, .vProj], (T e).shape = [rows e, c])
    (hd : ∀ e ∈ [Entry.gateProj, .upProj], (T e).shape = [rows e, d]) :
    ∃ m', fuseLayer m w = some (m', fused m.next T rows c d w) ∧
      Moved m.next (m.empty (total (sizes T))).2 m' (placements T) := by
  have hsrc : sources w = some (entries.map T) := Loop.mapM_some hw
  have hnumel : (entries.map T).map Tensor.numel = entries.map (sizes T) := List.map_map
  have hzip : (layout 0 0 (entries.map (sizes T))).1.zip (entries.map T) = placements T := zip_offsets T
  have hin : ∀ x ∈ placements T, x.1 + x.2.numel ≤ total (sizes T) := by
    intro x hx
    obtain ⟨e, he, rfl⟩ := List.mem_map.mp hx
    exact offset_le he
  have hpair : (placements T).Pairwise fun x y => x.1 + x.2.numel ≤ y.1 :=
    List.pairwise_map.mpr offset_pairwise
  have hother : ∀ x ∈ placements T, x.2.storage ≠ m.next := by
    intro x hx
    obtain ⟨e, he, rfl⟩ := List.mem_map.mp hx
    exact (hs e he).ne
  obtain ⟨m', hmove, hm⟩ := moveAll_moved (m := (m.empty (total (sizes T))).2) hin hpair hother
  have hviews : (placements T).map (place m.next) = entries.map (relaid m.next T) := List.map_map
  have hq := sizes_eq (hc .qProj (by decide))
  have hk := sizes_eq (hc .kProj (by decide))
  have hv := sizes_eq (hc .vProj (by decide))
  have hg := sizes_eq (hd .gateProj (by decide))
  have hu := sizes_eq (hd .upProj (by decide))
  obtain ⟨hoff1, hoff2, hoff3⟩ := offset_members (n := sizes T)
  have hend1 := offset_le (n := sizes T) (e := .vProj) (by decide)
  have hend2 := offset_le (n := sizes T) (e := .upProj) (by decide)
  have hdrop : (entries.map (relaid m.next T)).drop 0 = [Entry.qProj, .kProj, .vProj].map (relaid m.next T) ++
      ([Entry.gateProj, .upProj].map (relaid m.next T) ++ others.map (relaid m.next T)) := rfl
  have hfits1 : offset (sizes T) .qProj + ([Entry.qProj, .kProj, .vProj].map rows).sum * c ≤ total (sizes T) := by
    simp only [List.map_cons, List.map_nil, List.sum_cons, List.sum_nil, Nat.add_mul]
    omega
  have hfits2 : offset (sizes T) .gateProj + ([Entry.gateProj, .upProj].map rows).sum * d ≤ total (sizes T) := by
    simp only [List.map_cons, List.map_nil, List.sum_cons, List.sum_nil, Nat.add_mul]
    omega
  have hstart1 : (layout 0 0 (entries.map (sizes T))).1[0]? = some (offset (sizes T) .qProj) := offset_get (by decide)
  have hstart2 : (layout 0 0 (entries.map (sizes T))).1[3]? = some (offset (sizes T) .gateProj) := offset_get (by decide)
  have hqkv := groupMatrix_ok (b := m.next) hdrop hc hstart1 hfits1
  obtain ⟨hset1, hdrop1⟩ := setGroups_cons (w := w) hdrop hqkv
  have hgate := groupMatrix_ok (b := m.next) hdrop1 hd hstart2 hfits2
  obtain ⟨hset2, hdrop2⟩ := setGroups_cons hdrop1 hgate
  rw [← List.append_nil (others.map _)] at hdrop2
  have hgroups : setGroups (.contiguous m.next 0 [total (sizes T)]) (layout 0 0 (entries.map (sizes T))).1
      (entries.map (relaid m.next T)) 0 groups w = some (5, assigned (relaid m.next T) .gateUpProj
        (matrix m.next T rows .gateProj [.upProj] d) [.gateProj, .upProj] (assigned (relaid m.next T) .qkvProj
          (matrix m.next T rows .qProj [.kProj, .vProj] c) [.qProj, .kProj, .vProj] w)) :=
    hset1.trans hset2
  have hothers : setMembers (entries.map (relaid m.next T)) 5 others _ = some (11, fused m.next T rows c d w) :=
    (setMembers_ok hdrop2).1
  have hempty : m.empty (layout 0 0 (entries.map (sizes T))).2 =
      (.contiguous m.next 0 [total (sizes T)], (m.empty (total (sizes T))).2) := rfl
  refine ⟨m', ?_, hm⟩
  simp only [fuseLayer, hfresh, Option.isSome_none, Bool.false_eq_true, if_false, hsrc, hnumel,
    hempty, hzip, hmove, hviews,
    hgroups, hothers]

end FuseLayer

section Preserved

def rowsOf (w : Layer) (e : Entry) : Nat := ((w e).bind (·.shape[0]?)).getD 0

def cellsOf (w : Layer) (e : Entry) : List Nat := ((w e).map Tensor.cells).getD []

def contents (m : Memory α) (w : Layer) (e : Entry) : List α := ((w e).map m.read).getD []

structure Fusable (m : Memory α) (w : Layer) : Prop where
  present : ∀ e ∈ entries, ∃ t, w e = some t ∧ t.storage < m.next
  columns : ∀ g ∈ groups, ∃ c, ∀ e ∈ g.2, ∃ t r, w e = some t ∧ t.shape = [r, c]

structure Relaid (m m' : Memory α) (w w' : Layer) (b : Nat) (off : Entry → Nat) : Prop where
  moved : ∀ e ∈ entries, ∀ t, w e = some t → w' e = some (.contiguous b (off e) t.shape) ∧
    m'.read (.contiguous b (off e) t.shape) = m.read t ∧ off e + t.numel ≤ m'.size b
  disjoint : ∀ e ∈ entries, ∀ e' ∈ entries, e ≠ e' → ∀ t t', w e = some t → w e' = some t' →
    off e + t.numel ≤ off e' ∨ off e' + t'.numel ≤ off e
  groups : ∀ g ∈ groups, ∃ t c, w' g.1 = some t ∧ t.storage = b ∧ (∀ e ∈ g.2, ∃ u r, w e = some u ∧ u.shape = [r, c]) ∧
    t.shape = [(g.2.map (rowsOf w)).sum, c] ∧ t.cells = g.2.flatMap (cellsOf w') ∧
      m'.read t = g.2.flatMap (contents m w)
  aligned : ∀ e ∈ entries, e ∉ laterMembers → align ∣ off e

variable {m m' : Memory α} {w w' : Layer} {T : Entry → Tensor} {rows : Entry → Nat} {b c d : Nat}

theorem relaid_cells {e : Entry} : (relaid b T e).cells = List.range' (offset (sizes T) e) (sizes T e) := rfl

theorem matrix_cells_qkv (h : ∀ e ∈ [Entry.qProj, .kProj, .vProj], (T e).shape = [rows e, c]) :
    (matrix b T rows .qProj [.kProj, .vProj] c).cells =
      [Entry.qProj, .kProj, .vProj].flatMap fun e => (relaid b T e).cells := by
  obtain ⟨hoff1, hoff2, -⟩ := offset_members (n := sizes T)
  simp only [List.flatMap_cons, List.flatMap_nil, List.append_nil, relaid_cells, hoff2, hoff1]
  rw [List.range'_append_1, List.range'_append_1]
  simp only [matrix, Tensor.contiguous, List.prod_cons, List.prod_nil, Nat.mul_one, List.map_cons, List.map_nil,
    List.sum_cons, List.sum_nil, Nat.add_zero, Nat.add_mul, sizes_eq (h .qProj (by decide)),
    sizes_eq (h .kProj (by decide)), sizes_eq (h .vProj (by decide))]

theorem matrix_cells_gate_up (h : ∀ e ∈ [Entry.gateProj, .upProj], (T e).shape = [rows e, c]) :
    (matrix b T rows .gateProj [.upProj] c).cells = [Entry.gateProj, .upProj].flatMap fun e => (relaid b T e).cells := by
  obtain ⟨-, -, hoff⟩ := offset_members (n := sizes T)
  simp only [List.flatMap_cons, List.flatMap_nil, List.append_nil, relaid_cells, hoff]
  rw [List.range'_append_1]
  simp only [matrix, Tensor.contiguous, List.prod_cons, List.prod_nil, Nat.mul_one, List.map_cons, List.map_nil,
    List.sum_cons, List.sum_nil, Nat.add_zero, Nat.add_mul, sizes_eq (h .gateProj (by decide)),
    sizes_eq (h .upProj (by decide))]

theorem fused_entry {e : Entry} (h : e ∈ entries) : fused b T rows c d w e = some (relaid b T e) := by
  cases e with
  | qkvProj | gateUpProj => exact absurd h (by decide)
  | _ => rfl

theorem read_flatMap {t : Tensor} {keys : List Entry} (hs : t.storage = b)
    (hc : t.cells = keys.flatMap fun e => (relaid b T e).cells)
    (hr : ∀ e ∈ keys, m'.read (relaid b T e) = m.read (T e)) : m'.read t = keys.flatMap fun e => m.read (T e) := by
  rw [Memory.read, hs, hc, List.map_flatMap]
  exact List.flatMap_congr hr

theorem fuseLayer_relaid (hfresh : w .qkvProj = none) (hw : Fusable m w) :
    ∃ m' w' off, fuseLayer m w = some (m', w') ∧ Relaid m m' w w' m.next off ∧ (w' .qkvProj).isSome ∧
      m'.next = m.next + 1 ∧ ∀ s < m.next, m'.value s = m.value s ∧ m'.size s = m.size s := by
  let T : Entry → Tensor := fun e => (w e).getD (.contiguous 0 0 [])
  have hT : ∀ e ∈ entries, w e = some (T e) := by
    intro e he
    obtain ⟨t, ht, -⟩ := hw.present e he
    simp [T, ht]
  have hs : ∀ e ∈ entries, (T e).storage < m.next := by
    intro e he
    obtain ⟨t, ht, hlt⟩ := hw.present e he
    simpa [T, ht] using hlt
  obtain ⟨c, hc⟩ := hw.columns (.qkvProj, [.qProj, .kProj, .vProj]) (by decide)
  obtain ⟨d, hd⟩ := hw.columns (.gateUpProj, [.gateProj, .upProj]) (by decide)
  have hrows : ∀ e t r k, w e = some t → t.shape = [r, k] → (T e).shape = [rowsOf w e, k] := by
    intro e t r k ht hshape
    simp [T, rowsOf, ht, hshape]
  have hqkv : ∀ e ∈ [Entry.qProj, .kProj, .vProj], (T e).shape = [rowsOf w e, c] := by
    intro e he
    obtain ⟨t, r, ht, hshape⟩ := hc e he
    exact hrows e t r c ht hshape
  have hgate : ∀ e ∈ [Entry.gateProj, .upProj], (T e).shape = [rowsOf w e, d] := by
    intro e he
    obtain ⟨t, r, ht, hshape⟩ := hd e he
    exact hrows e t r d ht hshape
  obtain ⟨m', hfuse, hm⟩ := fuseLayer_ok hfresh hT hs hqkv hgate
  have hsize : m'.size m.next = total (sizes T) := by
    rw [hm.size]
    exact Function.update_self ..
  have hread : ∀ e ∈ entries, m'.read (relaid m.next T e) = m.read (T e) :=
    fun e he => hm.read _ (List.mem_map_of_mem he)
  have hcells : ∀ keys : List Entry, (∀ e ∈ keys, e ∈ entries) → (keys.flatMap fun e => (relaid m.next T e).cells) =
      keys.flatMap (cellsOf (fused m.next T (rowsOf w) c d w)) := by
    intro keys hkeys
    apply List.flatMap_congr
    intro e he
    rw [cellsOf, fused_entry (hkeys e he)]
    rfl
  have hcontents : ∀ keys : List Entry, (∀ e ∈ keys, e ∈ entries) → (keys.flatMap fun e => m.read (T e)) =
      keys.flatMap (contents m w) := by
    intro keys hkeys
    apply List.flatMap_congr
    intro e he
    rw [contents, hT e (hkeys e he)]
    rfl
  refine ⟨m', _, offset (sizes T), hfuse, ⟨?_, ?_, ?_, ?_⟩, rfl, hm.next, ?_⟩
  · intro e he t ht
    obtain rfl : T e = t := by simp [T, ht]
    exact ⟨fused_entry he, hread e he, hsize ▸ offset_le he⟩
  · intro e he e' he' hne t t' ht ht'
    obtain rfl : T e = t := by simp [T, ht]
    obtain rfl : T e' = t' := by simp [T, ht']
    exact offset_disjoint he he' hne
  · intro g hg
    simp only [groups, List.mem_cons, List.not_mem_nil, or_false] at hg
    rcases hg with rfl | rfl
    · have hkeys : ∀ e ∈ [Entry.qProj, .kProj, .vProj], e ∈ entries := by decide
      have hmat := matrix_cells_qkv (b := m.next) hqkv
      have hall := read_flatMap (t := matrix m.next T (rowsOf w) .qProj [.kProj, .vProj] c) rfl hmat
        fun e he => hread e (hkeys e he)
      exact ⟨_, c, rfl, rfl, hc, rfl, hmat.trans (hcells _ hkeys), hall.trans (hcontents _ hkeys)⟩
    · have hkeys : ∀ e ∈ [Entry.gateProj, .upProj], e ∈ entries := by decide
      have hmat := matrix_cells_gate_up (b := m.next) hgate
      have hall := read_flatMap (t := matrix m.next T (rowsOf w) .gateProj [.upProj] d) rfl hmat
        fun e he => hread e (hkeys e he)
      exact ⟨_, d, rfl, rfl, hd, rfl, hmat.trans (hcells _ hkeys), hall.trans (hcontents _ hkeys)⟩
  · intro e he hl
    exact align_dvd_offset he hl
  · intro s hs
    refine ⟨hm.storages s hs.ne, ?_⟩
    rw [hm.size]
    exact Function.update_of_ne hs.ne ..

end Preserved

section AllLayers

variable {m m1 m2 : Memory α} {w w' : Layer} {ws : Weights} {b : Nat} {off : Entry → Nat} {l : List Nat}

structure Kept (m m' : Memory α) : Prop where
  next : m.next ≤ m'.next
  storages : ∀ s < m.next, m'.value s = m.value s ∧ m'.size s = m.size s

theorem Kept.refl (m : Memory α) : Kept m m := ⟨le_rfl, fun _ _ => ⟨rfl, rfl⟩⟩

theorem Kept.trans (h : Kept m m1) (h' : Kept m1 m2) : Kept m m2 := by
  refine ⟨h.next.trans h'.next, fun s hs => ?_⟩
  have h1 := h.storages s hs
  have h2 := h'.storages s (hs.trans_le h.next)
  exact ⟨h2.1.trans h1.1, h2.2.trans h1.2⟩

theorem Kept.read (h : Kept m m1) {t : Tensor} (ht : t.storage < m.next) : m1.read t = m.read t := by
  apply read_congr
  intro c _
  rw [(h.storages _ ht).1]

theorem Kept.fusable (h : Kept m m1) (hw : Fusable m w) : Fusable m1 w := by
  refine ⟨fun e he => ?_, hw.columns⟩
  obtain ⟨t, ht, hs⟩ := hw.present e he
  exact ⟨t, ht, hs.trans_le h.next⟩

theorem mem_entries_of_group {g : Entry × List Entry} {e : Entry} (hg : g ∈ groups) (he : e ∈ g.2) : e ∈ entries := by
  simp only [groups, List.mem_cons, List.not_mem_nil, or_false] at hg
  rcases hg with rfl | rfl
  · exact (by decide : ∀ e ∈ [Entry.qProj, .kProj, .vProj], e ∈ entries) e he
  · exact (by decide : ∀ e ∈ [Entry.gateProj, .upProj], e ∈ entries) e he

theorem Relaid.after (h : Relaid m m1 w w' b off) (hb : b < m1.next) (hk : Kept m1 m2) : Relaid m m2 w w' b off := by
  refine ⟨fun e he t ht => ?_, h.disjoint, fun g hg => ?_, h.aligned⟩
  · obtain ⟨h1, h2, h3⟩ := h.moved e he t ht
    rw [(hk.storages b hb).2]
    exact ⟨h1, (hk.read hb).trans h2, h3⟩
  · obtain ⟨t, c, h1, rfl, h3, h4, h5, h6⟩ := h.groups g hg
    exact ⟨t, c, h1, rfl, h3, h4, h5, (hk.read hb).trans h6⟩

theorem Relaid.before (h : Relaid m1 m2 w w' b off) (hw : Fusable m w) (hk : Kept m m1) : Relaid m m2 w w' b off := by
  have hread : ∀ e ∈ entries, ∀ t, w e = some t → m1.read t = m.read t := by
    intro e he t ht
    obtain ⟨u, hu, hs⟩ := hw.present e he
    obtain rfl := Option.some.inj (hu.symm.trans ht)
    exact hk.read hs
  refine ⟨fun e he t ht => ?_, h.disjoint, fun g hg => ?_, h.aligned⟩
  · obtain ⟨h1, h2, h3⟩ := h.moved e he t ht
    exact ⟨h1, h2.trans (hread e he t ht), h3⟩
  · obtain ⟨t, c, h1, h2, h3, h4, h5, h6⟩ := h.groups g hg
    refine ⟨t, c, h1, h2, h3, h4, h5, h6.trans (List.flatMap_congr fun e he => ?_)⟩
    obtain ⟨u, r, hu, -⟩ := h3 e he
    simp [contents, hu, hread e (mem_entries_of_group hg he) u hu]

structure FusedLayer (m m' : Memory α) (w w' : Layer) : Prop where
  present : (w' .qkvProj).isSome
  again : (w .qkvProj).isSome → w' = w
  fresh : w .qkvProj = none → ∃ b off, b < m'.next ∧ Relaid m m' w w' b off

theorem fuseLayer_step (hw : w .qkvProj = none → Fusable m w) :
    ∃ m' w', fuseLayer m w = some (m', w') ∧ Kept m m' ∧ FusedLayer m m' w w' := by
  cases hq : w .qkvProj with
  | some t => exact ⟨m, w, by simp [fuseLayer, hq], .refl m, by simp [hq], fun _ => rfl, by simp [hq]⟩
  | none =>
    obtain ⟨m', w', off, hfuse, hr, hsome, hnext, hkeep⟩ := fuseLayer_relaid hq (hw hq)
    exact ⟨m', w', hfuse, ⟨by omega, hkeep⟩, hsome, by simp [hq], fun _ => ⟨m.next, off, by omega, hr⟩⟩

theorem fuseLayers_ok (hl : l.Nodup) (hw : ∀ i ∈ l, ws i .qkvProj = none → Fusable m (ws i)) :
    ∃ m' ws', fuseLayers l m ws = some (m', ws') ∧ Kept m m' ∧ (∀ i ∉ l, ws' i = ws i) ∧
      ∀ i ∈ l, FusedLayer m m' (ws i) (ws' i) := by
  induction l generalizing m ws with
  | nil => exact ⟨m, ws, rfl, .refl m, fun _ _ => rfl, by simp⟩
  | cons i l ih =>
    obtain ⟨hi, hl⟩ := List.nodup_cons.mp hl
    obtain ⟨m1, layer, hfuse, hk, hlayer⟩ := fuseLayer_step (hw i List.mem_cons_self)
    have hsame : ∀ j ≠ i, Function.update ws i layer j = ws j := fun j hj => Function.update_of_ne hj ..
    have hne : ∀ j ∈ l, j ≠ i := fun j hj h => hi (h ▸ hj)
    obtain ⟨m2, ws', hrest, hk', hout, hin⟩ := @ih m1 (Function.update ws i layer) hl (by
      intro j hj hq
      rw [hsame j (hne j hj)] at hq ⊢
      exact hk.fusable (hw j (List.mem_cons_of_mem _ hj) hq))
    refine ⟨m2, ws', by simp only [fuseLayers, hfuse, hrest], hk.trans hk', ?_, ?_⟩
    · intro j hj
      obtain ⟨hji, hjl⟩ := not_or.mp (List.mem_cons.not.mp hj)
      rw [hout j hjl, hsame j hji]
    · intro j hj
      rcases List.mem_cons.mp hj with rfl | hj
      · have hw' : ws' j = layer := by rw [hout j hi, Function.update_self]
        rw [hw']
        refine ⟨hlayer.present, hlayer.again, fun hq => ?_⟩
        obtain ⟨b, off, hb, hr⟩ := hlayer.fresh hq
        exact ⟨b, off, hb.trans_le hk'.next, hr.after hb hk'⟩
      · have hrun := hin j hj
        rw [hsame j (hne j hj)] at hrun
        refine ⟨hrun.present, hrun.again, fun hq => ?_⟩
        obtain ⟨b, off, hb, hr⟩ := hrun.fresh hq
        exact ⟨b, off, hb, hr.before (hw j (List.mem_cons_of_mem _ ‹_›) hq) hk⟩

theorem fuseLayers_again (h : ∀ i ∈ l, (ws i .qkvProj).isSome) : fuseLayers l m ws = some (m, ws) := by
  induction l with
  | nil => rfl
  | cons i l ih =>
    obtain ⟨hi, hl⟩ := List.forall_mem_cons.mp h
    simp [fuseLayers, fuseLayer, hi, ih hl]

theorem fuseProjections_preserves {n : Nat} (hw : ∀ i < n, ws i .qkvProj = none → Fusable m (ws i)) :
    ∃ m' ws', fuseProjections n m ws = some (m', ws') ∧ fuseProjections n m' ws' = some (m', ws') ∧
      (∀ i, n ≤ i → ws' i = ws i) ∧ ∀ i < n, FusedLayer m m' (ws i) (ws' i) := by
  obtain ⟨m', ws', hfuse, -, hout, hin⟩ := fuseLayers_ok (List.nodup_range (n := n))
    fun i hi => hw i (List.mem_range.mp hi)
  refine ⟨m', ws', hfuse, fuseLayers_again fun i hi => (hin i hi).present, ?_, ?_⟩
  · intro i hi
    exact hout i (by simpa using hi)
  · intro i hi
    exact hin i (List.mem_range.mpr hi)

-- Two layers of grouped-query attention, every tensor in a storage of its own. A value projection is the transpose
-- of what its storage holds, so its cells are not in order.
def loadedShape : Entry → List Nat
  | .qProj => [4, 3]
  | .kProj | .vProj => [2, 3]
  | .oProj => [3, 4]
  | .gateProj | .upProj => [5, 3]
  | .downProj => [3, 5]
  | .inputLayernorm | .postAttentionLayernorm => [3]
  | .qNorm | .kNorm => [2]
  | .qkvProj | .gateUpProj => []

def loadedLayer (i : Nat) : Layer
  | .qkvProj | .gateUpProj => none
  | .vProj => some ⟨11 * i + entries.idxOf .vProj, [0, 2, 4, 1, 3, 5], [2, 3], rfl⟩
  | e => some (.contiguous (11 * i + entries.idxOf e) 0 (loadedShape e))

def loaded : Memory Nat := ⟨22, fun _ => 15, fun s c => 100 * s + c⟩

theorem loadedLayer_fusable {i : Nat} (hi : i < 2) : Fusable loaded (loadedLayer i) := by
  constructor
  · intro e he
    cases e with
    | qkvProj | gateUpProj => exact absurd he (by decide)
    | _ => exact ⟨_, rfl, by interval_cases i <;> decide⟩
  · intro g hg
    refine ⟨3, fun e he => ?_⟩
    have hmem : e ∈ parts.flatten := List.mem_flatten.mpr ⟨g.2, List.mem_map_of_mem hg, he⟩
    cases e with
    | qProj | kProj | vProj | gateProj | upProj => exact ⟨_, _, rfl, rfl⟩
    | _ => exact absurd hmem (by decide)

theorem fuseProjections_preserves_loaded :
    (fuseProjections 2 loaded loadedLayer).bind
        (fun x => (x.2 1 .qkvProj).map fun t => (t.shape, t.cells.headD 0, x.1.read t)) =
      some ([8, 3], 0, (List.range 12).map (1100 + ·) ++ (List.range 6).map (1200 + ·) ++
        [1300, 1302, 1304, 1301, 1303, 1305]) ∧
    ∃ m' ws', fuseProjections 2 loaded loadedLayer = some (m', ws') ∧
      fuseProjections 2 m' ws' = some (m', ws') ∧ (∀ i, 2 ≤ i → ws' i = loadedLayer i) ∧
        ∀ i < 2, FusedLayer loaded m' (loadedLayer i) (ws' i) :=
  ⟨by decide +kernel, fuseProjections_preserves fun _ hi _ => loadedLayer_fusable hi⟩

end AllLayers

end Fused

end MiniServe
