import MiniServe.Engine.Trim
import MiniServe.Spec.DraftRunner

namespace MiniServe

namespace DraftRunner

section Packing

structure Packing where
  passes : List (List Feed) := []
  filling : Filling := {}

namespace Packing

variable (cap : Nat)

def flush (p : Packing) : Packing :=
  if p.filling.used = cap then ⟨p.passes ++ [p.filling.rows], {}⟩ else p

def push (f : Feed) (n : Nat) (p : Packing) : Packing := ⟨p.passes, ⟨p.filling.rows ++ [f], p.filling.used + n⟩⟩

def addItem (r : Rid) : Nat → List Token → Nat → Packing → Packing
  | 0, _, _, p => p
  | fuel + 1, ids, start, p =>
    if ids = [] then p
    else
      let p := p.flush cap
      let n := min ids.length (cap - p.filling.used)
      addItem r fuel (ids.drop n) (start + n) (p.push ⟨r, ids.take n, start⟩ n)

def addItems : List (Rid × List Token) → Packing → Packing
  | [], p => p
  | (r, ids) :: rest, p => addItems rest (p.addItem cap r ids.length ids 0)

def all (p : Packing) : List (List Feed) :=
  if p.filling.rows = [] then p.passes else p.passes ++ [p.filling.rows]

end Packing

def passes (maxPrefillTokens : Nat) (items : List (Rid × List Token)) : List (List Feed) :=
  (Packing.addItems maxPrefillTokens items {}).all

def issue (model : DraftModel) : List (List Feed) → DraftRunner → Except Error DraftRunner
  | [], d => .ok d
  | pass :: passes, d =>
    match d.extend model pass with
    | .error e => .error e
    | .ok (_, d) => issue model passes d

def numFed (pass : List Feed) : Nat := (pass.map fun f => f.ids.length).sum

def chunks (r : Rid) (passes : List (List Feed)) : List Feed := passes.flatten.filter (·.rid = r)

def Contiguous : Nat → List Feed → Prop
  | _, [] => True
  | n, f :: l => f.start = n ∧ Contiguous (n + f.ids.length) l

end Packing

section Issue

variable {d d' : DraftRunner} {model : DraftModel} {p : Packing} {l l' : List (List Feed)} {feeds : List Feed}
  {r : Rid} {ids : List Token} {start fuel : Nat} {e : Error} {t : BlockTable}

theorem issue_append : d.issue model (l ++ l') =
    match d.issue model l with
    | .error e => .error e
    | .ok d => d.issue model l' := by
  induction l generalizing d with
  | nil => rfl
  | cons pass l ih =>
    simp only [List.cons_append, issue]
    cases d.extend model pass with
    | error e => rfl
    | ok x => exact ih

structure Apart (d d' : DraftRunner) (rids : List Rid) : Prop where
  maxPrefillTokens : d'.maxPrefillTokens = d.maxPrefillTokens
  tables : ∀ r, r ∉ rids → d'.tables r = d.tables r

theorem appendFeeds_apart (h : appendFeeds feeds d = .ok d') : Apart d d' (feeds.map Feed.rid) := by
  induction feeds generalizing d with
  | nil =>
    cases h
    exact ⟨rfl, fun _ _ => rfl⟩
  | cons f feeds ih =>
    simp only [appendFeeds, appendFeed, table] at h
    cases ht : d.tables f.rid with
    | none => simp [ht] at h
    | some t =>
      cases ha : t.appendTokens d.allocator f.ids.length with
      | mk res x =>
        cases res with
        | error e => simp [ht, ha] at h
        | ok n =>
          simp only [ht, ha] at h
          have ih := ih h
          refine ⟨ih.maxPrefillTokens, fun r hr => ?_⟩
          simp only [List.map_cons, List.mem_cons, not_or] at hr
          rw [ih.tables r hr.2]
          exact Function.update_of_ne hr.1 _ _

theorem extend_cases {out : List Token} (h : d.extend model feeds = .ok (out, d')) :
    ∃ d1 slots, appendFeeds feeds d = .ok d1 ∧ d' = (d1.run model feeds slots).2 ∧
      ∀ f ∈ feeds, ∀ id ∈ f.ids, IsLong id := by
  unfold extend advance at h
  cases ha : appendFeeds feeds d with
  | error e => simp [ha] at h
  | ok d1 =>
    cases hs : d1.feedSlots feeds with
    | error e => simp [ha, hs] at h
    | ok slots =>
      simp only [ha, hs] at h
      split at h
      · simp at h
      · next hall =>
        refine ⟨d1, slots, rfl, (congrArg Prod.snd (Except.ok.inj h)).symm, fun f hf id hid => ?_⟩
        by_contra hn
        exact hall ⟨id, List.mem_flatMap.mpr ⟨f, hf, hid⟩, hn⟩

theorem extend_apart {out : List Token} (h : d.extend model feeds = .ok (out, d')) :
    Apart d d' (feeds.map Feed.rid) := by
  obtain ⟨d1, slots, ha, rfl, -⟩ := extend_cases h
  have hapart := appendFeeds_apart ha
  exact ⟨hapart.maxPrefillTokens, hapart.tables⟩

theorem issue_apart (h : d.issue model l = .ok d') : Apart d d' (l.flatten.map Feed.rid) := by
  induction l generalizing d with
  | nil =>
    cases h
    exact ⟨rfl, fun _ _ => rfl⟩
  | cons pass l ih =>
    simp only [issue] at h
    cases hp : d.extend model pass with
    | error e => simp [hp] at h
    | ok x =>
      obtain ⟨out, d1⟩ := x
      simp only [hp] at h
      have h1 := extend_apart hp
      have h2 := ih h
      refine ⟨h2.maxPrefillTokens.trans h1.maxPrefillTokens, fun r hr => ?_⟩
      simp only [List.flatten_cons, List.map_append, List.mem_append, not_or] at hr
      exact (h2.tables r hr.2).trans (h1.tables r hr.1)

theorem appendFeeds_numTokens (h : appendFeeds feeds d = .ok d') (ht : d.tables r = some t) :
    ∃ t', d'.tables r = some t' ∧ t'.numTokens = t.numTokens + numFed (feeds.filter (·.rid = r)) := by
  induction feeds generalizing d t with
  | nil =>
    cases h
    exact ⟨t, ht, rfl⟩
  | cons f feeds ih =>
    simp only [appendFeeds, appendFeed, table] at h
    cases hf : d.tables f.rid with
    | none => simp [hf] at h
    | some t1 =>
      cases ha : t1.appendTokens d.allocator f.ids.length with
      | mk res x =>
        obtain ⟨t2, a⟩ := x
        cases res with
        | error e => simp [hf, ha] at h
        | ok n =>
          simp only [hf, ha] at h
          have hgrown := BlockTable.appendTokens_grown ha
          by_cases he : f.rid = r
          · subst he
            obtain rfl := Option.some.inj (hf.symm.trans ht)
            obtain ⟨t', h1, h2⟩ := ih h (Function.update_self ..)
            refine ⟨t', h1, ?_⟩
            rw [h2, hgrown.numTokens]
            simp [numFed, Nat.add_assoc]
          · obtain ⟨t', h1, h2⟩ := ih h ((Function.update_of_ne (Ne.symm he) _ _).trans ht)
            refine ⟨t', h1, ?_⟩
            rw [h2]
            simp [he]

theorem extend_numTokens {out : List Token} (h : d.extend model feeds = .ok (out, d')) (ht : d.tables r = some t) :
    ∃ t', d'.tables r = some t' ∧ t'.numTokens = t.numTokens + numFed (feeds.filter (·.rid = r)) := by
  obtain ⟨d1, slots, ha, rfl, -⟩ := extend_cases h
  have hfed := appendFeeds_numTokens ha ht
  exact hfed

theorem issue_numTokens (h : d.issue model l = .ok d') (ht : d.tables r = some t) :
    ∃ t', d'.tables r = some t' ∧ t'.numTokens = t.numTokens + numFed (chunks r l) := by
  induction l generalizing d t with
  | nil =>
    cases h
    exact ⟨t, ht, rfl⟩
  | cons pass l ih =>
    simp only [issue] at h
    cases hp : d.extend model pass with
    | error e => simp [hp] at h
    | ok x =>
      obtain ⟨out, d1⟩ := x
      simp only [hp] at h
      obtain ⟨t1, ht1, hn1⟩ := extend_numTokens hp ht
      obtain ⟨t', ht', hn'⟩ := ih h ht1
      refine ⟨t', ht', ?_⟩
      rw [hn', hn1, Nat.add_assoc]
      simp [chunks, numFed]

theorem propose_longs {feeds : List Feed} {gamma : Nat} {x : List (List Token) × DraftRunner}
    (h : d.propose model feeds gamma = .ok x) : ∀ f ∈ feeds, ∀ id ∈ f.ids, IsLong id := by
  unfold propose at h
  split at h
  · simp at h
  · next hx =>
    obtain ⟨-, -, -, -, hlong⟩ := extend_cases hx
    exact hlong

theorem issue_longs (h : d.issue model l = .ok d') : ∀ f ∈ l.flatten, ∀ id ∈ f.ids, IsLong id := by
  induction l generalizing d with
  | nil => simp
  | cons pass l ih =>
    simp only [issue] at h
    cases hp : d.extend model pass with
    | error e => simp [hp] at h
    | ok x =>
      simp only [hp] at h
      obtain ⟨-, -, -, -, hlong⟩ := extend_cases hp
      intro f hf
      rw [List.flatten_cons] at hf
      exact (List.mem_append.mp hf).elim (hlong f) (ih h f)

theorem flush_begins (cap : Nat) (p : Packing) : p.passes <+: (p.flush cap).passes := by
  unfold Packing.flush
  split
  · exact List.prefix_append _ _
  · exact List.prefix_rfl

theorem addItem_begins (cap : Nat) (r : Rid) (fuel : Nat) (ids : List Token) (start : Nat) (p : Packing) :
    p.passes <+: (p.addItem cap r fuel ids start).passes := by
  induction fuel generalizing p ids start with
  | zero => exact List.prefix_rfl
  | succ fuel ih =>
    unfold Packing.addItem
    split
    · exact List.prefix_rfl
    · exact (flush_begins cap p).trans (ih _ _ (Packing.push _ _ _))

theorem addItems_begins (cap : Nat) (items : List (Rid × List Token)) (p : Packing) :
    p.passes <+: (p.addItems cap items).passes := by
  induction items generalizing p with
  | nil => exact List.prefix_rfl
  | cons x items ih => exact (addItem_begins cap x.1 _ _ 0 p).trans (ih _)

theorem issue_error (h : d.issue model l = .error e) (hpre : l <+: l') : d.issue model l' = .error e := by
  obtain ⟨rest, rfl⟩ := hpre
  rw [issue_append, h]

def issued (d : DraftRunner) (model : DraftModel) (p : Packing) : Except Error (Filling × DraftRunner) :=
  match d.issue model p.passes with
  | .error e => .error e
  | .ok d => .ok (p.filling, d)

theorem issued_error (h : d.issue model l = .error e) (hpre : l <+: p.passes) : d.issued model p = .error e := by
  simp only [issued, issue_error h hpre]

theorem flush_issued (h : d.issue model p.passes = .ok d') :
    d'.flush model p.filling = d.issued model (p.flush d.maxPrefillTokens) := by
  unfold DraftRunner.flush Packing.flush
  rw [(issue_apart h).maxPrefillTokens]
  split
  · simp only [issued, issue_append, h, issue]
    cases d'.extend model p.filling.rows with
    | error e => rfl
    | ok x => rfl
  · simp only [issued, h]

theorem prefillItem_issued (h : d.issue model p.passes = .ok d') :
    prefillItem model r fuel ids start p.filling d' =
        d.issued model (p.addItem d.maxPrefillTokens r fuel ids start) := by
  induction fuel generalizing p d' ids start with
  | zero => simp only [prefillItem, Packing.addItem, issued, h]
  | succ fuel ih =>
    unfold prefillItem Packing.addItem
    split
    · simp only [issued, h]
    · rw [flush_issued h]
      cases hp : d.issue model (p.flush d.maxPrefillTokens).passes with
      | error e =>
        rw [issued_error hp List.prefix_rfl]
        exact (issued_error hp (addItem_begins _ _ _ _ _ (Packing.push _ _ _))).symm
      | ok d1 =>
        have hflush : d.issued model (p.flush d.maxPrefillTokens) = .ok ((p.flush d.maxPrefillTokens).filling, d1) := by
          simp only [issued, hp]
        rw [hflush]
        simp only [(issue_apart hp).maxPrefillTokens]
        exact ih (p := (p.flush d.maxPrefillTokens).push _ _) hp

end Issue

section Fills

variable {cap n fuel start : Nat} {p : Packing} {fed fed' : Rid → List Token} {r : Rid} {ids : List Token}
  {items : List (Rid × List Token)} {l l' : List Feed} {f : Feed} {pass : List Feed}

theorem contiguous_append :
    Contiguous n (l ++ l') ↔ Contiguous n l ∧ Contiguous (n + (l.flatMap Feed.ids).length) l' := by
  induction l generalizing n with
  | nil => simp [Contiguous]
  | cons f l ih =>
    simp only [List.cons_append, Contiguous, ih, List.flatMap_cons, List.length_append, Nat.add_assoc, and_assoc]

theorem numFed_eq (l : List Feed) : numFed l = (l.flatMap Feed.ids).length := by simp [numFed, List.length_flatMap]

theorem numFed_append : numFed (l ++ l') = numFed l + numFed l' := by simp [numFed]

theorem numFed_pos (h : l ≠ []) (hl : ∀ f ∈ l, f.ids ≠ []) : 1 ≤ numFed l := by
  obtain ⟨f, l, rfl⟩ := List.exists_cons_of_ne_nil h
  have := List.length_pos_iff.mpr (hl f List.mem_cons_self)
  simp only [numFed, List.map_cons, List.sum_cons]
  omega

def Packing.opened (p : Packing) : List (List Feed) := p.passes ++ [p.filling.rows]

-- `fed` is what each request has been fed so far.
structure Fills (cap : Nat) (p : Packing) (fed : Rid → List Token) : Prop where
  full : ∀ pass ∈ p.passes, numFed pass = cap
  used : p.filling.used = numFed p.filling.rows
  le : p.filling.used ≤ cap
  nonempty : ∀ f ∈ p.opened.flatten, f.ids ≠ []
  nodup : ∀ pass ∈ p.opened, (pass.map Feed.rid).Nodup
  contiguous : ∀ r, Contiguous 0 (chunks r p.opened)
  fed : ∀ r, (chunks r p.opened).flatMap Feed.ids = fed r

theorem Fills.empty (cap : Nat) : Fills cap {} fun _ => [] :=
  ⟨by simp, rfl, Nat.zero_le _, by simp [Packing.opened], by simp [Packing.opened], fun _ => trivial, fun _ => rfl⟩

theorem Fills.unfed (h : Fills cap p fed) (hr : fed r = []) (hf : f ∈ p.opened.flatten) : f.rid ≠ r := by
  rintro rfl
  have hm : f ∈ chunks f.rid p.opened := List.mem_filter.mpr ⟨hf, by simp⟩
  have hnil := (h.fed f.rid).trans hr
  exact h.nonempty f hf (List.flatMap_eq_nil_iff.mp hnil f hm)

theorem opened_flush (h : p.filling.used = cap) : (p.flush cap).opened = p.opened ++ [[]] := by
  simp [Packing.flush, h, Packing.opened]

theorem Fills.flush (h : Fills cap p fed) (hcap : 1 ≤ cap)
    (hr : p.filling.used = cap ∨ r ∉ p.filling.rows.map Feed.rid) :
    Fills cap (p.flush cap) fed ∧ (p.flush cap).filling.used < cap ∧ r ∉ (p.flush cap).filling.rows.map Feed.rid := by
  by_cases hfull : p.filling.used = cap
  · have hopen := opened_flush hfull
    have hchunks : ∀ r, chunks r (p.flush cap).opened = chunks r p.opened := fun r => by simp [chunks, hopen]
    have hflush : p.flush cap = ⟨p.passes ++ [p.filling.rows], {}⟩ := if_pos hfull
    refine ⟨⟨fun pass hp => ?_, ?_, ?_, fun f hf => ?_, fun pass hp => ?_, fun r => ?_, fun r => ?_⟩, ?_, ?_⟩
    · rw [hflush] at hp
      cases List.mem_append.mp hp with
      | inl hp => exact h.full pass hp
      | inr hp => rw [List.mem_singleton.mp hp, ← h.used, hfull]
    · rw [hflush]
      rfl
    · rw [hflush]
      exact Nat.zero_le _
    · rw [hopen] at hf
      exact h.nonempty f (by simpa using hf)
    · rw [hopen] at hp
      cases List.mem_append.mp hp with
      | inl hp => exact h.nodup pass hp
      | inr hp => simp [List.mem_singleton.mp hp]
    · rw [hchunks]
      exact h.contiguous r
    · rw [hchunks]
      exact h.fed r
    · rw [hflush]
      exact hcap
    · simp [hflush]
  · have hflush : p.flush cap = p := if_neg hfull
    have hle := h.le
    rw [hflush]
    exact ⟨h, by omega, hr.resolve_left hfull⟩

theorem chunks_push : chunks r (p.push f n).opened = chunks r p.opened ++ if f.rid = r then [f] else [] := by
  simp only [chunks, Packing.opened, Packing.push, List.flatten_append, List.flatten_singleton, List.filter_append,
    List.append_assoc]
  congr 2
  by_cases hr : f.rid = r <;> simp [hr]

theorem Fills.push (h : Fills cap p fed) (hr : f.rid ∉ p.filling.rows.map Feed.rid) (hf : f.ids ≠ [])
    (hstart : f.start = (fed f.rid).length) (hcap : p.filling.used + f.ids.length ≤ cap) :
    Fills cap (p.push f f.ids.length) (Function.update fed f.rid (fed f.rid ++ f.ids)) := by
  refine ⟨h.full, ?_, hcap, fun g hg => ?_, fun pass hp => ?_, fun r => ?_, fun r => ?_⟩
  · have hused := h.used
    simp only [Packing.push, numFed_append, hused]
    simp [numFed]
  · simp only [Packing.opened, Packing.push, List.flatten_append, List.flatten_singleton, ← List.append_assoc] at hg
    cases List.mem_append.mp hg with
    | inl hg => exact h.nonempty g (by simpa [Packing.opened] using hg)
    | inr hg =>
      rw [List.mem_singleton.mp hg]
      exact hf
  · cases List.mem_append.mp hp with
    | inl hp => exact h.nodup pass (List.mem_append_left _ hp)
    | inr hp =>
      rw [List.mem_singleton.mp hp]
      simp only [Packing.push, List.map_append, List.map_cons, List.map_nil]
      exact List.nodup_append.mpr ⟨h.nodup _ (by simp [Packing.opened]), by simp, by simpa using hr⟩
  · rw [chunks_push, contiguous_append, h.fed, Nat.zero_add]
    refine ⟨h.contiguous r, ?_⟩
    split
    · next he => exact ⟨he ▸ hstart, trivial⟩
    · trivial
  · rw [chunks_push, List.flatMap_append, h.fed]
    by_cases he : f.rid = r
    · subst he
      simp
    · rw [Function.update_of_ne (Ne.symm he)]
      simp [he]

-- A request is continued in a new pass only when the one it is in is full.
theorem Fills.addItem (h : Fills cap p fed) (hcap : 1 ≤ cap) (hstart : start = (fed r).length)
    (hfuel : ids.length ≤ fuel)
    (hr : p.filling.used = cap ∨ r ∉ p.filling.rows.map Feed.rid ∨ ids = []) :
    Fills cap (p.addItem cap r fuel ids start) (Function.update fed r (fed r ++ ids)) := by
  induction fuel generalizing p fed ids start with
  | zero =>
    obtain rfl := List.eq_nil_of_length_eq_zero (Nat.le_zero.mp hfuel)
    simpa [Packing.addItem] using h
  | succ fuel ih =>
    unfold Packing.addItem
    split
    · next hnil => simpa [hnil] using h
    · next hne =>
      obtain ⟨h1, hlt, hnot⟩ := h.flush hcap (hr.imp_right fun hr => hr.resolve_right hne)
      set p1 := p.flush cap
      set n := min ids.length (cap - p1.filling.used) with hn
      have hpos := List.length_pos_iff.mpr hne
      have hlen : (ids.take n).length = n := List.length_take_of_le (by omega)
      have h2 := h1.push (f := ⟨r, ids.take n, start⟩) hnot (List.length_pos_iff.mp (by rw [hlen]; omega)) hstart
        (by show _ + (ids.take n).length ≤ _; omega)
      simp only [hlen] at h2
      have hnext : (p1.push ⟨r, ids.take n, start⟩ n).filling.used = cap ∨
          r ∉ (p1.push ⟨r, ids.take n, start⟩ n).filling.rows.map Feed.rid ∨ ids.drop n = [] := by
        by_cases hrest : n = ids.length
        · exact .inr (.inr (List.drop_eq_nil_of_le hrest.ge))
        · exact .inl (by show p1.filling.used + n = cap; omega)
      have hstart' : start + n = (Function.update fed r (fed r ++ ids.take n) r).length := by
        rw [Function.update_self, List.length_append, hlen, hstart]
      have h3 := ih h2 hstart' (by rw [List.length_drop]; omega) hnext
      rw [Function.update_self, Function.update_idem, List.append_assoc, List.take_append_drop] at h3
      exact h3

theorem Fills.addItems (h : Fills cap p fed) (hcap : 1 ≤ cap) (hnd : (items.map Prod.fst).Nodup)
    (hi : ∀ x ∈ items, fed x.1 = []) :
    ∃ fed', Fills cap (p.addItems cap items) fed' ∧ (∀ x ∈ items, fed' x.1 = x.2) ∧
      ∀ r, r ∉ items.map Prod.fst → fed' r = fed r := by
  induction items generalizing p fed with
  | nil => exact ⟨fed, h, by simp, fun _ _ => rfl⟩
  | cons x items ih =>
    obtain ⟨hnot, hnd⟩ := List.nodup_cons.mp hnd
    have hx := hi x List.mem_cons_self
    have hrows : x.1 ∉ p.filling.rows.map Feed.rid := by
      intro hm
      obtain ⟨f, hf, he⟩ := List.mem_map.mp hm
      exact h.unfed hx (by simp [Packing.opened, hf]) he
    have hstart : 0 = (fed x.1).length := by rw [hx]; rfl
    have h1 := h.addItem hcap hstart (le_refl x.2.length) (.inr (.inl hrows))
    rw [hx, List.nil_append] at h1
    have hne : ∀ y ∈ items, y.1 ≠ x.1 := fun y hy he => hnot (he ▸ List.mem_map_of_mem hy)
    obtain ⟨fed', h2, hfed, hother⟩ := ih h1 hnd fun y hy => by
      rw [Function.update_of_ne (hne y hy)]
      exact hi y (List.mem_cons_of_mem _ hy)
    refine ⟨fed', h2, fun y hy => ?_, fun r hr => ?_⟩
    · cases List.mem_cons.mp hy with
      | inl he => rw [he, hother x.1 hnot, Function.update_self]
      | inr hy => exact hfed y hy
    · simp only [List.map_cons, List.mem_cons, not_or] at hr
      rw [hother r hr.2, Function.update_of_ne hr.1]

theorem Packing.all_flatten (p : Packing) : p.all.flatten = p.opened.flatten := by
  unfold Packing.all Packing.opened
  split
  · next h => simp [h]
  · rfl

theorem Fills.all (h : Fills cap p fed) (hcap : 1 ≤ cap) (hp : pass ∈ p.all) :
    1 ≤ numFed pass ∧ numFed pass ≤ cap ∧ (pass.map Feed.rid).Nodup := by
  unfold Packing.all at hp
  split at hp
  · exact ⟨(h.full pass hp).symm ▸ hcap, (h.full pass hp).le, h.nodup pass (List.mem_append_left _ hp)⟩
  · next hne =>
    cases List.mem_append.mp hp with
    | inl hm => exact ⟨(h.full pass hm).symm ▸ hcap, (h.full pass hm).le, h.nodup pass hp⟩
    | inr hm =>
      have hpos := numFed_pos hne fun f hf => h.nonempty f (by simp [Packing.opened, hf])
      obtain rfl := List.mem_singleton.mp hm
      exact ⟨hpos, h.used ▸ h.le, h.nodup _ hp⟩

theorem Fills.all_dropLast (h : Fills cap p fed) (hp : pass ∈ p.all.dropLast) : numFed pass = cap := by
  unfold Packing.all at hp
  split at hp
  · exact h.full pass (List.dropLast_subset _ hp)
  · rw [List.dropLast_concat] at hp
    exact h.full pass hp

end Fills

section Prefill

variable {d d' : DraftRunner} {cap : Nat} {p : Packing} {fed : Rid → List Token} {items : List (Rid × List Token)}

-- The requests of the list hold no token yet when their turn comes, since no pass before it feeds them.
theorem prefillItems_issued (model : DraftModel) (h : Fills d.maxPrefillTokens p fed) (hcap : 1 ≤ d.maxPrefillTokens)
    (hd : d.issue model p.passes = .ok d') (hnd : (items.map Prod.fst).Nodup)
    (hi : ∀ x ∈ items, fed x.1 = [] ∧ ∃ t, d.tables x.1 = some t ∧ t.numTokens = 0) :
    prefillItems model items p.filling d' = d.issued model (p.addItems d.maxPrefillTokens items) := by
  induction items generalizing p fed d' with
  | nil => simp only [prefillItems, Packing.addItems, issued, hd]
  | cons x items ih =>
    obtain ⟨r, ids⟩ := x
    obtain ⟨hnot, hnd⟩ := List.nodup_cons.mp hnd
    obtain ⟨hx, t, ht, hn⟩ := hi (r, ids) List.mem_cons_self
    have hrows : ∀ f ∈ p.opened.flatten, f.rid ≠ r := fun f hf => h.unfed hx hf
    have htab : d'.tables r = some t := by
      rw [(issue_apart hd).tables r, ht]
      intro hm
      obtain ⟨f, hf, he⟩ := List.mem_map.mp hm
      exact hrows f (by simp [Packing.opened, hf]) he
    have hsel : r ∉ p.filling.rows.map Feed.rid := by
      intro hm
      obtain ⟨f, hf, he⟩ := List.mem_map.mp hm
      exact hrows f (by simp [Packing.opened, hf]) he
    have hstart : 0 = (fed r).length := by rw [hx]; rfl
    have h1 := h.addItem hcap hstart (le_refl ids.length) (.inr (.inl hsel))
    simp only [prefillItems, table, htab, hn, ne_eq, not_true_eq_false, if_false, prefillItem_issued hd]
    cases hp : d.issue model (p.addItem d.maxPrefillTokens r ids.length ids 0).passes with
    | error e =>
      rw [issued_error hp List.prefix_rfl]
      exact (issued_error hp (addItems_begins _ items _)).symm
    | ok d1 =>
      have hitem : d.issued model (p.addItem d.maxPrefillTokens r ids.length ids 0) =
          .ok ((p.addItem d.maxPrefillTokens r ids.length ids 0).filling, d1) := by
        simp only [issued, hp]
      rw [hitem]
      refine ih h1 hp hnd fun y hy => ?_
      obtain ⟨hy1, hy2⟩ := hi y (List.mem_cons_of_mem _ hy)
      have hne : y.1 ≠ r := fun he => hnot (List.mem_map.mpr ⟨y, hy, he⟩)
      exact ⟨by rw [Function.update_of_ne hne, hy1], hy2⟩

theorem prefill_issued (model : DraftModel) (hcap : 1 ≤ d.maxPrefillTokens) (hnd : (items.map Prod.fst).Nodup)
    (hi : ∀ x ∈ items, ∃ t, d.tables x.1 = some t ∧ t.numTokens = 0) :
    d.prefill model items = d.issue model (passes d.maxPrefillTokens items) := by
  have hitems := prefillItems_issued (p := {}) model (.empty _) hcap
    (rfl : d.issue model [] = .ok d) hnd fun x hx => ⟨rfl, hi x hx⟩
  unfold DraftRunner.prefill passes
  rw [hitems]
  cases hp : d.issue model (Packing.addItems d.maxPrefillTokens items {}).passes with
  | error e =>
    rw [issued_error hp List.prefix_rfl]
    refine (issue_error hp ?_).symm
    unfold Packing.all
    split
    · exact List.prefix_rfl
    · exact List.prefix_append _ _
  | ok d1 =>
    simp only [issued, hp, Packing.all]
    split
    · exact hp.symm
    · rw [issue_append, hp]
      cases hx : d1.extend model (Packing.addItems d.maxPrefillTokens items {}).filling.rows with
      | error e => simp [issue, hx]
      | ok x => simp [issue, hx]

theorem prefill_longs {model : DraftModel} (hcap : 1 ≤ d.maxPrefillTokens) (hnd : (items.map Prod.fst).Nodup)
    (hi : ∀ x ∈ items, ∃ t, d.tables x.1 = some t ∧ t.numTokens = 0) (h : d.prefill model items = .ok d') :
    ∀ x ∈ items, ∀ id ∈ x.2, IsLong id := by
  intro x hx id hid
  obtain ⟨fed, hfills, hfed, -⟩ := (Fills.empty d.maxPrefillTokens).addItems hcap hnd fun _ _ => rfl
  rw [prefill_issued model hcap hnd hi] at h
  rw [← hfed x hx, ← hfills.fed x.1] at hid
  obtain ⟨f, hf, hid⟩ := List.mem_flatMap.mp hid
  refine issue_longs h f ?_ id hid
  rw [passes, Packing.all_flatten]
  exact (List.mem_filter.mp hf).1

theorem contiguous_split {done rest : List (List Feed)} {pass : List Feed} {f : Feed}
    (h : Contiguous 0 (chunks f.rid (done ++ pass :: rest))) (hnd : (pass.map Feed.rid).Nodup) (hf : f ∈ pass) :
    f.start = numFed (chunks f.rid done) := by
  obtain ⟨before, after, rfl⟩ := List.append_of_mem hf
  simp only [List.map_append, List.map_cons] at hnd
  have hbefore : before.filter (·.rid = f.rid) = [] := by
    refine List.filter_eq_nil_iff.mpr fun g hg => ?_
    have hne := List.disjoint_of_nodup_append hnd (List.mem_map_of_mem hg)
    simp only [decide_eq_true_eq]
    exact fun he => hne (he ▸ List.mem_cons_self)
  have hchunks : chunks f.rid (done ++ (before ++ f :: after) :: rest) =
      chunks f.rid done ++ f :: (after.filter (·.rid = f.rid) ++ chunks f.rid rest) := by
    simp [chunks, hbefore]
  rw [hchunks, contiguous_append, Nat.zero_add, ← numFed_eq] at h
  exact h.2.1

theorem prefill_packs (hcap : 1 ≤ d.maxPrefillTokens) (hnd : (items.map Prod.fst).Nodup)
    (hi : ∀ x ∈ items, ∃ t, d.tables x.1 = some t ∧ t.numTokens = 0) :
    (∀ model, d.prefill model items = d.issue model (passes d.maxPrefillTokens items)) ∧
      (∀ pass ∈ passes d.maxPrefillTokens items, 1 ≤ numFed pass ∧ numFed pass ≤ d.maxPrefillTokens ∧
        (pass.map Feed.rid).Nodup) ∧
      (∀ pass ∈ (passes d.maxPrefillTokens items).dropLast, numFed pass = d.maxPrefillTokens) ∧
      (∀ x ∈ items, Contiguous 0 (chunks x.1 (passes d.maxPrefillTokens items)) ∧
        (chunks x.1 (passes d.maxPrefillTokens items)).flatMap Feed.ids = x.2) ∧
      (∀ f ∈ (passes d.maxPrefillTokens items).flatten, f.rid ∈ items.map Prod.fst) ∧
      ∀ model d' done pass rest, passes d.maxPrefillTokens items = done ++ pass :: rest → d.issue model done = .ok d' →
        ∀ f ∈ pass, ∃ t, d'.tables f.rid = some t ∧ t.numTokens = f.start := by
  obtain ⟨fed, h, hfed, hother⟩ := (Fills.empty d.maxPrefillTokens).addItems hcap hnd fun _ _ => rfl
  have hall : ∀ r, chunks r (passes d.maxPrefillTokens items) =
      chunks r (Packing.addItems d.maxPrefillTokens items {}).opened := fun r => by
    simp only [chunks, passes, Packing.all_flatten]
  have hrids : ∀ f ∈ (passes d.maxPrefillTokens items).flatten, f.rid ∈ items.map Prod.fst := by
    intro f hf
    by_contra hm
    refine h.unfed (hother f.rid hm) ?_ rfl
    rwa [passes, Packing.all_flatten] at hf
  refine ⟨fun model => prefill_issued model hcap hnd hi, fun pass hp => h.all hcap hp, fun pass hp => h.all_dropLast hp,
    fun x hx => ?_, hrids, fun model d' done pass rest hsplit hd f hf => ?_⟩
  · rw [hall, h.fed, hfed x hx]
    exact ⟨h.contiguous x.1, rfl⟩
  · have hpass : pass ∈ passes d.maxPrefillTokens items := by simp [hsplit]
    obtain ⟨x, hx, he⟩ := List.mem_map.mp (hrids f (List.mem_flatten.mpr ⟨pass, hpass, hf⟩))
    obtain ⟨t, ht, hn⟩ := hi x hx
    obtain ⟨t', ht', hn'⟩ := issue_numTokens hd (he ▸ ht)
    refine ⟨t', ht', ?_⟩
    have hcont := hall f.rid ▸ h.contiguous f.rid
    rw [hsplit] at hcont
    rw [hn', hn, Nat.zero_add, contiguous_split hcont (h.all hcap hpass).2.2 hf]

def twoRequests : DraftRunner where
  allocator := .fresh 4 4 (Nat.succ_pos (nat_lit 3)) (Nat.succ_pos (nat_lit 3))
  maxPrefillTokens := 5
  firstGraphs := none
  tables := fun r => if r = 1 ∨ r = 3 then some .empty else none

def counting : DraftModel := ⟨fun h => h.length⟩

theorem prefill_packs_twoRequests :
    twoRequests.prefill counting [(1, [10, 11, 12]), (3, [20, 21, 22, 23, 24, 25, 26])] = twoRequests.issue counting
      [[⟨1, [10, 11, 12], 0⟩, ⟨3, [20, 21], 0⟩], [⟨3, [22, 23, 24, 25, 26], 2⟩]] := by
  have h := @prefill_packs twoRequests [(1, [10, 11, 12]), (3, [20, 21, 22, 23, 24, 25, 26])] (by decide)
      (by decide) fun x hx =>
    ⟨.empty, by simp only [List.mem_cons, List.not_mem_nil, or_false] at hx; rcases hx with rfl | rfl <;> rfl, rfl⟩
  exact h.1 counting

end Prefill

end DraftRunner

end MiniServe
