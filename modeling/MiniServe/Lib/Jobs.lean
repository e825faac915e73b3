import Mathlib.Data.List.Basic
import MiniServe.Lib.Loop

namespace Jobs

variable {σ ε ι κ ω α : Type}

-- A machine that takes jobs and is then driven until nothing is left to do.
structure Machine (σ ε ι κ ω : Type) where
  submit : ι → σ → Except ε κ × σ
  busy : σ → Prop
  turn : σ → Except ε Unit × σ
  result : σ → κ → ω
  dec : DecidablePred busy

theorem forall₂_mapIdx {R : ι → ω → Prop} {f : Nat → ι → ω} {jobs : List ι} (h : ∀ n, ∀ i ∈ jobs, R i (f n i)) :
    List.Forall₂ R jobs (jobs.mapIdx f) := by
  induction jobs generalizing f with
  | nil => exact .nil
  | cons i is ih =>
    rw [List.mapIdx_cons]
    exact .cons (h 0 i List.mem_cons_self) (ih fun n j hj => h (n + 1) j (List.mem_cons_of_mem _ hj))

namespace Machine

variable (M : Machine σ ε ι κ ω)

instance : DecidablePred M.busy := M.dec

def submitAll : List ι → σ → Except ε (List κ) × σ
  | [], s => (.ok [], s)
  | i :: is, s =>
    match M.submit i s with
    | (.error err, s) => (.error err, s)
    | (.ok k, s) =>
      match submitAll is s with
      | (.error err, s) => (.error err, s)
      | (.ok ks, s) => (.ok (k :: ks), s)

def runAll (fuel : Nat) (jobs : List ι) (s : σ) : Option (Except ε (List ω) × σ) :=
  match M.submitAll jobs s with
  | (.error err, s) => some (.error err, s)
  | (.ok ks, s) =>
    match Loop.runWhile M.busy M.turn fuel s with
    | none => none
    | some (.error err, s) => some (.error err, s)
    | some (.ok (), s) => some (.ok (ks.map (M.result s)), s)

-- What a machine owes a job: `expected` is told of the state a list of jobs starts in and the job's place in it.
structure Serves [Preorder α] (I : σ → Prop) (ok : ι → Prop) (expected : σ → Nat → ι → ω) (Holds : σ → κ → ω → Prop)
    (Refused : ι → ε → Prop) (Fails : ε → Prop) (m : σ → α) : Prop where
  submit : ∀ s i, I s → ok i → (∃ err s', M.submit i s = (.error err, s') ∧ Refused i err) ∨
    ∃ k s', M.submit i s = (.ok k, s') ∧ I s' ∧ Holds s' k (expected s 0 i) ∧
    (∀ k' out, Holds s k' out → Holds s' k' out) ∧
      ∀ n j, expected s' n j = expected s (n + 1) j
  turn : ∀ s, I s → M.busy s → (∃ err s', M.turn s = (.error err, s') ∧ Fails err) ∨
    ∃ s', M.turn s = (.ok (), s') ∧ I s' ∧ m s' < m s ∧ ∀ k out, Holds s k out → Holds s' k out
  done : ∀ s k out, I s → ¬ M.busy s → Holds s k out → M.result s k = out

variable {M} [Preorder α] {I : σ → Prop} {ok : ι → Prop} {expected : σ → Nat → ι → ω} {Holds : σ → κ → ω → Prop}
  {Refused : ι → ε → Prop} {Fails : ε → Prop} {m : σ → α} {jobs : List ι} {s : σ}

theorem Serves.submitAll (h : M.Serves I ok expected Holds Refused Fails m) (hs : I s) (hok : ∀ i ∈ jobs, ok i) :
    (∃ err s', M.submitAll jobs s = (.error err, s') ∧ ∃ i ∈ jobs, Refused i err) ∨
      ∃ ks s', M.submitAll jobs s = (.ok ks, s') ∧ I s' ∧ (∀ k out, Holds s k out → Holds s' k out) ∧
        List.Forall₂ (Holds s') ks (jobs.mapIdx (expected s)) := by
  induction jobs generalizing s with
  | nil => exact .inr ⟨[], s, rfl, hs, fun _ _ hk => hk, .nil⟩
  | cons i is ih =>
    have hok' : ∀ j ∈ is, ok j := fun j hj => hok j (List.mem_cons_of_mem _ hj)
    rcases h.submit s i hs (hok i List.mem_cons_self) with ⟨err, s', hi, hr⟩ | ⟨k, s1, hi, h1, hk, hkeep, hexp⟩
    · exact .inl ⟨err, s', by rw [Machine.submitAll, hi], i, List.mem_cons_self, hr⟩
    rcases ih h1 hok' with ⟨err, s', his, j, hj, hr⟩ | ⟨ks, s', his, hs', hkeep', hall⟩
    · exact .inl ⟨err, s', by rw [Machine.submitAll, hi]; simp only [his], j, List.mem_cons_of_mem _ hj, hr⟩
    · refine .inr ⟨k :: ks, s',
        by rw [Machine.submitAll, hi]; simp only [his], hs', fun k out hh => hkeep' k out (hkeep k out hh), ?_⟩
      rw [List.mapIdx_cons]
      refine .cons (hkeep' k _ hk) ?_
      have hsame : is.mapIdx (expected s1) = is.mapIdx fun n j => expected s (n + 1) j := by
        congr 1
        funext n j
        exact hexp n j
      rw [← hsame]
      exact hall

-- A machine that serves its jobs gives each its result, in their order, unless a submission or a turn raises.
theorem Serves.runAll_ends [WellFoundedLT α] (h : M.Serves I ok expected Holds Refused Fails m) (hs : I s)
    (hok : ∀ i ∈ jobs, ok i) :
    ∃ fuel res s', M.runAll fuel jobs s = some (res, s') ∧
      ((res = .ok (jobs.mapIdx (expected s)) ∧ I s' ∧ ¬ M.busy s') ∨
        ∃ err, res = .error err ∧ ((∃ i ∈ jobs, Refused i err) ∨ Fails err)) := by
  rcases h.submitAll hs hok with ⟨err, s', hsub, hr⟩ | ⟨ks, s1, hsub, h1, -, hall⟩
  · exact ⟨0, .error err, s', by rw [runAll, hsub], .inr ⟨err, rfl, .inl hr⟩⟩
  let J : σ → Prop := fun s' => I s' ∧ ∀ k out, Holds s1 k out → Holds s' k out
  have hturn : ∀ t, J t → M.busy t → (∃ err t', M.turn t = (.error err, t') ∧ Fails err) ∨
      ∃ t', M.turn t = (.ok (), t') ∧ J t' ∧ m t' < m t := by
    rintro t ⟨ht, hkeep⟩ hbusy
    rcases h.turn t ht hbusy with hfail | ⟨t', heq, ht', hlt, hkeep'⟩
    · exact .inl hfail
    · exact .inr ⟨t', heq, ⟨ht', fun k out hk => hkeep' k out (hkeep k out hk)⟩, hlt⟩
  obtain ⟨fuel, res, s', hrun, hend⟩ := Loop.runWhile_settles m hturn ⟨h1, fun _ _ hk => hk⟩
  rcases hend with ⟨rfl, ⟨hs', hkeep⟩, hidle⟩ | ⟨err, rfl, hf⟩
  · have hres : ks.map (M.result s') = jobs.mapIdx (expected s) := by
      have hall' : List.Forall₂ (fun k out => M.result s' k = out) ks (jobs.mapIdx (expected s)) :=
        hall.imp fun k out hk => h.done s' k out hs' hidle (hkeep k out hk)
      exact List.forall₂_eq_eq_eq ▸ List.forall₂_map_left_iff.mpr hall'
    exact ⟨fuel, .ok (jobs.mapIdx (expected s)), s',
      by rw [runAll, hsub]; simp only [hrun, hres], .inl ⟨rfl, hs', hidle⟩⟩
  · exact ⟨fuel, .error err, s', by rw [runAll, hsub]; simp only [hrun], .inr ⟨err, rfl, .inr hf⟩⟩

end Machine

end Jobs
