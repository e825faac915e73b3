import Mathlib.Algebra.Order.BigOperators.Group.Finset
import Mathlib.Order.WellFounded

namespace Loop

section While

variable {σ ε α : Type*} {again : σ → Prop} [DecidablePred again] {body : σ → Except ε Unit × σ}

def runWhile (again : σ → Prop) [DecidablePred again] (body : σ → Except ε Unit × σ) :
    Nat → σ → Option (Except ε Unit × σ)
  | 0, _ => none
  | fuel + 1, s =>
    if again s then
      match body s with
      | (.error e, s') => some (.error e, s')
      | (.ok (), s') => runWhile again body fuel s'
    else some (.ok (), s)

-- A loop whose body keeps an invariant and lowers a well-founded measure ends, by its condition or by an exception.
theorem runWhile_settles [Preorder α] [WellFoundedLT α] {I : σ → Prop} {F : ε → Prop} (m : σ → α)
    (hstep : ∀ s, I s → again s → (∃ e s', body s = (.error e, s') ∧ F e) ∨
      ∃ s', body s = (.ok (), s') ∧ I s' ∧ m s' < m s) {s : σ} (hs : I s) :
    ∃ fuel res s', runWhile again body fuel s = some (res, s') ∧
      ((res = .ok () ∧ I s' ∧ ¬ again s') ∨ ∃ e, res = .error e ∧ F e) := by
  have hwf : WellFounded (fun a b : σ => m a < m b) := InvImage.wf m wellFounded_lt
  induction s using hwf.induction with
  | _ s ih =>
    by_cases ha : again s
    · rcases hstep s hs ha with ⟨e, s', hb, he⟩ | ⟨s', hb, hs', hlt⟩
      · exact ⟨1, .error e, s', by simp [runWhile, ha, hb], .inr ⟨e, rfl, he⟩⟩
      · obtain ⟨fuel, res, s'', hrun, hend⟩ := ih s' hlt hs'
        refine ⟨fuel + 1, res, s'', ?_, hend⟩
        rw [runWhile, if_pos ha, hb]
        exact hrun
    · exact ⟨1, .ok (), s, by simp [runWhile, ha], .inl ⟨rfl, hs, ha⟩⟩

theorem runWhile_ends [Preorder α] [WellFoundedLT α] {I : σ → Prop} (m : σ → α)
    (hstep : ∀ s s', I s → again s → body s = (.ok (), s') → I s' ∧ m s' < m s) {s : σ} (hs : I s) :
    ∃ fuel res s', runWhile again body fuel s = some (res, s') ∧ (res = .ok () → I s' ∧ ¬ again s') := by
  have htotal : ∀ s, I s → again s → (∃ e s', body s = (.error e, s') ∧ True) ∨
      ∃ s', body s = (.ok (), s') ∧ I s' ∧ m s' < m s := by
    intro s hI ha
    obtain ⟨⟨res, s'⟩, hb⟩ : ∃ p, body s = p := ⟨_, rfl⟩
    cases res with
    | error e => exact .inl ⟨e, s', hb, trivial⟩
    | ok u => exact .inr ⟨s', hb, hstep s s' hI ha hb⟩
  obtain ⟨fuel, res, s', hrun, ⟨-, hend⟩ | ⟨e, he, -⟩⟩ := runWhile_settles m htotal hs
  · exact ⟨fuel, res, s', hrun, fun _ => hend⟩
  · exact ⟨fuel, res, s', hrun, fun h => by simp [he] at h⟩

end While

section Sums

variable {α : Type*} [DecidableEq α] {A B : Finset α} {f g : α → Nat}

theorem sum_lt_or_same (hsub : A ⊆ B) (hle : ∀ x ∈ A, f x ≤ g x) (hpos : ∀ x ∈ B, 0 < g x) :
    ∑ x ∈ A, f x < ∑ x ∈ B, g x ∨ A = B ∧ ∀ x ∈ B, f x = g x := by
  by_cases hlt : ∑ x ∈ A, f x < ∑ x ∈ B, g x
  · exact .inl hlt
  right
  have h1 : ∑ x ∈ A, f x ≤ ∑ x ∈ A, g x := Finset.sum_le_sum hle
  have hAB : A = B := by
    by_contra hne
    obtain ⟨x, hx, hxA⟩ := Finset.exists_of_ssubset (hsub.ssubset_of_ne hne)
    have := Finset.sum_lt_sum_of_subset hsub hx hxA (hpos x hx) fun _ _ _ => Nat.zero_le _
    omega
  subst hAB
  refine ⟨rfl, fun x hx => ?_⟩
  exact (Finset.sum_eq_sum_iff_of_le hle).mp (by omega) x hx

end Sums

section Traverse

variable {α β : Type*}

theorem mapM_some {f : α → Option β} {g : α → β} {l : List α} (h : ∀ a ∈ l, f a = some (g a)) :
    l.mapM f = some (l.map g) := by
  induction l with
  | nil => rfl
  | cons a l ih =>
    simp only [List.forall_mem_cons] at h
    simp [List.mapM_cons, h.1, ih h.2]

end Traverse

end Loop
