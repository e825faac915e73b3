import Mathlib.Data.List.Basic
import Mathlib.Logic.Function.Basic
import Mathlib.Logic.Relation

namespace MiniServe

namespace Transfer

-- The event is the number of copies that were queued when it was recorded.
structure CopyFence where
  cuda : Bool
  event : Option Nat := none
  deriving DecidableEq, Repr

namespace CopyFence

-- `none` while the device has not come to the event: the host waits.
def wait (c : CopyFence) (done : Nat) : Option CopyFence :=
  match c.event with
  | none => some c
  | some n => if n ≤ done then some { c with event := none } else none

def mark (c : CopyFence) (queued : Nat) : CopyFence := if c.cuda then { c with event := some queued } else c

variable {c c' : CopyFence} {n : Nat}

theorem wait_some (h : c.wait n = some c') : c' = { c with event := none } ∧ ∀ m, c.event = some m → m ≤ n := by
  unfold wait at h
  cases he : c.event with
  | none =>
    rw [he] at h
    obtain rfl := Option.some.inj h
    exact ⟨by rw [← he], fun m hm => by cases hm⟩
  | some m =>
    have hif : (if m ≤ n then some { c with event := none } else none) = some c' := by rw [he] at h; exact h
    by_cases hle : m ≤ n
    · rw [if_pos hle] at hif
      exact ⟨(Option.some.inj hif).symm, fun k hk => Option.some.inj hk ▸ hle⟩
    · rw [if_neg hle] at hif
      cases hif

theorem wait_ready (h : ∀ m, c.event = some m → m ≤ n) : ∃ c', c.wait n = some c' := by
  unfold wait
  cases he : c.event with
  | none => exact ⟨c, rfl⟩
  | some m => exact ⟨_, if_pos (h m he)⟩

theorem mark_event (c : CopyFence) (n : Nat) : (c.mark n).event = if c.cuda then some n else c.event := by
  rw [mark]
  split <;> rfl

theorem mark_cuda (c : CopyFence) (n : Nat) : (c.mark n).cuda = c.cuda := by
  rw [mark]
  split <;> rfl

end CopyFence

variable {φ β ν : Type}

inductive Op (β ν : Type) where
  | write (b : β) (v : ν)
  | copy (b : β)

inductive Instr (φ β ν : Type) where
  | wait (f : φ)
  | op (o : Op β ν)
  | mark (f : φ)

-- The host at work on `todo`, the device on `queue`; `arrived` is what its copies have read.
structure State (φ β ν : Type) where
  pinned : β → ν
  queue : List β
  arrived : List (β × ν)
  fence : φ → CopyFence
  todo : List (Instr φ β ν)

-- A pass writes and copies buffers of one fence only, and none again once its copy is queued.
def Staged (owner : β → φ) (f : φ) : List (Op β ν) → Prop
  | [] => True
  | .write b _ :: ops => owner b = f ∧ Staged owner f ops
  | .copy b :: ops => owner b = f ∧ (∀ v, .write b v ∉ ops) ∧ Staged owner f ops

-- A pass that raises has run some of its operations, and has not come to its mark.
structure Pass (owner : β → φ) (ν : Type) where
  fence : φ
  ops : List (Op β ν)
  marked : Bool
  staged : Staged owner fence ops

def closing (f : φ) (marked : Bool) : List (Instr φ β ν) := if marked then [.mark f] else []

def Pass.instrs {owner : β → φ} (p : Pass owner ν) : List (Instr φ β ν) :=
  .wait p.fence :: (p.ops.map .op ++ closing p.fence p.marked)

def Fenced (marked : Bool) (ops : List (Op β ν)) : Prop := ∀ b, .copy b ∈ ops → marked = true

def program {owner : β → φ} (ps : List (Pass owner ν)) : List (Instr φ β ν) := ps.flatMap Pass.instrs

section Runs

variable [DecidableEq φ] [DecidableEq β]

def State.perform (cuda : Bool) (s : State φ β ν) : Op β ν → State φ β ν
  | .write b v => { s with pinned := Function.update s.pinned b v }
  | .copy b => if cuda then { s with queue := s.queue ++ [b] } else { s with arrived := s.arrived ++ [(b, s.pinned b)] }

def State.issue (cuda : Bool) (s : State φ β ν) : Option (State φ β ν) :=
  match s.todo with
  | [] => none
  | .wait f :: rest =>
    ((s.fence f).wait s.arrived.length).map fun c => { s with fence := Function.update s.fence f c, todo := rest }
  | .op o :: rest => some { s.perform cuda o with todo := rest }
  | .mark f :: rest =>
    some { s with
      fence := Function.update s.fence f ((s.fence f).mark (s.arrived.length + s.queue.length))
      todo := rest }

-- Either side moves at any time; a queued copy reads its buffer when the device comes to it, not before.
inductive Step (cuda : Bool) : State φ β ν → State φ β ν → Prop
  | host {s s' : State φ β ν} (h : s.issue cuda = some s') : Step cuda s s'
  | device {s : State φ β ν} {b : β} {rest : List β} (h : s.queue = b :: rest) :
      Step cuda s { s with queue := rest, arrived := s.arrived ++ [(b, s.pinned b)] }

abbrev Run (cuda : Bool) : State φ β ν → State φ β ν → Prop := Relation.ReflTransGen (Step cuda)

def start {owner : β → φ} (cuda : Bool) (pinned : β → ν) (ps : List (Pass owner ν)) : State φ β ν where
  pinned
  queue := []
  arrived := []
  fence := fun _ => ⟨cuda, none⟩
  todo := program ps

-- What the copies would read if the host stopped at each of them until it is done.
def sent : (β → ν) → List (Instr φ β ν) → List (β × ν)
  | _, [] => []
  | pinned, .op (.write b v) :: is => sent (Function.update pinned b v) is
  | pinned, .op (.copy b) :: is => (b, pinned b) :: sent pinned is
  | pinned, .wait _ :: is => sent pinned is
  | pinned, .mark _ :: is => sent pinned is

def State.told (s : State φ β ν) : List (β × ν) :=
  s.arrived ++ (s.queue.map fun b => (b, s.pinned b)) ++ sent s.pinned s.todo

end Runs

section Order

variable [DecidableEq φ] [DecidableEq β] {cuda : Bool} {owner : β → φ} {s s' : State φ β ν} {f g : φ} {b : β} {v : ν}
  {marked : Bool} {ops : List (Op β ν)} {ps : List (Pass owner ν)} {pinned : β → ν}

omit [DecidableEq φ] [DecidableEq β] in
theorem Staged.owned (h : Staged owner f ops) (hw : .write b v ∈ ops) : owner b = f := by
  induction ops with
  | nil => cases hw
  | cons o ops ih =>
    cases o with
    | write b' v' =>
      rcases List.mem_cons.mp hw with heq | hw
      · cases heq
        exact h.1
      · exact ih h.2 hw
    | copy b' =>
      rcases List.mem_cons.mp hw with heq | hw
      · cases heq
      · exact ih h.2.2 hw

def Covered (owner : β → φ) (s : State φ β ν) (f : φ) : Prop :=
  ∀ i b, s.queue[i]? = some b → owner b = f → ∃ n, (s.fence f).event = some n ∧ s.arrived.length + i < n

-- The host is between two passes, or in one that leaves every buffer with a queued copy alone.
inductive Place (owner : β → φ) (s : State φ β ν) : Prop
  | between (ps : List (Pass owner ν)) (fenced : ∀ p ∈ ps, Fenced p.marked p.ops) (todo : s.todo = program ps)
      (covered : ∀ f, Covered owner s f)
  | inside (f : φ) (marked : Bool) (ops : List (Op β ν)) (ps : List (Pass owner ν))
      (fenced : ∀ p ∈ ps, Fenced p.marked p.ops)
      (todo : s.todo = ops.map .op ++ (closing f marked ++ program ps)) (staged : Staged owner f ops)
        (own : Fenced marked ops)
      (covered : ∀ g, g ≠ f ∨ marked = false → Covered owner s g) (spared : ∀ b ∈ s.queue, ∀ v, .write b v ∉ ops)

structure Ordered (cuda : Bool) (owner : β → φ) (s : State φ β ν) : Prop where
  device : ∀ f, (s.fence f).cuda = cuda
  sync : cuda = false → s.queue = []
  event : ∀ f n, (s.fence f).event = some n → n ≤ s.arrived.length + s.queue.length
  place : Place owner s

omit [DecidableEq φ] [DecidableEq β] in
theorem Ordered.start (hps : ∀ p ∈ ps, Fenced p.marked p.ops) : Ordered cuda owner (start cuda pinned ps) where
  device _ := rfl
  sync _ := rfl
  event _ _ h := by cases h
  place := .between ps hps rfl fun _ _ _ h => by cases h

omit [DecidableEq β] in
theorem Covered.other {c : CopyFence} {todo : List (Instr φ β ν)} (h : Covered owner s g) (hne : g ≠ f) :
    Covered owner { s with fence := Function.update s.fence f c, todo } g := by
  intro i b hi ho
  obtain ⟨n, hn, hlt⟩ := h i b hi ho
  exact ⟨n, (congrArg CopyFence.event (Function.update_of_ne hne ..)).trans hn, hlt⟩

omit [DecidableEq β] in
theorem Ordered.refenced {c : CopyFence} (h : Ordered cuda owner s) (hc : c.cuda = (s.fence f).cuda)
    (he : ∀ n, c.event = some n → n ≤ s.arrived.length + s.queue.length) :
    (∀ g, (Function.update s.fence f c g).cuda = cuda) ∧
      ∀ g n, (Function.update s.fence f c g).event = some n → n ≤ s.arrived.length + s.queue.length := by
  constructor
  · intro g
    by_cases hg : g = f
    · subst hg
      rw [Function.update_self, hc]
      exact h.device g
    · rw [Function.update_of_ne hg]
      exact h.device g
  · intro g n hn
    by_cases hg : g = f
    · subst hg
      rw [Function.update_self] at hn
      exact he n hn
    · rw [Function.update_of_ne hg] at hn
      exact h.event g n hn

-- Past the wait no queued copy reads a buffer of the pass, so the pass may write them all.
omit [DecidableEq β] in
theorem Ordered.waited {c : CopyFence} (h : Ordered cuda owner s) (hps : ∀ p ∈ ps, Fenced p.marked p.ops)
    (hcov : ∀ g, Covered owner s g) (hs : Staged owner f ops) (hown : Fenced marked ops)
    (hc : (s.fence f).wait s.arrived.length = some c) :
    Ordered cuda owner { s with
      fence := Function.update s.fence f c
      todo := ops.map .op ++ (closing f marked ++ program ps) } := by
  obtain ⟨rfl, hpast⟩ := CopyFence.wait_some hc
  obtain ⟨hdevice, hevent⟩ :=
    @Ordered.refenced _ _ _ _ _ _ _ f { s.fence f with event := none } h rfl fun n hn => by cases hn
  have hnone : ∀ (i : Nat) b, s.queue[i]? = some b → owner b ≠ f := by
    intro i b hi ho
    obtain ⟨n, hn, hlt⟩ := hcov f i b hi ho
    have := hpast n hn
    omega
  refine ⟨hdevice, h.sync, hevent, .inside f marked ops ps hps rfl hs hown (fun g _ => ?_) fun b hb v hw => ?_⟩
  · by_cases hg : g = f
    · subst hg
      intro i b hi ho
      exact absurd ho (hnone i b hi)
    · exact (hcov g).other hg
  · obtain ⟨i, hi⟩ := List.mem_iff_getElem?.mp hb
    exact hnone i b hi (hs.owned hw)

omit [DecidableEq β] in
theorem Ordered.closes (h : Ordered cuda owner s) (hps : ∀ p ∈ ps, Fenced p.marked p.ops)
    (hcov : ∀ g, g ≠ f → Covered owner s g) :
    Ordered cuda owner { s with
      fence := Function.update s.fence f ((s.fence f).mark (s.arrived.length + s.queue.length))
      todo := program ps } := by
  have hbound : ∀ n, ((s.fence f).mark (s.arrived.length + s.queue.length)).event = some n →
      n ≤ s.arrived.length + s.queue.length := by
    intro n hn
    rw [CopyFence.mark_event] at hn
    split at hn
    · exact Nat.le_of_eq (Option.some.inj hn).symm
    · exact h.event f n hn
  obtain ⟨hdevice, hevent⟩ := h.refenced (CopyFence.mark_cuda ..) hbound
  refine ⟨hdevice, h.sync, hevent, .between ps hps rfl fun g => ?_⟩
  by_cases hg : g = f
  · subst hg
    intro i b hi _
    obtain ⟨hlt, -⟩ := List.getElem?_eq_some_iff.mp hi
    refine ⟨s.arrived.length + s.queue.length, ?_, Nat.add_lt_add_left hlt _⟩
    have hcuda : cuda = true := by
      cases hc : cuda with
      | true => rfl
      | false => simp [h.sync hc] at hlt
    simp only [Function.update_self, CopyFence.mark_event, h.device g, hcuda, if_true]
  · exact (hcov g hg).other hg

omit [DecidableEq β] in
theorem Fenced.tail {o : Op β ν} (h : Fenced marked (o :: ops)) : Fenced marked ops :=
  fun b hb => h b (List.mem_cons_of_mem _ hb)

omit [DecidableEq φ] in
theorem Ordered.written (h : Ordered cuda owner s) (hps : ∀ p ∈ ps, Fenced p.marked p.ops)
    (hs : Staged owner f (.write b v :: ops)) (hown : Fenced marked (.write b v :: ops))
    (hcov : ∀ g, g ≠ f ∨ marked = false → Covered owner s g)
    (hspared : ∀ x ∈ s.queue, ∀ w, .write x w ∉ .write b v :: ops) :
    Ordered cuda owner { s with
      pinned := Function.update s.pinned b v
      todo := ops.map .op ++ (closing f marked ++ program ps) } :=
  ⟨h.device, h.sync, h.event, .inside f marked ops ps hps rfl hs.2 hown.tail hcov fun x hx w hw =>
    hspared x hx w (List.mem_cons_of_mem _ hw)⟩

omit [DecidableEq φ] [DecidableEq β] in
theorem Ordered.queued (h : Ordered true owner s) (hps : ∀ p ∈ ps, Fenced p.marked p.ops)
    (hs : Staged owner f (.copy b :: ops)) (hown : Fenced marked (.copy b :: ops))
    (hcov : ∀ g, g ≠ f ∨ marked = false → Covered owner s g)
    (hspared : ∀ x ∈ s.queue, ∀ w, .write x w ∉ .copy b :: ops) :
    Ordered true owner { s with
      queue := s.queue ++ [b]
      todo := ops.map .op ++ (closing f marked ++ program ps) } := by
  have hmarked : marked = true := hown b List.mem_cons_self
  refine ⟨h.device, (fun hc => by cases hc), fun g n hn => ?_,
    .inside f marked ops ps hps rfl hs.2.2 hown.tail (fun g hg i x hi ho => ?_) ?_⟩
  · have := h.event g n hn
    simp only [List.length_append]
    omega
  · rcases Nat.lt_or_ge i s.queue.length with hlt | hge
    · exact hcov g hg i x ((List.getElem?_append_left hlt).symm.trans hi) ho
    · have hx : x = b := by
        have hmem := List.mem_of_getElem? ((List.getElem?_append_right hge).symm.trans hi)
        exact List.mem_singleton.mp hmem
      subst hx
      rcases hg with hg | hg
      · exact absurd (ho.symm.trans hs.1) hg
      · exact absurd (hg.symm.trans hmarked) Bool.false_ne_true
  · intro x hx w hw
    rcases List.mem_append.mp hx with hx | hx
    · exact hspared x hx w (List.mem_cons_of_mem _ hw)
    · obtain rfl := List.mem_singleton.mp hx
      exact hs.2.1 w hw

omit [DecidableEq φ] [DecidableEq β] in
theorem Ordered.copied (h : Ordered false owner s) (hps : ∀ p ∈ ps, Fenced p.marked p.ops)
    (hs : Staged owner f (.copy b :: ops)) (hown : Fenced marked (.copy b :: ops)) :
    Ordered false owner { s with
      arrived := s.arrived ++ [(b, s.pinned b)]
      todo := ops.map .op ++ (closing f marked ++ program ps) } := by
  have hnil : s.queue = [] := h.sync rfl
  refine ⟨h.device, fun _ => hnil, fun g n hn => ?_,
    .inside f marked ops ps hps rfl hs.2.2 hown.tail (fun g _ i x hi => ?_) fun x hx => ?_⟩
  · have := h.event g n hn
    simp only [List.length_append]
    omega
  · rw [hnil] at hi
    cases hi
  · rw [hnil] at hx
    cases hx

omit [DecidableEq φ] [DecidableEq β] in
theorem Ordered.arrives {rest : List β} (h : Ordered cuda owner s) (hq : s.queue = b :: rest) :
    Ordered cuda owner { s with queue := rest, arrived := s.arrived ++ [(b, s.pinned b)] } := by
  have hcov : ∀ g, Covered owner s g →
      Covered owner { s with queue := rest, arrived := s.arrived ++ [(b, s.pinned b)] } g := by
    intro g hg i x hi ho
    obtain ⟨n, hn, hlt⟩ := hg (i + 1) x (by rw [hq]; exact hi) ho
    refine ⟨n, hn, ?_⟩
    simp only [List.length_append, List.length_singleton]
    omega
  refine ⟨h.device, fun hc => ?_, fun g n hn => ?_, ?_⟩
  · have := h.sync hc
    rw [hq] at this
    cases this
  · have := h.event g n hn
    rw [hq] at this
    simp only [List.length_append, List.length_cons, List.length_nil] at this ⊢
    omega
  · cases h.place with
    | between ps hps ht hc => exact .between ps hps ht fun g => hcov g (hc g)
    | inside f marked ops ps hps ht hs hown hc hspared =>
      exact .inside f marked ops ps hps ht hs hown (fun g hg => hcov g (hc g hg)) fun x hx =>
        hspared x (by rw [hq]; exact List.mem_cons_of_mem _ hx)

omit [DecidableEq φ] in
theorem told_arrives {rest : List β} (hq : s.queue = b :: rest) :
    State.told { s with queue := rest, arrived := s.arrived ++ [(b, s.pinned b)] } = s.told := by
  simp [State.told, hq]

omit [DecidableEq φ] in
theorem told_written {todo : List (Instr φ β ν)} (ht : s.todo = .op (.write b v) :: todo) (hb : b ∉ s.queue) :
    State.told { s with pinned := Function.update s.pinned b v, todo } = s.told := by
  have hsame : (s.queue.map fun x => (x, Function.update s.pinned b v x)) = s.queue.map fun x => (x, s.pinned x) := by
    refine List.map_congr_left fun x hx => ?_
    have hne : x ≠ b := fun he => hb (he ▸ hx)
    rw [Function.update_of_ne hne]
  simp only [State.told, hsame, ht, sent]

theorem Ordered.enters (h : Ordered cuda owner s) (hps : ∀ p ∈ ps, Fenced p.marked p.ops) (ht : s.todo = program ps)
    (hc : ∀ f, Covered owner s f) (hi : s.issue cuda = some s') : Ordered cuda owner s' ∧ s'.told = s.told := by
  cases ps with
  | nil => simp [State.issue, ht, program] at hi
  | cons p ps =>
    obtain ⟨hp, hps⟩ := List.forall_mem_cons.mp hps
    have hp' : s.todo = .wait p.fence :: (p.ops.map .op ++ (closing p.fence p.marked ++ program ps)) := by
      rw [ht]
      simp [program, Pass.instrs]
    simp only [State.issue, hp', Option.map_eq_some_iff] at hi
    obtain ⟨c, hc', rfl⟩ := hi
    exact ⟨h.waited hps hc p.staged hp hc', by simp [State.told, hp', sent]⟩

theorem Ordered.step (h : Ordered cuda owner s) (hs : Step cuda s s') : Ordered cuda owner s' ∧ s'.told = s.told := by
  cases hs with
  | device hq => exact ⟨h.arrives hq, told_arrives hq⟩
  | host hi =>
    cases h.place with
    | between ps hps ht hc => exact h.enters hps ht hc hi
    | inside f marked ops ps hps ht hst hown hc hspared =>
      cases ops with
      | nil =>
        cases marked with
        | false => exact h.enters hps ht (fun g => hc g (.inr rfl)) hi
        | true =>
          have ht' : s.todo = .mark f :: program ps := ht
          simp only [State.issue, ht', Option.some.injEq] at hi
          subst hi
          exact ⟨h.closes hps fun g hg => hc g (.inl hg), by simp [State.told, ht', sent]⟩
      | cons o ops =>
        have ht' : s.todo = .op o :: (ops.map .op ++ (closing f marked ++ program ps)) := ht
        simp only [State.issue, ht', Option.some.injEq] at hi
        subst hi
        cases o with
        | write b v =>
          exact ⟨h.written hps hst hown hc hspared, told_written ht' fun hb => hspared b hb v List.mem_cons_self⟩
        | copy b =>
          cases cuda with
          | true => exact ⟨h.queued hps hst hown hc hspared, by simp [State.perform, State.told, ht', sent]⟩
          | false => exact ⟨h.copied hps hst hown, by simp [State.perform, State.told, ht', sent, h.sync rfl]⟩

theorem Ordered.run (h : Ordered cuda owner s) (hr : Run cuda s s') : Ordered cuda owner s' ∧ s'.told = s.told := by
  induction hr with
  | refl => exact ⟨h, rfl⟩
  | tail _ hs ih =>
    obtain ⟨ho, ht⟩ := ih
    obtain ⟨ho', ht'⟩ := ho.step hs
    exact ⟨ho', ht'.trans ht⟩

theorem Ordered.stuck (h : Ordered cuda owner s) (hs : ∀ s', ¬ Step cuda s s') : s.queue = [] ∧ s.todo = [] := by
  have hq : s.queue = [] := by
    cases hq : s.queue with
    | nil => rfl
    | cons b rest => exact absurd (.device hq) (hs _)
  refine ⟨hq, ?_⟩
  cases ht : s.todo with
  | nil => rfl
  | cons i is =>
    have hi : ∃ s', s.issue cuda = some s' := by
      cases i with
      | wait f =>
        obtain ⟨c, hc⟩ : ∃ c, (s.fence f).wait s.arrived.length = some c :=
          CopyFence.wait_ready fun n hn => by simpa [hq] using h.event f n hn
        exact ⟨{ s with fence := Function.update s.fence f c, todo := is },
          by simp only [State.issue, ht, hc, Option.map_some]⟩
      | op o => exact ⟨{ s.perform cuda o with todo := is }, by simp only [State.issue, ht]⟩
      | mark f => exact ⟨_, by simp only [State.issue, ht]; rfl⟩
    obtain ⟨s', hi⟩ := hi
    exact absurd (.host hi) (hs s')

def State.effort (s : State φ β ν) : Nat := 2 * s.todo.length + s.queue.length

theorem Step.effort_lt (h : Step cuda s s') : s'.effort < s.effort := by
  cases h with
  | device hq => simp [State.effort, hq]
  | host hi =>
    unfold State.issue at hi
    split at hi
    · cases hi
    · next f rest ht =>
      obtain ⟨c, -, rfl⟩ := Option.map_eq_some_iff.mp hi
      simp only [State.effort, ht, List.length_cons]
      omega
    · next o rest ht =>
      obtain rfl := Option.some.inj hi
      cases o with
      | write b v =>
        simp only [State.effort, State.perform, ht, List.length_cons]
        omega
      | copy b =>
        cases cuda with
        | true =>
          simp only [State.effort, State.perform, ht, if_true, List.length_cons, List.length_append, List.length_nil]
          omega
        | false =>
          simp only [State.effort, State.perform, ht, Bool.false_eq_true, if_false, List.length_cons]
          omega
    · next f rest ht =>
      obtain rfl := Option.some.inj hi
      simp only [State.effort, ht, List.length_cons]
      omega

theorem run_ends (cuda : Bool) (s : State φ β ν) : ∃ s', Run cuda s s' ∧ ∀ s'', ¬ Step cuda s' s'' := by
  induction hn : s.effort using Nat.strongRecOn generalizing s with
  | ind n ih =>
    by_cases hs : ∃ s', Step cuda s s'
    · obtain ⟨s', hs⟩ := hs
      obtain ⟨t, hr, ht⟩ := ih s'.effort (hn ▸ hs.effort_lt) s' rfl
      exact ⟨t, .head hs hr, ht⟩
    · exact ⟨s, .refl, fun s' h => hs ⟨s', h⟩⟩

-- Whatever the order of host and device, every copy reads what its own pass wrote, as long as no pass raises between its
-- first copy and its mark.
theorem copies_arrive_as_written (cuda : Bool) (pinned : β → ν) {ps : List (Pass owner ν)}
    (hps : ∀ p ∈ ps, Fenced p.marked p.ops) (h : Run cuda (start cuda pinned ps) s) :
    s.arrived <+: sent pinned (program ps) ∧
      ((∀ s', ¬ Step cuda s s') → s.todo = [] ∧ s.arrived = sent pinned (program ps)) ∧
      ∃ s', Run cuda s s' ∧ ∀ s'', ¬ Step cuda s' s'' := by
  obtain ⟨ho, ht⟩ := (Ordered.start hps).run h
  have hall : s.told = sent pinned (program ps) := ht
  refine ⟨⟨_, (List.append_assoc ..).symm.trans hall⟩, fun hs => ?_, run_ends cuda s⟩
  obtain ⟨hq, hdone⟩ := ho.stuck hs
  refine ⟨hdone, ?_⟩
  rw [← hall, State.told, hq, hdone]
  simp [sent]

omit [DecidableEq φ] [DecidableEq β] in
theorem staged_once (hb : owner b = f) (v : ν) : Staged owner f [.write b v, .copy b] :=
  ⟨hb, hb, fun _ => List.not_mem_nil, trivial⟩

theorem issue_wait {is : List (Instr φ β ν)} (ht : s.todo = .wait f :: is) (he : (s.fence f).event = none) :
    s.issue cuda = some { s with fence := Function.update s.fence f (s.fence f), todo := is } := by
  simp only [State.issue, ht, CopyFence.wait, he, Option.map_some]

-- Where a pass raises in between, the next finds no event to wait for: the device then reads the next pass's
-- value twice.
theorem raised_reads_later (pinned : β → ν) (hb : owner b = f) (v v' : ν) (marked : Bool) :
    ∃ s, Run true (start true pinned [⟨f, [.write b v, .copy b], false, staged_once hb v⟩,
      ⟨f, [.write b v', .copy b], marked, staged_once hb v'⟩]) s ∧ s.queue = [] ∧ s.arrived = [(b, v'), (b, v')] := by
  have hevent : (Function.update (fun _ => (⟨true, none⟩ : CopyFence)) f ⟨true, none⟩ f).event = none := by
    rw [Function.update_self]
  refine ⟨_, .head (.host rfl)
    (.head (.host rfl) (.head (.host rfl) (.head (.host (issue_wait rfl hevent)) (.head (.host rfl)
    (.head (.host rfl) (.head (.device rfl) (.head (.device rfl) .refl))))))), rfl, ?_⟩
  simp [State.perform, start]

end Order

section Passes

inductive Party where
  | runner
  | draft
  deriving DecidableEq, Repr

inductive Part where
  | staging
  | indptr
  | indices
  | last
  | planned (wrapper : Nat)
  deriving DecidableEq, Repr

-- Set 0 is the eager attention, which stages nothing; every set of decode graphs has a number of its own.
structure Buffer where
  party : Party
  set : Nat
  part : Part
  deriving DecidableEq, Repr

variable (party : Party) (set wrapper : Nat) (values : Part → ν)

-- Packing writes three arrays; the indices go up before the wrapper plans, the other two with its plan.
def plan : List (Op Buffer ν) :=
  [.write ⟨party, set, .indptr⟩ (values .indptr), .write ⟨party, set, .indices⟩ (values .indices),
    .write ⟨party, set, .last⟩ (values .last), .copy ⟨party, set, .indices⟩,
    .write ⟨party, set, .planned wrapper⟩ (values (.planned wrapper)), .copy ⟨party, set, .indptr⟩,
    .copy ⟨party, set, .last⟩, .copy ⟨party, set, .planned wrapper⟩]

def stage : List (Op Buffer ν) := [.write ⟨party, set, .staging⟩ (values .staging), .copy ⟨party, set, .staging⟩]

theorem plan_staged : Staged Buffer.party party (plan party set wrapper values) := by simp [Staged, plan]

theorem run_staged : Staged Buffer.party party (stage party set values ++ plan party set wrapper values) := by
  simp [Staged, stage, plan]

def forwardPass : Pass Buffer.party ν := ⟨party, plan party 0 wrapper values, true, plan_staged party 0 wrapper values⟩

def runPass : Pass Buffer.party ν :=
  ⟨party, stage party set values ++ plan party set wrapper values, true, run_staged party set wrapper values⟩

def write (part : Part) : Op Buffer ν := .write ⟨party, set, part⟩ (values part)

theorem writes_staged (parts : List Part) : Staged Buffer.party party (parts.map (write party set values)) := by
  induction parts with
  | nil => trivial
  | cons part parts ih => exact ⟨rfl, ih⟩

-- Packing raises with some of its arrays written and nothing queued.
def raisedPass (parts : List Part) : Pass Buffer.party ν :=
  ⟨party, parts.map (write party set values), false, writes_staged party set values parts⟩

def round : List (Pass Buffer.party Nat) :=
  [forwardPass .runner 0 fun _ => 1, runPass .draft 1 0 fun _ => 2,
    raisedPass .runner 0 (fun _ => 9) [.indptr, .indices],
    runPass .draft 1 0 fun _ => 3, forwardPass .runner 0 fun _ => 4]

theorem copies_arrive_as_written_round : ∃ s : State Party Buffer Nat, Run true (start true (fun _ => 0) round) s ∧
    s.arrived.map Prod.snd = [1, 1, 1, 1, 2, 2, 2, 2, 2, 3, 3, 3, 3, 3, 4, 4, 4, 4] := by
  have hround : ∀ p ∈ round, Fenced p.marked p.ops := by simp [round, Fenced, forwardPass, runPass, raisedPass, write]
  obtain ⟨-, -, s, hr, hs⟩ := copies_arrive_as_written true (fun _ => 0) hround .refl
  obtain ⟨-, hend, -⟩ := copies_arrive_as_written true _ hround hr
  refine ⟨s, hr, ?_⟩
  rw [(hend hs).2]
  rfl

end Passes

end Transfer

end MiniServe
