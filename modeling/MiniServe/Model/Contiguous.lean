import Mathlib.Data.List.SplitLengths
import MiniServe.Engine.PagedPass

namespace MiniServe

open Generate ModelRunner

-- One sequence's keys and values, a cell a committed token.
structure ContiguousKVCache where
  cells : List (Token × Nat)
  maxLen : Nat

inductive AttentionError where
  | cacheOverflow (stop maxLen : Nat)
  | cacheCount (caches sequences : Nat)
  | multiToken
  | tokenCount (seqLens : List Nat) (tokens : Nat)
  | indexOutOfRange
  | longOverflow
  deriving DecidableEq, Repr

namespace ContiguousKVCache

variable (c : ContiguousKVCache)

def new (maxLen : Nat) : ContiguousKVCache := ⟨[], maxLen⟩

def length : Nat := c.cells.length

def write (cells : List (Token × Nat)) : Except AttentionError ContiguousKVCache :=
  let stop := c.length + cells.length
  if stop > c.maxLen then .error (.cacheOverflow stop c.maxLen) else .ok { c with cells := c.cells ++ cells }

end ContiguousKVCache

namespace ContiguousAttention

def writeAll : List (ContiguousKVCache × List (Token × Nat)) → Except AttentionError (List ContiguousKVCache)
  | [] => .ok []
  | (c, cells) :: rest =>
    match c.write cells with
    | .error e => .error e
    | .ok c =>
      match writeAll rest with
      | .error e => .error e
      | .ok cs => .ok (c :: cs)

-- What each of a sequence's new tokens attends to: the causal mask starts at the first cell.
def attended (x : ContiguousKVCache × Nat) : Histories :=
  (List.range x.2).map fun j => (if 1 < x.2 then x.1.cells.take (j + 1) else x.1.cells).map some

def forwardWith (caches : List ContiguousKVCache) (seqLens : List Nat) (ids : List Token) (pos : List Nat) :
    Except AttentionError (List ContiguousKVCache × Histories) :=
  if caches.length ≠ seqLens.length then .error (.cacheCount caches.length seqLens.length)
  else if ∃ x ∈ caches.zip seqLens, 1 < x.2 ∧ x.1.length ≠ 0 then .error .multiToken
  else if seqLens.sum ≠ ids.length then .error (.tokenCount seqLens ids.length)
  else
    match writeAll (caches.zip (seqLens.splitLengths (ids.zip pos))) with
    | .error e => .error e
    | .ok caches =>
      match gather ((caches.zip seqLens).flatMap attended) (lastRows seqLens) with
      | none => .error .indexOutOfRange
      | some hs => .ok (caches, hs)

def forward (cache : ContiguousKVCache) (ids : List Token) (pos : List Nat) :
    Except AttentionError (ContiguousKVCache × List (Option (Token × Nat))) :=
  match forwardWith [cache] [ids.length] ids pos with
  | .error e => .error e
  | .ok ([cache], [h]) => .ok (cache, h)
  | .ok _ => .error .indexOutOfRange

section Passes

abbrev Job := ContiguousKVCache × List (Token × Nat)

structure Fits (x : Job) : Prop where
  pos : 1 ≤ x.2.length
  first : 1 < x.2.length → x.1.cells = []
  room : x.1.cells.length + x.2.length ≤ x.1.maxLen

def grown (x : Job) : ContiguousKVCache := ⟨x.1.cells ++ x.2, x.1.maxLen⟩

variable {jobs : List Job} {seqLens : List Nat} {ids : List Token} {pos : List Nat}

theorem writeAll_ok (h : ∀ x ∈ jobs, Fits x) : writeAll jobs = .ok (jobs.map grown) := by
  induction jobs with
  | nil => rfl
  | cons x jobs ih =>
    have hroom : ¬ x.1.length + x.2.length > x.1.maxLen := not_lt.mpr (h x List.mem_cons_self).room
    have hrest := ih fun y hy => h y (List.mem_cons_of_mem _ hy)
    rw [writeAll, ContiguousKVCache.write]
    simp only [if_neg hroom, hrest]
    rfl

theorem split_jobs (jobs : List Job) :
    (jobs.map fun x => x.2.length).splitLengths (jobs.flatMap Prod.snd) = jobs.map Prod.snd := by
  induction jobs with
  | nil => rfl
  | cons x jobs ih => rw [List.map_cons, List.splitLengths_cons, List.flatMap_cons, List.take_left, List.drop_left, ih,
      List.map_cons]

theorem attended_last {x : Job} (h : Fits x) : (attended (grown x, x.2.length)).length = x.2.length ∧ 1 ≤ x.2.length ∧
    (attended (grown x, x.2.length))[x.2.length - 1]? = some ((x.1.cells ++ x.2).map some) := by
  have hpos := h.pos
  refine ⟨by simp [attended], hpos, ?_⟩
  rw [attended, List.getElem?_map, List.getElem?_range (Nat.sub_lt hpos Nat.one_pos), Option.map_some,
    Nat.sub_add_cancel hpos]
  by_cases hmany : 1 < x.2.length
  · rw [if_pos hmany, grown, h.first hmany, List.nil_append, List.take_length]
  · rw [if_neg hmany]
    rfl

theorem forwardWith_ok (h : ∀ x ∈ jobs, Fits x) (hcells : ids.zip pos = jobs.flatMap Prod.snd)
    (hlen : ids.length = (jobs.map fun x => x.2.length).sum) :
    forwardWith (jobs.map Prod.fst) (jobs.map fun x => x.2.length) ids pos =
      .ok (jobs.map grown, jobs.map fun x => (x.1.cells ++ x.2).map some) := by
  have hmulti : ¬ ∃ x ∈ (jobs.map Prod.fst).zip (jobs.map fun x => x.2.length), 1 < x.2 ∧ x.1.length ≠ 0 := by
    rintro ⟨y, hy, hmany, hne⟩
    rw [List.zip_map'] at hy
    obtain ⟨x, hx, rfl⟩ := List.mem_map.mp hy
    exact hne (congrArg List.length ((h x hx).first hmany))
  have hjobs : (jobs.map Prod.fst).zip (jobs.map Prod.snd) = jobs := by
    rw [List.zip_map']
    exact List.map_id _
  have hgather := gather_last (f := fun x : Job => attended (grown x, x.2.length)) (n := fun x => x.2.length)
    fun x hx => attended_last (h x hx)
  have hzip : (jobs.map grown).zip (jobs.map fun x => x.2.length) =
    jobs.map fun x => (grown x, x.2.length) := List.zip_map' ..
  rw [forwardWith, if_neg (by simp), if_neg hmulti, if_neg (by rw [hlen]; simp), hcells, split_jobs,
    hjobs, writeAll_ok h]
  simp only [hzip, List.flatMap_map]
  rw [hgather]

theorem forward_ok {c : ContiguousKVCache} (h : Fits (c, ids.zip pos)) (hlen : pos.length = ids.length) :
    forward c ids pos = .ok (⟨c.cells ++ ids.zip pos, c.maxLen⟩, (c.cells ++ ids.zip pos).map some) := by
  have hz : (ids.zip pos).length = ids.length := by rw [List.length_zip, hlen, Nat.min_self]
  have hf := @forwardWith_ok [(c, ids.zip pos)] ids pos (by simpa using h) (by simp) (by simp [hz])
  simp only [List.map_cons, List.map_nil, hz] at hf
  rw [forward, hf]
  rfl

end Passes

end ContiguousAttention

theorem zipIdx_concat {α : Type} (l : List α) (a : α) : (l ++ [a]).zipIdx = l.zipIdx ++ [(a, l.length)] := by
  rw [List.zipIdx_append, Nat.zero_add]
  rfl

section Greedy

open ContiguousAttention

variable (greedy : List (Option (Token × Nat)) → Token) (stopIds : List Token)

def greedyLoop : Nat → ContiguousKVCache → List Token → List Nat → List Token → Except AttentionError (List Token)
  | 0, _, _, _, out => .ok out
  | n + 1, cache, ids, pos, out =>
    match forward cache ids pos with
    | .error e => .error e
    | .ok (cache, h) =>
      let nxt := greedy h
      if nxt ∈ stopIds then .ok (out ++ [nxt])
      else if ¬ IsLong nxt then .error .longOverflow
      else greedyLoop n cache [nxt] [cache.length] (out ++ [nxt])

def greedyGenerate (promptIds : List Token) (maxNewTokens : Nat) : Except AttentionError (List Token) :=
  if ∃ id ∈ promptIds, ¬ IsLong id then .error .longOverflow
  else greedyLoop greedy stopIds maxNewTokens (.new (promptIds.length + maxNewTokens)) promptIds
    (List.range promptIds.length) []

variable {greedy stopIds}

theorem greedyLoop_eq {prompt out ids : List Token} {pos : List Nat} {cache : ContiguousKVCache} {n : Nat}
    (hcells : cache.cells ++ ids.zip pos = (prompt ++ out).zipIdx) (hlen : pos.length = ids.length) (hids : ids ≠ [])
    (hfirst : 1 < ids.length → cache.cells = []) (hroom : (prompt ++ out).length + n ≤ cache.maxLen + 1)
    (hout : out = stream (fun out => greedy (cellsOf (prompt ++ out))) out.length) (hstop : ∀ tok ∈ out, tok ∉ stopIds)
    (hlong : ∀ h, IsLong (greedy h)) :
    greedyLoop greedy stopIds n cache ids pos out =
      .ok (cutAt stopIds (stream (fun out => greedy (cellsOf (prompt ++ out))) (out.length + n))) := by
  induction n generalizing out ids pos cache with
  | zero =>
    have hcut : cutAt stopIds (out ++ []) = out ++ cutAt stopIds [] := cutAt_append hstop
    simp only [List.append_nil, cutAt] at hcut
    rw [greedyLoop, Nat.add_zero, ← hout, hcut]
  | succ n ih =>
    have hz : (ids.zip pos).length = ids.length := by rw [List.length_zip, hlen, Nat.min_self]
    have htotal : cache.cells.length + (ids.zip pos).length = (prompt ++ out).length := by
      rw [← List.length_append, hcells, List.length_zipIdx]
    have hfits : Fits (cache, ids.zip pos) := by
      refine ⟨?_, ?_, ?_⟩
      · rw [hz]
        exact List.length_pos_iff.mpr hids
      · rw [hz]
        exact hfirst
      · show cache.cells.length + (ids.zip pos).length ≤ cache.maxLen
        omega
    have hnext : greedy (((prompt ++ out).zipIdx).map some) =
        (fun out => greedy (cellsOf (prompt ++ out)))
            (stream (fun out => greedy (cellsOf (prompt ++ out))) out.length) := by
      rw [← hout]
      rfl
    have hgrow : out ++ [greedy (((prompt ++ out).zipIdx).map some)] =
        stream (fun out => greedy (cellsOf (prompt ++ out))) (out.length + 1) := by
      rw [stream, ← hout, hnext, ← hout]
    rw [greedyLoop, forward_ok hfits hlen]
    simp only [hcells]
    by_cases hs : greedy (((prompt ++ out).zipIdx).map some) ∈ stopIds
    · rw [if_pos hs]
      congr 1
      exact cutAt_stream hgrow (by omega) hstop (.inr hs)
    · rw [if_neg hs, if_neg (not_not.mpr (hlong _)), ih]
      · rw [List.length_append, List.length_singleton]
        congr 3
        omega
      · rw [← List.append_assoc, zipIdx_concat, ContiguousKVCache.length, List.length_zipIdx]
        rfl
      · rfl
      · exact List.cons_ne_nil _ _
      · exact fun h => absurd h (lt_irrefl 1)
      · simp only [List.length_append, List.length_singleton] at hroom ⊢
        omega
      · rw [List.length_append, List.length_singleton]
        exact hgrow
      · intro tok ht
        rcases List.mem_append.mp ht with ht | ht
        · exact hstop tok ht
        · rw [List.mem_singleton.mp ht]
          exact hs

-- The plain loop never meets its own guards: it gives the stream of the model's choices, cut at a stop token.
theorem greedyGenerate_eq {prompt : List Token} {maxNew : Nat} (hp : prompt ≠ []) (hids : ∀ id ∈ prompt, IsLong id)
    (hlong : ∀ h, IsLong (greedy h)) :
    greedyGenerate greedy stopIds prompt maxNew =
      .ok (cutAt stopIds (stream (fun out => greedy (cellsOf (prompt ++ out))) maxNew)) := by
  have hcells : ([] : List (Token × Nat)) ++ prompt.zip (List.range prompt.length) = (prompt ++ []).zipIdx := by
    rw [List.append_nil, List.nil_append, List.zipIdx_eq_zip_range', List.range_eq_range']
  have h := @greedyLoop_eq greedy stopIds prompt [] prompt (List.range prompt.length)
    (.new (prompt.length + maxNew)) maxNew
    hcells (List.length_range ..) hp (fun _ => rfl) (by simp [ContiguousKVCache.new]) rfl (by simp) hlong
  rw [List.length_nil, Nat.zero_add] at h
  have hids' : ¬ ∃ id ∈ prompt, ¬ IsLong id := by simpa using hids
  rw [greedyGenerate, if_neg hids']
  exact h

end Greedy

end MiniServe
