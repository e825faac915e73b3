import MiniServe.Lib.Utf8
import MiniServe.Cache.Errors

namespace MiniServe

open Utf8

-- A byte-level tokenizer: every token stands for some bytes, and a list of tokens for those of each in turn.
structure Tokenizer where
  bytes : Token → List UInt8

def Tokenizer.decode (tok : Tokenizer) (ids : List Token) : List Char := decodeLossy (ids.flatMap tok.bytes)

structure IncrementalDetokenizer where
  ids : List Token := []
  prefixAt : Nat := 0
  read : Nat := 0
  deriving DecidableEq, Repr

namespace IncrementalDetokenizer

def step (tok : Tokenizer) (d : IncrementalDetokenizer) (newIds : List Token) (finished : Bool) :
    List Char × IncrementalDetokenizer :=
  let d := { d with ids := d.ids ++ newIds }
  if d.read = d.ids.length then ([], d)
  else
    let before := tok.decode ((d.ids.take d.read).drop d.prefixAt)
    let text := tok.decode (d.ids.drop d.prefixAt)
    let new := text.drop before.length
    if finished = false ∧ (new = [] ∨ new.getLast? = some replacement) then ([], d)
    else (new, { d with prefixAt := d.read, read := d.ids.length })

def steps (tok : Tokenizer) : List (List Token) → IncrementalDetokenizer → List (List Char) × IncrementalDetokenizer
  | [], d => ([], d)
  | newIds :: chunks, d =>
    let (text, d) := d.step tok newIds false
    let (texts, d) := steps tok chunks d
    (text :: texts, d)

-- Both ends of the window lie between characters, and what has been given out is the text up to the second.
structure Window (tok : Tokenizer) (d : IncrementalDetokenizer) (text : List Char) : Prop where
  prefix_le : d.prefixAt ≤ d.read
  read_le : d.read ≤ d.ids.length
  opens : Complete ((d.ids.take d.prefixAt).flatMap tok.bytes)
  closes : Complete ((d.ids.take d.read).flatMap tok.bytes)
  text_eq : text = tok.decode (d.ids.take d.read)

variable {tok : Tokenizer} {d : IncrementalDetokenizer} {text : List Char} {newIds : List Token}

theorem window_empty (tok : Tokenizer) : Window tok {} [] :=
  ⟨le_refl _, le_refl _, complete_nil, complete_nil, rfl⟩

theorem Window.extend (h : Window tok d text) (newIds : List Token) :
    Window tok { d with ids := d.ids ++ newIds } text := by
  have hread : (d.ids ++ newIds).take d.read = d.ids.take d.read := List.take_append_of_le_length h.read_le
  have hpre : (d.ids ++ newIds).take d.prefixAt = d.ids.take d.prefixAt :=
    List.take_append_of_le_length (h.prefix_le.trans h.read_le)
  refine ⟨h.prefix_le, ?_, ?_, ?_, ?_⟩
  · rw [List.length_append]
    exact h.read_le.trans (Nat.le_add_right _ _)
  · simp only [hpre]
    exact h.opens
  · simp only [hread]
    exact h.closes
  · simp only [hread]
    exact h.text_eq

theorem Window.decode_drop_read (h : Window tok d text) :
    (tok.decode (d.ids.drop d.prefixAt)).drop (tok.decode ((d.ids.take d.read).drop d.prefixAt)).length =
      tok.decode (d.ids.drop d.read) := by
  have hsplit : d.ids.drop d.prefixAt = (d.ids.take d.read).drop d.prefixAt ++ d.ids.drop d.read := by
    rw [← List.drop_append_of_le_length, List.take_append_drop]
    rw [List.length_take]
    exact le_min h.prefix_le (h.prefix_le.trans h.read_le)
  -- The text of the window is cut at `read`, which both ends being between characters allows.
  have hin : Complete (((d.ids.take d.read).drop d.prefixAt).flatMap tok.bytes) := by
    rw [← h.opens.append_iff, ← List.flatMap_append]
    have htake : (d.ids.take d.read).take d.prefixAt = d.ids.take d.prefixAt := by
      rw [List.take_take, min_eq_left h.prefix_le]
    rw [← htake, List.take_append_drop]
    exact h.closes
  rw [hsplit, Tokenizer.decode, Tokenizer.decode, List.flatMap_append, hin.decodeLossy_append, List.drop_left,
    Tokenizer.decode]

theorem Window.decode_ids (h : Window tok d text) : text ++ tok.decode (d.ids.drop d.read) = tok.decode d.ids := by
  rw [h.text_eq, Tokenizer.decode, Tokenizer.decode, ← h.closes.decodeLossy_append, ← List.flatMap_append,
    List.take_append_drop, Tokenizer.decode]

theorem step_ids (tok : Tokenizer) (d : IncrementalDetokenizer) (newIds : List Token) (finished : Bool) :
    (d.step tok newIds finished).2.ids = d.ids ++ newIds := by
  simp only [step]
  split
  · rfl
  · split <;> rfl

theorem Window.step (h : Window tok d text) (newIds : List Token) :
    Window tok (d.step tok newIds false).2 (text ++ (d.step tok newIds false).1) ∧
      (d.step tok newIds false).1.getLast? ≠ some replacement := by
  have h' := h.extend newIds
  have hnew := h'.decode_drop_read
  have hall := h'.decode_ids
  simp only [IncrementalDetokenizer.step]
  simp only at hnew hall
  split
  · simpa using h'
  · rw [hnew]
    split
    · simpa using h'
    · next hemit =>
      simp only [true_and, not_or] at hemit
      refine ⟨⟨h'.read_le, le_refl _, h'.closes, ?_, ?_⟩, hemit.2⟩
      · have hc := complete_of_getLast? hemit.2
        have := h'.closes.append_iff.mpr hc
        rw [← List.flatMap_append, List.take_append_drop] at this
        simp only [List.take_length]
        exact this
      · simp only [List.take_length]
        exact hall

theorem Window.finish (h : Window tok d text) (newIds : List Token) :
    text ++ (d.step tok newIds true).1 = tok.decode (d.ids ++ newIds) := by
  have h' := h.extend newIds
  have hnew := h'.decode_drop_read
  have hall := h'.decode_ids
  simp only [IncrementalDetokenizer.step]
  simp only at hnew hall
  split
  · next hread =>
    rw [hread, List.drop_length] at hall
    exact hall
  · simp only [Bool.true_eq_false, false_and, if_false, hnew]
    exact hall

theorem Window.steps (h : Window tok d text) (chunks : List (List Token)) :
    Window tok (d.steps tok chunks).2 (text ++ (d.steps tok chunks).1.flatten) ∧
      (d.steps tok chunks).2.ids = d.ids ++ chunks.flatten ∧
      ∀ t ∈ (d.steps tok chunks).1, t.getLast? ≠ some replacement := by
  induction chunks generalizing d text with
  | nil => simpa [IncrementalDetokenizer.steps] using h
  | cons newIds chunks ih =>
    obtain ⟨h1, hend⟩ := h.step newIds
    obtain ⟨h2, hids, hrest⟩ := ih h1
    simp only [IncrementalDetokenizer.steps]
    refine ⟨?_, ?_, ?_⟩
    · rw [List.flatten_cons, ← List.append_assoc]
      exact h2
    · rw [hids, step_ids, List.flatten_cons, List.append_assoc]
    · intro t ht
      rcases List.mem_cons.mp ht with rfl | ht
      · exact hend
      · exact hrest t ht

theorem texts_concatenate (tok : Tokenizer) (chunks : List (List Token)) (last : List Token) :
    (steps tok chunks {}).1.flatten ++ ((steps tok chunks {}).2.step tok last true).1 =
        tok.decode (chunks.flatten ++ last) ∧
      ∀ t ∈ (steps tok chunks {}).1, t.getLast? ≠ some replacement := by
  obtain ⟨h, hids, hend⟩ := (window_empty tok).steps chunks
  refine ⟨?_, hend⟩
  have := h.finish last
  rw [hids] at this
  exact this

end IncrementalDetokenizer

end MiniServe
