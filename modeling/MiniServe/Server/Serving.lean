import MiniServe.Server.Answered
import MiniServe.Server.Detokenizer
import Mathlib.Data.List.AList

namespace MiniServe

open Utf8

namespace IncrementalDetokenizer

-- `step` over a tokenizer whose two calls of `decode` may raise.
def tryStep (before text : List Token → Option (List Char)) (d : IncrementalDetokenizer) (newIds : List Token)
    (finished : Bool) : Option (List Char) × IncrementalDetokenizer :=
  let d := { d with ids := d.ids ++ newIds }
  if d.read = d.ids.length then (some [], d)
  else
    match before ((d.ids.take d.read).drop d.prefixAt), text (d.ids.drop d.prefixAt) with
    | some before, some text =>
      let new := text.drop before.length
      if finished = false ∧ (new = [] ∨ new.getLast? = some replacement) then (some [], d)
      else (some new, { d with prefixAt := d.read, read := d.ids.length })
    | _, _ => (none, d)

end IncrementalDetokenizer

namespace Server

abbrev States := AList fun _ : Sid => IncrementalDetokenizer

def States.numStates (st : States) : Nat := st.entries.length

-- What each call of `decode` in a batch returns or, where there is nothing, raises; item `i` makes calls 2i and 2i + 1.
abbrev Decode := Nat → List Token → Option (List Char)

section Backend

variable (decode : Decode)

def detokenizeItem (i : Nat) (it : DetokenizeItem) (st : States) : Option (List Char) × States :=
  match ((st.lookup it.key).getD {}).tryStep (decode (2 * i)) (decode (2 * i + 1)) it.newIds it.finished with
  | (none, d) => (none, st.insert it.key d)
  | (some text, d) => (some text, if it.finished then (st.insert it.key d).erase it.key else st.insert it.key d)

def detokenize : Nat → List DetokenizeItem → States → Option (List (List Char)) × States
  | _, [], st => (some [], st)
  | i, it :: items, st =>
    match detokenizeItem decode i it st with
    | (none, st) => (none, st)
    | (some text, st) =>
      match detokenize (i + 1) items st with
      | (none, st) => (none, st)
      | (some texts, st) => (some (text :: texts), st)

end Backend

namespace AsyncEngine

variable (a : AsyncEngine)

def failed (u : Update) : Update := { u with finishReason := some .error, error := some .detokenization }

def abortOf (u : Update) : Option Command :=
  match u.finishReason with
  | none => some (.abort u.stream)
  | some _ => none

-- The handler of `_pump` for a batch that raised.
def pumpFailed (n : Nat) : AsyncEngine :=
  (((a.fetched n).map failed).map fun u => (u, "")).foldl push { a with
    updates := a.updates.drop n
    commands := a.commands ++ (a.fetched n).filterMap abortOf }

end AsyncEngine

structure Serving where
  srv : AsyncEngine
  states : States := ∅

namespace Serving

variable (sv : Serving)

def numStates : Nat := sv.states.numStates

def items (n : Nat) : List DetokenizeItem := (sv.srv.fetched n).map sv.srv.item

def pump (n : Nat) (decode : Decode) : Serving :=
  match detokenize decode 0 (sv.items n) sv.states with
  | (some texts, states) => ⟨sv.srv.pump n (texts.map String.ofList), states⟩
  | (none, states) => ⟨sv.srv.pumpFailed n, states⟩

end Serving

inductive Move where
  | thread (ev : Event)
  | pump (n : Nat) (decode : Decode)

-- The pump's moves go through the backend; all others are those of the event loop and the engine thread.
inductive Serves (model : Model) : Move → Serving → Serving → Prop
  | thread {sv : Serving} {ev : Event} {a : AsyncEngine} (h : Next model (fun _ _ => False) ev sv.srv a) :
      Serves model (.thread ev) sv ⟨a, sv.states⟩
  | pump {sv : Serving} (n : Nat) (decode : Decode) : Serves model (.pump n decode) sv (sv.pump n decode)

def Serving.Run (model : Model) (ok : Serving → Move → Prop) : Serving → Serving → Prop :=
  Relation.ReflTransGen fun sv sv' => ∃ mv, ok sv mv ∧ Serves model mv sv sv'

theorem Serving.Run.snoc {model : Model} {ok : Serving → Move → Prop} {sv sv' sv'' : Serving} {mv : Move}
    (h : Run model ok sv sv') (hn : Serves model mv sv' sv'') (hok : ok sv' mv) : Run model ok sv sv'' :=
  Relation.ReflTransGen.tail h ⟨mv, hok, hn⟩

def Proper (model : Model) (fn : Engine → CallOutcome × Engine) : Prop :=
  ∀ e, Engine.Calls model (fun _ => True) e (fn e).2

def Calling (model : Model) (_ : Serving) : Move → Prop
  | .thread (.call fn) => Proper model fn
  | _ => True

theorem calling {model : Model} {sv : Serving} {ev : Event} (h : ∀ fn, ev ≠ .call fn) :
    Calling model sv (.thread ev) := by
  cases ev with
  | call fn => exact absurd rfl (h fn)
  | _ => trivial

end Server

end MiniServe
