import MiniServe.Engine.Output
import MiniServe.Engine.Ready

namespace MiniServe

namespace Server

abbrev Sid := Nat
abbrev Cid := Nat

inductive FinishReason where
  | stop | length | abort | error
  deriving DecidableEq, Repr

-- The texts of an update's `error`; an engine error that is none of the engine's own is `none`.
inductive Cause where
  | rejected (e : Error)
  | engineError (e : Option Error)
  | shuttingDown
  | detokenization
  deriving DecidableEq, Repr

structure RequestStream where
  promptIds : List Token
  params : SamplingParams

structure Update where
  stream : Sid
  newIds : List Token
  finishReason : Option FinishReason
  numOutputTokens : Nat
  error : Option Cause := none
  deriving DecidableEq, Repr

structure StreamOutput where
  text : String
  tokenIds : List Token
  finishReason : Option FinishReason
  numPromptTokens : Nat
  numOutputTokens : Nat
  error : Option Cause
  deriving DecidableEq, Repr

structure DetokenizeItem where
  key : Sid
  newIds : List Token
  finished : Bool
  deriving DecidableEq, Repr

inductive CallOutcome where
  | result | exception | baseException
  deriving DecidableEq, Repr

inductive Command where
  | add (s : Sid)
  | abort (s : Sid)
  | call (c : Cid) (fn : Engine → CallOutcome × Engine)
  | stop

structure Live where
  rid : Rid
  stream : Sid
  sent : Nat
  deriving DecidableEq, Repr

inductive Thread where
  | running
  | failing (e : Option Error)
  | exited
  deriving DecidableEq, Repr

-- `live` is both `_live` and `_live_by_rid`: the same entries, looked up by stream or by request. `updates` is
-- everything on its way to the pump, `outputs` what it has pushed. `requestOf` and `stopping` record what
-- happened and are read by nothing.
structure AsyncEngine where
  engine : Engine
  streams : Sid → RequestStream := fun _ => ⟨[], { maxNewTokens := 1 }⟩
  numStreams : Nat := 0
  numCalls : Nat := 0
  commands : List Command := []
  live : List Live := []
  dead : Bool := false
  thread : Thread := .running
  updates : List (List Update) := []
  outputs : Sid → List StreamOutput := fun _ => []
  resolved : List Cid := []
  requestOf : Sid → Option Rid := fun _ => none
  stopping : Bool := false

namespace AsyncEngine

variable (a : AsyncEngine)

section EventLoop

def submit (promptIds : List Token) (params : SamplingParams) : Option AsyncEngine :=
  if a.dead then none
  else some { a with
    streams := Function.update a.streams a.numStreams ⟨promptIds, params⟩
    numStreams := a.numStreams + 1
    commands := a.commands ++ [.add a.numStreams] }

def abort (s : Sid) : AsyncEngine := { a with commands := a.commands ++ [.abort s] }

def call (fn : Engine → CallOutcome × Engine) : Option AsyncEngine :=
  if a.dead then none
  else some { a with numCalls := a.numCalls + 1, commands := a.commands ++ [.call a.numCalls fn] }

def stop : AsyncEngine := { a with commands := a.commands ++ [.stop], stopping := true }

def textIds (u : Update) : List Token :=
  match u.newIds.getLast? with
  | none => u.newIds
  | some tok =>
    if u.finishReason = some .stop ∧ tok ∈ (a.streams u.stream).params.stopTokenIds then u.newIds.dropLast
    else u.newIds

def item (u : Update) : DetokenizeItem := ⟨u.stream, a.textIds u, u.finishReason.isSome⟩

def output (u : Update) (text : String) : StreamOutput :=
  ⟨text, u.newIds, u.finishReason, (a.streams u.stream).promptIds.length, u.numOutputTokens, u.error⟩

def push (p : Update × String) : AsyncEngine :=
  { a with outputs := Function.update a.outputs p.1.stream (a.outputs p.1.stream ++ [a.output p.1 p.2]) }

-- The pump takes the updates that have arrived, the first `n` batches of them, in one backend call.
def fetched (n : Nat) : List Update := (a.updates.take n).flatten

def pump (n : Nat) (texts : List String) : AsyncEngine :=
  ((a.fetched n).zip texts).foldl push { a with updates := a.updates.drop n }

end EventLoop

section EngineThread

def publish (us : List Update) : AsyncEngine := if us = [] then a else { a with updates := a.updates ++ [us] }

def forget (l : Live) : AsyncEngine := { a with live := a.live.erase l }

def failUpdate (cause : Cause) (reason : FinishReason) (l : Live) : Update :=
  ⟨l.stream, [], some reason, l.sent, some cause⟩

def failAll (cause : Cause) (reason : FinishReason) : AsyncEngine :=
  publish { a with live := [] } (a.live.map (failUpdate cause reason))

def raise (e : Option Error) : AsyncEngine := { a with thread := .failing e }

def handleAdd (s : Sid) : AsyncEngine :=
  match a.engine.addRequest (a.streams s).promptIds (a.streams s).params with
  | (.error err, e) =>
    if err.kind = .valueError then
      publish { a with engine := e } [⟨s, [], some .error, 0, some (.rejected err)⟩]
    else raise { a with engine := e } (some err)
  | (.ok rid, e) =>
    { a with
      engine := e
      live := a.live ++ [⟨rid, s, 0⟩]
      requestOf := Function.update a.requestOf s (some rid) }

def handleAbort (s : Sid) : AsyncEngine :=
  match a.live.find? (fun l => l.stream = s) with
  | none => a
  | some l =>
    match a.engine.abort l.rid with
    | .error err => a.raise (some err)
    | .ok e => publish (forget { a with engine := e } l) [⟨s, [], some .abort, l.sent, none⟩]

def handleCall (c : Cid) (fn : Engine → CallOutcome × Engine) : AsyncEngine :=
  match fn a.engine with
  | (.baseException, e) => raise { a with engine := e } none
  | (_, e) => { a with engine := e, resolved := a.resolved ++ [c] }

def handle : Command → AsyncEngine
  | .add s => a.handleAdd s
  | .abort s => a.handleAbort s
  | .call c fn => a.handleCall c fn
  | .stop => { a.failAll .shuttingDown .abort with thread := .exited }

-- One request of the batch a step has read back; a finished request without output would be an IndexError.
def collectRow (r : Rid) (us : List Update) : Option (List Update × AsyncEngine) :=
  match a.live.find? (fun l => l.rid = r) with
  | none => some (us, a)
  | some l =>
    let req := a.engine.request r
    let ready := req.readyIds
    let new := ready.drop l.sent
    if req.state = .finished then
      match req.outputIds.getLast? with
      | none => none
      | some tok =>
        let reason : FinishReason := if tok ∈ req.params.stopTokenIds then .stop else .length
        some (us ++ [⟨l.stream, new, some reason, ready.length, none⟩], a.forget l)
    else
      let a' : AsyncEngine := { a with live := a.live.map fun x => if x = l then { l with sent := ready.length } else x }
      some (if new = [] then us else us ++ [⟨l.stream, new, none, ready.length, none⟩], a')

def collect : List Rid → List Update → AsyncEngine → Option (List Update) × AsyncEngine
  | [], us, a => (some us, a)
  | r :: rest, us, a =>
    match a.collectRow r us with
    | none => (none, a)
    | some (us, a) => collect rest us a

def engineStep (model : Model) : AsyncEngine :=
  match a.engine.step model with
  | (.error err, e) => raise { a with engine := e } (some err)
  | (.ok none, e) => { a with engine := e }
  | (.ok (some b), e) =>
    match collect (b.rows.map Row.rid) [] { a with engine := e } with
    | (none, a) => a.raise none
    | (some us, a) => a.publish us

def answer (e : Option Error) : Command → AsyncEngine
  | .add s => a.publish [⟨s, [], some .error, 0, some (.engineError e)⟩]
  | .call c _ => { a with resolved := a.resolved ++ [c] }
  | .abort _ => a
  | .stop => a

def drainAfterDeath (e : Option Error) : List Command → AsyncEngine → AsyncEngine
  | [], a => a
  | cmd :: rest, a => drainAfterDeath e rest (a.answer e cmd)

-- The handler of `_run`, under the lock that `submit` and `call` take.
def die (e : Option Error) : AsyncEngine :=
  drainAfterDeath e a.commands { failAll { a with dead := true } (.engineError e) .error with
    commands := []
    thread := .exited }

end EngineThread

end AsyncEngine

-- Where a failure that is not the engine's own can leave it: before the step, or in the middle of one.
inductive Fault (model : Model) (e : Engine) : Engine → Prop
  | start : Fault model e e
  | scheduled {res : Except Error (Option Batch)} {s : Scheduler} (h : e.scheduler.schedule = (res, s)) :
      Fault model e { e with scheduler := s }
  | launched {b : Option Batch} {s : Scheduler} {L : Option Launched} {e2 : Engine}
      (h : e.scheduler.schedule = (.ok b, s))
      (hl : Engine.launchBatch { e with scheduler := s, launched := b } model b = .ok (L, e2)) :
      Fault model e e2

inductive Event where
  | submit (promptIds : List Token) (params : SamplingParams)
  | abort (s : Sid)
  | call (fn : Engine → CallOutcome × Engine)
  | stop
  | pump (n : Nat)
  | take
  | step
  | fault
  | die

-- One event at a time; `detokenize` is what the backend, in whatever state it is, may return for its items. The
-- engine thread takes a command when there is one; it steps once it has found the
-- queue empty, and more commands may have arrived since.
inductive Next (model : Model) (detokenize : List DetokenizeItem → List String → Prop) :
    Event → AsyncEngine → AsyncEngine → Prop
  | submit {a a' : AsyncEngine} {promptIds : List Token} {params : SamplingParams}
      (h : a.submit promptIds params = some a') : Next model detokenize (.submit promptIds params) a a'
  | abort {a : AsyncEngine} {s : Sid} (h : s < a.numStreams) : Next model detokenize (.abort s) a (a.abort s)
  | call {a a' : AsyncEngine} {fn : Engine → CallOutcome × Engine} (h : a.call fn = some a') :
      Next model detokenize (.call fn) a a'
  | stop {a : AsyncEngine} : Next model detokenize .stop a a.stop
  | pump {a : AsyncEngine} {n : Nat} {texts : List String} (h : detokenize ((a.fetched n).map a.item) texts) :
      Next model detokenize (.pump n) a (a.pump n texts)
  | take {a : AsyncEngine} {cmd : Command} {rest : List Command} (ht : a.thread = .running)
      (h : a.commands = cmd :: rest) :
      Next model detokenize .take a (AsyncEngine.handle { a with commands := rest } cmd)
  | step {a : AsyncEngine} (ht : a.thread = .running) (hu : a.engine.hasUnfinished) :
      Next model detokenize .step a (a.engineStep model)
  | fault {a : AsyncEngine} {e : Engine} (ht : a.thread = .running) (h : Fault model a.engine e) :
      Next model detokenize .fault a (AsyncEngine.raise { a with engine := e } none)
  | die {a : AsyncEngine} {e : Option Error} (ht : a.thread = .failing e) : Next model detokenize .die a (a.die e)

abbrev start (c : EngineConfig) : AsyncEngine := { engine := Engine.new c }

def Run (model : Model) (detokenize : List DetokenizeItem → List String → Prop) (ok : AsyncEngine → Event → Prop) :
    AsyncEngine → AsyncEngine → Prop :=
  Relation.ReflTransGen fun a a' => ∃ ev, ok a ev ∧ Next model detokenize ev a a'

theorem Run.snoc {model : Model} {detokenize : List DetokenizeItem → List String → Prop}
    {ok : AsyncEngine → Event → Prop} {a a' a'' : AsyncEngine} {ev : Event} (h : Run model detokenize ok a a')
    (hn : Next model detokenize ev a' a'') (hok : ok a' ev) : Run model detokenize ok a a'' :=
  Relation.ReflTransGen.tail h ⟨ev, hok, hn⟩

end Server

end MiniServe
