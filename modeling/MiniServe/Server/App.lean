import MiniServe.Server.Serving
import MiniServe.Server.Validation

namespace MiniServe

namespace Server

-- `_Format`, with what `uuid4` and `time` gave it.
structure Format where
  chat : Bool
  model : String
  hex : String
  created : Nat
  deriving DecidableEq, Repr

structure Delta where
  role : Option String
  content : Option String
  deriving DecidableEq, Repr

inductive Choice where
  | delta (index : Nat) (delta : Delta) (finishReason : Option FinishReason)
  | message (index : Nat) (role content : String) (finishReason : Option FinishReason)
  | text (index : Nat) (text : String) (finishReason : Option FinishReason)
  deriving DecidableEq, Repr

structure Usage where
  promptTokens : Nat
  completionTokens : Nat
  totalTokens : Nat
  deriving DecidableEq, Repr

def usage (last : StreamOutput) : Usage :=
  ⟨last.numPromptTokens, last.numOutputTokens, last.numPromptTokens + last.numOutputTokens⟩

structure Envelope where
  id : String
  object : String
  created : Nat
  model : String
  choices : List Choice
  usage : Option Usage := none
  deriving DecidableEq, Repr

namespace Format

variable (fmt : Format)

def id : String := (if fmt.chat then "chatcmpl" else "cmpl") ++ "-" ++ fmt.hex

def envelope (choices : List Choice) (streaming : Bool) : Envelope where
  id := fmt.id
  object := if fmt.chat then if streaming then "chat.completion.chunk" else "chat.completion" else "text_completion"
  created := fmt.created
  model := fmt.model
  choices := choices

def chunk (text : String) (finishReason : Option FinishReason) (first : Bool) : Envelope :=
  let choice : Choice :=
    if fmt.chat then
      .delta 0 ⟨if first then some "assistant" else none, if text ≠ "" ∨ first then some text else none⟩ finishReason
    else .text 0 text finishReason
  fmt.envelope [choice] true

def usageChunk (last : StreamOutput) : Envelope := { fmt.envelope [] true with usage := some (Server.usage last) }

def complete (text : String) (last : StreamOutput) : Envelope :=
  let choice : Choice :=
    if fmt.chat then .message 0 "assistant" text last.finishReason else .text 0 text last.finishReason
  { fmt.envelope [choice] false with usage := some (Server.usage last) }

end Format

inductive Message where
  | protocol (e : ProtocolError)
  | engineStopped
  | cause (c : Cause)
  | reason (r : Option FinishReason)
  deriving DecidableEq, Repr

structure ApiError where
  message : Message
  type : String
  code : Option Nat := none
  deriving DecidableEq, Repr

inductive SseEvent where
  | data (obj : Envelope)
  | error (e : ApiError)
  | done
  deriving DecidableEq, Repr

inductive Response where
  | json (obj : Envelope)
  | error (status : Nat) (e : ApiError)
  | empty (status : Nat)
  deriving DecidableEq, Repr

def clientClosed : Nat := 499

def errorResponse (status : Nat) (message : Message) (type : String := "invalid_request_error") : Response :=
  .error status ⟨message, type, some status⟩

-- `out.error or out.finish_reason`.
def StreamOutput.message (out : StreamOutput) : Message :=
  match out.error with
  | some c => .cause c
  | none => .reason out.finishReason

-- One `_sse` or `_collect` and the stream it reads. `numGot` counts the outputs it has got, `unsent` are the
-- events of the
-- last of them it has still to yield, `disconnected` is the place in the queue where the watcher put
-- `_DISCONNECTED`, and
-- `ended` says that `_end` has run.
structure Handler where
  fmt : Format
  stream : Bool
  includeUsage : Bool
  numGot : Nat := 0
  finished : Bool := false
  disconnected : Option Nat := none
  first : Bool := true
  events : List SseEvent := []
  unsent : List SseEvent := []
  parts : List String := []
  response : Option Response := none
  ended : Bool := false

namespace Handler

variable (h : Handler)

-- The events `_sse` yields for one output, before it calls `get` again or returns.
def sse (out : StreamOutput) : Handler :=
  if out.finishReason = some .abort ∨ out.finishReason = some .error then
    { h with unsent := h.unsent ++ [.error { message := out.message, type := "server_error" }, .done] }
  else
    let h :=
      if out.text ≠ "" ∨ (h.first ∧ out.finishReason = none) then
        { h with unsent := h.unsent ++ [.data (h.fmt.chunk out.text none h.first)], first := false }
      else h
    if out.finishReason = none then h
    else { h with
      unsent := h.unsent ++ [.data (h.fmt.chunk "" out.finishReason h.first)] ++
        (if h.includeUsage then [.data (h.fmt.usageChunk out)] else []) ++ [.done] }

def sent : Handler :=
  match h.unsent with
  | [] => h
  | e :: rest => { h with events := h.events ++ [e], unsent := rest }

def Idle : Prop := h.ended = false ∧ h.finished = false ∧ h.unsent = []

def collect (out : StreamOutput) : Handler :=
  let h := { h with parts := h.parts ++ [out.text] }
  if out.finishReason = none then h
  else
    let response :=
      if out.finishReason = some .abort then errorResponse 503 out.message "server_error"
      else if out.finishReason = some .error then errorResponse 500 out.message "server_error"
      else .json (h.fmt.complete (String.join h.parts) out)
    { h with response := some response, ended := true }

def got (out : StreamOutput) : Handler :=
  let h := { h with numGot := h.numGot + 1, finished := h.finished || out.finishReason.isSome }
  if h.stream then h.sse out else h.collect out

def dropped : Handler :=
  if h.stream then { h with ended := true } else { h with response := some (.empty clientClosed), ended := true }

end Handler

def Body.isChat : Body → Bool
  | .chat _ => true
  | .completion _ => false

structure StreamOptions where
  includeUsage : Bool := false

structure Post where
  body : Body
  model : Option String := none
  stream : Bool := false
  streamOptions : Option StreamOptions := none

structure App where
  modelName : String
  contextLen : Nat
  stopTokenIds : List Token

namespace App

variable (app : App)

-- `req.model or model_name`.
def model : Option String → String
  | none => app.modelName
  | some m => if m = "" then app.modelName else m

def handler (post : Post) (hex : String) (created : Nat) : Handler where
  fmt := ⟨post.body.isChat, app.model post.model, hex, created⟩
  stream := post.stream
  includeUsage := (post.streamOptions.map StreamOptions.includeUsage).getD false

end App

structure Http where
  sv : Serving
  handlers : Sid → Option Handler := fun _ => none

namespace Http

variable (x : Http)

def generate (app : App) (post : Post) (promptIds : List Token) (hex : String) (created : Nat) : Except Response Http :=
  match post.body.samplingParams promptIds.length app.contextLen app.stopTokenIds with
  | .error e => .error (errorResponse 400 (.protocol e))
  | .ok params =>
    match x.sv.srv.submit promptIds params with
    | none => .error (errorResponse 503 .engineStopped "server_error")
    | some srv =>
      .ok {
        sv := ⟨srv, x.sv.states⟩
        handlers := Function.update x.handlers x.sv.srv.numStreams (some (app.handler post hex created)) }

def put (s : Sid) (h : Handler) : Http := { x with handlers := Function.update x.handlers s (some h) }

def abort (s : Sid) : Http := { x with sv := ⟨x.sv.srv.abort s, x.sv.states⟩ }

def abortUnless (s : Sid) (finished : Bool) : Http := if finished then x else x.abort s

-- `_end`; the watcher is cancelled.
def close (s : Sid) (h : Handler) : Http := (x.abortUnless s h.finished).put s { h with ended := true }

-- `_watch_disconnect` has received the message.
def disconnect (s : Sid) (h : Handler) : Http :=
  (x.abortUnless s h.finished).put s { h with disconnected := some (x.sv.srv.outputs s).length }

def resume (s : Sid) (h : Handler) : Http := if h.ended then x.close s h else x.put s h

end Http

inductive Act where
  | serve (mv : Move)
  | generate (post : Post) (promptIds : List Token) (hex : String) (created : Nat)
  | got (s : Sid)
  | sent (s : Sid)
  | dropped (s : Sid)
  | disconnect (s : Sid)
  | close (s : Sid)

-- The routes are the only ones to submit and to abort; nothing calls `call`.
def Own : Move → Prop
  | .thread (.submit _ _) => False
  | .thread (.abort _) => False
  | .thread (.call _) => False
  | _ => True

-- A handler waits in `get` until the next item of its queue is there. It may be closed at any time, between two events
-- too, or never again be resumed; once its last event is sent it returns, which is to close as well.
inductive Acts (app : App) (model : Model) : Act → Http → Http → Prop
  | serve {x : Http} {mv : Move} {sv : Serving} (hown : Own mv) (h : Serves model mv x.sv sv) :
      Acts app model (.serve mv) x { x with sv }
  | generate {x x' : Http} {post : Post} {promptIds : List Token} {hex : String} {created : Nat}
      (h : x.generate app post promptIds hex created = .ok x') :
        Acts app model (.generate post promptIds hex created) x x'
  | got {x : Http} {s : Sid} {h : Handler} {out : StreamOutput} (hs : x.handlers s = some h) (hidle : h.Idle)
      (hd : h.disconnected ≠ some h.numGot) (hout : (x.sv.srv.outputs s)[h.numGot]? = some out) :
      Acts app model (.got s) x (x.resume s (h.got out))
  | sent {x : Http} {s : Sid} {h : Handler} (hs : x.handlers s = some h) (hrun : h.ended = false) (hu : h.unsent ≠ []) :
      Acts app model (.sent s) x (x.put s h.sent)
  | dropped {x : Http} {s : Sid} {h : Handler} (hs : x.handlers s = some h) (hidle : h.Idle)
      (hd : h.disconnected = some h.numGot) : Acts app model (.dropped s) x (x.resume s h.dropped)
  | disconnect {x : Http} {s : Sid} {h : Handler} (hs : x.handlers s = some h) (hrun : h.ended = false)
      (hd : h.disconnected = none) : Acts app model (.disconnect s) x (x.disconnect s h)
  | close {x : Http} {s : Sid} {h : Handler} (hs : x.handlers s = some h) (hrun : h.ended = false) :
      Acts app model (.close s) x (x.close s h)

namespace Http

abbrev start (c : EngineConfig) : Http := { sv := ⟨Server.start c, ∅⟩ }

def Run (app : App) (model : Model) (ok : Act → Prop) : Http → Http → Prop :=
  Relation.ReflTransGen fun x x' => ∃ act, ok act ∧ Acts app model act x x'

theorem Run.next {app : App} {model : Model} {ok : Act → Prop} {x x' x'' : Http} {act : Act} (h : Run app model ok x x')
    (ha : Acts app model act x' x'') (hok : ok act) : Run app model ok x x'' :=
  Relation.ReflTransGen.tail h ⟨act, hok, ha⟩

end Http

end Server

end MiniServe
