import MiniServe.Engine.Pool

namespace MiniServe

structure DraftModel where
  next : List (Option (Token × Nat)) → Token

structure Feed where
  rid : Rid
  ids : List Token
  start : Nat
  deriving DecidableEq, Repr

-- `firstGraphs` is the largest batch of the graphs of width two, when they were captured. `packed` records the
-- tables of every pass, in the order they were handed to the planner, and is read by nothing.
structure DraftRunner where
  allocator : BlockAllocator
  maxPrefillTokens : Nat
  firstGraphs : Option Nat
  tables : Rid → Option BlockTable := fun _ => none
  device : Device := fun _ => none
  packed : List BlockTable := []

namespace DraftRunner

variable (d : DraftRunner)

section Requests

def put (r : Rid) (t : Option BlockTable) (a : BlockAllocator) : DraftRunner :=
  { d with tables := Function.update d.tables r t, allocator := a }

def admitRid (r : Rid) : Except Error DraftRunner :=
  match d.tables r with
  | some _ => .error (.draftCacheHeld r)
  | none => .ok (d.put r (some .empty) d.allocator)

def release (r : Rid) : Except Error DraftRunner :=
  match d.tables r with
  | none => .ok d
  | some t =>
    match t.release d.allocator with
    | (.error e, _) => .error e
    | (.ok (), _, a) => .ok (d.put r none a)

def table (r : Rid) : Except Error BlockTable :=
  match d.tables r with
  | none => .error (.missingRequest r)
  | some t => .ok t

def covered (r : Rid) : Except Error Nat :=
  match d.table r with
  | .error e => .error e
  | .ok t => .ok t.numTokens

def rewindTo (r : Rid) (numTokens : Nat) : Except Error DraftRunner :=
  match d.table r with
  | .error e => .error e
  | .ok t =>
    if numTokens < t.numTokens then
      match t.rewind ((t.numTokens : Int) - numTokens) with
      | (.error e, _) => .error e
      | (.ok (), t) => .ok (d.put r (some t) d.allocator)
    else .ok d

end Requests

section Passes

def appendFeed (f : Feed) : Except Error DraftRunner :=
  match d.table f.rid with
  | .error e => .error e
  | .ok t =>
    match t.appendTokens d.allocator f.ids.length with
    | (.error e, _) => .error e
    | (.ok _, t, a) => .ok (d.put f.rid (some t) a)

def appendFeeds : List Feed → DraftRunner → Except Error DraftRunner
  | [], d => .ok d
  | f :: feeds, d =>
    match d.appendFeed f with
    | .error e => .error e
    | .ok d => appendFeeds feeds d

def feedSlots : List Feed → Except Error (List Int)
  | [] => .ok []
  | f :: feeds =>
    match d.table f.rid with
    | .error e => .error e
    | .ok t =>
      match t.tailSlots d.allocator.blockSize f.ids.length with
      | .error e => .error e
      | .ok slots =>
        match feedSlots feeds with
        | .error e => .error e
        | .ok rest => .ok (slots ++ rest)

def feedPositions (f : Feed) : List Nat := List.range' f.start f.ids.length

def tableOf (r : Rid) : BlockTable := (d.tables r).getD .empty

def run (model : DraftModel) (feeds : List Feed) (slots : List Int) : List Token × DraftRunner :=
  let tables := feeds.map fun f => d.tableOf f.rid
  let device := ModelRunner.write d.device (slots.zip ((feeds.flatMap Feed.ids).zip (feeds.flatMap feedPositions)))
  (tables.map fun t => model.next (ModelRunner.history device d.allocator.blockSize t),
    { d with device := device, packed := d.packed ++ tables })

def advance (feeds : List Feed) : Except Error (List Int × DraftRunner) :=
  match appendFeeds feeds d with
  | .error e => .error e
  | .ok d =>
    match d.feedSlots feeds with
    | .error e => .error e
    | .ok slots => .ok (slots, d)

def extend (model : DraftModel) (feeds : List Feed) : Except Error (List Token × DraftRunner) :=
  match d.advance feeds with
  | .error e => .error e
  | .ok (slots, d) =>
    if ∃ id ∈ feeds.flatMap Feed.ids, ¬ IsLong id then .error .longOverflow else .ok (d.run model feeds slots)

-- The tokens of a single-token step never leave the device, so nothing is converted.
def decode (model : DraftModel) (rids : List Rid) (tokens : List Token) (pos : List Nat) :
    Except Error (List Token × DraftRunner) :=
  let feeds := (rids.zip (tokens.zip pos)).map fun x => ⟨x.1, [x.2.1], x.2.2⟩
  match d.advance feeds with
  | .error e => .error e
  | .ok (slots, d) => .ok (d.run model feeds slots)

end Passes

section Prefill

structure Filling where
  rows : List Feed := []
  used : Nat := 0

def flush (model : DraftModel) (m : Filling) : Except Error (Filling × DraftRunner) :=
  if m.used = d.maxPrefillTokens then
    match d.extend model m.rows with
    | .error e => .error e
    | .ok (_, d) => .ok ({}, d)
  else .ok (m, d)

-- The chunks of one request; every turn takes a token at least, so `fuel` is the number of tokens.
def prefillItem (model : DraftModel) (r : Rid) : Nat → List Token → Nat → Filling → DraftRunner →
    Except Error (Filling × DraftRunner)
  | 0, _, _, m, d => .ok (m, d)
  | fuel + 1, ids, start, m, d =>
    if ids = [] then .ok (m, d)
    else
      match d.flush model m with
      | .error e => .error e
      | .ok (m, d) =>
        let n := min ids.length (d.maxPrefillTokens - m.used)
        prefillItem model r fuel (ids.drop n) (start + n) ⟨m.rows ++ [⟨r, ids.take n, start⟩], m.used + n⟩ d

def prefillItems (model : DraftModel) : List (Rid × List Token) → Filling → DraftRunner →
    Except Error (Filling × DraftRunner)
  | [], m, d => .ok (m, d)
  | (r, ids) :: rest, m, d =>
    match d.table r with
    | .error e => .error e
    | .ok t =>
      if t.numTokens ≠ 0 then .error (.draftTokensHeld r t.numTokens)
      else
        match prefillItem model r ids.length ids 0 m d with
        | .error e => .error e
        | .ok (m, d) => prefillItems model rest m d

def prefill (model : DraftModel) (items : List (Rid × List Token)) : Except Error DraftRunner :=
  match prefillItems model items {} d with
  | .error e => .error e
  | .ok (m, d) =>
    if m.rows = [] then .ok d
    else
      match d.extend model m.rows with
      | .error e => .error e
      | .ok (_, d) => .ok d

end Prefill

section Round

-- The single-token steps; a column holds one proposal of every request.
def decodeSteps (model : DraftModel) (rids : List Rid) : Nat → List Token → List Nat → DraftRunner →
    Except Error (List (List Token) × DraftRunner)
  | 0, _, _, d => .ok ([], d)
  | n + 1, tokens, pos, d =>
    match d.decode model rids tokens pos with
    | .error e => .error e
    | .ok (next, d) =>
      match decodeSteps model rids n next (pos.map (· + 1)) d with
      | .error e => .error e
      | .ok (columns, d) => .ok (next :: columns, d)

def propose (model : DraftModel) (feeds : List Feed) (gamma : Nat) : Except Error (List (List Token) × DraftRunner) :=
  match d.extend model feeds with
  | .error e => .error e
  | .ok (first, d) =>
    match decodeSteps model (feeds.map Feed.rid) (gamma - 1) first (feeds.map fun f => f.start + f.ids.length) d with
    | .error e => .error e
    | .ok (columns, d) => .ok (first :: columns, d)

end Round

end DraftRunner

end MiniServe
