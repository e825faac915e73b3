import MiniServe.Engine.Scheduler

namespace MiniServe

abbrev Device := Int → Option (Token × Nat)

structure Model where
  next : List (Option (Token × Nat)) → SamplingParams → Nat → Nat → Token
  next_nonneg : ∀ h p seed pos, 0 ≤ next h p seed pos

-- The sampler returns indices of an int64 tensor.
def Model.Long (model : Model) : Prop := ∀ h p seed pos, IsLong (model.next h p seed pos)

structure Launched where
  batch : Batch
  tokens : List Token
  slots : List (Option Nat)

namespace Launched

variable (L : Launched)

def rowTokens : List (Rid × Token) := (L.batch.rows.map Row.rid).zip L.tokens

def lookup (r : Rid) : Except Error Token :=
  match L.rowTokens.reverse.lookup r with
  | none => .error (.missingRow r)
  | some tok => .ok tok

def entries : List (Rid × Token × Option Nat) := (L.batch.rows.map Row.rid).zip (L.tokens.zip L.slots)

end Launched

namespace ModelRunner

section Inputs

variable (s : Scheduler)

def rowIds (row : Row) : List Token := (s.reqs row.rid).tokenSlice row.start row.len

def rowPositions (row : Row) : List Nat := List.range' row.start row.len

def fillInputs (prev : Launched) : List Row → List Token → Except Error (List Token)
  | row :: rows, id :: ids =>
    match (if id = placeholder then prev.lookup row.rid else .ok id) with
    | .error e => .error e
    | .ok tok =>
      match fillInputs prev rows ids with
      | .error e => .error e
      | .ok rest => .ok (tok :: rest)
  | _, ids => .ok ids

def fillRows (batch : Batch) (ids : List Token) (prev : Option Launched) : Except Error (List Token) :=
  let dst := (ids.take batch.numDecode).count placeholder
  if dst ≠ ids.count placeholder then .error .placeholderOutsideDecode
  else if dst = 0 then .ok ids
  else
    match prev with
    | none => .error .placeholderWithoutPrevious
    | some prev => fillInputs prev (batch.rows.take batch.numDecode) ids

def startsAgree (rows : List Row) : Prop :=
    ∀ row ∈ rows, (s.reqs row.rid).cache.map BlockTable.numTokens = some row.start

instance (rows : List Row) : Decidable (startsAgree s rows) := inferInstanceAs (Decidable (∀ _ ∈ _, _))

end Inputs

section Reserve

def rowNeed (s : Scheduler) (row : Row) : Except Error Int :=
  match (s.reqs row.rid).cache with
  | none => .error (.noCache row.rid)
  | some table => table.blocksNeeded s.kv.blockSize row.len

def rowsNeed (s : Scheduler) : List Row → Except Error Int
  | [] => .ok 0
  | row :: rows =>
    match rowNeed s row with
    | .error e => .error e
    | .ok n =>
      match rowsNeed s rows with
      | .error e => .error e
      | .ok m => .ok (n + m)

def appendRow (s : Scheduler) (row : Row) : Except Error Scheduler :=
  match (s.reqs row.rid).cache with
  | none => .error (.noCache row.rid)
  | some table =>
    match table.appendTokens s.kv.allocator row.len with
    | (.error e, _) => .error e
    | (.ok _, table, a) =>
      .ok (s.put row.rid ({ s.kv with allocator := a }, { s.reqs row.rid with cache := some table }))

def appendRows : List Row → Scheduler → Except Error Scheduler
  | [], s => .ok s
  | row :: rows, s =>
    match appendRow s row with
    | .error e => .error e
    | .ok s => appendRows rows s

def reserve (s : Scheduler) (rows : List Row) : Except Error Unit × Scheduler :=
  match rowsNeed s rows with
  | .error e => (.error e, s)
  | .ok need =>
    match s.kv.reserve need with
    | (.error e, kv) => (.error e, { s with kv := kv })
    | (.ok (), kv) =>
      match appendRows rows { s with kv := kv } with
      | .error e => (.error e, { s with kv := kv })
      | .ok s => (.ok (), s)

def rowSlots (s : Scheduler) : List Row → Except Error (List Int)
  | [] => .ok []
  | row :: rows =>
    match (s.reqs row.rid).cache with
    | none => .error (.noCache row.rid)
    | some table =>
      match table.tailSlots s.kv.blockSize row.len with
      | .error e => .error e
      | .ok slots =>
        match rowSlots s rows with
        | .error e => .error e
        | .ok rest => .ok (slots ++ rest)

end Reserve

section Forward

def write (d : Device) : List (Int × Token × Nat) → Device
  | [] => d
  | (slot, cell) :: rest => write (Function.update d slot (some cell)) rest

def history (d : Device) (bs : Nat) (table : BlockTable) : List (Option (Token × Nat)) :=
  (List.range table.numTokens).map fun p => d (table.slotAt bs p)

def sampleRow (model : Model) (s : Scheduler) (d : Device) (row : Row) : Token :=
  let r := s.reqs row.rid
  model.next (history d s.kv.blockSize (r.cache.getD .empty)) r.params r.seed r.seqLen

structure Pass where
  scheduler : Scheduler
  device : Device
  tokens : List Token

def forward (model : Model) (s : Scheduler) (d : Device) (batch : Batch) (prev : Option Launched) :
    Except Error Pass :=
  let raw := batch.rows.flatMap (rowIds s)
  match fillRows batch raw prev with
  | .error e => .error e
  | .ok ids =>
    if ¬ startsAgree s batch.rows then .error .startsDisagree
    else
      match reserve s batch.rows with
      | (.error e, _) => .error e
      | (.ok (), s) =>
        match rowSlots s batch.rows with
        | .error e => .error e
        | .ok slots =>
          -- `to_device(ids, torch.long)`, before the placeholders are replaced on the device
          if ∃ id ∈ raw, ¬ IsLong id then .error .longOverflow
          else
            let d := write d (slots.zip (ids.zip (batch.rows.flatMap rowPositions)))
            .ok ⟨s, d, batch.rows.map (sampleRow model s d)⟩

-- What a pass that raises leaves behind: the tables are extended before the ids are copied.
def raisedIn (s : Scheduler) (batch : Batch) (prev : Option Launched) : Scheduler :=
  match fillRows batch (batch.rows.flatMap (rowIds s)) prev with
  | .error _ => s
  | .ok _ => if startsAgree s batch.rows then (reserve s batch.rows).2 else s

end Forward

end ModelRunner

end MiniServe
