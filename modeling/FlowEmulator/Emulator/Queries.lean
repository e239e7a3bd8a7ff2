import FlowEmulator.Emulator.Blockchain

namespace flow_emulator.emulator

open flow_emulator.flowgo flow_emulator.types flow_emulator.storage

/-- `unicode.IsSpace`: the Latin-1 white space characters and those of Unicode's
`White_Space` property above Latin-1. -/
def IsSpace (c : Char) : Bool :=
  c.toNat ∈ [0x09, 0x0A, 0x0B, 0x0C, 0x0D, 0x20, 0x85, 0xA0, 0x1680, 0x2028, 0x2029, 0x202F,
    0x205F, 0x3000] || (0x2000 ≤ c.toNat && c.toNat ≤ 0x200A)

/-- `strings.TrimSpace`: the string without its leading and trailing white space. -/
def TrimSpace (s : String) : String :=
  ⟨((s.data.dropWhile IsSpace).reverse.dropWhile IsSpace).reverse⟩

/-- `validateEventType`. -/
def validateEventType (eventType : String) : Option EmulatorError :=
  if (TrimSpace eventType).isEmpty then some (.Errorf "invalid query: eventType must not be empty")
  else none

namespace Blockchain

variable (C : Collaborators)

/-- `GetBlockByID`. -/
def GetBlockByID (b : Blockchain) (fault : Option String) (id : Identifier) :
    Except EmulatorError (flowgo.Block × BlockStatus) :=
  match withFault fault (b.storage.BlockByID C.toHashing id) with
  | .ok block => .ok (block, .Sealed)
  | .error .ErrNotFound => .error (.BlockNotFoundByID id)
  | .error err => .error (.StorageError err)

/-- `GetCollectionByID`. -/
def GetCollectionByID (b : Blockchain) (fault : Option String) (colID : Identifier) :
    Except EmulatorError LightCollection :=
  match withFault fault (b.storage.CollectionByID C.toHashing colID) with
  | .ok col => .ok col
  | .error .ErrNotFound => .error (.CollectionNotFound colID)
  | .error err => .error (.StorageError err)

/-- `GetTransaction`: the pending block first, then storage. -/
def GetTransaction (b : Blockchain) (fault : Option String) (txID : Identifier) :
    Except EmulatorError TransactionBody :=
  match b.pendingBlock.GetTransaction C.toHashing txID with
  | some pendingTx => .ok pendingTx
  | none =>
    match withFault fault (b.storage.TransactionByID txID) with
    | .ok tx => .ok tx
    | .error .ErrNotFound => .error (.TransactionNotFound txID)
    | .error err => .error (.StorageError err)

/-- `GetTransactionResult`: `Pending` for a queued transaction, otherwise the sealed
result in storage, `Unknown` when there is none. -/
def GetTransactionResult (b : Blockchain) (fault : Option String) (txID : Identifier) :
    Except EmulatorError AccessTransactionResult :=
  if b.pendingBlock.ContainsTransaction C.toHashing txID then
    .ok ⟨.Pending, 0, "", [], ZeroID, 0⟩
  else
    match withFault fault (b.storage.TransactionResultByID txID) with
    | .error .ErrNotFound => .ok ⟨.Unknown, 0, "", [], ZeroID, 0⟩
    | .error err => .error (.StorageError err)
    | .ok storedResult =>
      .ok ⟨.Sealed, storedResult.ErrorCode, storedResult.ErrorMessage, storedResult.Events, txID, 0⟩

/-- The inner loop of the by-block queries: `lookup` on each transaction ID in order,
the `k`-th lookup meeting `faults k`, failing on the first failure. -/
def lookupTransactions {α : Type} (lookup : Option String → Identifier → Except EmulatorError α)
    (faults : Nat → Option String) : Nat → List Identifier → Except EmulatorError (List α)
  | _, [] => .ok []
  | k, txID :: txIDs =>
    match lookup (faults k) txID with
    | .error err => .error err
    | .ok item => (lookupTransactions lookup faults (k + 1) txIDs).map (item :: ·)

/-- The outer loop of the by-block queries: each collection looked up, then `lookup` on
each of its transaction IDs, the `k`-th storage lookup meeting `faults k`. -/
def lookupCollections {α : Type} (b : Blockchain)
    (lookup : Option String → Identifier → Except EmulatorError α) (faults : Nat → Option String) :
    Nat → List Identifier → Except EmulatorError (List α)
  | _, [] => .ok []
  | k, collectionID :: collectionIDs =>
    match b.GetCollectionByID C (faults k) collectionID with
    | .error err => .error err
    | .ok collection =>
      match lookupTransactions lookup faults (k + 1) collection.Transactions with
      | .error err => .error err
      | .ok items =>
        (lookupCollections b lookup faults (k + 1 + collection.Transactions.length) collectionIDs).map
          (items ++ ·)

/-- The body `GetTransactionsByBlockID` and `GetTransactionResultsByBlockID` share: the
block looked up by ID (a failure mapped to a `NotFound` or `Internal` status), then
`lookup` on every transaction of its collections, in order. -/
def lookupByBlockID {α : Type} (b : Blockchain)
    (lookup : Option String → Identifier → Except EmulatorError α) (faults : Nat → Option String)
    (id : Identifier) : Except EmulatorError (List α) :=
  match b.GetBlockByID C (faults 0) id with
  | .error err =>
    .error (if err.IsNotFound then .Status .NotFound (C.ErrorMessage err)
      else .Status .Internal (C.ErrorMessage err))
  | .ok (block, _) => b.lookupCollections C lookup faults 1 block.Guarantees

/-- `GetTransactionsByBlockID`. -/
def GetTransactionsByBlockID (b : Blockchain) (faults : Nat → Option String) (id : Identifier) :
    Except EmulatorError (List TransactionBody) :=
  b.lookupByBlockID C (b.GetTransaction C) faults id

/-- `GetTransactionResultsByBlockID`. -/
def GetTransactionResultsByBlockID (b : Blockchain) (faults : Nat → Option String)
    (id : Identifier) : Except EmulatorError (List AccessTransactionResult) :=
  b.lookupByBlockID C (b.GetTransactionResult C) faults id

/-- `GetTransactionResultByIndex`: the bound check compares with the length converted to
`uint32`. -/
def GetTransactionResultByIndex (b : Blockchain) (faults : Nat → Option String)
    (id : Identifier) (index : UInt32) : Except EmulatorError AccessTransactionResult :=
  match b.GetTransactionResultsByBlockID C faults id with
  | .error err => .error err
  | .ok results =>
    if UInt32.ofNat results.length ≤ index then
      .error (.Status .NotFound "TransactionResult not found")
    else
      match results[index.toNat]? with
      | some result => .ok result
      | none => .error (.Runtime .IndexOutOfRange)

/-- `getBlockByHeight`: a missing block is `BlockNotFoundByHeight`, any other storage
error passes through unwrapped. -/
def getBlockByHeight (b : Blockchain) (fault : Option String) (height : Nat) :
    Except EmulatorError flowgo.Block :=
  match withFault fault (b.storage.BlockByHeight height) with
  | .ok block => .ok block
  | .error .ErrNotFound => .error (.BlockNotFoundByHeight height)
  | .error err => .error (.Storage err)

/-- `GetBlockByHeight`. -/
def GetBlockByHeight (b : Blockchain) (fault : Option String) (height : Nat) :
    Except EmulatorError (flowgo.Block × BlockStatus) :=
  match b.getBlockByHeight fault height with
  | .error err => .error err
  | .ok block => .ok (block, .Sealed)

/-- `ExecuteScriptAtBlockHeight`: the script runs at the block found at `blockHeight`.
`executeScriptAtBlock` is the run of the script and its arguments at a block (a VM run
over the ledger committed at the block's height, its result converted). -/
def ExecuteScriptAtBlockHeight {α : Type} (b : Blockchain) (fault : Option String)
    (executeScriptAtBlock : flowgo.Block → Except EmulatorError α) (blockHeight : Nat) :
    Except EmulatorError α :=
  match b.getBlockByHeight fault blockHeight with
  | .error err => .error err
  | .ok requestedBlock => executeScriptAtBlock requestedBlock

/-- `GetEventsByHeight`: the storage answer, its errors unwrapped. -/
def GetEventsByHeight (b : Blockchain) (fault : Option String) (blockHeight : Nat)
    (eventType : String) : Except EmulatorError (List Event) :=
  match withFault fault (b.storage.EventsByHeight blockHeight eventType) with
  | .ok events => .ok events
  | .error err => .error (.Storage err)

/-- The loop of `GetEventsForBlockIDs`: each block looked up by ID, then its events by
its height, the `k`-th storage call meeting `faults k`. The entry's ID is
`block.Header.ID()`, which is the block's ID in flow-go. -/
def eventsForBlockIDs (b : Blockchain) (faults : Nat → Option String) (eventType : String) :
    Nat → List Identifier → Except EmulatorError (List BlockEvents)
  | _, [] => .ok []
  | k, blockID :: blockIDs =>
    match b.GetBlockByID C (faults k) blockID with
    | .error err => .error err
    | .ok (block, _) =>
      match b.GetEventsByHeight (faults (k + 1)) block.Header.Height eventType with
      | .error err => .error err
      | .ok events =>
        (eventsForBlockIDs b faults eventType (k + 2) blockIDs).map
          (⟨C.BlockID block, block.Header.Height, block.Header.Timestamp, events⟩ :: ·)

/-- `GetEventsForBlockIDs`. -/
def GetEventsForBlockIDs (b : Blockchain) (faults : Nat → Option String) (eventType : String)
    (blockIDs : List Identifier) : Except EmulatorError (List BlockEvents) :=
  match validateEventType eventType with
  | some err => .error err
  | none => b.eventsForBlockIDs C faults eventType 0 blockIDs

/-- The loop `for height := startHeight; height <= endHeight; height++` of
`GetEventsForHeightRange` over `uint64` heights, with `fuel` bounding the iterations and
`results` the entries so far; the lookups of the `k`-th iteration meet `faults (2k+1)`
and `faults (2k+2)`. `none` when the fuel runs out. -/
def eventsForHeights (b : Blockchain) (faults : Nat → Option String) (eventType : String)
    (endHeight : UInt64) : Nat → UInt64 → List BlockEvents →
      Option (Except EmulatorError (List BlockEvents))
  | 0, _, _ => none
  | fuel + 1, height, results =>
    if height ≤ endHeight then
      match b.GetBlockByHeight (faults (2 * results.length + 1)) height.toNat with
      | .error err => some (.error err)
      | .ok (block, _) =>
        match b.GetEventsByHeight (faults (2 * results.length + 2)) height.toNat eventType with
        | .error err => some (.error err)
        | .ok events =>
          eventsForHeights b faults eventType endHeight fuel (height + 1)
            (results ++ [⟨C.BlockID block, block.Header.Height, block.Header.Timestamp, events⟩])
    else some (.ok results)

/-- `GetEventsForHeightRange`, `none` when its loop does not stop. The loop runs at most
once per `uint64` value before it stops, unless the end height is the largest `uint64`:
every height then passes the bound and `height++` wraps to 0. The fuel, one more than
the number of `uint64` values, runs out only then. -/
def GetEventsForHeightRange (b : Blockchain) (faults : Nat → Option String) (eventType : String)
    (startHeight endHeight : UInt64) : Option (Except EmulatorError (List BlockEvents)) :=
  match validateEventType eventType with
  | some err => some (.error err)
  | none =>
    match b.GetLatestBlock (faults 0) with
    | .error err => some (.error err)
    | .ok latestBlock =>
      let latestHeight : UInt64 := UInt64.ofNat latestBlock.Header.Height
      let endHeight := if endHeight = 0 ∨ endHeight > latestHeight then latestHeight else endHeight
      if startHeight > endHeight then some (.error (.InvalidArgument "startHeight > endHeight"))
      else b.eventsForHeights C faults eventType endHeight (UInt64.size + 1) startHeight []

end Blockchain

end flow_emulator.emulator
