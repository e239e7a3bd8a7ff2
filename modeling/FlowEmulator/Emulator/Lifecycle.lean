import FlowEmulator.Emulator.Blockchain

namespace flow_emulator.emulator

open flow_emulator.flowgo flow_emulator.types flow_emulator.storage

/-- `flowgo.Genesis`: the root block, at height 0 with no parent and no payload. -/
def Genesis (C : Collaborators) : Block := ⟨⟨0, 0, ZeroID, C.GenesisTime⟩, []⟩

/-- `convertToSealedResults`: every recorded procedure made storable, failing on the
first conversion that fails. -/
def convertToSealedResults (C : Collaborators) :
    List (Identifier × IndexedTransactionResult) →
      Except EmulatorError (List (Identifier × StorableTransactionResult))
  | [] => .ok []
  | (id, result) :: results =>
    match C.ToStorableResult result.Transaction with
    | .error err => .error (.Convert err)
    | .ok temp => (convertToSealedResults C results).map ((id, temp) :: ·)

/-- `sdk.EventAccountCreated`. -/
def EventAccountCreated : String := "flow.AccountCreated"

/-- The event loop of `CreateAccount`: the address in the first field of the first
`AccountCreated` event, read by a type assertion; the zero address when there is none. -/
def accountCreatedAddress : List Event → Except EmulatorError Address
  | [] => .ok 0
  | event :: events =>
    if event.EventType = EventAccountCreated then
      match event.Fields with
      | [] => .error (.Runtime .IndexOutOfRange)
      | .Address address :: _ => .ok address
      | _ :: _ => .error (.Runtime .FailedTypeAssertion)
    else accountCreatedAddress events

namespace Blockchain

variable (C : Collaborators)

/-- `commitBlock`: seals the pending block into storage as the next block and starts a
fresh pending block on top of it. -/
def commitBlock (env : Environment) (b : Blockchain) : Except EmulatorError Block × Blockchain :=
  if !b.pendingBlock.ExecutionStarted && !b.pendingBlock.Empty then
    (.error (.PendingBlockCommitBeforeExecution (b.pendingBlock.ID C.toHashing)), b)
  else if b.pendingBlock.ExecutionStarted && !b.pendingBlock.ExecutionComplete then
    (.error (.PendingBlockMidExecution (b.pendingBlock.ID C.toHashing)), b)
  else
    let block := b.pendingBlock.Block C.toHashing
    match convertToSealedResults C b.pendingBlock.TransactionResults with
    | .error err => (.error err, b)
    | .ok transactionResults =>
      match b.storage.CommitBlock ((env.storageFault 0).map .Other) block
          (b.pendingBlock.Collections C.toHashing) (b.pendingBlock.Transactions C.toHashing)
          transactionResults b.pendingBlock.LedgerDelta b.pendingBlock.Events with
      | .error err => (.error (.Storage err), b)
      | .ok storage =>
        let ledgerView := storage.LedgerViewByHeight block.Header.Height
        (.ok block,
          { b with storage,
                   pendingBlock := newPendingBlock C.toHashing block ledgerView env.viewIncrease env.now })

/-- `CommitBlock`, under the lock. -/
def CommitBlock (env : Environment) (b : Blockchain) : Except EmulatorError Block × Blockchain :=
  b.commitBlock C env

/-- `executeAndCommitBlock`: the block (if committed), the results of `ExecuteBlock`
and the first error. -/
def executeAndCommitBlock (env : Environment) (b : Blockchain) :
    (Option Block × List TransactionResult × Option EmulatorError) × Blockchain :=
  match b.ExecuteBlock C env with
  | (_, some err, b) => ((none, [], some err), b)
  | (results, none, b) =>
    match b.commitBlock C env with
    | (.error err, b) => ((none, results, some err), b)
    | (.ok block, b) => ((some block, results, none), b)

/-- `ExecuteAndCommitBlock`, under the lock. -/
def ExecuteAndCommitBlock (env : Environment) (b : Blockchain) :
    (Option Block × List TransactionResult × Option EmulatorError) × Blockchain :=
  b.executeAndCommitBlock C env

/-- `ResetPendingBlock`: a fresh pending block on the latest committed block. -/
def ResetPendingBlock (env : Environment) (b : Blockchain) : Option EmulatorError × Blockchain :=
  match withFault (env.storageFault 0) b.storage.LatestBlock with
  | .error err => (some (.StorageError err), b)
  | .ok latestBlock =>
    let latestLedgerView := b.storage.LedgerViewByHeight latestBlock.Header.Height
    (none, { b with
      pendingBlock := newPendingBlock C.toHashing latestBlock latestLedgerView env.viewIncrease env.now })

/-- The error `SendTransaction` reports for a failed `AddTransaction`. -/
def sendTransactionError (err : EmulatorError) : EmulatorError :=
  match err with
  | .DuplicateTransaction _ => .InvalidArgument (C.ErrorMessage err)
  | .FlowError flowError =>
    if flowError.Codes.head? ∈ [some .ErrCodeAccountAuthorizationError,
        some .ErrCodeInvalidEnvelopeSignatureError, some .ErrCodeInvalidPayloadSignatureError,
        some .ErrCodeInvalidProposalSignatureError, some .ErrCodeAccountPublicKeyNotFoundError,
        some .ErrCodeInvalidProposalSeqNumberError, some .ErrCodeInvalidAddressError] then
      .InvalidArgument (C.ErrorMessage err)
    else if IsAccountNotFoundError flowError then .InvalidArgument (C.ErrorMessage err)
    else .Internal (C.ErrorMessage err)
  | _ => .Internal (C.ErrorMessage err)

/-- `SendTransaction`: admits the transaction and, with auto-mine on, executes and
commits the pending block at once. -/
def SendTransaction (env : Environment) (b : Blockchain) (tx : TransactionBody) :
    Option EmulatorError × Blockchain :=
  match b.AddTransaction C env tx with
  | (some err, b) => (some (sendTransactionError C err), b)
  | (none, b) =>
    if b.autoMine then
      match b.executeAndCommitBlock C (env.shiftStorage 1) with
      | ((_, _, some err), b) => (some err, b)
      | ((_, _, none), b) => (none, b)
    else (none, b)

/-- `CreateAccount`: submits a service-account transaction creating an account, executes
and commits it, commits once more, and reads the new address from its events. -/
def CreateAccount (env : Environment) (b : Blockchain) (publicKeys : List AccountKey)
    (contracts : List Contract) : Except EmulatorError Address × Blockchain :=
  match b.ServiceKey C (env.storageFault 0) with
  | (.error err, b) => (.error err, b)
  | (.ok serviceKey, b) =>
    let serviceAddress := serviceKey.Address
    match b.GetLatestBlock (env.storageFault 1) with
    | .error err => (.error err, b)
    | .ok latestBlock =>
      match C.CreateAccountTemplate publicKeys contracts serviceAddress with
      | .error err => (.error (.Errorf err), b)
      | .ok tx =>
        let tx := { tx with
          GasLimit := C.DefaultMaxTransactionGasLimit
          ReferenceBlockID := C.BlockID latestBlock
          ProposalKey := ⟨serviceAddress, serviceKey.Index, serviceKey.SequenceNumber⟩
          Payer := serviceAddress }
        match C.SignEnvelope tx serviceAddress serviceKey.Index serviceKey with
        | .error err => (.error (.Errorf err), b)
        | .ok tx =>
          match b.AddTransaction C (env.shiftStorage 2) tx with
          | (some err, b) => (.error err, b)
          | (none, b) =>
            match b.executeAndCommitBlock C (env.shiftStorage 3) with
            | ((_, _, some err), b) => (.error err, b)
            | ((_, results, none), b) =>
              match results.getLast? with
              | none => (.error (.Runtime .IndexOutOfRange), b)
              | some lastResult =>
                match b.commitBlock C (env.shiftStorage 4) with
                | (.error err, b) => (.error err, b)
                | (.ok _, b) =>
                  match lastResult.Error with
                  | some err => (.error (.FlowError err), b)
                  | none =>
                    match accountCreatedAddress lastResult.Events with
                    | .error err => (.error err, b)
                    | .ok address =>
                      if address = 0 then (.error (.Errorf "failed to find AccountCreated event"), b)
                      else (.ok address, b)

def EnableAutoMine (b : Blockchain) : Blockchain := { b with autoMine := true }

def DisableAutoMine (b : Blockchain) : Blockchain := { b with autoMine := false }

end Blockchain

/-- `configureNewLedger`: bootstraps the genesis state on an empty store and commits the
genesis block. -/
def configureNewLedger (C : Collaborators) (env : Environment) (store : Store) :
    Except EmulatorError (Block × View × Store) :=
  let genesisLedgerView := store.LedgerViewByHeight 0
  let bootstrap := vmRun C ⟨none⟩ .Bootstrap genesisLedgerView.read (env.vmFault 0)
  match bootstrap.result with
  | .error err => .error (.VM err)
  | .ok _ =>
    let genesisLedgerView := genesisLedgerView.write bootstrap.writes
    match store.CommitBlock ((env.storageFault 1).map .Other) (Genesis C) [] [] []
        genesisLedgerView.delta [] with
    | .error err => .error (.Storage err)
    | .ok store => .ok (Genesis C, store.LedgerViewByHeight 0, store)

/-- `configureLedger`: resumes from the latest stored block, or bootstraps when storage
holds no block. -/
def configureLedger (C : Collaborators) (env : Environment) (store : Store) :
    Except EmulatorError (Block × View × Store) :=
  match withFault (env.storageFault 0) store.LatestBlock with
  | .ok latestBlock => .ok (latestBlock, store.LedgerViewByHeight latestBlock.Header.Height, store)
  | .error .ErrNotFound => configureNewLedger C (env.shiftStorage 1) store
  | .error err => .error (.Storage err)

/-- `NewBlockchain` over a given store, with the configured service key. -/
def NewBlockchain (C : Collaborators) (env : Environment) (store : Store)
    (serviceKey : ServiceKey) : Except EmulatorError Blockchain :=
  match configureLedger C env store with
  | .error err => .error err
  | .ok (latestBlock, latestLedgerView, store) =>
    .ok { storage := store
          pendingBlock := newPendingBlock C.toHashing latestBlock latestLedgerView
            env.viewIncrease env.now
          serviceKey
          autoMine := false }

end flow_emulator.emulator

namespace flow_emulator.contracts

open flow_emulator.flowgo flow_emulator.types flow_emulator.emulator

end flow_emulator.contracts
