import FlowEmulator.Emulator.PendingBlock

namespace flow_emulator.emulator

open flow_emulator.flowgo flow_emulator.types flow_emulator.storage

/-- `sdk.AccountKey`, as `CreateAccount` receives it. -/
structure AccountKey where
  PublicKey : PublicKey
  HashAlgo : HashingAlgorithm
  Weight : Nat
  deriving DecidableEq, Repr

/-- `templates.Contract`. -/
structure Contract where
  Name : String
  Source : String
  deriving DecidableEq, Repr

/-- `ServiceKey`: the service account's key as the emulator caches it. -/
structure ServiceKey where
  Index : Nat
  Address : Address
  SequenceNumber : Nat
  PrivateKey : Option Nat
  HashAlgo : HashingAlgorithm
  Weight : Nat
  deriving DecidableEq, Repr

/-- The components the emulator calls into, fixed for the lifetime of a `Blockchain`:
flow-go's content hashes, the VM (`Run` and `GetAccount` of `fvm.VirtualMachine` under
the blockchain's `vmCtx`), the transaction validator with `convertAccessError`, the
`convert` package, the signature check and templates `CreateAccount` uses, and the
constants and error texts of packages absent from the sources. -/
structure Collaborators extends Hashing where
  Run : Context → Procedure → Ledger → VMRun
  GetAccount : Address → Ledger → Except CodedError Account
  Validate : Store → TransactionBody → Option String
  convertAccessError : String → EmulatorError
  VMTransactionResultToEmulator : TransactionProcedure → Except String TransactionResult
  ToStorableResult : TransactionProcedure → Except String StorableTransactionResult
  Verify : PublicKey → Bytes → Bytes → HashingAlgorithm → Bool
  EnvelopeMessage : TransactionBody → Bytes
  PayloadMessage : TransactionBody → Bytes
  CreateAccountTemplate : List AccountKey → List Contract → Address → Except String TransactionBody
  SignEnvelope : TransactionBody → Address → Nat → ServiceKey → Except String TransactionBody
  ErrorMessage : EmulatorError → String
  GenesisTime : Nat
  DefaultMaxTransactionGasLimit : Nat

/-- What the outside world answers during one call: the clock and the random view
increase read by a new pending block, and the I/O failures of the `k`-th storage call
and of the `k`-th VM run the call makes (a failed run may have written to its view). -/
structure Environment where
  now : Nat
  viewIncrease : Nat
  storageFault : Nat → Option String
  vmFault : Nat → Option (Delta × FatalError)

/-- The environment seen by a nested call made after `n` storage calls. -/
def Environment.shiftStorage (env : Environment) (n : Nat) : Environment :=
  { env with storageFault := fun k => env.storageFault (k + n) }

/-- A storage call answering from the backend's contents unless it fails with an I/O
error. -/
def withFault {α : Type} (fault : Option String) (answer : Except StorageError α) :
    Except StorageError α :=
  match fault with
  | some message => .error (.Other message)
  | none => answer

/-- A VM run, unless the environment makes it fail with a ledger I/O error after some
writes. -/
def vmRun (C : Collaborators) (ctx : Context) (proc : Procedure) (ledger : Ledger)
    (fault : Option (Delta × FatalError)) : VMRun :=
  match fault with
  | some (writes, err) => ⟨writes, .error err⟩
  | none => C.Run ctx proc ledger

/-- `Blockchain`: the committed chain in storage, the one pending block, the cached
service key and the auto-mine switch. -/
structure Blockchain where
  storage : Store
  pendingBlock : PendingBlock
  serviceKey : ServiceKey
  autoMine : Bool

namespace Blockchain

variable (C : Collaborators)

def newFVMContextFromHeader (header : Header) : Context := ⟨some header⟩

def GetLatestBlock (b : Blockchain) (fault : Option String) : Except EmulatorError flowgo.Block :=
  match withFault fault b.storage.LatestBlock with
  | .ok block => .ok block
  | .error err => .error (.StorageError err)

/-- `fvmerrors.IsAccountNotFoundError`. -/
def IsAccountNotFoundError (err : CodedError) : Bool :=
  HasErrorCode err .ErrCodeAccountNotFoundError

/-- `GetAccountAtBlockHeight`; `none` is the nil account it returns with a nil error
when the VM lookup fails for another reason than a missing account. -/
def GetAccountAtBlockHeight (b : Blockchain) (address : Address) (blockHeight : Nat) :
    Except EmulatorError (Option Account) :=
  match C.GetAccount address (b.storage.LedgerViewByHeight blockHeight).read with
  | .error err => if IsAccountNotFoundError err then .error (.AccountNotFound address) else .ok none
  | .ok account => .ok (some account)

def GetAccount (b : Blockchain) (fault : Option String) (address : Address) :
    Except EmulatorError (Option Account) :=
  match b.GetLatestBlock fault with
  | .error err => .error err
  | .ok latestBlock => b.GetAccountAtBlockHeight C address latestBlock.Header.Height

/-- `GetAccountUnsafe`, kept for the debugger: the same reads as `GetAccount`. -/
def GetAccountUnsafe (b : Blockchain) (fault : Option String) (address : Address) :
    Except EmulatorError (Option Account) :=
  match b.GetLatestBlock fault with
  | .error err => .error err
  | .ok latestBlock => b.GetAccountAtBlockHeight C address latestBlock.Header.Height

/-- `ServiceKey`: refreshes the cached key from the service account's first key. -/
def ServiceKey (b : Blockchain) (fault : Option String) :
    Except EmulatorError emulator.ServiceKey × Blockchain :=
  match b.GetAccount C fault b.serviceKey.Address with
  | .error _ => (.ok b.serviceKey, b)
  | .ok none => (.error (.Runtime .NilPointerDereference), b)
  | .ok (some serviceAccount) =>
    match serviceAccount.Keys with
    | [] => (.ok b.serviceKey, b)
    | key :: _ =>
      let serviceKey := { b.serviceKey with
        Index := 0, SequenceNumber := key.SeqNumber, Weight := key.Weight }
      (.ok serviceKey, { b with serviceKey })

/-- `testAlternativeHashAlgo`: checks the signature against the other hash algorithm of
the key the signature names, read as `acc.Keys[sig.KeyIndex]`. -/
def testAlternativeHashAlgo (b : Blockchain) (sig : TransactionSignature) (msg : Bytes) :
    Except EmulatorError (Option TransactionResultDebug) :=
  match b.GetAccount C none sig.Address with
  | .error _ => .ok none
  | .ok none => .error (.Runtime .NilPointerDereference)
  | .ok (some acc) =>
    match acc.Keys[sig.KeyIndex]? with
    | none => .error (.Runtime .IndexOutOfRange)
    | some key =>
      .ok ((([HashingAlgorithm.SHA2_256, .SHA3_256].filter (· ≠ key.HashAlgo)).find?
        fun algo => C.Verify key.PublicKey sig.Signature msg algo).map
          fun algo => .InvalidHashAlgo key acc.Address algo)

/-- The loop of `debugSignatureError` over one list of signatures: the first debug
result any of them yields. -/
def firstAlternativeHashAlgo (b : Blockchain) (msg : Bytes) :
    List TransactionSignature → Except EmulatorError (Option TransactionResultDebug)
  | [] => .ok none
  | sig :: sigs =>
    match b.testAlternativeHashAlgo C sig msg with
    | .error err => .error err
    | .ok (some debug) => .ok (some debug)
    | .ok none => firstAlternativeHashAlgo b msg sigs

/-- `debugSignatureError`. -/
def debugSignatureError (b : Blockchain) (err : CodedError) (tx : TransactionBody) :
    Except EmulatorError TransactionResultDebug :=
  let envelope := if HasErrorCode err .ErrCodeInvalidEnvelopeSignatureError
    then b.firstAlternativeHashAlgo C (C.EnvelopeMessage tx) tx.EnvelopeSignatures else .ok none
  match envelope with
  | .error e => .error e
  | .ok (some debug) => .ok debug
  | .ok none =>
    let payload := if HasErrorCode err .ErrCodeInvalidPayloadSignatureError
      then b.firstAlternativeHashAlgo C (C.PayloadMessage tx) tx.PayloadSignatures else .ok none
    match payload with
    | .error e => .error e
    | .ok (some debug) => .ok debug
    | .ok none => .ok (.InvalidSignature tx)

/-- The closure `executeNextTransaction` hands the pending block: run
`fvm.Transaction(txBody, txIndex)` on the view, failing on a fatal VM error. -/
def runTransaction (ctx : Context) (fault : Option (Delta × FatalError)) (ledgerView : View)
    (txIndex : UInt32) (txBody : TransactionBody) :
    View × Except EmulatorError TransactionProcedure :=
  let run := vmRun C ctx (.Transaction txBody txIndex) ledgerView.read fault
  (ledgerView.write run.writes,
    match run.result with
    | .error err => .error (.VM err)
    | .ok out => .ok (TransactionProcedure.ofOutput txBody txIndex out))

/-- The tail of `executeNextTransaction`: the procedure converted into a
`TransactionResult`, with signature debugging attached when the transaction failed. -/
def transactionResultOf (b : Blockchain) (tp : TransactionProcedure) :
    Except EmulatorError TransactionResult :=
  match C.VMTransactionResultToEmulator tp with
  | .error err => .error (.Convert err)
  | .ok tr =>
    match tr.Error with
    | none => .ok tr
    | some err =>
      (b.debugSignatureError C err tp.Transaction).map fun debug => { tr with Debug := some debug }

/-- `executeNextTransaction`. -/
def executeNextTransaction (ctx : Context) (fault : Option (Delta × FatalError)) (b : Blockchain) :
    Except EmulatorError TransactionResult × Blockchain :=
  if b.pendingBlock.ExecutionComplete then
    (.error (.PendingBlockTransactionsExhausted (b.pendingBlock.ID C.toHashing)), b)
  else
    match b.pendingBlock.ExecuteNextTransaction C.toHashing (runTransaction C ctx fault) with
    | (.error err, pendingBlock) => (.error err, { b with pendingBlock })
    | (.ok tp, pendingBlock) =>
      let b := { b with pendingBlock }
      (b.transactionResultOf C tp, b)

/-- `ExecuteNextTransaction`, under the lock, in a context carrying the pending
block's header. -/
def ExecuteNextTransaction (env : Environment) (b : Blockchain) :
    Except EmulatorError TransactionResult × Blockchain :=
  b.executeNextTransaction C (newFVMContextFromHeader (b.pendingBlock.Block C.toHashing).Header)
    (env.vmFault 0)

/-- The loop of `ExecuteBlock`: execute until the block is complete or a call fails,
with `fuel` bounding the iterations. -/
def executeLoop (ctx : Context) (vmFault : Nat → Option (Delta × FatalError)) :
    Nat → List TransactionResult → Blockchain →
      List TransactionResult × Option EmulatorError × Blockchain
  | 0, results, b => (results, none, b)
  | fuel + 1, results, b =>
    if b.pendingBlock.ExecutionComplete then (results, none, b)
    else
      match b.executeNextTransaction C ctx (vmFault results.length) with
      | (.error err, b) => (results, some err, b)
      | (.ok result, b) => executeLoop ctx vmFault fuel (results ++ [result]) b

/-- `ExecuteBlock`: a no-op on an empty block, an error on a complete one, otherwise
the results of draining the queue, up to and excluding a failing call. -/
def ExecuteBlock (env : Environment) (b : Blockchain) :
    List TransactionResult × Option EmulatorError × Blockchain :=
  if b.pendingBlock.Empty then ([], none, b)
  else
    let blockContext : Context := ⟨some (b.pendingBlock.Block C.toHashing).Header⟩
    if b.pendingBlock.ExecutionComplete then
      ([], some (.PendingBlockTransactionsExhausted (b.pendingBlock.ID C.toHashing)), b)
    else
      executeLoop C blockContext env.vmFault
        (b.pendingBlock.Size - b.pendingBlock.index) [] b

/-- `AddTransaction`: validates a transaction and appends it to the pending block. -/
def AddTransaction (env : Environment) (b : Blockchain) (tx : TransactionBody) :
    Option EmulatorError × Blockchain :=
  if b.pendingBlock.ExecutionStarted then
    (some (.PendingBlockMidExecution (b.pendingBlock.ID C.toHashing)), b)
  else if b.pendingBlock.ContainsTransaction C.toHashing (C.TransactionID tx) then
    (some (.DuplicateTransaction (C.TransactionID tx)), b)
  else
    match withFault (env.storageFault 0) (b.storage.TransactionByID (C.TransactionID tx)) with
    | .ok _ => (some (.DuplicateTransaction (C.TransactionID tx)), b)
    | .error .ErrNotFound =>
      match C.Validate b.storage tx with
      | some err => (some (C.convertAccessError err), b)
      | none => (none, { b with pendingBlock := b.pendingBlock.AddTransaction tx })
    | .error err => (some (.FailedToCheckStorage err), b)

end Blockchain

end flow_emulator.emulator
