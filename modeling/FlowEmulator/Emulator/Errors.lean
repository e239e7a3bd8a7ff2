import FlowEmulator.Storage

namespace flow_emulator.emulator

open flow_emulator.flowgo flow_emulator.storage

/-- Go runtime panics the emulator's code can raise. -/
inductive RuntimeError where
  | IndexOutOfRange
  | NilPointerDereference
  | FailedTypeAssertion
  deriving DecidableEq, Repr

/-- gRPC status codes the emulator returns directly. -/
inductive StatusCode where
  | NotFound
  | Internal
  deriving DecidableEq, Repr

/-- The errors the emulator package returns: its own error types (errors.go), the
errors of storage, the VM and the converters it passes through, and Go runtime panics. -/
inductive EmulatorError where
  | PendingBlockCommitBeforeExecution (BlockID : Identifier)
  | PendingBlockMidExecution (BlockID : Identifier)
  | PendingBlockTransactionsExhausted (BlockID : Identifier)
  | DuplicateTransaction (TxID : Identifier)
  | BlockNotFoundByHeight (Height : Nat)
  | BlockNotFoundByID (ID : Identifier)
  | CollectionNotFound (ID : Identifier)
  | TransactionNotFound (ID : Identifier)
  | AccountNotFound (Address : Address)
  /-- `&StorageError{err}`. -/
  | StorageError (err : storage.StorageError)
  /-- A storage error passed through unwrapped. -/
  | Storage (err : storage.StorageError)
  /-- `fmt.Errorf("failed to check storage for transaction %w", err)`. -/
  | FailedToCheckStorage (err : storage.StorageError)
  /-- `types.FlowError` wrapping a coded VM error. -/
  | FlowError (err : CodedError)
  /-- A fatal error of the VM. -/
  | VM (err : FatalError)
  /-- An error of the `convert` package. -/
  | Convert (message : String)
  /-- What `convertAccessError` makes of a validation error. -/
  | Access (message : String)
  | InvalidArgument (message : String)
  | Internal (message : String)
  | Status (code : StatusCode) (message : String)
  | Errorf (message : String)
  | Runtime (err : RuntimeError)
  deriving DecidableEq, Repr

/-- Modelled from the spec: the error types that implement `NotFoundError` (errors.go is
absent from the sources), the "not found" kinds of the emulator's lookups. -/
def EmulatorError.IsNotFound : EmulatorError → Bool
  | .BlockNotFoundByHeight _ | .BlockNotFoundByID _ | .CollectionNotFound _
  | .TransactionNotFound _ | .AccountNotFound _ => true
  | _ => false

end flow_emulator.emulator
