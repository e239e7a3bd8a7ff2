import Mathlib.Data.List.Basic

namespace flow_emulator.flowgo

/-- `flowgo.Identifier`: a content-derived 32-byte identifier. Only equality of
identifiers is ever used, so they are modelled as naturals. -/
abbrev Identifier := Nat

/-- `flowgo.ZeroID`, the parent of the genesis block. -/
def ZeroID : Identifier := 0

abbrev Address := Nat

abbrev Bytes := List UInt8

structure ProposalKey where
  Address : Address
  KeyIndex : Nat
  SequenceNumber : Nat
  deriving DecidableEq, Repr

/-- `flowgo.TransactionSignature`; `KeyIndex` is taken as given by the client. -/
structure TransactionSignature where
  Address : Address
  SignerIndex : Nat
  KeyIndex : Nat
  Signature : Bytes
  deriving DecidableEq, Repr

structure TransactionBody where
  ReferenceBlockID : Identifier
  Script : Bytes
  Arguments : List Bytes
  GasLimit : Nat
  ProposalKey : ProposalKey
  Payer : Address
  Authorizers : List Address
  PayloadSignatures : List TransactionSignature
  EnvelopeSignatures : List TransactionSignature
  deriving DecidableEq, Repr

structure Header where
  Height : Nat
  View : Nat
  ParentID : Identifier
  Timestamp : Nat
  deriving DecidableEq, Repr

/-- A block: its header and the IDs of the collections its payload guarantees. -/
structure Block where
  Header : Header
  Guarantees : List Identifier
  deriving DecidableEq, Repr

structure LightCollection where
  Transactions : List Identifier
  deriving DecidableEq, Repr

/-- The `ID()` content hashes of flow-go entities (SHA3-256 of their encodings). -/
structure Hashing where
  TransactionID : TransactionBody → Identifier
  BlockID : Block → Identifier
  CollectionID : LightCollection → Identifier

/-- Cadence values as far as the emulator inspects them (`cadence.Address` fields of
`flow.AccountCreated`). -/
inductive Value where
  | Address (address : Address)
  | Other (payload : Nat)
  deriving DecidableEq, Repr

structure Event where
  EventType : String
  TransactionID : Identifier
  TransactionIndex : Nat
  EventIndex : Nat
  Fields : List Value
  deriving DecidableEq, Repr

inductive HashingAlgorithm where
  | SHA2_256
  | SHA3_256
  | Other (code : Nat)
  deriving DecidableEq, Repr

abbrev PublicKey := Nat

structure AccountPublicKey where
  Index : Nat
  PublicKey : PublicKey
  HashAlgo : HashingAlgorithm
  SeqNumber : Nat
  Weight : Nat
  Revoked : Bool
  deriving DecidableEq, Repr

structure Account where
  Address : Address
  Balance : Nat
  Keys : List AccountPublicKey
  Contracts : List (String × Bytes)
  deriving DecidableEq, Repr

abbrev RegisterID := Nat

abbrev RegisterValue := Nat

/-- The register state of the execution ledger. -/
abbrev Ledger := RegisterID → RegisterValue

/-- Register writes, in the order they were made. -/
abbrev Delta := List (RegisterID × RegisterValue)

def Ledger.empty : Ledger := fun _ => 0

def Ledger.set (ledger : Ledger) (id : RegisterID) (value : RegisterValue) : Ledger :=
  fun id' => if id' = id then value else ledger id'

/-- The ledger after a delta's writes, later writes winning. -/
def Ledger.apply (ledger : Ledger) (delta : Delta) : Ledger :=
  delta.foldl (fun ledger write => ledger.set write.1 write.2) ledger

@[simp] theorem Ledger.apply_nil (ledger : Ledger) : ledger.apply [] = ledger := rfl

@[simp] theorem Ledger.apply_append (ledger : Ledger) (d₁ d₂ : Delta) :
    ledger.apply (d₁ ++ d₂) = (ledger.apply d₁).apply d₂ := by
  simp [Ledger.apply]

/-- `delta.View`: a copy-on-write overlay whose reads fall through to `base` and whose
writes accumulate in `delta` (what `Delta()` returns). -/
structure View where
  base : Ledger
  delta : Delta

def View.read (view : View) : Ledger := view.base.apply view.delta

def View.write (view : View) (writes : Delta) : View :=
  { view with delta := view.delta ++ writes }

@[simp] theorem View.write_base (view : View) (writes : Delta) :
    (view.write writes).base = view.base := rfl

@[simp] theorem View.write_delta (view : View) (writes : Delta) :
    (view.write writes).delta = view.delta ++ writes := rfl

@[simp] theorem View.write_nil (view : View) : view.write [] = view := by
  simp [View.write]

theorem View.read_write (view : View) (writes : Delta) :
    (view.write writes).read = view.read.apply writes := by
  simp [View.read, View.write]

/-- `NewChild`: a view whose reads fall through to this one's, with an empty delta. -/
def View.NewChild (view : View) : View := ⟨view.read, []⟩

/-- `MergeView`: this view with a child's writes appended to its own. -/
def View.MergeView (view child : View) : View := view.write child.delta

@[simp] theorem View.NewChild_read (view : View) : view.NewChild.read = view.read := rfl

@[simp] theorem View.MergeView_NewChild_write (view : View) (writes : Delta) :
    view.MergeView (view.NewChild.write writes) = view.write writes := rfl

inductive ErrorCode where
  | ErrCodeAccountAuthorizationError
  | ErrCodeInvalidEnvelopeSignatureError
  | ErrCodeInvalidPayloadSignatureError
  | ErrCodeInvalidProposalSignatureError
  | ErrCodeAccountPublicKeyNotFoundError
  | ErrCodeInvalidProposalSeqNumberError
  | ErrCodeInvalidAddressError
  | ErrCodeAccountNotFoundError
  | Other (code : Nat)
  deriving DecidableEq, Repr

/-- A transaction-level error of the VM, with the codes of its wrapped chain
(outermost first). -/
structure CodedError where
  Codes : List ErrorCode
  Message : String
  deriving DecidableEq, Repr

/-- `fvmerrors.HasErrorCode`: the code occurs somewhere in the error's chain. -/
def HasErrorCode (err : CodedError) (code : ErrorCode) : Bool := err.Codes.contains code

/-- A failure of the VM that is not a transaction outcome (ledger I/O, internal
errors). -/
structure FatalError where
  Message : String
  deriving DecidableEq, Repr

/-- `fvm.Context` as far as it changes between calls: the block header in scope. -/
structure Context where
  BlockHeader : Option Header
  deriving DecidableEq, Repr

inductive Procedure where
  | Transaction (body : TransactionBody) (txIndex : UInt32)
  | Script (code : Bytes) (arguments : List Bytes)
  | Bootstrap
  deriving DecidableEq, Repr

/-- What a procedure holds after a run that did not fail fatally. -/
structure ProcedureOutput where
  Err : Option CodedError
  Events : List Event
  Logs : List String
  ComputationUsed : Nat
  Value : Option Value
  deriving DecidableEq, Repr

/-- One run of `fvm.VirtualMachine.Run` on a view: the writes it made through the view
(also those made before a fatal error) and its outcome. -/
structure VMRun where
  writes : Delta
  result : Except FatalError ProcedureOutput

/-- `fvm.TransactionProcedure` after a run. -/
structure TransactionProcedure where
  Transaction : TransactionBody
  TxIndex : UInt32
  Err : Option CodedError
  Events : List Event
  Logs : List String
  ComputationUsed : Nat
  deriving DecidableEq, Repr

def TransactionProcedure.ofOutput (body : TransactionBody) (txIndex : UInt32)
    (out : ProcedureOutput) : TransactionProcedure :=
  { Transaction := body, TxIndex := txIndex, Err := out.Err, Events := out.Events,
    Logs := out.Logs, ComputationUsed := out.ComputationUsed }

@[simp] theorem TransactionProcedure.ofOutput_transaction (body : TransactionBody) (txIndex : UInt32)
    (out : ProcedureOutput) : (TransactionProcedure.ofOutput body txIndex out).Transaction = body :=
  rfl

@[simp] theorem TransactionProcedure.ofOutput_events (body : TransactionBody) (txIndex : UInt32)
    (out : ProcedureOutput) : (TransactionProcedure.ofOutput body txIndex out).Events = out.Events :=
  rfl

inductive TransactionStatus where
  | Unknown
  | Pending
  | Sealed
  deriving DecidableEq, Repr

/-- `flowgo.BlockStatus`. -/
inductive BlockStatus where
  | Unknown
  | Sealed
  deriving DecidableEq, Repr

/-- `access.TransactionResult`. -/
structure AccessTransactionResult where
  Status : TransactionStatus
  StatusCode : Nat
  ErrorMessage : String
  Events : List Event
  TransactionID : Identifier
  BlockHeight : Nat
  deriving DecidableEq, Repr

/-- `flowgo.BlockEvents`: the events of one block, with the block's ID, height and
timestamp. -/
structure BlockEvents where
  BlockID : Identifier
  BlockHeight : Nat
  BlockTimestamp : Nat
  Events : List Event
  deriving DecidableEq, Repr

end flow_emulator.flowgo

namespace flow_emulator.types

open flow_emulator.flowgo

inductive TransactionResultDebug where
  | InvalidSignature (tx : TransactionBody)
  | InvalidHashAlgo (key : AccountPublicKey) (address : Address) (algo : HashingAlgorithm)
  deriving DecidableEq, Repr

/-- `types.TransactionResult`, the emulator's view of an executed transaction. -/
structure TransactionResult where
  TransactionID : Identifier
  ComputationUsed : Nat
  Error : Option CodedError
  Logs : List String
  Events : List Event
  Debug : Option TransactionResultDebug
  deriving DecidableEq, Repr

def TransactionResult.Succeeded (result : TransactionResult) : Bool := result.Error.isNone

/-- `types.StorableTransactionResult`, what storage keeps of an executed transaction. -/
structure StorableTransactionResult where
  ErrorCode : Nat
  ErrorMessage : String
  Logs : List String
  Events : List Event
  deriving DecidableEq, Repr

end flow_emulator.types
