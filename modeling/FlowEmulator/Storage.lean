import FlowEmulator.Flowgo
import Mathlib.Data.List.Dedup

namespace flow_emulator.storage

open flow_emulator.flowgo flow_emulator.types

/-- `storage.ErrNotFound` and every other error a backend may return. -/
inductive StorageError where
  | ErrNotFound
  | Other (message : String)
  deriving DecidableEq, Repr

/-- What one `CommitBlock` call persists: the block with its collections, transaction
bodies and sealed results keyed by transaction ID, ledger delta and events. -/
structure StoredBlock where
  Block : Block
  Collections : List LightCollection
  Transactions : List (Identifier × TransactionBody)
  TransactionResults : List (Identifier × StorableTransactionResult)
  Delta : Delta
  Events : List Event

/-- Modelled from the spec: the storage backends behind `storage.Store` (memstore,
sqlite, badger, redis) are absent from the sources. The spec's store contract keeps the
committed chain, one entry per `CommitBlock`, in commit order. -/
structure Store where
  blocks : List StoredBlock

/-- Modelled from the spec: a store with nothing committed. -/
def Store.empty : Store := ⟨[]⟩

/-- Modelled after the backends (absent from the sources): `CommitBlock` first refuses a
block whose transactions and sealed results, two Go maps keyed by transaction ID, differ
in size; otherwise it persists all of the block or, on the backend's own failure
`fault`, nothing. -/
def Store.CommitBlock (store : Store) (fault : Option StorageError) (block : Block)
    (collections : List LightCollection) (transactions : List (Identifier × TransactionBody))
    (transactionResults : List (Identifier × StorableTransactionResult)) (delta : Delta)
    (events : List Event) : Except StorageError Store :=
  if (transactions.map (·.1)).dedup.length ≠ (transactionResults.map (·.1)).dedup.length then
    .error (.Other "transactions count does not match result count")
  else
    match fault with
    | some err => .error err
    | none => .ok ⟨store.blocks ++ [⟨block, collections, transactions, transactionResults, delta, events⟩]⟩

/-- Modelled from the spec: the block with the greatest height, `ErrNotFound` on an
empty store. -/
def Store.LatestBlock (store : Store) : Except StorageError Block :=
  match store.blocks.getLast? with
  | some stored => .ok stored.Block
  | none => .error .ErrNotFound

/-- Modelled from the spec: lookup by height. -/
def Store.BlockByHeight (store : Store) (height : Nat) : Except StorageError Block :=
  match store.blocks.find? (fun stored => stored.Block.Header.Height = height) with
  | some stored => .ok stored.Block
  | none => .error .ErrNotFound

/-- Modelled from the spec: lookup by block ID. -/
def Store.BlockByID (H : Hashing) (store : Store) (id : Identifier) : Except StorageError Block :=
  match store.blocks.find? (fun stored => H.BlockID stored.Block = id) with
  | some stored => .ok stored.Block
  | none => .error .ErrNotFound

/-- All collections committed so far. -/
def Store.collections (store : Store) : List LightCollection :=
  store.blocks.flatMap (·.Collections)

/-- All transaction bodies committed so far, keyed by ID. -/
def Store.transactions (store : Store) : List (Identifier × TransactionBody) :=
  store.blocks.flatMap (·.Transactions)

/-- All sealed results committed so far, keyed by transaction ID. -/
def Store.transactionResults (store : Store) : List (Identifier × StorableTransactionResult) :=
  store.blocks.flatMap (·.TransactionResults)

/-- Modelled from the spec: lookup of a committed collection by ID. -/
def Store.CollectionByID (H : Hashing) (store : Store) (id : Identifier) :
    Except StorageError LightCollection :=
  match store.collections.find? (fun col => H.CollectionID col = id) with
  | some col => .ok col
  | none => .error .ErrNotFound

/-- Modelled from the spec: lookup of a committed transaction by ID. -/
def Store.TransactionByID (store : Store) (id : Identifier) : Except StorageError TransactionBody :=
  match store.transactions.find? (fun entry => entry.1 = id) with
  | some entry => .ok entry.2
  | none => .error .ErrNotFound

/-- Modelled from the spec: lookup of a sealed result by transaction ID. -/
def Store.TransactionResultByID (store : Store) (id : Identifier) :
    Except StorageError StorableTransactionResult :=
  match store.transactionResults.find? (fun entry => entry.1 = id) with
  | some entry => .ok entry.2
  | none => .error .ErrNotFound

/-- Modelled from the spec: the ledger state committed at `height`, the deltas of the
blocks up to that height applied in commit order over the empty ledger. -/
def Store.ledgerAt (store : Store) (height : Nat) : Ledger :=
  (store.blocks.filter (fun stored => stored.Block.Header.Height ≤ height)).foldl
    (fun ledger stored => ledger.apply stored.Delta) Ledger.empty

/-- Modelled from the spec: the events committed with the block at `height`, in order,
those of type `eventType` (all of them for the empty type); none at a height no block
has. -/
def Store.EventsByHeight (store : Store) (height : Nat) (eventType : String) :
    Except StorageError (List Event) :=
  .ok ((store.blocks.filter fun stored => stored.Block.Header.Height = height).flatMap fun stored =>
    stored.Events.filter fun event => eventType = "" ∨ event.EventType = eventType)

/-- Modelled from the spec: a fresh view over the ledger state at `height`. -/
def Store.LedgerViewByHeight (store : Store) (height : Nat) : View :=
  ⟨store.ledgerAt height, []⟩

@[simp] theorem Store.LedgerViewByHeight_read (store : Store) (height : Nat) :
    (store.LedgerViewByHeight height).read = store.ledgerAt height := rfl

/-- A successful commit appends exactly the given entry and nothing else. -/
theorem Store.CommitBlock_eq_ok {store store' : Store} {fault : Option StorageError}
    {block : Block} {collections : List LightCollection}
    {transactions : List (Identifier × TransactionBody)}
    {results : List (Identifier × StorableTransactionResult)} {delta : Delta} {events : List Event}
    (h : store.CommitBlock fault block collections transactions results delta events = .ok store') :
    (transactions.map (·.1)).dedup.length = (results.map (·.1)).dedup.length ∧ fault = none ∧
      store'.blocks = store.blocks ++ [⟨block, collections, transactions, results, delta, events⟩] := by
  unfold Store.CommitBlock at h
  split at h
  · cases h
  · rename_i hcount
    cases fault with
    | some err => cases h
    | none => exact ⟨not_not.mp hcount, rfl, by cases h; rfl⟩

/-- The block committed last is the latest block. -/
@[simp] theorem Store.LatestBlock_append (store : Store) (stored : StoredBlock) :
    (⟨store.blocks ++ [stored]⟩ : Store).LatestBlock = .ok stored.Block := by
  simp [Store.LatestBlock]

/-- A committed block extends the ledger history at and above its height by its delta
and leaves every lower height unchanged. -/
theorem Store.ledgerAt_append (store : Store) (stored : StoredBlock) (height : Nat) :
    (⟨store.blocks ++ [stored]⟩ : Store).ledgerAt height =
      if stored.Block.Header.Height ≤ height then (store.ledgerAt height).apply stored.Delta
      else store.ledgerAt height := by
  split <;> simp_all [Store.ledgerAt]

end flow_emulator.storage
