import FlowEmulator.Emulator.Errors

namespace flow_emulator.emulator

open flow_emulator.flowgo flow_emulator.storage

/-- Go map assignment `m[k] = v`, the map kept as its list of entries. -/
def mapInsert {α : Type} (m : List (Identifier × α)) (k : Identifier) (v : α) :
    List (Identifier × α) :=
  m.filter (fun entry => entry.1 ≠ k) ++ [(k, v)]

/-- An insertion adds at most one entry. -/
theorem length_mapInsert_le {α : Type} (m : List (Identifier × α)) (k : Identifier) (v : α) :
    (mapInsert m k v).length ≤ m.length + 1 := by
  simpa [mapInsert] using List.length_filter_le _ m

/-- Inserting a key the map does not hold appends its entry. -/
theorem mapInsert_of_not_mem {α : Type} {m : List (Identifier × α)} {k : Identifier} (v : α)
    (hk : k ∉ m.map (·.1)) : mapInsert m k v = m ++ [(k, v)] := by
  rw [mapInsert, List.filter_eq_self.mpr fun entry hmem => ?_]
  simpa using fun heq : entry.1 = k => hk (heq ▸ List.mem_map_of_mem _ hmem)

/-- `IndexedTransactionResult`: an executed transaction's procedure and its position
in the block. -/
structure IndexedTransactionResult where
  Transaction : TransactionProcedure
  Index : UInt32

/-- Modelled from the spec: `pendingBlock` (pendingBlock.go is absent from the sources).
Its header fields are fixed at creation; it holds the queue of admitted transactions in
admission order, a single shared child ledger view, the results keyed by transaction
ID, the events emitted so far and the execution cursor. -/
structure PendingBlock where
  height : Nat
  view : Nat
  parentID : Identifier
  timestamp : Nat
  transactions : List TransactionBody
  transactionResults : List (Identifier × IndexedTransactionResult)
  ledgerView : View
  events : List Event
  index : Nat

/-- Modelled from the spec: a fresh Open pending block chained after `prevBlock`:
height one above it, a view increased by a fresh bound, an empty queue and a child
view over `ledgerView`. -/
def newPendingBlock (H : Hashing) (prevBlock : Block) (ledgerView : View)
    (viewIncrease now : Nat) : PendingBlock :=
  { height := prevBlock.Header.Height + 1
    view := prevBlock.Header.View + viewIncrease
    parentID := H.BlockID prevBlock
    timestamp := now
    transactions := []
    transactionResults := []
    ledgerView := ledgerView
    events := []
    index := 0 }

namespace PendingBlock

variable (H : Hashing)

/-- Modelled from the spec: one collection holding the queued transaction IDs in
admission order, none for an empty block. -/
def Collections (pb : PendingBlock) : List LightCollection :=
  if pb.transactions = [] then [] else [⟨pb.transactions.map H.TransactionID⟩]

/-- Modelled from the spec: the block being built, header fixed at creation and
payload guaranteeing `Collections`. -/
def Block (pb : PendingBlock) : flowgo.Block :=
  ⟨⟨pb.height, pb.view, pb.parentID, pb.timestamp⟩, (pb.Collections H).map H.CollectionID⟩

def ID (pb : PendingBlock) : Identifier := H.BlockID (pb.Block H)

/-- Modelled from the spec: the queued transactions keyed by ID. -/
def Transactions (pb : PendingBlock) : List (Identifier × TransactionBody) :=
  pb.transactions.map fun tx => (H.TransactionID tx, tx)

def TransactionResults (pb : PendingBlock) : List (Identifier × IndexedTransactionResult) :=
  pb.transactionResults

def LedgerDelta (pb : PendingBlock) : Delta := pb.ledgerView.delta

def Events (pb : PendingBlock) : List Event := pb.events

def Size (pb : PendingBlock) : Nat := pb.transactions.length

def Empty (pb : PendingBlock) : Bool := pb.Size = 0

/-- Execution has started once the cursor has left 0. -/
def ExecutionStarted (pb : PendingBlock) : Bool := 0 < pb.index

def ExecutionComplete (pb : PendingBlock) : Bool := pb.Size ≤ pb.index

/-- Modelled from the spec: appends to the queue in arrival order; the checks are the
caller's. -/
def AddTransaction (pb : PendingBlock) (tx : TransactionBody) : PendingBlock :=
  { pb with transactions := pb.transactions ++ [tx] }

def ContainsTransaction (pb : PendingBlock) (txID : Identifier) : Bool :=
  pb.transactions.any fun tx => H.TransactionID tx = txID

def GetTransaction (pb : PendingBlock) (txID : Identifier) : Option TransactionBody :=
  pb.transactions.find? fun tx => H.TransactionID tx = txID

/-- Modelled from the spec (§4.1, §9) and `pendingBlock.go` (absent from the sources):
runs the transaction at the cursor through `execute` on a child of the shared view, with
the cursor as its declared position, and advances the cursor whatever the run gives. On
success the child's writes are merged and the procedure is stored under the
transaction's ID; a fatal error drops the child and records no result. -/
def ExecuteNextTransaction (pb : PendingBlock)
    (execute : View → UInt32 → TransactionBody → View × Except EmulatorError TransactionProcedure) :
    Except EmulatorError TransactionProcedure × PendingBlock :=
  match pb.transactions[pb.index]? with
  | none => (.error (.PendingBlockTransactionsExhausted (pb.ID H)), pb)
  | some tx =>
    match execute pb.ledgerView.NewChild (UInt32.ofNat pb.index) tx with
    | (_, .error err) => (.error err, { pb with index := pb.index + 1 })
    | (childView, .ok tp) =>
      (.ok tp,
        { pb with
          ledgerView := pb.ledgerView.MergeView childView
          index := pb.index + 1
          events := pb.events ++ tp.Events
          transactionResults :=
            mapInsert pb.transactionResults (H.TransactionID tx) ⟨tp, UInt32.ofNat pb.index⟩ })

@[simp] theorem AddTransaction_transactions (pb : PendingBlock) (tx : TransactionBody) :
    (pb.AddTransaction tx).transactions = pb.transactions ++ [tx] := rfl

@[simp] theorem AddTransaction_index (pb : PendingBlock) (tx : TransactionBody) :
    (pb.AddTransaction tx).index = pb.index := rfl

theorem ExecutionComplete_iff (pb : PendingBlock) :
    pb.ExecutionComplete = true ↔ pb.transactions.length ≤ pb.index := by
  simp [ExecutionComplete, Size]

theorem ExecutionComplete_eq_false_iff (pb : PendingBlock) :
    pb.ExecutionComplete = false ↔ pb.index < pb.transactions.length := by
  simp [ExecutionComplete, Size]

theorem ExecutionStarted_iff (pb : PendingBlock) : pb.ExecutionStarted = true ↔ 0 < pb.index := by
  simp [ExecutionStarted]

theorem Empty_iff (pb : PendingBlock) : pb.Empty = true ↔ pb.transactions = [] := by
  simp [Empty, Size]

theorem Empty_eq_false_iff (pb : PendingBlock) : pb.Empty = false ↔ pb.transactions ≠ [] := by
  simp [Empty, Size]

theorem ContainsTransaction_iff (pb : PendingBlock) (txID : Identifier) :
    pb.ContainsTransaction H txID = true ↔ txID ∈ pb.transactions.map H.TransactionID := by
  simp [ContainsTransaction]

end PendingBlock

end flow_emulator.emulator
