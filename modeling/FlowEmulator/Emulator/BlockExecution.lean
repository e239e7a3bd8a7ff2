import FlowEmulator.Emulator.BlockQueries
import FlowEmulator.Emulator.Ledger

namespace flow_emulator.storage

open flow_emulator.flowgo

/-- A chained store holds exactly one block at each committed height. -/
theorem Store.Chained.filter_height {H : Hashing} {store : Store} (hchain : store.Chained H)
    {height : Nat} (hlt : height < store.blocks.length) :
    store.blocks.filter (fun stored => stored.Block.Header.Height = height) = [store.blocks[height]] := by
  have hbelow : (store.blocks.take height).filter (fun stored => stored.Block.Header.Height = height) = [] :=
    List.filter_eq_nil_iff.mpr fun stored hmem => by
      obtain ⟨i, hi, rfl⟩ := List.mem_take_iff_getElem.mp hmem
      rw [hchain.heights i (by omega)]
      simp only [decide_eq_true_eq]
      omega
  have habove : (store.blocks.drop (height + 1)).filter (fun stored => stored.Block.Header.Height = height) = [] :=
    List.filter_eq_nil_iff.mpr fun stored hmem => by
      obtain ⟨i, hi, rfl⟩ := List.mem_drop_iff_getElem.mp hmem
      rw [hchain.heights _ (by omega)]
      simp only [decide_eq_true_eq]
      omega
  conv_lhs => rw [← List.take_append_drop height store.blocks, List.drop_eq_getElem_cons hlt]
  rw [List.filter_append, List.filter_cons_of_pos (by simp [hchain.heights height hlt]), hbelow, habove]
  rfl

end flow_emulator.storage

namespace flow_emulator.emulator

open flow_emulator.flowgo flow_emulator.types flow_emulator.storage

/-- A block's execution as it is meant: the transactions `txs` run one after another
from `ledger` in context `ctx`, the `k`-th at queue position `index + k` on the ledger
the ones before it left. The result holds each one's procedure, recorded under its
transaction's ID with its position, the events they emitted in order, and the ledger
the last run leaves; there is none when a run fails fatally. -/
def executeSequentially (C : Collaborators) (ctx : Context) :
    Ledger → Nat → List TransactionBody →
      Option (List (Identifier × IndexedTransactionResult) × List Event × Ledger)
  | ledger, _, [] => some ([], [], ledger)
  | ledger, index, tx :: txs =>
    let run := C.Run ctx (.Transaction tx (UInt32.ofNat index)) ledger
    match run.result with
    | .error _ => none
    | .ok out =>
      (executeSequentially C ctx (ledger.apply run.writes) (index + 1) txs).map fun rest =>
        ((C.TransactionID tx, ⟨.ofOutput tx (UInt32.ofNat index) out, UInt32.ofNat index⟩) :: rest.1,
          out.Events ++ rest.2.1, rest.2.2)

section

variable (C : Collaborators) (ctx : Context)

/-- What a sequential execution of `tx :: txs` is made of: the first run completes, and
the execution of the rest from the ledger it leaves extends it. -/
theorem executeSequentially_cons_eq_some {ledger : Ledger} {index : Nat} {tx : TransactionBody}
    {txs : List TransactionBody} {results : List (Identifier × IndexedTransactionResult)}
    {events : List Event} {final : Ledger}
    (h : executeSequentially C ctx ledger index (tx :: txs) = some (results, events, final)) :
    ∃ out rest restEvents,
      (C.Run ctx (.Transaction tx (UInt32.ofNat index)) ledger).result = .ok out ∧
      executeSequentially C ctx (ledger.apply (C.Run ctx (.Transaction tx (UInt32.ofNat index)) ledger).writes)
        (index + 1) txs = some (rest, restEvents, final) ∧
      results = (C.TransactionID tx, ⟨.ofOutput tx (UInt32.ofNat index) out, UInt32.ofNat index⟩) :: rest ∧
      events = out.Events ++ restEvents := by
  simp only [executeSequentially] at h
  split at h
  · cases h
  · rename_i out hout
    obtain ⟨⟨rest, restEvents, _⟩, hrest, heq⟩ := Option.map_eq_some'.mp h
    cases heq
    exact ⟨out, rest, restEvents, hout, hrest, rfl, rfl⟩

/-- A sequential execution ends on the replay of its transactions. -/
theorem executeSequentially_ledger :
    ∀ {txs : List TransactionBody} {ledger : Ledger} {index : Nat}
      {results : List (Identifier × IndexedTransactionResult)} {events : List Event} {final : Ledger},
      executeSequentially C ctx ledger index txs = some (results, events, final) →
        final = replay C ctx ledger index txs
  | [], _, _, _, _, _, h => by
    cases h
    rfl
  | _ :: _, _, _, _, _, _, h => by
    obtain ⟨_, _, _, -, hrest, -, -⟩ := executeSequentially_cons_eq_some C ctx h
    rw [replay]
    exact executeSequentially_ledger hrest

/-- One more transaction that completes extends a sequential execution by its recorded
procedure, its events and its writes. -/
theorem executeSequentially_concat (tx : TransactionBody) {out : ProcedureOutput} :
    ∀ {txs : List TransactionBody} {ledger : Ledger} {index : Nat}
      {results : List (Identifier × IndexedTransactionResult)} {events : List Event} {final : Ledger},
      executeSequentially C ctx ledger index txs = some (results, events, final) →
      (C.Run ctx (.Transaction tx (UInt32.ofNat (index + txs.length))) final).result = .ok out →
      executeSequentially C ctx ledger index (txs ++ [tx]) =
        some (results ++ [(C.TransactionID tx, ⟨.ofOutput tx (UInt32.ofNat (index + txs.length)) out,
            UInt32.ofNat (index + txs.length)⟩)], events ++ out.Events,
          final.apply (C.Run ctx (.Transaction tx (UInt32.ofNat (index + txs.length))) final).writes)
  | [], _, _, _, _, _, h, hok => by
    cases h
    simp_all [executeSequentially]
  | tx' :: txs, ledger, index, _, _, _, h, hok => by
    obtain ⟨_, _, _, hout', hrest, rfl, rfl⟩ := executeSequentially_cons_eq_some C ctx h
    have hindex : index + (tx' :: txs).length = index + 1 + txs.length := by
      simp only [List.length_cons]
      omega
    rw [hindex] at hok ⊢
    simp [executeSequentially, hout', executeSequentially_concat tx hrest hok]

/-- A sequential execution records one result per transaction, under its ID, in order. -/
theorem executeSequentially_keys :
    ∀ {txs : List TransactionBody} {ledger : Ledger} {index : Nat}
      {results : List (Identifier × IndexedTransactionResult)} {events : List Event} {final : Ledger},
      executeSequentially C ctx ledger index txs = some (results, events, final) →
        results.map (·.1) = txs.map C.TransactionID
  | [], _, _, _, _, _, h => by
    cases h
    rfl
  | _ :: _, _, _, _, _, _, h => by
    obtain ⟨_, _, _, -, hrest, rfl, -⟩ := executeSequentially_cons_eq_some C ctx h
    simp [executeSequentially_keys hrest]

end

/-- Sealing converts every recorded result, under its key. -/
theorem convertToSealedResults_mem (C : Collaborators) :
    ∀ {results : List (Identifier × IndexedTransactionResult)}
      {sealed : List (Identifier × StorableTransactionResult)},
      convertToSealedResults C results = .ok sealed → ∀ entry ∈ results,
        ∃ stored, C.ToStorableResult entry.2.Transaction = .ok stored ∧ (entry.1, stored) ∈ sealed
  | [], _, _, _, hmem => absurd hmem (List.not_mem_nil _)
  | (id, result) :: results, sealed, h, entry, hmem => by
    rw [convertToSealedResults] at h
    split at h
    · cases h
    · rename_i stored hstored
      cases hrest : convertToSealedResults C results with
      | error err => rw [hrest] at h; cases h
      | ok rest =>
        rw [hrest] at h
        cases h
        rcases List.mem_cons.mp hmem with rfl | hmem
        · exact ⟨stored, hstored, List.mem_cons_self _ _⟩
        · obtain ⟨stored', hstored', hmem'⟩ := convertToSealedResults_mem C hrest entry hmem
          exact ⟨stored', hstored', List.mem_cons_of_mem _ hmem'⟩

namespace Blockchain

variable {C : Collaborators} {F : Option (Delta × FatalError) → Prop}

/-- The execution invariant, over the ledger invariant. While every executed position of
the pending block has its result, the block holds what executing `queue[0..cursor)` in
order from its base gives: the results, the events and the ledger its view reads. Every
block committed above genesis with one sealed result per transaction holds the events of
executing its transactions in order from the ledger below it, the sealed forms of the
results that execution records, and the ledger it ends on. -/
structure ExecutionValid (C : Collaborators) (b : Blockchain) extends LedgerValid C b : Prop where
  pendingExecution : b.pendingBlock.transactionResults.length = b.pendingBlock.index →
    executeSequentially C ⟨some (b.pendingBlock.Block C.toHashing).Header⟩ b.pendingBlock.ledgerView.base 0
        (b.pendingBlock.transactions.take b.pendingBlock.index) =
      some (b.pendingBlock.transactionResults, b.pendingBlock.events, b.pendingBlock.ledgerView.read)
  committedExecution : ∀ i (hi : i < b.storage.blocks.length), 0 < i →
    b.storage.blocks[i].TransactionResults.length = b.storage.blocks[i].Transactions.length →
    ∃ recorded, executeSequentially C ⟨some b.storage.blocks[i].Block.Header⟩
        (b.storage.ledgerAt (i - 1)) 0 (b.storage.blocks[i].Transactions.map (·.2)) =
      some (recorded, b.storage.blocks[i].Events, b.storage.ledgerAt i) ∧
      convertToSealedResults C recorded = .ok b.storage.blocks[i].TransactionResults

/-- One `executeNextTransaction` keeps the pending block equal to the sequential
execution of its executed prefix while every executed position has its result. -/
theorem executeNextTransaction_pendingExecution {b b' : Blockchain}
    {fault : Option (Delta × FatalError)} {r : Except EmulatorError TransactionResult}
    (htransactions : b.TransactionsValid C)
    (hrecorded : b.pendingBlock.transactionResults.length ≤ b.pendingBlock.index)
    (h : b.executeNextTransaction C ⟨some (b.pendingBlock.Block C.toHashing).Header⟩ fault = (r, b'))
    (hexec : b.pendingBlock.transactionResults.length = b.pendingBlock.index →
      executeSequentially C ⟨some (b.pendingBlock.Block C.toHashing).Header⟩
        b.pendingBlock.ledgerView.base 0 (b.pendingBlock.transactions.take b.pendingBlock.index) =
      some (b.pendingBlock.transactionResults, b.pendingBlock.events, b.pendingBlock.ledgerView.read)) :
    b'.pendingBlock.transactionResults.length = b'.pendingBlock.index →
    executeSequentially C ⟨some (b.pendingBlock.Block C.toHashing).Header⟩
        b'.pendingBlock.ledgerView.base 0 (b'.pendingBlock.transactions.take b'.pendingBlock.index) =
      some (b'.pendingBlock.transactionResults, b'.pendingBlock.events, b'.pendingBlock.ledgerView.read) := by
  rcases executeNextTransaction_cases C h with ⟨-, -, rfl⟩ | ⟨_, _, -, -, -, rfl⟩ |
    ⟨tx, _, htx, hok, rfl⟩
  · exact hexec
  · exact fun hcount => absurd hcount (by dsimp only; omega)
  · have hlength := List.length_take_of_le (List.getElem?_eq_some_iff.mp htx).1.le
    have hvm := vmRun_of_ok hok
    rw [hvm] at hok ⊢
    rw [← Nat.zero_add b.pendingBlock.index, ← hlength] at hok
    simp only [advancedPendingBlock, View.write_base, View.read_write, List.take_succ, htx,
      Option.toList_some, mapInsert_of_not_mem _ (htransactions.cursor_unrecorded htx),
      List.length_append, List.length_singleton, Nat.add_right_cancel_iff]
    intro hcount
    rw [executeSequentially_concat C _ tx (hexec hcount) hok, Nat.zero_add, hlength]

/-- A commit keeps every committed block's execution: the blocks below are untouched, and
the new block, when it sealed one result per transaction, holds the pending block's
execution of its whole queue. -/
theorem ExecutionValid.committedExecution_of_commit {b : Blockchain} (hvalid : b.ExecutionValid C)
    {env : Environment} {transactionResults : List (Identifier × StorableTransactionResult)}
    (hcomplete : b.pendingBlock.transactions = [] ∨
      (0 < b.pendingBlock.index ∧ b.pendingBlock.transactions.length ≤ b.pendingBlock.index))
    (hconv : convertToSealedResults C b.pendingBlock.transactionResults = .ok transactionResults)
    (i : Nat) (hi : i < (b.committed C env transactionResults).storage.blocks.length) (hpos : 0 < i)
    (hcount : (b.committed C env transactionResults).storage.blocks[i].TransactionResults.length =
      (b.committed C env transactionResults).storage.blocks[i].Transactions.length) :
    ∃ recorded, executeSequentially C ⟨some (b.committed C env transactionResults).storage.blocks[i].Block.Header⟩
        ((b.committed C env transactionResults).storage.ledgerAt (i - 1)) 0
        ((b.committed C env transactionResults).storage.blocks[i].Transactions.map (·.2)) =
      some (recorded, (b.committed C env transactionResults).storage.blocks[i].Events,
        (b.committed C env transactionResults).storage.ledgerAt i) ∧
      convertToSealedResults C recorded =
        .ok (b.committed C env transactionResults).storage.blocks[i].TransactionResults := by
  have hall := PendingBlock.take_index_of_complete hcomplete
  have hnew := hvalid.toLedgerValid.committed_of_commit hcomplete hconv i hi hpos hcount
  simp only [Blockchain.committed, List.length_append, List.length_singleton] at hi hnew hcount ⊢
  obtain ⟨latest, hlatest, -, hheight⟩ := hvalid.onLatest
  have hlen := hvalid.chained.latest_height hlatest
  rcases Nat.lt_or_ge i b.storage.blocks.length with hlt | hge
  · simp only [List.getElem_append_left hlt] at hcount ⊢
    rw [Store.ledgerAt_append_of_lt _ (by simp; omega), Store.ledgerAt_append_of_lt _ (by simp; omega)]
    exact hvalid.committedExecution i hlt hpos hcount
  -- the new block holds the pending block's execution, its results sealed
  obtain rfl : i = b.storage.blocks.length := by omega
  rw [List.getElem_concat_length _ _ _ rfl] at hcount
  have hexec := hvalid.pendingExecution (PendingBlock.recorded_of_sealed hconv
    (PendingBlock.index_of_complete hcomplete hvalid.cursor) hcount)
  have hbase : (⟨b.storage.blocks ++ [b.pendingBlock.storedBlock C.toHashing transactionResults]⟩ : Store).ledgerAt
      (b.storage.blocks.length - 1) = b.pendingBlock.ledgerView.base := by
    rw [Store.ledgerAt_append_of_lt _ (by simp only [PendingBlock.storedBlock_height]; omega),
      hvalid.pendingBase, hheight, ← hlen]
  rw [List.getElem_concat_length _ _ _ rfl, PendingBlock.storedBlock_transactions, hbase, ← hall] at hnew ⊢
  rw [hnew.trans (executeSequentially_ledger C _ hexec).symm]
  exact ⟨_, hexec, hconv⟩

/-- Every primitive step keeps the execution invariant, whatever VM fault it meets, on a
blockchain that keeps the transaction invariant. -/
theorem Step.executionValid {b b' : Blockchain} (hstep : Step C F b b')
    (hvalid : b.ExecutionValid C) (htransactions : b.TransactionsValid C) : b'.ExecutionValid C := by
  have hledger := hstep.ledgerValid hvalid.toLedgerValid
  cases hstep with
  | configure => exact ⟨hledger, hvalid.pendingExecution, hvalid.committedExecution⟩
  | enqueue env b tx hadmits =>
    refine ⟨hledger, ?_, hvalid.committedExecution⟩
    simpa [hadmits.notStarted, executeSequentially] using hvalid.pendingExecution
  | execute _ h =>
    obtain ⟨hstorage, -, -, -, hheader⟩ := executeNextTransaction_frame C h
    refine ⟨hledger, ?_, hstorage ▸ hvalid.committedExecution⟩
    rw [hheader]
    exact executeNextTransaction_pendingExecution htransactions hvalid.recorded h hvalid.pendingExecution
  | commit env b transactionResults hcomplete _ hconv =>
    exact ⟨hledger, fun _ => rfl, hvalid.committedExecution_of_commit hcomplete hconv⟩
  | reset b latestBlock viewIncrease now _ =>
    exact ⟨hledger, fun _ => rfl, hvalid.committedExecution⟩

theorem NewBlockchain_executionValid_of_empty {env : Environment} {serviceKey : emulator.ServiceKey}
    {b : Blockchain} (h : NewBlockchain C env Store.empty serviceKey = .ok b) : b.ExecutionValid C := by
  obtain ⟨writes, hblocks, hpending⟩ := NewBlockchain_of_empty C h
  refine ⟨NewBlockchain_ledgerValid_of_empty h, fun _ => by rw [hpending]; rfl, fun i hi hpos => ?_⟩
  simp only [hblocks, List.length_singleton] at hi
  omega

theorem NewBlockchain_executionValid_of_valid {b₀ b : Blockchain} {env : Environment}
    {serviceKey : emulator.ServiceKey} (hvalid : b₀.ExecutionValid C)
    (h : NewBlockchain C env b₀.storage serviceKey = .ok b) : b.ExecutionValid C := by
  obtain ⟨hstorage, latest, -, hpending⟩ := NewBlockchain_of_nonempty C hvalid.chained.nonempty h
  exact ⟨NewBlockchain_ledgerValid_of_valid hvalid.toLedgerValid h, fun _ => by rw [hpending]; rfl,
    hstorage ▸ hvalid.committedExecution⟩

/-- Every reachable blockchain satisfies the execution invariant, whatever faults its
calls met. -/
theorem Reachable.executionValid {b : Blockchain} (hreach : Reachable C F b) : b.ExecutionValid C :=
  (Reachable.invariant (I := fun b => b.ExecutionValid C ∧ b.TransactionsValid C)
    (fun _ _ _ h => ⟨NewBlockchain_executionValid_of_empty h, NewBlockchain_transactionsValid_of_empty h⟩)
    (fun _ _ _ _ hvalid h => ⟨NewBlockchain_executionValid_of_valid hvalid.1 h,
      NewBlockchain_transactionsValid_of_valid hvalid.1.toValid hvalid.2 h⟩)
    (fun _ _ hstep hvalid => ⟨hstep.executionValid hvalid.1 hvalid.2, hstep.transactionsValid hvalid.2⟩)
    hreach).1

/-- Block execution over a run, whatever faults its calls meet, refines running each
block's transactions in order: the pending block while no run failed fatally, and every
committed block at a height h ≥ 1 from the ledger at h - 1. -/
theorem Reachable.executes_sequentially {b : Blockchain} (hreach : Reachable C F b) :
    b.pendingBlock.transactionResults.length ≤ b.pendingBlock.index ∧
    (b.pendingBlock.transactionResults.length = b.pendingBlock.index →
      executeSequentially C ⟨some (b.pendingBlock.Block C.toHashing).Header⟩
          (b.storage.ledgerAt (b.pendingBlock.height - 1)) 0
          (b.pendingBlock.transactions.take b.pendingBlock.index) =
        some (b.pendingBlock.transactionResults, b.pendingBlock.Events, b.pendingBlock.ledgerView.read)) ∧
    ∀ h (hh : h < b.storage.blocks.length), 0 < h →
      ∃ recorded, executeSequentially C ⟨some b.storage.blocks[h].Block.Header⟩
          (b.storage.ledgerAt (h - 1)) 0 (b.storage.blocks[h].Transactions.map (·.2)) =
        some (recorded, b.storage.blocks[h].Events, b.storage.ledgerAt h) ∧
        convertToSealedResults C recorded = .ok b.storage.blocks[h].TransactionResults := by
  have hvalid := hreach.executionValid
  obtain ⟨-, htransactions⟩ := hreach.transactionsValid
  exact ⟨hvalid.recorded, hvalid.pendingBase ▸ hvalid.pendingExecution,
    fun h hh hpos => hvalid.committedExecution h hh hpos (htransactions.sealed_length hh)⟩

/-- Clients read committed blocks as their transactions executed in order: the ledger at
each height h ≥ 1 is that execution's from the ledger at h - 1, and the sealed results and
the events by height are the ones it recorded and emitted. -/
theorem Reachable.committed_reads_sequential {b : Blockchain} (hreach : Reachable C F b) :
    ∀ h (hh : h < b.storage.blocks.length), 0 < h →
      ∃ recorded events, executeSequentially C ⟨some b.storage.blocks[h].Block.Header⟩
          (b.storage.ledgerAt (h - 1)) 0 (b.storage.blocks[h].Transactions.map (·.2)) =
        some (recorded, events, b.storage.ledgerAt h) ∧
        recorded.map (·.1) = (b.storage.blocks[h].Transactions.map (·.2)).map C.TransactionID ∧
        (∀ entry ∈ recorded, ∃ stored, C.ToStorableResult entry.2.Transaction = .ok stored ∧
          b.GetTransactionResult C none entry.1 =
            .ok ⟨.Sealed, stored.ErrorCode, stored.ErrorMessage, stored.Events, entry.1, 0⟩) ∧
        ∀ eventType, b.GetEventsByHeight none h eventType =
          .ok (events.filter fun event => eventType = "" ∨ event.EventType = eventType) := by
  intro h hh hpos
  have hvalid := hreach.executionValid
  obtain ⟨-, htransactions⟩ := hreach.transactionsValid
  obtain ⟨recorded, hexec, hconv⟩ := hvalid.committedExecution h hh hpos (htransactions.sealed_length hh)
  refine ⟨recorded, _, hexec, executeSequentially_keys C _ hexec, fun entry hentry => ?_, fun eventType => ?_⟩
  · obtain ⟨stored, hstorable, hmem⟩ := convertToSealedResults_mem C hconv entry hentry
    have hcommitted : (entry.1, stored) ∈ b.storage.transactionResults :=
      List.mem_flatMap_of_mem (List.getElem_mem hh) hmem
    have hkeys : (b.storage.transactionResults.map (·.1)).Nodup := by
      rw [htransactions.transactionResults_keys, htransactions.stored]
      exact (List.nodup_append.mp htransactions.nodup).1
    obtain ⟨sealed, hfind, hresult⟩ := htransactions.GetTransactionResult_of_committed
      ((htransactions.storedResults entry.1).mp (List.mem_map_of_mem (·.1) hcommitted))
    have hsealed : sealed = stored := by
      simpa [Store.TransactionResultByID, find?_key_of_nodup (·.1) hkeys hcommitted] using hfind.symm
    exact ⟨stored, hstorable, hsealed ▸ hresult⟩
  · simp [GetEventsByHeight, withFault, Store.EventsByHeight, hvalid.chained.filter_height hh]

/-- A chain with a committed block and a queued transaction: its blocks are sequential
executions. -/
theorem executes_sequentially_of_sampleChain :
    let C := sampleCollaborators
    let b := sampleChain
    Reachable C (fun _ => True) b ∧ b.storage.blocks.length = 2 ∧
    (b.pendingBlock.transactionResults.length ≤ b.pendingBlock.index ∧
    (b.pendingBlock.transactionResults.length = b.pendingBlock.index →
      executeSequentially C ⟨some (b.pendingBlock.Block C.toHashing).Header⟩
          (b.storage.ledgerAt (b.pendingBlock.height - 1)) 0
          (b.pendingBlock.transactions.take b.pendingBlock.index) =
        some (b.pendingBlock.transactionResults, b.pendingBlock.Events, b.pendingBlock.ledgerView.read)) ∧
    ∀ h (hh : h < b.storage.blocks.length), 0 < h →
      ∃ recorded, executeSequentially C ⟨some b.storage.blocks[h].Block.Header⟩
          (b.storage.ledgerAt (h - 1)) 0 (b.storage.blocks[h].Transactions.map (·.2)) =
        some (recorded, b.storage.blocks[h].Events, b.storage.ledgerAt h) ∧
        convertToSealedResults C recorded = .ok b.storage.blocks[h].TransactionResults) := by
  intro C b
  have hreach : Reachable C (fun _ => True) b := Reachable.of_sampleChain trivial
  exact ⟨hreach, by decide, Reachable.executes_sequentially hreach⟩

/-- A chain with a committed block and a queued transaction: the sealed result and the
events of its committed block are those its sequential execution records. -/
theorem committed_reads_sequential_of_sampleChain :
    let C := sampleCollaborators
    let b := sampleChain
    Reachable C (fun _ => True) b ∧ b.storage.blocks.length = 2 ∧
    ∀ h (hh : h < b.storage.blocks.length), 0 < h →
      ∃ recorded events, executeSequentially C ⟨some b.storage.blocks[h].Block.Header⟩
          (b.storage.ledgerAt (h - 1)) 0 (b.storage.blocks[h].Transactions.map (·.2)) =
        some (recorded, events, b.storage.ledgerAt h) ∧
        recorded.map (·.1) = (b.storage.blocks[h].Transactions.map (·.2)).map C.TransactionID ∧
        (∀ entry ∈ recorded, ∃ stored, C.ToStorableResult entry.2.Transaction = .ok stored ∧
          b.GetTransactionResult C none entry.1 =
            .ok ⟨.Sealed, stored.ErrorCode, stored.ErrorMessage, stored.Events, entry.1, 0⟩) ∧
        ∀ eventType, b.GetEventsByHeight none h eventType =
          .ok (events.filter fun event => eventType = "" ∨ event.EventType = eventType) := by
  intro C b
  have hreach : Reachable C (fun _ => True) b := Reachable.of_sampleChain trivial
  exact ⟨hreach, by decide, Reachable.committed_reads_sequential hreach⟩

end Blockchain

end flow_emulator.emulator
