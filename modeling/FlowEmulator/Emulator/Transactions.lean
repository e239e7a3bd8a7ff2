import FlowEmulator.Emulator.Chain
import FlowEmulator.Emulator.Queries
import Mathlib.Data.List.Nodup

namespace flow_emulator.storage

open flow_emulator.flowgo flow_emulator.types

/-- The transaction IDs of all committed collections, in commit order. -/
def Store.collectionTransactionIDs (store : Store) : List Identifier :=
  store.collections.flatMap (·.Transactions)

/-- A lookup by key in a list of entries finds nothing exactly when the key is absent. -/
private theorem find?_key_eq_none {α : Type} {entries : List (Identifier × α)} {id : Identifier} :
    entries.find? (fun entry => entry.1 = id) = none ↔ id ∉ entries.map (·.1) := by
  rw [List.find?_eq_none]
  simp only [decide_eq_true_eq, List.mem_map]
  constructor
  · rintro h ⟨entry, hmem, rfl⟩
    exact h entry hmem rfl
  · intro h entry hmem heq
    exact h ⟨entry, hmem, heq⟩

theorem Store.TransactionByID_eq_error_iff {store : Store} {id : Identifier} :
    store.TransactionByID id = .error .ErrNotFound ↔ id ∉ store.transactions.map (·.1) := by
  rw [← find?_key_eq_none, Store.TransactionByID]
  cases store.transactions.find? (fun entry => entry.1 = id) <;> simp

/-- A sealed result is found exactly for the keys storage holds, and `ErrNotFound`
answers every other key. -/
theorem Store.TransactionResultByID_cases (store : Store) (id : Identifier) :
    (id ∉ store.transactionResults.map (·.1) ∧
        store.TransactionResultByID id = .error .ErrNotFound) ∨
      (id ∈ store.transactionResults.map (·.1) ∧ ∃ result, store.TransactionResultByID id = .ok result) := by
  rcases h : store.transactionResults.find? (fun entry => entry.1 = id) with _ | entry
  · exact .inl ⟨find?_key_eq_none.mp h, by simp [Store.TransactionResultByID, h]⟩
  · have hkey : entry.1 = id := by simpa using List.find?_some h
    exact .inr ⟨List.mem_map.mpr ⟨entry, List.mem_of_find?_eq_some h, hkey⟩, entry.2,
      by simp [Store.TransactionResultByID, h]⟩

@[simp] theorem Store.transactions_append (store : Store) (stored : StoredBlock) :
    (⟨store.blocks ++ [stored]⟩ : Store).transactions = store.transactions ++ stored.Transactions := by
  simp [Store.transactions]

@[simp] theorem Store.transactionResults_append (store : Store) (stored : StoredBlock) :
    (⟨store.blocks ++ [stored]⟩ : Store).transactionResults =
      store.transactionResults ++ stored.TransactionResults := by
  simp [Store.transactionResults]

@[simp] theorem Store.collectionTransactionIDs_append (store : Store) (stored : StoredBlock) :
    (⟨store.blocks ++ [stored]⟩ : Store).collectionTransactionIDs =
      store.collectionTransactionIDs ++ stored.Collections.flatMap (·.Transactions) := by
  simp [Store.collectionTransactionIDs, Store.collections]

end flow_emulator.storage

namespace flow_emulator.emulator

open flow_emulator.flowgo flow_emulator.types flow_emulator.storage

/-- The committed collections of a pending block hold its queue, in order. -/
theorem PendingBlock.Collections_transactionIDs (H : Hashing) (pb : PendingBlock) :
    (pb.Collections H).flatMap (·.Transactions) = pb.transactions.map H.TransactionID := by
  unfold PendingBlock.Collections
  split <;> simp_all

namespace Blockchain

variable {C : Collaborators} {F : Option (Delta × FatalError) → Prop}

/-- The transaction invariant. No transaction ID occurs twice among the committed
collections and the pending queue; storage holds the bodies of exactly the committed
IDs, and the sealed results of each stored block are keyed by its transactions, in
order; the pending block's results are keyed by executed transactions, in queue order. -/
structure TransactionsValid (C : Collaborators) (b : Blockchain) : Prop where
  nodup : (b.storage.collectionTransactionIDs ++
    b.pendingBlock.transactions.map C.TransactionID).Nodup
  stored : b.storage.transactions.map (·.1) = b.storage.collectionTransactionIDs
  storedKeys : ∀ stored ∈ b.storage.blocks,
    stored.TransactionResults.map (·.1) = stored.Transactions.map (·.1)
  pendingResults : (b.pendingBlock.transactionResults.map (·.1)).Sublist
    ((b.pendingBlock.transactions.take b.pendingBlock.index).map C.TransactionID)

theorem TransactionsValid.queue_nodup {b : Blockchain} (hvalid : b.TransactionsValid C) :
    (b.pendingBlock.transactions.map C.TransactionID).Nodup :=
  (List.nodup_append.mp hvalid.nodup).2.1

/-- The store's sealed results are keyed by its committed transactions, in order. -/
theorem TransactionsValid.transactionResults_keys {b : Blockchain} (hvalid : b.TransactionsValid C) :
    b.storage.transactionResults.map (·.1) = b.storage.transactions.map (·.1) := by
  simp only [Store.transactionResults, Store.transactions, List.map_flatMap]
  exact List.flatMap_congr hvalid.storedKeys

theorem TransactionsValid.storedResults {b : Blockchain} (hvalid : b.TransactionsValid C)
    (id : Identifier) :
    id ∈ b.storage.transactionResults.map (·.1) ↔ id ∈ b.storage.collectionTransactionIDs := by
  rw [hvalid.transactionResults_keys, hvalid.stored]

/-- Every stored block sealed one result per transaction. -/
theorem TransactionsValid.sealed_length {b : Blockchain} (hvalid : b.TransactionsValid C) {i : Nat}
    (hi : i < b.storage.blocks.length) :
    b.storage.blocks[i].TransactionResults.length = b.storage.blocks[i].Transactions.length := by
  simpa using congrArg List.length (hvalid.storedKeys _ (List.getElem_mem hi))

/-- The transaction at the cursor has no result recorded yet. -/
theorem TransactionsValid.cursor_unrecorded {b : Blockchain} (hvalid : b.TransactionsValid C)
    {tx : TransactionBody} (htx : b.pendingBlock.transactions[b.pendingBlock.index]? = some tx) :
    C.TransactionID tx ∉ b.pendingBlock.transactionResults.map (·.1) := by
  have hnodup : ((b.pendingBlock.transactions.take (b.pendingBlock.index + 1)).map C.TransactionID).Nodup :=
    hvalid.queue_nodup.sublist ((List.take_sublist _ _).map _)
  rw [List.take_succ, htx, Option.toList_some, List.map_append, List.map_singleton,
    List.nodup_append] at hnodup
  exact fun hmem => hnodup.2.2 (hvalid.pendingResults.subset hmem) (List.mem_singleton_self _)

/-- On a complete block that passes the storage's count check, the results are keyed by
the whole queue, in order: no position failed. -/
theorem TransactionsValid.resultKeys_of_countsMatch {b : Blockchain} (hvalid : b.TransactionsValid C)
    (hall : b.pendingBlock.transactions.take b.pendingBlock.index = b.pendingBlock.transactions)
    (hcount : b.pendingBlock.countsMatch C.toHashing) :
    b.pendingBlock.transactionResults.map (·.1) = b.pendingBlock.transactions.map C.TransactionID := by
  have hsub := hall ▸ hvalid.pendingResults
  rw [PendingBlock.countsMatch, hvalid.queue_nodup.dedup, (hvalid.queue_nodup.sublist hsub).dedup] at hcount
  exact hsub.eq_of_length hcount.symm

/-- A transaction `AddTransaction` admits is neither queued nor committed. -/
theorem Admits.fresh {env : Environment} {b : Blockchain} {tx : TransactionBody}
    (hadmits : b.Admits C env tx) (hvalid : b.TransactionsValid C) :
    C.TransactionID tx ∉ b.pendingBlock.transactions.map C.TransactionID ∧
      C.TransactionID tx ∉ b.storage.collectionTransactionIDs :=
  ⟨hadmits.notQueued, hvalid.stored ▸ Store.TransactionByID_eq_error_iff.mp hadmits.notStored⟩

/-- Every primitive step keeps the transaction invariant. -/
theorem Step.transactionsValid {b b' : Blockchain} (hstep : Step C F b b')
    (hvalid : b.TransactionsValid C) : b'.TransactionsValid C := by
  cases hstep with
  | configure => exact ⟨hvalid.nodup, hvalid.stored, hvalid.storedKeys, hvalid.pendingResults⟩
  | enqueue env b tx hadmits =>
    obtain ⟨hqueued, hcommitted⟩ := hadmits.fresh hvalid
    refine ⟨?_, hvalid.stored, hvalid.storedKeys, ?_⟩
    · simp only [PendingBlock.AddTransaction_transactions, List.map_append, List.map_singleton,
        ← List.append_assoc]
      exact List.nodup_append.mpr ⟨hvalid.nodup, List.nodup_singleton _,
        List.disjoint_singleton.mpr (by simp [hqueued, hcommitted])⟩
    · simpa [hadmits.notStarted] using hvalid.pendingResults
  | execute _ h =>
    rcases executeNextTransaction_cases C h with ⟨-, -, rfl⟩ | ⟨_, _, -, -, -, rfl⟩ |
      ⟨tx, _, htx, -, rfl⟩
    · exact hvalid
    · exact ⟨hvalid.nodup, hvalid.stored, hvalid.storedKeys, hvalid.pendingResults.trans
        ((List.take_sublist_take_left _ (Nat.le_succ _)).map _)⟩
    · refine ⟨hvalid.nodup, hvalid.stored, hvalid.storedKeys, ?_⟩
      simp only [advancedPendingBlock, mapInsert_of_not_mem _ (hvalid.cursor_unrecorded htx),
        List.take_succ, htx, Option.toList_some, List.map_append, List.map_singleton]
      exact hvalid.pendingResults.append_right _
  | commit env b transactionResults hcomplete hcount hconv =>
    have hall := PendingBlock.take_index_of_complete hcomplete
    have hids := PendingBlock.Collections_transactionIDs C.toHashing b.pendingBlock
    refine ⟨?_, ?_, ?_, by simp [committed, newPendingBlock]⟩
    · simpa [committed, newPendingBlock, PendingBlock.storedBlock, hids] using hvalid.nodup
    · simp [committed, PendingBlock.storedBlock, PendingBlock.Transactions, hids, ← hvalid.stored]
    · simp only [committed, List.mem_append, List.mem_singleton]
      rintro stored (hmem | rfl)
      · exact hvalid.storedKeys stored hmem
      · simp only [PendingBlock.storedBlock, PendingBlock.Transactions_keys,
          convertToSealedResults_keys C hconv, hvalid.resultKeys_of_countsMatch hall hcount]
  | reset b latestBlock viewIncrease now _ =>
    refine ⟨?_, hvalid.stored, hvalid.storedKeys, by simp [newPendingBlock]⟩
    simpa [newPendingBlock] using hvalid.nodup.sublist (List.sublist_append_left _ _)

theorem NewBlockchain_transactionsValid_of_empty {env : Environment}
    {serviceKey : emulator.ServiceKey} {b : Blockchain}
    (h : NewBlockchain C env Store.empty serviceKey = .ok b) : b.TransactionsValid C := by
  obtain ⟨writes, hblocks, hpending⟩ := NewBlockchain_of_empty C h
  refine ⟨?_, ?_, ?_, ?_⟩ <;>
    simp [hblocks, hpending, newPendingBlock, Store.collectionTransactionIDs, Store.collections,
      Store.transactions]

theorem NewBlockchain_transactionsValid_of_valid {b₀ b : Blockchain} {env : Environment}
    {serviceKey : emulator.ServiceKey} (hchain : b₀.Valid C) (hvalid : b₀.TransactionsValid C)
    (h : NewBlockchain C env b₀.storage serviceKey = .ok b) : b.TransactionsValid C := by
  obtain ⟨hstorage, latest, -, hpending⟩ := NewBlockchain_of_nonempty C hchain.chained.nonempty h
  refine ⟨?_, hstorage ▸ hvalid.stored, hstorage ▸ hvalid.storedKeys,
    by simp [hpending, newPendingBlock]⟩
  simpa [hstorage, hpending, newPendingBlock] using hvalid.nodup.sublist (List.sublist_append_left _ _)

/-- Every reachable blockchain satisfies the chain and transaction invariants. -/
theorem Reachable.transactionsValid {b : Blockchain} (hreach : Reachable C F b) :
    b.Valid C ∧ b.TransactionsValid C :=
  Reachable.invariant (I := fun b => b.Valid C ∧ b.TransactionsValid C)
    (fun _ _ _ h => ⟨NewBlockchain_valid_of_empty h, NewBlockchain_transactionsValid_of_empty h⟩)
    (fun _ _ _ _ hvalid h => ⟨NewBlockchain_valid_of_valid hvalid.1 h,
      NewBlockchain_transactionsValid_of_valid hvalid.1 hvalid.2 h⟩)
    (fun _ _ hstep hvalid => ⟨hstep.valid hvalid.1, hstep.transactionsValid hvalid.2⟩) hreach

/-- On a complete block whose results number its executed positions, the results are
keyed by the whole queue, and the storage's count check passes. -/
theorem TransactionsValid.countsMatch_of_recorded {b : Blockchain} (hvalid : b.TransactionsValid C)
    (hrecorded : b.pendingBlock.transactionResults.length = b.pendingBlock.index)
    (hcomplete : b.pendingBlock.transactions.length ≤ b.pendingBlock.index) :
    b.pendingBlock.countsMatch C.toHashing := by
  have hsub := List.take_of_length_le hcomplete ▸ hvalid.pendingResults
  have hkeys := hsub.eq_of_length (by
    have := hsub.length_le
    simp only [List.length_map] at this ⊢
    omega)
  rw [PendingBlock.countsMatch, hkeys]

/-- A call that returns a result records it under a fresh key. -/
theorem executeNextTransaction_recorded {b b' : Blockchain} {ctx : Context}
    {fault : Option (Delta × FatalError)} {result : TransactionResult} (hvalid : b.TransactionsValid C)
    (h : b.executeNextTransaction C ctx fault = (.ok result, b')) :
    b'.pendingBlock.transactionResults.length = b.pendingBlock.transactionResults.length + 1 := by
  rcases executeNextTransaction_cases C h with ⟨-, h', -⟩ | ⟨_, _, -, -, h', -⟩ | ⟨tx, _, htx, -, rfl⟩
  · cases h'
  · cases h'
  · simp [advancedPendingBlock, mapInsert_of_not_mem _ (hvalid.cursor_unrecorded htx)]

/-- `ExecuteBlock`'s loop, when it returns no error, records one result for each
transaction it executes, and keeps the transaction invariant. -/
theorem executeLoop_recorded {vmFault : Nat → Option (Delta × FatalError)} :
    ∀ (fuel : Nat) (results : List TransactionResult) (b : Blockchain)
      {results' : List TransactionResult} {b' : Blockchain}, b.TransactionsValid C →
      executeLoop C ⟨some (b.pendingBlock.Block C.toHashing).Header⟩ vmFault fuel results b =
        (results', none, b') →
      b'.TransactionsValid C ∧ b'.pendingBlock.transactionResults.length + b.pendingBlock.index =
        b.pendingBlock.transactionResults.length + b'.pendingBlock.index
  | 0, _, _, _, _, hvalid, h => by
    rw [executeLoop, Prod.mk.injEq, Prod.mk.injEq] at h
    exact h.2.2 ▸ ⟨hvalid, rfl⟩
  | fuel + 1, results, b, _, _, hvalid, h => by
    rcases executeLoop_succ_cases C h with ⟨-, -, -, rfl⟩ | ⟨_, -, -, h'⟩ | ⟨result, b₁, hstep, h⟩
    · exact ⟨hvalid, rfl⟩
    · cases h'
    · have hvalid₁ := (Step.execute (F := fun _ => True) trivial hstep).transactionsValid hvalid
      have hrecorded := executeNextTransaction_recorded hvalid hstep
      have hindex := (executeNextTransaction_ok C hstep).2
      rw [← (executeNextTransaction_frame C hstep).2.2.2.2] at h
      obtain ⟨hvalid', hcount⟩ := executeLoop_recorded fuel _ b₁ hvalid₁ h
      exact ⟨hvalid', by omega⟩

/-- An `ExecuteBlock` that returns no error, from a block with one result per executed
position, leaves a complete block that passes the storage's count check. -/
theorem ExecuteBlock_countsMatch {env : Environment} {b b' : Blockchain}
    {results : List TransactionResult} (hvalid : b.TransactionsValid C)
    (hcursor : b.pendingBlock.index ≤ b.pendingBlock.transactions.length)
    (hrecorded : b.pendingBlock.transactionResults.length = b.pendingBlock.index)
    (h : b.ExecuteBlock C env = (results, none, b')) :
    b'.pendingBlock.transactions.length ≤ b'.pendingBlock.index ∧
      b'.pendingBlock.countsMatch C.toHashing := by
  rw [ExecuteBlock] at h
  split at h
  · rename_i hempty
    obtain ⟨-, -, rfl⟩ := Prod.mk.inj_iff.mp (Prod.mk.inj h).2
    have hle : b.pendingBlock.transactions.length ≤ b.pendingBlock.index := by
      simp [(PendingBlock.Empty_iff _).mp hempty]
    exact ⟨hle, hvalid.countsMatch_of_recorded hrecorded hle⟩
  · split at h
    · cases (Prod.mk.inj (Prod.mk.inj h).2).1
    · simp only [PendingBlock.Size] at h
      obtain ⟨hdone, -, -⟩ := executeLoop_complete C _ [] b le_rfl hcursor h
      obtain ⟨hvalid', hcount⟩ := executeLoop_recorded _ [] b hvalid h
      exact ⟨hdone.ge, hvalid'.countsMatch_of_recorded (by omega) hdone.ge⟩

/-- With a store that answers, `GetTransactionResult` reports `Pending` for exactly the
queued IDs, `Sealed` for exactly the committed ones and `Unknown` for every other. -/
theorem TransactionsValid.GetTransactionResult_status {b : Blockchain}
    (hvalid : b.TransactionsValid C) (txID : Identifier) :
    ∃ result, b.GetTransactionResult C none txID = .ok result ∧
      (result.Status = .Pending ↔ txID ∈ b.pendingBlock.transactions.map C.TransactionID) ∧
      (result.Status = .Sealed ↔ txID ∈ b.storage.collectionTransactionIDs) ∧
      (result.Status = .Unknown ↔ txID ∉ b.pendingBlock.transactions.map C.TransactionID ∧
        txID ∉ b.storage.collectionTransactionIDs) := by
  by_cases hqueued : txID ∈ b.pendingBlock.transactions.map C.TransactionID
  · have hcontains := (PendingBlock.ContainsTransaction_iff _ _ _).mpr hqueued
    have hcommitted : txID ∉ b.storage.collectionTransactionIDs := fun h =>
      List.disjoint_of_nodup_append hvalid.nodup h hqueued
    exact ⟨⟨.Pending, 0, "", [], ZeroID, 0⟩, by simp [GetTransactionResult, hcontains],
      by simp [hqueued, hcommitted]⟩
  · have hcontains : b.pendingBlock.ContainsTransaction C.toHashing txID = false := by
      simpa [← Bool.not_eq_true, PendingBlock.ContainsTransaction_iff] using hqueued
    rcases Store.TransactionResultByID_cases b.storage txID with ⟨hkey, hfind⟩ | ⟨hkey, stored, hfind⟩
    · have hcommitted : txID ∉ b.storage.collectionTransactionIDs := fun h =>
        hkey ((hvalid.storedResults txID).mpr h)
      exact ⟨⟨.Unknown, 0, "", [], ZeroID, 0⟩, by simp [GetTransactionResult, hcontains, withFault, hfind],
        by simp [hqueued, hcommitted]⟩
    · have hcommitted := (hvalid.storedResults txID).mp hkey
      exact ⟨⟨.Sealed, stored.ErrorCode, stored.ErrorMessage, stored.Events, txID, 0⟩,
        by simp [GetTransactionResult, hcontains, withFault, hfind], by simp [hqueued, hcommitted]⟩

/-- Transaction identity over a run: no ID is queued or committed twice, each call moves
IDs as the code says, and `GetTransactionResult` reports `Pending`, `Sealed` and `Unknown`
exactly for the queued, the committed and every other ID. -/
theorem Reachable.transactions {b : Blockchain} (hreach : Reachable C (fun _ => True) b) :
    (b.storage.collectionTransactionIDs ++ b.pendingBlock.transactions.map C.TransactionID).Nodup ∧
    (∀ env tx b', b.AddTransaction C env tx = (none, b') →
      C.TransactionID tx ∉ b.pendingBlock.transactions.map C.TransactionID ∧
      C.TransactionID tx ∉ b.storage.collectionTransactionIDs) ∧
    (∀ env r b', b.ResetPendingBlock C env = (r, b') →
      b'.storage = b.storage ∧ (b' = b ∨ b'.pendingBlock.transactions = [])) ∧
    (∀ env block b', b.commitBlock C env = (.ok block, b') →
      b'.storage.collectionTransactionIDs =
        b.storage.collectionTransactionIDs ++ b.pendingBlock.transactions.map C.TransactionID ∧
      b'.pendingBlock.transactions = []) ∧
    ∀ txID, ∃ result, b.GetTransactionResult C none txID = .ok result ∧
      (result.Status = .Pending ↔ txID ∈ b.pendingBlock.transactions.map C.TransactionID) ∧
      (result.Status = .Sealed ↔ txID ∈ b.storage.collectionTransactionIDs) ∧
      (result.Status = .Unknown ↔ txID ∉ b.pendingBlock.transactions.map C.TransactionID ∧
        txID ∉ b.storage.collectionTransactionIDs) := by
  obtain ⟨-, hvalid⟩ := hreach.transactionsValid
  refine ⟨hvalid.nodup, fun env tx b' h => (AddTransaction_eq_none C h).1.fresh hvalid,
    fun env r b' h => ?_, fun env block b' h => ?_, hvalid.GetTransactionResult_status⟩
  · rw [ResetPendingBlock] at h
    split at h
    · exact (Prod.mk.inj h).2 ▸ ⟨rfl, .inl rfl⟩
    · exact (Prod.mk.inj h).2 ▸ ⟨rfl, .inr rfl⟩
  · rcases commitBlock_cases C h with ⟨⟨_, herr⟩, -⟩ | ⟨-, -, -, -, transactionResults, -, rfl⟩
    · cases herr
    · simp [committed, newPendingBlock, PendingBlock.storedBlock,
        PendingBlock.Collections_transactionIDs]

/-- The sample chain, one transaction sealed and one queued, keeps the transaction
invariant. -/
theorem transactions_of_sampleChain :
    let C := sampleCollaborators
    let b : Blockchain := sampleChain
    Reachable C (fun _ => True) b ∧
    ((b.storage.collectionTransactionIDs ++ b.pendingBlock.transactions.map C.TransactionID).Nodup ∧
    (∀ env tx b', b.AddTransaction C env tx = (none, b') →
      C.TransactionID tx ∉ b.pendingBlock.transactions.map C.TransactionID ∧
      C.TransactionID tx ∉ b.storage.collectionTransactionIDs) ∧
    (∀ env r b', b.ResetPendingBlock C env = (r, b') →
      b'.storage = b.storage ∧ (b' = b ∨ b'.pendingBlock.transactions = [])) ∧
    (∀ env block b', b.commitBlock C env = (.ok block, b') →
      b'.storage.collectionTransactionIDs =
        b.storage.collectionTransactionIDs ++ b.pendingBlock.transactions.map C.TransactionID ∧
      b'.pendingBlock.transactions = []) ∧
    ∀ txID, ∃ result, b.GetTransactionResult C none txID = .ok result ∧
      (result.Status = .Pending ↔ txID ∈ b.pendingBlock.transactions.map C.TransactionID) ∧
      (result.Status = .Sealed ↔ txID ∈ b.storage.collectionTransactionIDs) ∧
      (result.Status = .Unknown ↔ txID ∉ b.pendingBlock.transactions.map C.TransactionID ∧
        txID ∉ b.storage.collectionTransactionIDs)) := by
  intro C b
  have hreach : Reachable C (fun _ => True) b := Reachable.of_sampleChain trivial
  exact ⟨hreach, Reachable.transactions hreach⟩

end Blockchain

end flow_emulator.emulator
