import FlowEmulator.Emulator.Scripts

namespace flow_emulator.storage

open flow_emulator.flowgo flow_emulator.types

/-- A lookup that found an entry finds it in every extension of the list. -/
private theorem find?_append_of_some {α : Type} {p : α → Bool} {l : List α} (l' : List α) {x : α}
    (h : l.find? p = some x) : (l ++ l').find? p = some x := by
  rw [List.find?_append, h]
  rfl

/-- Blocks appended above `height` leave the block, the ledger and the events storage
answers at `height` as they were. -/
theorem Store.append_above (store : Store) {blocks : List StoredBlock} {height : Nat}
    (habove : ∀ stored ∈ blocks, height < stored.Block.Header.Height) :
    (⟨store.blocks ++ blocks⟩ : Store).BlockByHeight height = store.BlockByHeight height ∧
      (⟨store.blocks ++ blocks⟩ : Store).ledgerAt height = store.ledgerAt height ∧
      ∀ eventType, (⟨store.blocks ++ blocks⟩ : Store).EventsByHeight height eventType =
        store.EventsByHeight height eventType := by
  have hmiss : blocks.find? (fun stored => stored.Block.Header.Height = height) = none :=
    List.find?_eq_none.mpr fun stored hmem => by simpa using (habove stored hmem).ne'
  have hbelow : blocks.filter (fun stored => stored.Block.Header.Height ≤ height) = [] :=
    List.filter_eq_nil_iff.mpr fun stored hmem => by simpa using habove stored hmem
  have hat : blocks.filter (fun stored => stored.Block.Header.Height = height) = [] :=
    List.filter_eq_nil_iff.mpr fun stored hmem => by simpa using (habove stored hmem).ne'
  refine ⟨?_, ?_, fun eventType => ?_⟩
  · simp only [Store.BlockByHeight, List.find?_append, hmiss, Option.or_none]
  · simp only [Store.ledgerAt, List.filter_append, hbelow, List.append_nil]
  · simp only [Store.EventsByHeight, List.filter_append, hat, List.append_nil]

/-- Appending blocks keeps every block, transaction and sealed result storage finds by
ID. -/
theorem Store.append_finds (store : Store) (blocks : List StoredBlock) (H : Hashing) (id : Identifier) :
    (∀ block, store.BlockByID H id = .ok block → (⟨store.blocks ++ blocks⟩ : Store).BlockByID H id = .ok block) ∧
    (∀ tx, store.TransactionByID id = .ok tx →
      (⟨store.blocks ++ blocks⟩ : Store).TransactionByID id = .ok tx) ∧
    (∀ result, store.TransactionResultByID id = .ok result →
      (⟨store.blocks ++ blocks⟩ : Store).TransactionResultByID id = .ok result) := by
  refine ⟨fun block h => ?_, fun tx h => ?_, fun result h => ?_⟩ <;>
    [unfold Store.BlockByID at h ⊢; unfold Store.TransactionByID at h ⊢;
      unfold Store.TransactionResultByID at h ⊢] <;>
    split at h <;> (try cases h) <;>
    simp only [Store.transactions, Store.transactionResults, List.flatMap_append] at * <;>
    rw [find?_append_of_some _ ‹_›]

end flow_emulator.storage

namespace flow_emulator.emulator

open flow_emulator.flowgo flow_emulator.types flow_emulator.storage

/-- Blocks appended to a store keep a chain's heights above every height committed
before. -/
theorem Store.Chained.above_of_append {H : Hashing} {store : Store} {blocks : List StoredBlock}
    (hchain : (⟨store.blocks ++ blocks⟩ : Store).Chained H) :
    ∀ stored ∈ blocks, store.blocks.length ≤ stored.Block.Header.Height := by
  intro stored hmem
  obtain ⟨i, hi, rfl⟩ := List.getElem_of_mem hmem
  have hheight := hchain.heights (store.blocks.length + i) (by simpa using hi)
  simp only [List.getElem_append_right (Nat.le_add_right _ _), Nat.add_sub_cancel_left] at hheight
  omega

namespace Blockchain

variable {C : Collaborators} {F : Option (Delta × FatalError) → Prop}

/-- Along every run of primitive steps from a blockchain that keeps the chain and
transaction invariants, both invariants hold and storage only grows at its end. -/
theorem Step.run_appends {b b' : Blockchain} (hsteps : Relation.ReflTransGen (Step C F) b b')
    (hvalid : b.Valid C) (htransactions : b.TransactionsValid C) :
    b'.Valid C ∧ b'.TransactionsValid C ∧ ∃ blocks, b'.storage.blocks = b.storage.blocks ++ blocks := by
  refine Step.preserves (I := fun b' => b'.Valid C ∧ b'.TransactionsValid C ∧
    ∃ blocks, b'.storage.blocks = b.storage.blocks ++ blocks) ?_ hsteps
    ⟨hvalid, htransactions, [], (List.append_nil _).symm⟩
  rintro b₁ b₂ hstep ⟨hvalid₁, htransactions₁, blocks, hblocks⟩
  obtain ⟨appended, happended⟩ := hstep.storage_prefix
  exact ⟨hstep.valid hvalid₁, hstep.transactionsValid htransactions₁, blocks ++ appended,
    by rw [← happended, hblocks, List.append_assoc]⟩

/-- Committed history is final: along every run of primitive steps from a reachable
blockchain, the reads at every committed height, and the block and transaction lookups by a
committed ID, answer as they did. -/
theorem Reachable.committed_history_final {b b' : Blockchain} (hreach : Reachable C F b)
    (hsteps : Relation.ReflTransGen (Step C F) b b') (scriptHash : Bytes → Identifier)
    (FlowEventsToSDK : List Event → Except String (List Event)) :
    (∀ h < b.storage.blocks.length,
      b'.GetBlockByHeight none h = b.GetBlockByHeight none h ∧
      (∀ eventType, b'.GetEventsByHeight none h eventType = b.GetEventsByHeight none h eventType) ∧
      (∀ address, b'.GetAccountAtBlockHeight C address h = b.GetAccountAtBlockHeight C address h) ∧
      ∀ vmFault script arguments,
        b'.ExecuteScriptAtBlockHeight none
            (b'.executeScriptAtBlock C scriptHash FlowEventsToSDK vmFault script arguments) h =
          b.ExecuteScriptAtBlockHeight none
            (b.executeScriptAtBlock C scriptHash FlowEventsToSDK vmFault script arguments) h) ∧
    (∀ stored ∈ b.storage.blocks,
      b'.GetBlockByID C none (C.BlockID stored.Block) = b.GetBlockByID C none (C.BlockID stored.Block)) ∧
    ∀ txID ∈ b.storage.collectionTransactionIDs,
      b'.GetTransaction C none txID = b.GetTransaction C none txID ∧
      b'.GetTransactionResult C none txID = b.GetTransactionResult C none txID := by
  obtain ⟨hvalid, htransactions⟩ := hreach.transactionsValid
  obtain ⟨hvalid', htransactions', blocks, hblocks⟩ := Step.run_appends hsteps hvalid htransactions
  have hstorage : b'.storage = ⟨b.storage.blocks ++ blocks⟩ := by
    rw [← hblocks]
  have habove := Store.Chained.above_of_append (hstorage ▸ hvalid'.chained)
  refine ⟨fun h hh => ?_, fun stored hmem => ?_, fun txID hcommitted => ?_⟩
  · -- every appended block sits above `h`
    obtain ⟨hblock, hledger, hevents⟩ :=
      b.storage.append_above fun stored hmem => Nat.lt_of_lt_of_le hh (habove stored hmem)
    have hfound : b'.getBlockByHeight none h = .ok b.storage.blocks[h].Block := by
      simp [getBlockByHeight, withFault, hstorage, hblock, hvalid.chained.BlockByHeight_getElem hh]
    have hfound₀ : b.getBlockByHeight none h = .ok b.storage.blocks[h].Block := by
      simp [getBlockByHeight, withFault, hvalid.chained.BlockByHeight_getElem hh]
    refine ⟨by simp only [GetBlockByHeight, hfound, hfound₀],
      fun eventType => by simp only [GetEventsByHeight, hstorage, hevents],
      fun address => by simp only [GetAccountAtBlockHeight, Store.LedgerViewByHeight_read, hstorage, hledger],
      fun vmFault script arguments => ?_⟩
    simp only [ExecuteScriptAtBlockHeight, hfound, hfound₀]
    exact executeScriptAtBlock_congr _ _ (by rw [hvalid.chained.heights h hh, hstorage, hledger])
  · -- a committed block's ID finds a block before any appended one
    obtain ⟨block, hblock⟩ : ∃ block, b.storage.BlockByID C.toHashing (C.BlockID stored.Block) = .ok block := by
      unfold Store.BlockByID
      cases hfind : b.storage.blocks.find? (fun s => C.BlockID s.Block = C.BlockID stored.Block) with
      | none => exact absurd (List.find?_eq_none.mp hfind stored hmem) (by simp)
      | some found => exact ⟨found.Block, rfl⟩
    simp only [GetBlockByID, hstorage, (b.storage.append_finds blocks C.toHashing _).1 block hblock, hblock]
  · -- a committed transaction is found before any appended block, and never queued again
    obtain ⟨entry, hentry, rfl⟩ := List.mem_map.mp (htransactions.stored ▸ hcommitted)
    have hentry' : entry ∈ b'.storage.transactions := by
      simp only [hstorage, Store.transactions, List.flatMap_append, List.mem_append] at hentry ⊢
      exact .inl hentry
    have hcommitted' : entry.1 ∈ b'.storage.collectionTransactionIDs :=
      htransactions'.stored ▸ List.mem_map_of_mem _ hentry'
    obtain ⟨sealed, hsealed, hresult⟩ := htransactions.GetTransactionResult_of_committed hcommitted
    obtain ⟨sealed', hsealed', hresult'⟩ := htransactions'.GetTransactionResult_of_committed hcommitted'
    have hsame : sealed' = sealed := by
      rw [hstorage, (b.storage.append_finds blocks C.toHashing _).2.2 sealed hsealed] at hsealed'
      exact (Except.ok.inj hsealed').symm
    rw [htransactions'.GetTransaction_of_committed hentry', htransactions.GetTransaction_of_committed hentry,
      hresult', hresult, hsame]
    exact ⟨rfl, rfl⟩

/-- From the genesis blockchain, over the run that queues, executes and commits one
transaction, the genesis block's answers stay as they were. -/
theorem committed_history_final_of_genesis :
    let C := sampleCollaborators
    let scriptHash : Bytes → Identifier := fun script => script.length
    let FlowEventsToSDK : List Event → Except String (List Event) := .ok
    let b : Blockchain := sampleGenesis
    let b' := Call.CommitBlock.apply C .calm (Call.ExecuteNextTransaction.apply C .calm
      ((Call.AddTransaction (sampleTransaction 1)).apply C .calm b))
    Reachable C (fun _ => True) b ∧ Relation.ReflTransGen (Step C fun _ => True) b b' ∧
    b'.storage.blocks.length = 2 ∧
    ((∀ h < b.storage.blocks.length,
      b'.GetBlockByHeight none h = b.GetBlockByHeight none h ∧
      (∀ eventType, b'.GetEventsByHeight none h eventType = b.GetEventsByHeight none h eventType) ∧
      (∀ address, b'.GetAccountAtBlockHeight C address h = b.GetAccountAtBlockHeight C address h) ∧
      ∀ vmFault script arguments,
        b'.ExecuteScriptAtBlockHeight none
            (b'.executeScriptAtBlock C scriptHash FlowEventsToSDK vmFault script arguments) h =
          b.ExecuteScriptAtBlockHeight none
            (b.executeScriptAtBlock C scriptHash FlowEventsToSDK vmFault script arguments) h) ∧
    (∀ stored ∈ b.storage.blocks,
      b'.GetBlockByID C none (C.BlockID stored.Block) = b.GetBlockByID C none (C.BlockID stored.Block)) ∧
    ∀ txID ∈ b.storage.collectionTransactionIDs,
      b'.GetTransaction C none txID = b.GetTransaction C none txID ∧
      b'.GetTransactionResult C none txID = b.GetTransactionResult C none txID) := by
  intro C scriptHash FlowEventsToSDK b b'
  have hreach : Reachable C (fun _ => True) b := Reachable.of_sampleGenesis
  have hsteps : Relation.ReflTransGen (Step C fun _ => True) b b' :=
    ((Call.apply_steps .calm (fun _ => trivial) _ _).trans (Call.apply_steps .calm (fun _ => trivial) _ _)).trans
      (Call.apply_steps .calm (fun _ => trivial) _ _)
  exact ⟨hreach, hsteps, by decide,
    Reachable.committed_history_final hreach hsteps scriptHash FlowEventsToSDK⟩

end Blockchain

end flow_emulator.emulator
