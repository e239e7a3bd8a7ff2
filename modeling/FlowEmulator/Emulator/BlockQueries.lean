import FlowEmulator.Emulator.AutoMine
import FlowEmulator.Emulator.Transactions
import Mathlib.Data.List.Forall2

namespace flow_emulator.storage

open flow_emulator.flowgo flow_emulator.types

/-- In a list whose keys are distinct, looking an element up by its own key finds it. -/
theorem find?_key_of_nodup {α β : Type} [DecidableEq β] (key : α → β) :
    ∀ {l : List α} {x : α}, (l.map key).Nodup → x ∈ l →
      l.find? (fun y => key y = key x) = some x
  | [], _, _, hx => absurd hx (List.not_mem_nil _)
  | y :: l, x, hnodup, hx => by
    rw [List.map_cons, List.nodup_cons] at hnodup
    by_cases hyx : key y = key x
    · rw [List.find?_cons_of_pos _ (by simpa using hyx)]
      rcases List.mem_cons.mp hx with rfl | hx'
      · rfl
      · exact absurd (hyx ▸ List.mem_map_of_mem key hx') hnodup.1
    · rw [List.find?_cons_of_neg _ (by simpa using hyx)]
      exact find?_key_of_nodup key hnodup.2
        ((List.mem_cons.mp hx).resolve_left fun h => hyx (h ▸ rfl))

/-- With distinct block IDs, a committed block is found by its ID. -/
theorem Store.BlockByID_of_nodup {H : Hashing} {store : Store}
    (hnodup : (store.blocks.map fun stored => H.BlockID stored.Block).Nodup)
    {stored : StoredBlock} (hmem : stored ∈ store.blocks) :
    store.BlockByID H (H.BlockID stored.Block) = .ok stored.Block := by
  rw [Store.BlockByID, find?_key_of_nodup (fun stored => H.BlockID stored.Block) hnodup hmem]

/-- With distinct collection IDs, a committed collection is found by its ID. -/
theorem Store.CollectionByID_of_nodup {H : Hashing} {store : Store}
    (hnodup : (store.collections.map H.CollectionID).Nodup) {col : LightCollection}
    (hmem : col ∈ store.collections) : store.CollectionByID H (H.CollectionID col) = .ok col := by
  rw [Store.CollectionByID, find?_key_of_nodup H.CollectionID hnodup hmem]

/-- The payload invariant of a store: each block guarantees exactly its collections,
which hold exactly its transactions, in order. -/
structure Store.PayloadValid (H : Hashing) (store : Store) : Prop where
  guarantees : ∀ stored ∈ store.blocks,
    stored.Block.Guarantees = stored.Collections.map H.CollectionID
  collections : ∀ stored ∈ store.blocks,
    stored.Collections.flatMap (·.Transactions) = stored.Transactions.map (·.1)

end flow_emulator.storage

namespace flow_emulator.emulator

open flow_emulator.flowgo flow_emulator.types flow_emulator.storage

/-- A committed pending block guarantees exactly its collections, which hold its queue. -/
theorem Store.PayloadValid.append {H : Hashing} {store : Store} (hpayload : store.PayloadValid H)
    (pb : PendingBlock) (transactionResults : List (Identifier × StorableTransactionResult)) :
    (⟨store.blocks ++ [pb.storedBlock H transactionResults]⟩ : Store).PayloadValid H := by
  have hlast : (pb.storedBlock H transactionResults).Collections.flatMap (·.Transactions) =
      (pb.storedBlock H transactionResults).Transactions.map (·.1) := by
    simp only [PendingBlock.storedBlock, PendingBlock.Collections_transactionIDs,
      PendingBlock.Transactions, List.map_map]
    rfl
  constructor
  · intro stored hmem
    rcases List.mem_append.mp hmem with hmem | hmem
    · exact hpayload.guarantees stored hmem
    · rw [List.mem_singleton.mp hmem]
      rfl
  · intro stored hmem
    rcases List.mem_append.mp hmem with hmem | hmem
    · exact hpayload.collections stored hmem
    · rw [List.mem_singleton.mp hmem]
      exact hlast

namespace Blockchain

variable {C : Collaborators} {F : Option (Delta × FatalError) → Prop}

/-- What a primitive step can do to storage: nothing, or append the pending block. -/
theorem Step.storage_cases {b b' : Blockchain} (hstep : Step C F b b') :
    b'.storage = b.storage ∨ ∃ transactionResults,
      b'.storage = ⟨b.storage.blocks ++ [b.pendingBlock.storedBlock C.toHashing transactionResults]⟩ := by
  cases hstep with
  | execute _ h => exact .inl (executeNextTransaction_frame C h).1
  | commit env b transactionResults => exact .inr ⟨transactionResults, rfl⟩
  | _ => exact .inl rfl

/-- Every reachable blockchain keeps its committed payloads consistent. -/
theorem Reachable.payloadValid {b : Blockchain} (hreach : Reachable C F b) :
    b.storage.PayloadValid C.toHashing := by
  have hinv : b.Valid C ∧ b.storage.PayloadValid C.toHashing := by
    refine Reachable.invariant (I := fun b => b.Valid C ∧ b.storage.PayloadValid C.toHashing)
      (fun _ _ _ h => ⟨NewBlockchain_valid_of_empty h, ?_⟩)
      (fun _ _ _ _ hvalid h => ⟨NewBlockchain_valid_of_valid hvalid.1 h,
        (NewBlockchain_of_nonempty C hvalid.1.chained.nonempty h).1 ▸ hvalid.2⟩)
      (fun _ _ hstep hvalid => ⟨hstep.valid hvalid.1, ?_⟩) hreach
    · obtain ⟨writes, hblocks, -⟩ := NewBlockchain_of_empty C h
      constructor <;> intro stored hmem <;> simp only [hblocks, List.mem_singleton] at hmem <;>
        subst hmem <;> rfl
    · rcases hstep.storage_cases with hsame | ⟨transactionResults, hstorage⟩
      · exact hsame ▸ hvalid.2
      · exact hstorage ▸ Store.PayloadValid.append hvalid.2 _ transactionResults
  exact hinv.2

/-- A committed transaction is found in storage, not shadowed by the queue. -/
theorem TransactionsValid.GetTransaction_of_committed {b : Blockchain}
    (hvalid : b.TransactionsValid C) {entry : Identifier × TransactionBody}
    (hmem : entry ∈ b.storage.transactions) : b.GetTransaction C none entry.1 = .ok entry.2 := by
  have hkeys : (b.storage.transactions.map (·.1)).Nodup := by
    rw [hvalid.stored]
    exact (List.nodup_append.mp hvalid.nodup).1
  have hcommitted : entry.1 ∈ b.storage.collectionTransactionIDs :=
    hvalid.stored ▸ List.mem_map_of_mem _ hmem
  have hpending : b.pendingBlock.GetTransaction C.toHashing entry.1 = none := by
    rw [PendingBlock.GetTransaction, List.find?_eq_none]
    intro tx htx heq
    exact List.disjoint_of_nodup_append hvalid.nodup hcommitted
      (List.mem_map.mpr ⟨tx, htx, of_decide_eq_true heq⟩)
  rw [GetTransaction, hpending]
  simp [withFault, Store.TransactionByID, find?_key_of_nodup (·.1) hkeys hmem]

/-- A committed transaction's result is the sealed result storage holds for it. -/
theorem TransactionsValid.GetTransactionResult_of_committed {b : Blockchain}
    (hvalid : b.TransactionsValid C) {txID : Identifier}
    (hcommitted : txID ∈ b.storage.collectionTransactionIDs) :
    ∃ sealed, b.storage.TransactionResultByID txID = .ok sealed ∧
      b.GetTransactionResult C none txID =
        .ok ⟨.Sealed, sealed.ErrorCode, sealed.ErrorMessage, sealed.Events, txID, 0⟩ := by
  have hcontains : b.pendingBlock.ContainsTransaction C.toHashing txID = false := by
    simpa [← Bool.not_eq_true, PendingBlock.ContainsTransaction_iff] using
      List.disjoint_of_nodup_append hvalid.nodup hcommitted
  rcases Store.TransactionResultByID_cases b.storage txID with ⟨hkey, -⟩ | ⟨-, sealed, hfind⟩
  · exact absurd ((hvalid.storedResults txID).mpr hcommitted) hkey
  · exact ⟨sealed, hfind, by simp [GetTransactionResult, hcontains, withFault, hfind]⟩

variable (C)

/-- The inner loop of the by-block queries on a store that answers: when every lookup
succeeds, the loop returns the lookups' results in order. -/
theorem lookupTransactions_ok {α : Type} (lookup : Option String → Identifier → Except EmulatorError α) :
    ∀ (k : Nat) {txIDs : List Identifier}, (∀ txID ∈ txIDs, ∃ item, lookup none txID = .ok item) →
      ∃ items, lookupTransactions lookup (fun _ => none) k txIDs = .ok items ∧
        List.Forall₂ (fun txID item => lookup none txID = .ok item) txIDs items
  | _, [], _ => ⟨[], rfl, .nil⟩
  | k, txID :: txIDs, hok => by
    obtain ⟨item, hitem⟩ := hok txID (List.mem_cons_self _ _)
    obtain ⟨items, hitems, hall⟩ := lookupTransactions_ok lookup (k + 1)
      fun id hid => hok id (List.mem_cons_of_mem _ hid)
    refine ⟨item :: items, ?_, .cons hitem hall⟩
    simp only [lookupTransactions, hitem, hitems]
    rfl

/-- The outer loop of the by-block queries on a store that answers: when each collection
is found and every lookup succeeds, the loop returns the lookups' results over all the
collections' transactions, in order. -/
theorem lookupCollections_ok {α : Type} (b : Blockchain)
    (lookup : Option String → Identifier → Except EmulatorError α) :
    ∀ (k : Nat) {cols : List LightCollection},
      (∀ col ∈ cols, b.GetCollectionByID C none (C.CollectionID col) = .ok col) →
      (∀ txID ∈ cols.flatMap (·.Transactions), ∃ item, lookup none txID = .ok item) →
      ∃ items, b.lookupCollections C lookup (fun _ => none) k (cols.map C.CollectionID) = .ok items ∧
        List.Forall₂ (fun txID item => lookup none txID = .ok item) (cols.flatMap (·.Transactions)) items
  | _, [], _, _ => ⟨[], rfl, .nil⟩
  | k, col :: cols, hcols, hok => by
    rw [List.flatMap_cons] at hok ⊢
    obtain ⟨items, hitems, hall⟩ := lookupTransactions_ok lookup (k + 1)
      fun id hid => hok id (List.mem_append_left _ hid)
    obtain ⟨rest, hrest, hall'⟩ := lookupCollections_ok b lookup (k + 1 + col.Transactions.length)
      (fun c hc => hcols c (List.mem_cons_of_mem _ hc)) fun id hid => hok id (List.mem_append_right _ hid)
    refine ⟨items ++ rest, ?_, List.rel_append hall hall'⟩
    simp only [List.map_cons, lookupCollections, hcols col (List.mem_cons_self _ _), hitems, hrest]
    rfl

variable {C}

/-- On a store that answers, with distinct block and collection IDs, the by-block body
over a committed block's ID runs `lookup` on each of the block's transactions, in order. -/
theorem lookupByBlockID_of_committed {α : Type} {b : Blockchain}
    (hpayload : b.storage.PayloadValid C.toHashing)
    (hblocks : (b.storage.blocks.map fun stored => C.BlockID stored.Block).Nodup)
    (hcols : (b.storage.collections.map C.CollectionID).Nodup)
    (lookup : Option String → Identifier → Except EmulatorError α) {stored : StoredBlock}
    (hmem : stored ∈ b.storage.blocks)
    (hok : ∀ entry ∈ stored.Transactions, ∃ item, lookup none entry.1 = .ok item) :
    ∃ items, b.lookupByBlockID C lookup (fun _ => none) (C.BlockID stored.Block) = .ok items ∧
      List.Forall₂ (fun (entry : Identifier × TransactionBody) item => lookup none entry.1 = .ok item)
        stored.Transactions items := by
  have hblock : b.GetBlockByID C none (C.BlockID stored.Block) = .ok (stored.Block, .Sealed) := by
    simp [GetBlockByID, withFault, Store.BlockByID_of_nodup hblocks hmem]
  have hcol : ∀ col ∈ stored.Collections,
      b.GetCollectionByID C none (C.CollectionID col) = .ok col := fun col hcol => by
    simp [GetCollectionByID, withFault,
      Store.CollectionByID_of_nodup hcols (List.mem_flatMap_of_mem hmem hcol)]
  have htxIDs := hpayload.collections stored hmem
  obtain ⟨items, hitems, hall⟩ := lookupCollections_ok C b lookup 1 hcol fun txID htxID => by
    obtain ⟨entry, hentry, rfl⟩ := List.mem_map.mp (htxIDs ▸ htxID)
    exact hok entry hentry
  refine ⟨items, ?_, List.forall₂_map_left_iff.mp (htxIDs ▸ hall)⟩
  simpa only [lookupByBlockID, hblock, hpayload.guarantees stored hmem] using hitems

/-- Lookups that answer each key with a known value answer a list of keys with those
values. -/
private theorem forall₂_ok_eq_map {α β : Type} {f : α → Except EmulatorError β} {g : α → β} :
    ∀ {l : List α} {items : List β}, (∀ a ∈ l, f a = .ok (g a)) →
      List.Forall₂ (fun a item => f a = .ok item) l items → items = l.map g
  | [], [], _, .nil => rfl
  | a :: _, _ :: _, hg, .cons hitem hall => by
    rw [hg a (List.mem_cons_self _ _)] at hitem
    rw [List.map_cons, ← Except.ok.inj hitem,
      forall₂_ok_eq_map (fun a ha => hg a (List.mem_cons_of_mem _ ha)) hall]

/-- `uint32(n) <= index` compares `n` modulo 2^32 with the index. -/
private theorem UInt32.ofNat_le_iff (n : Nat) (index : UInt32) :
    UInt32.ofNat n ≤ index ↔ n % UInt32.size ≤ index.toNat := by
  rw [UInt32.le_def, BitVec.le_def]
  rfl

/-- `GetTransactionResultByIndex` over the results of its block: `NotFound` from their
number modulo 2^32 on, the result at the index below it. -/
theorem GetTransactionResultByIndex_of_results {b : Blockchain} {faults : Nat → Option String}
    {id : Identifier} {results : List AccessTransactionResult}
    (hresults : b.GetTransactionResultsByBlockID C faults id = .ok results) (index : UInt32) :
    (results.length % UInt32.size ≤ index.toNat → b.GetTransactionResultByIndex C faults id index =
      .error (.Status .NotFound "TransactionResult not found")) ∧
    (index.toNat < results.length % UInt32.size → ∃ result, results[index.toNat]? = some result ∧
      b.GetTransactionResultByIndex C faults id index = .ok result) := by
  constructor
  · intro hle
    simp [GetTransactionResultByIndex, hresults, (UInt32.ofNat_le_iff _ _).mpr hle]
  · intro hlt
    have hlt' : index.toNat < results.length := lt_of_lt_of_le hlt (Nat.mod_le _ _)
    have hget := List.getElem?_eq_getElem hlt'
    refine ⟨results[index.toNat], hget, ?_⟩
    simp [GetTransactionResultByIndex, hresults, (UInt32.ofNat_le_iff _ _).not.mpr (not_le.mpr hlt),
      hget]

/-- The by-block queries over a run. In every reachable blockchain whose store answers,
with distinct block IDs and distinct collection IDs, the ID of a committed block gives
its transactions, in the order they were queued; one result per transaction, each the
`Sealed` result stored for it; and, by index, the result at each index below the number
of transactions modulo 2^32, and `NotFound` at every other index. -/
theorem Reachable.GetTransactionsByBlockID_of_committed {b : Blockchain} (hreach : Reachable C F b)
    (hblocks : (b.storage.blocks.map fun stored => C.BlockID stored.Block).Nodup)
    (hcols : (b.storage.collections.map C.CollectionID).Nodup) {stored : StoredBlock}
    (hmem : stored ∈ b.storage.blocks) :
    b.GetTransactionsByBlockID C (fun _ => none) (C.BlockID stored.Block) =
        .ok (stored.Transactions.map (·.2)) ∧
      ∃ results, b.GetTransactionResultsByBlockID C (fun _ => none) (C.BlockID stored.Block) =
          .ok results ∧
        List.Forall₂ (fun (entry : Identifier × TransactionBody) result =>
          ∃ sealed, b.storage.TransactionResultByID entry.1 = .ok sealed ∧
            result = ⟨.Sealed, sealed.ErrorCode, sealed.ErrorMessage, sealed.Events, entry.1, 0⟩)
          stored.Transactions results ∧
        ∀ index : UInt32,
          (stored.Transactions.length % UInt32.size ≤ index.toNat →
            b.GetTransactionResultByIndex C (fun _ => none) (C.BlockID stored.Block) index =
              .error (.Status .NotFound "TransactionResult not found")) ∧
          (index.toNat < stored.Transactions.length % UInt32.size → ∃ result,
            results[index.toNat]? = some result ∧
              b.GetTransactionResultByIndex C (fun _ => none) (C.BlockID stored.Block) index =
                .ok result) := by
  obtain ⟨-, hvalid⟩ := hreach.transactionsValid
  have hpayload := hreach.payloadValid
  have hstored : ∀ entry ∈ stored.Transactions, entry ∈ b.storage.transactions :=
    fun _ hentry => List.mem_flatMap_of_mem hmem hentry
  have hcommitted : ∀ entry ∈ stored.Transactions, entry.1 ∈ b.storage.collectionTransactionIDs :=
    fun entry hentry => hvalid.stored ▸ List.mem_map_of_mem _ (hstored entry hentry)
  have htx : ∀ entry ∈ stored.Transactions, b.GetTransaction C none entry.1 = .ok entry.2 :=
    fun entry hentry => hvalid.GetTransaction_of_committed (hstored entry hentry)
  obtain ⟨txs, htxs, hall⟩ := lookupByBlockID_of_committed hpayload hblocks hcols
    (b.GetTransaction C) hmem fun entry hentry => ⟨_, htx entry hentry⟩
  obtain ⟨results, hresults, hall'⟩ := lookupByBlockID_of_committed hpayload hblocks hcols
    (b.GetTransactionResult C) hmem fun entry hentry =>
      let ⟨_, _, hresult⟩ := hvalid.GetTransactionResult_of_committed (hcommitted entry hentry)
      ⟨_, hresult⟩
  refine ⟨forall₂_ok_eq_map htx hall ▸ htxs, results, hresults,
    ((List.forall₂_and_left _ _).mpr ⟨fun _ hentry => hentry, hall'⟩).imp
      fun entry result ⟨hentry, hresult⟩ => ?_, fun index => ?_⟩
  · rw [hall'.length_eq]
    exact GetTransactionResultByIndex_of_results hresults index
  · obtain ⟨sealed, hfind, h⟩ := hvalid.GetTransactionResult_of_committed (hcommitted entry hentry)
    exact ⟨sealed, hfind, Except.ok.inj (hresult.symm.trans h)⟩

/-- A run of calls in one environment from a reachable blockchain stays reachable. -/
theorem Reachable.calls (env : Environment) (hF : ∀ k, F (env.vmFault k)) :
    ∀ (calls : List Call) {b : Blockchain}, Reachable C F b →
      Reachable C F (calls.foldl (fun b call => call.apply C env b) b)
  | [], _, hreach => hreach
  | c :: calls, _, hreach => Reachable.calls env hF calls (.call env c hF hreach)

variable (C)

/-- `ExecuteBlock`'s loop returns no error when every call it can make from a state of
`I` succeeds, into a state of `I`. -/
theorem executeLoop_eq_none_of_ok {ctx : Context} {vmFault : Nat → Option (Delta × FatalError)}
    {I : Blockchain → Prop}
    (hok : ∀ (b : Blockchain) (k : Nat), I b → b.pendingBlock.ExecutionComplete = false →
      ∃ result b', b.executeNextTransaction C ctx (vmFault k) = (.ok result, b') ∧ I b') :
    ∀ (fuel : Nat) (results : List TransactionResult) (b : Blockchain), I b →
      ∃ results' b', executeLoop C ctx vmFault fuel results b = (results', none, b')
  | 0, results, b, _ => ⟨results, b, rfl⟩
  | fuel + 1, results, b, hb => by
    rw [executeLoop]
    cases hdone : b.pendingBlock.ExecutionComplete
    · obtain ⟨result, b', hstep, hb'⟩ := hok b results.length hb hdone
      simp only [Bool.false_eq_true, if_false, hstep]
      exact executeLoop_eq_none_of_ok hok fuel _ b' hb'
    · exact ⟨results, b, by simp⟩

end Blockchain

/-- `n` transactions that `sampleCollaborators` tells apart, with IDs 1 to `n`. -/
def sampleBatch (n : Nat) : List TransactionBody :=
  (List.range n).map fun k => sampleTransaction (k + 1)

/-- The calls that queue `sampleBatch n` on a blockchain, execute the block and commit it. -/
def sampleBatchCalls (n : Nat) : List Call :=
  (sampleBatch n).map .AddTransaction ++ [.ExecuteBlock, .CommitBlock]

/-- The blockchain `sampleBatchCalls n` leaves, run from the genesis blockchain. -/
def sampleBatchRun (n : Nat) : Blockchain :=
  (sampleBatchCalls n).foldl (fun b call => call.apply sampleCollaborators .calm b) sampleGenesis

namespace Blockchain

/-- Queuing `sampleBatch n` on the genesis blockchain admits every transaction, in order. -/
theorem sampleBatch_queued : ∀ n : Nat,
    ((sampleBatch n).map Call.AddTransaction).foldl
        (fun b call => call.apply sampleCollaborators .calm b) sampleGenesis =
      { sampleGenesis with
        pendingBlock := { sampleGenesis.pendingBlock with transactions := sampleBatch n } }
  | 0 => rfl
  | n + 1 => by
    have hbatch : sampleBatch (n + 1) = sampleBatch n ++ [sampleTransaction (n + 1)] := by
      simp [sampleBatch, List.range_succ]
    have hadmits : Admits sampleCollaborators .calm
        { sampleGenesis with
          pendingBlock := { sampleGenesis.pendingBlock with transactions := sampleBatch n } }
        (sampleTransaction (n + 1)) :=
      ⟨rfl, by simp [sampleBatch, sampleCollaborators, sampleTransaction], rfl, rfl, rfl⟩
    rw [hbatch, List.map_append, List.foldl_append, sampleBatch_queued n, List.map_singleton,
      List.foldl_cons, List.foldl_nil, Call.apply, AddTransaction_of_admits _ hadmits]
    rfl

/-- Every VM run of `sampleCollaborators` succeeds, so does every call on a transaction. -/
theorem sample_executeNextTransaction_ok {b : Blockchain} {ctx : Context}
    (hincomplete : b.pendingBlock.ExecutionComplete = false) :
    ∃ result b', b.executeNextTransaction sampleCollaborators ctx none = (.ok result, b') := by
  obtain ⟨tx, htx⟩ : ∃ tx, b.pendingBlock.transactions[b.pendingBlock.index]? = some tx :=
    ⟨_, List.getElem?_eq_getElem ((PendingBlock.ExecutionComplete_eq_false_iff _).mp hincomplete)⟩
  have hrun : (vmRun sampleCollaborators ctx (.Transaction tx (UInt32.ofNat b.pendingBlock.index))
      b.pendingBlock.ledgerView.read none).result = .ok ⟨none, [], [], 0, none⟩ := rfl
  exact ⟨_, _, executeNextTransaction_of_run_ok sampleCollaborators htx hrun⟩

/-- `convertToSealedResults` of `sampleCollaborators` never fails. -/
theorem sample_convertToSealedResults :
    ∀ transactionResults : List (Identifier × IndexedTransactionResult),
      convertToSealedResults sampleCollaborators transactionResults =
        .ok (transactionResults.map fun entry => (entry.1, ⟨0, "", [], []⟩))
  | [] => rfl
  | (id, result) :: transactionResults => by
    show (convertToSealedResults sampleCollaborators transactionResults).map _ = _
    rw [sample_convertToSealedResults transactionResults]
    rfl

/-- Queuing `sampleBatch n` (`n > 0`) on the genesis blockchain, executing the block and
committing it appends one block, whose transactions are the batch, in one collection. -/
theorem sampleBatchRun_storage {n : Nat} (hn : 0 < n) :
    ∃ stored, (sampleBatchRun n).storage.blocks = sampleGenesis.storage.blocks ++ [stored] ∧
      stored.Transactions = (sampleBatch n).map (fun tx => (sampleCollaborators.TransactionID tx, tx)) ∧
      stored.Collections = [⟨(sampleBatch n).map sampleCollaborators.TransactionID⟩] := by
  set b₀ : Blockchain := { sampleGenesis with
    pendingBlock := { sampleGenesis.pendingBlock with transactions := sampleBatch n } }
  have hne : b₀.pendingBlock.transactions ≠ [] := by
    simpa [b₀, sampleBatch] using Nat.pos_iff_ne_zero.mp hn
  have hlt : b₀.pendingBlock.index < b₀.pendingBlock.transactions.length :=
    List.length_pos.mpr hne
  obtain ⟨results, b₁, hexec⟩ : ∃ results b₁, b₀.ExecuteBlock sampleCollaborators .calm =
      (results, none, b₁) := by
    simp only [ExecuteBlock, (PendingBlock.Empty_eq_false_iff _).mpr hne,
      (PendingBlock.ExecutionComplete_eq_false_iff _).mpr hlt, Bool.false_eq_true, if_false]
    exact executeLoop_eq_none_of_ok sampleCollaborators (I := fun _ => True)
      (fun _ _ _ hincomplete => (sample_executeNextTransaction_ok hincomplete).imp
        fun _ => Exists.imp fun _ hstep => ⟨hstep, trivial⟩) _ _ _ trivial
  obtain ⟨hstorage, -, hqueue, -, hcomplete⟩ := ExecuteBlock_of_none hexec hne rfl
  have hreach₀ : Reachable sampleCollaborators (fun _ => True) b₀ := by
    have hcalls := Reachable.calls .calm (fun _ => trivial) ((sampleBatch n).map Call.AddTransaction)
      (Reachable.of_sampleGenesis (F := fun _ => True))
    rwa [sampleBatch_queued] at hcalls
  have hcount := (ExecuteBlock_countsMatch hreach₀.transactionsValid.2 (Nat.zero_le _) rfl hexec).2
  refine ⟨b₁.pendingBlock.storedBlock sampleCollaborators.toHashing
    (b₁.pendingBlock.transactionResults.map fun entry => (entry.1, ⟨0, "", [], []⟩)), ?_, ?_, ?_⟩
  · rw [sampleBatchRun, sampleBatchCalls, List.foldl_append, sampleBatch_queued]
    simp only [List.foldl_cons, List.foldl_nil, Call.apply, hexec, CommitBlock,
      commitBlock_of_complete _ hcomplete, sample_convertToSealedResults, hcount, if_true]
    simp only [committed, hstorage]
    rfl
  · simp [PendingBlock.storedBlock, PendingBlock.Transactions, hqueue, b₀]
  · simp [PendingBlock.storedBlock, PendingBlock.Collections, hqueue, b₀, hne]

/-- `sampleCollaborators` identifies a block by its height, so the blocks of a valid
chain have distinct IDs. -/
theorem Valid.sample_blockIDs_nodup {b : Blockchain} (hvalid : b.Valid sampleCollaborators) :
    (b.storage.blocks.map fun stored => sampleCollaborators.BlockID stored.Block).Nodup := by
  have hheights : (b.storage.blocks.map fun stored => sampleCollaborators.BlockID stored.Block) =
      List.range b.storage.blocks.length :=
    List.ext_getElem (by simp) fun i hi _ => by
      rw [List.getElem_map, List.getElem_range]
      exact hvalid.chained.heights i (by simpa using hi)
  rw [hheights]
  exact List.nodup_range _

/-- Queuing `sampleBatch n` (`n > 0`) on the genesis blockchain, executing the block and
committing it gives a reachable blockchain whose new block holds the batch and has `n`
sealed results, and `GetTransactionResultByIndex` answers `NotFound` at every index from
`n` modulo 2^32 on. -/
theorem sampleBatchRun_results {n : Nat} (hn : 0 < n) :
    Reachable sampleCollaborators (fun _ => True) (sampleBatchRun n) ∧
      ∃ stored ∈ (sampleBatchRun n).storage.blocks, stored.Transactions.map (·.2) = sampleBatch n ∧
        ∃ results, (sampleBatchRun n).GetTransactionResultsByBlockID sampleCollaborators
            (fun _ => none) (sampleCollaborators.BlockID stored.Block) = .ok results ∧
          results.length = n ∧
          ∀ index : UInt32, n % UInt32.size ≤ index.toNat →
            (sampleBatchRun n).GetTransactionResultByIndex sampleCollaborators (fun _ => none)
              (sampleCollaborators.BlockID stored.Block) index =
                .error (.Status .NotFound "TransactionResult not found") := by
  have hreach : Reachable sampleCollaborators (fun _ => True) (sampleBatchRun n) :=
    Reachable.calls .calm (fun _ => trivial) _ Reachable.of_sampleGenesis
  obtain ⟨stored, hblocks, htxs, hcols⟩ := sampleBatchRun_storage hn
  have hmem : stored ∈ (sampleBatchRun n).storage.blocks := by
    rw [hblocks]
    exact List.mem_append_right _ (List.mem_singleton_self _)
  have hcolIDs : ((sampleBatchRun n).storage.collections.map sampleCollaborators.CollectionID).Nodup := by
    simp only [Store.collections, hblocks, List.flatMap_append, List.flatMap_singleton, hcols]
    exact List.nodup_singleton _
  have hlength : stored.Transactions.length = n := by
    simp [htxs, sampleBatch]
  obtain ⟨-, results, hresults, hsealed, hindex⟩ := hreach.GetTransactionsByBlockID_of_committed
    (Valid.sample_blockIDs_nodup hreach.valid) hcolIDs hmem
  refine ⟨hreach, stored, hmem, by rw [htxs, List.map_map]; exact List.map_id _, results, hresults,
    hsealed.length_eq.symm.trans hlength, fun index hle => (hindex index).1 (hlength ▸ hle)⟩

/-- A block of 2^32 transactions. Queuing `sampleBatch UInt32.size` on the genesis
blockchain, executing the block and committing it gives a reachable blockchain whose new
block has 2^32 sealed results, yet `GetTransactionResultByIndex` answers `NotFound` at
every index: the length converted to `uint32` is 0. -/
theorem GetTransactionResultByIndex_wraps_at_two_pow_32 :
    Reachable sampleCollaborators (fun _ => True) (sampleBatchRun UInt32.size) ∧
      ∃ stored ∈ (sampleBatchRun UInt32.size).storage.blocks,
        stored.Transactions.map (·.2) = sampleBatch UInt32.size ∧
        ∃ results, (sampleBatchRun UInt32.size).GetTransactionResultsByBlockID sampleCollaborators
            (fun _ => none) (sampleCollaborators.BlockID stored.Block) = .ok results ∧
          results.length = UInt32.size ∧
          ∀ index : UInt32,
            (sampleBatchRun UInt32.size).GetTransactionResultByIndex sampleCollaborators (fun _ => none)
              (sampleCollaborators.BlockID stored.Block) index =
                .error (.Status .NotFound "TransactionResult not found") := by
  obtain ⟨hreach, stored, hmem, htxs, results, hresults, hlength, hindex⟩ :=
    sampleBatchRun_results (by decide : 0 < UInt32.size)
  exact ⟨hreach, stored, hmem, htxs, results, hresults, hlength,
    fun index => hindex index (Nat.mod_self UInt32.size ▸ Nat.zero_le _)⟩

end Blockchain

end flow_emulator.emulator
