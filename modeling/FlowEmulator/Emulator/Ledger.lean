import FlowEmulator.Emulator.Transactions

namespace flow_emulator.storage

open flow_emulator.flowgo

/-- Above every committed height the ledger history is the whole chain's. -/
theorem Store.ledgerAt_of_forall_le {store : Store} {height : Nat}
    (hle : ∀ stored ∈ store.blocks, stored.Block.Header.Height ≤ height) :
    store.ledgerAt height =
      store.blocks.foldl (fun ledger stored => ledger.apply stored.Delta) Ledger.empty := by
  rw [Store.ledgerAt, List.filter_eq_self.mpr (fun stored hmem => decide_eq_true (hle stored hmem))]

/-- Every block of a chained store sits below the store's length. -/
theorem Store.Chained.height_lt {H : Hashing} {store : Store} (hchain : store.Chained H) :
    ∀ stored ∈ store.blocks, stored.Block.Header.Height < store.blocks.length := by
  intro stored hmem
  obtain ⟨i, hi, rfl⟩ := List.getElem_of_mem hmem
  rw [hchain.heights i hi]
  exact hi

/-- Appending a block above `height` leaves the ledger history at `height` as it was. -/
theorem Store.ledgerAt_append_of_lt (store : Store) {stored : StoredBlock} {height : Nat}
    (hlt : height < stored.Block.Header.Height) :
    (⟨store.blocks ++ [stored]⟩ : Store).ledgerAt height = store.ledgerAt height := by
  rw [Store.ledgerAt_append, if_neg (by omega)]

end flow_emulator.storage

namespace flow_emulator.emulator

open flow_emulator.flowgo flow_emulator.types flow_emulator.storage

/-- The ledger after the transactions `txs` ran one after another from `ledger` in
context `ctx`, the `k`-th at queue position `index + k`, every run completing: what
executing a pending block's queue computes. -/
def replay (C : Collaborators) (ctx : Context) : Ledger → Nat → List TransactionBody → Ledger
  | ledger, _, [] => ledger
  | ledger, index, tx :: txs =>
    replay C ctx (ledger.apply (C.Run ctx (.Transaction tx (UInt32.ofNat index)) ledger).writes)
      (index + 1) txs

theorem replay_concat (C : Collaborators) (ctx : Context) (tx : TransactionBody) :
    ∀ (txs : List TransactionBody) (ledger : Ledger) (index : Nat),
      replay C ctx ledger index (txs ++ [tx]) =
        (replay C ctx ledger index txs).apply
          (C.Run ctx (.Transaction tx (UInt32.ofNat (index + txs.length)))
            (replay C ctx ledger index txs)).writes
  | [], _, _ => rfl
  | tx' :: txs, ledger, index => by
    have hrest := replay_concat C ctx tx txs
      (ledger.apply (C.Run ctx (.Transaction tx' (UInt32.ofNat index)) ledger).writes) (index + 1)
    rw [Nat.add_assoc, Nat.add_comm 1] at hrest
    exact hrest

/-- A run that completes met no fault: it is the VM's own run. -/
theorem vmRun_of_ok {C : Collaborators} {ctx : Context} {proc : Procedure} {ledger : Ledger}
    {fault : Option (Delta × FatalError)} {out : ProcedureOutput}
    (h : (vmRun C ctx proc ledger fault).result = .ok out) :
    vmRun C ctx proc ledger fault = C.Run ctx proc ledger := by
  cases fault with
  | none => rfl
  | some fault => cases h

namespace Blockchain

variable {C : Collaborators} {F : Option (Delta × FatalError) → Prop}

/-- The ledger invariant, over the chain invariant. The pending view is a child of the
ledger committed just below the pending block. The block holds at most one result per
executed position, and while it holds one for each, the view reads that ledger with
`queue[0..cursor)` replayed in order in the context of the block's header. Each block
committed above genesis with one sealed result per transaction holds the ledger below
it with its transactions replayed the same way. -/
structure LedgerValid (C : Collaborators) (b : Blockchain) extends Valid C b : Prop where
  recorded : b.pendingBlock.transactionResults.length ≤ b.pendingBlock.index
  pendingBase : b.pendingBlock.ledgerView.base = b.storage.ledgerAt (b.pendingBlock.height - 1)
  pendingRead : b.pendingBlock.transactionResults.length = b.pendingBlock.index →
    b.pendingBlock.ledgerView.read =
      replay C ⟨some (b.pendingBlock.Block C.toHashing).Header⟩ b.pendingBlock.ledgerView.base 0
        (b.pendingBlock.transactions.take b.pendingBlock.index)
  committed : ∀ i (hi : i < b.storage.blocks.length), 0 < i →
    b.storage.blocks[i].TransactionResults.length = b.storage.blocks[i].Transactions.length →
    b.storage.ledgerAt i = replay C ⟨some b.storage.blocks[i].Block.Header⟩
      (b.storage.ledgerAt (i - 1)) 0 (b.storage.blocks[i].Transactions.map (·.2))

/-- `executeNextTransaction` never moves the pending view off its base. -/
theorem executeNextTransaction_base {b b' : Blockchain} {ctx : Context}
    {fault : Option (Delta × FatalError)} {r : Except EmulatorError TransactionResult}
    (h : b.executeNextTransaction C ctx fault = (r, b')) :
    b'.pendingBlock.ledgerView.base = b.pendingBlock.ledgerView.base := by
  rcases executeNextTransaction_cases C h with ⟨-, -, rfl⟩ | ⟨_, _, -, -, -, rfl⟩ | ⟨_, _, -, -, rfl⟩ <;>
    rfl

/-- One `executeNextTransaction` records at most one result, and keeps the pending view
the replay of the executed prefix while every executed position has its result. -/
theorem executeNextTransaction_pendingRead {b b' : Blockchain} {fault : Option (Delta × FatalError)}
    {r : Except EmulatorError TransactionResult}
    (h : b.executeNextTransaction C ⟨some (b.pendingBlock.Block C.toHashing).Header⟩ fault = (r, b'))
    (hrecorded : b.pendingBlock.transactionResults.length ≤ b.pendingBlock.index)
    (hread : b.pendingBlock.transactionResults.length = b.pendingBlock.index →
      b.pendingBlock.ledgerView.read =
        replay C ⟨some (b.pendingBlock.Block C.toHashing).Header⟩ b.pendingBlock.ledgerView.base 0
          (b.pendingBlock.transactions.take b.pendingBlock.index)) :
    b'.pendingBlock.transactionResults.length ≤ b'.pendingBlock.index ∧
    (b'.pendingBlock.transactionResults.length = b'.pendingBlock.index →
      b'.pendingBlock.ledgerView.read =
        replay C ⟨some (b.pendingBlock.Block C.toHashing).Header⟩ b.pendingBlock.ledgerView.base 0
          (b'.pendingBlock.transactions.take b'.pendingBlock.index)) := by
  rcases executeNextTransaction_cases C h with ⟨-, -, rfl⟩ | ⟨_, _, -, -, -, rfl⟩ |
    ⟨tx, _, htx, hok, rfl⟩
  · exact ⟨hrecorded, hread⟩
  · exact ⟨Nat.le_succ_of_le hrecorded, fun hcount => absurd hcount (by dsimp only; omega)⟩
  · simp only [advancedPendingBlock_index]
    refine ⟨(advancedPendingBlock_results_length C _ _ _ _).trans (by omega), fun hcount => ?_⟩
    have hprev : b.pendingBlock.transactionResults.length = b.pendingBlock.index := by
      have := hcount.symm.trans_le (advancedPendingBlock_results_length C _ _ _ _)
      omega
    obtain ⟨hlt, -⟩ := List.getElem?_eq_some_iff.mp htx
    rw [vmRun_of_ok hok]
    simp only [advancedPendingBlock, View.read_write, hread hprev]
    rw [List.take_succ, htx, Option.toList_some, replay_concat, Nat.zero_add,
      List.length_take_of_le hlt.le]

/-- A commit keeps every committed ledger: the blocks below are untouched, and the new
block, when it sealed one result per transaction, holds the replay of its whole queue. -/
theorem LedgerValid.committed_of_commit {b : Blockchain} (hvalid : b.LedgerValid C)
    {env : Environment} {transactionResults : List (Identifier × StorableTransactionResult)}
    (hcomplete : b.pendingBlock.transactions = [] ∨
      (0 < b.pendingBlock.index ∧ b.pendingBlock.transactions.length ≤ b.pendingBlock.index))
    (hconv : convertToSealedResults C b.pendingBlock.transactionResults = .ok transactionResults)
    (i : Nat) (hi : i < (b.committed C env transactionResults).storage.blocks.length) (hpos : 0 < i)
    (hcount : (b.committed C env transactionResults).storage.blocks[i].TransactionResults.length =
      (b.committed C env transactionResults).storage.blocks[i].Transactions.length) :
    (b.committed C env transactionResults).storage.ledgerAt i =
      replay C ⟨some (b.committed C env transactionResults).storage.blocks[i].Block.Header⟩
        ((b.committed C env transactionResults).storage.ledgerAt (i - 1)) 0
        ((b.committed C env transactionResults).storage.blocks[i].Transactions.map (·.2)) := by
  obtain ⟨latest, hlatest, -, hheight⟩ := hvalid.onLatest
  have hlen := hvalid.chained.latest_height hlatest
  have hall := PendingBlock.take_index_of_complete hcomplete
  have hstored : (b.pendingBlock.storedBlock C.toHashing transactionResults).Block.Header.Height =
      b.storage.blocks.length := by
    rw [PendingBlock.storedBlock_height]
    omega
  simp only [Blockchain.committed, List.length_append, List.length_singleton] at hi hcount ⊢
  rcases Nat.lt_or_ge i b.storage.blocks.length with hlt | hge
  · simp only [List.getElem_append_left hlt] at hcount ⊢
    rw [Store.ledgerAt_append_of_lt _ (by omega), Store.ledgerAt_append_of_lt _ (by omega)]
    exact hvalid.committed i hlt hpos hcount
  · have hi' : i = b.storage.blocks.length := by omega
    subst hi'
    -- the new block sealed one result per transaction: no executed position failed
    rw [List.getElem_concat_length _ _ _ rfl] at hcount
    have hrecorded := PendingBlock.recorded_of_sealed hconv
      (PendingBlock.index_of_complete hcomplete hvalid.cursor) hcount
    rw [List.getElem_concat_length _ _ _ rfl, Store.ledgerAt_append, if_pos (by omega),
      Store.ledgerAt_append_of_lt _ (by omega),
      Store.ledgerAt_of_forall_le (fun s hs => (hvalid.chained.height_lt s hs).le),
      ← Store.ledgerAt_of_forall_le (fun s hs => Nat.le_sub_one_of_lt (hvalid.chained.height_lt s hs)),
      PendingBlock.storedBlock_transactions]
    have hbase : b.storage.ledgerAt (b.storage.blocks.length - 1) =
        b.pendingBlock.ledgerView.base := by
      rw [hvalid.pendingBase, hheight, ← hlen]
    rw [hbase, ← hall]
    exact hvalid.pendingRead hrecorded

/-- Every primitive step keeps the ledger invariant, whatever VM fault it meets. -/
theorem Step.ledgerValid {b b' : Blockchain} (hstep : Step C F b b') (hvalid : b.LedgerValid C) :
    b'.LedgerValid C := by
  have hchain := hstep.valid hvalid.toValid
  cases hstep with
  | configure =>
    exact ⟨hchain, hvalid.recorded, hvalid.pendingBase, hvalid.pendingRead, hvalid.committed⟩
  | enqueue env b tx hadmits =>
    refine ⟨hchain, hvalid.recorded, hvalid.pendingBase, ?_, hvalid.committed⟩
    simpa [hadmits.notStarted] using hvalid.pendingRead
  | execute _ h =>
    obtain ⟨hstorage, -, -, -, hheader⟩ := executeNextTransaction_frame C h
    obtain ⟨-, hheight, -⟩ := executeNextTransaction_pending h hvalid.cursor
    have hbase := executeNextTransaction_base h
    obtain ⟨hrecorded, hread⟩ := executeNextTransaction_pendingRead h hvalid.recorded hvalid.pendingRead
    refine ⟨hchain, hrecorded, ?_, ?_, hstorage ▸ hvalid.committed⟩
    · rw [hbase, hstorage, hheight]
      exact hvalid.pendingBase
    · rw [hheader, hbase]
      exact hread
  | commit env b transactionResults hcomplete _ hconv =>
    exact ⟨hchain, Nat.le_refl 0,
      by simp [committed, newPendingBlock, PendingBlock.Block, Store.LedgerViewByHeight], fun _ => rfl,
      hvalid.committed_of_commit hcomplete hconv⟩
  | reset b latestBlock viewIncrease now _ =>
    exact ⟨hchain, Nat.le_refl 0, by simp [newPendingBlock, Store.LedgerViewByHeight], fun _ => rfl,
      hvalid.committed⟩

theorem NewBlockchain_ledgerValid_of_empty {env : Environment} {serviceKey : emulator.ServiceKey}
    {b : Blockchain} (h : NewBlockchain C env Store.empty serviceKey = .ok b) : b.LedgerValid C := by
  obtain ⟨writes, hblocks, hpending⟩ := NewBlockchain_of_empty C h
  refine ⟨NewBlockchain_valid_of_empty h, ?_, ?_, fun _ => ?_, fun i hi hpos => ?_⟩
  any_goals rw [hpending]; rfl
  simp only [hblocks, List.length_singleton] at hi
  omega

theorem NewBlockchain_ledgerValid_of_valid {b₀ b : Blockchain} {env : Environment}
    {serviceKey : emulator.ServiceKey} (hvalid : b₀.LedgerValid C)
    (h : NewBlockchain C env b₀.storage serviceKey = .ok b) : b.LedgerValid C := by
  obtain ⟨hstorage, latest, -, hpending⟩ :=
    NewBlockchain_of_nonempty C hvalid.chained.nonempty h
  refine ⟨NewBlockchain_valid_of_valid hvalid.toValid h, ?_, ?_, fun _ => ?_, hstorage ▸ hvalid.committed⟩
  · rw [hpending]
    exact Nat.le_refl 0
  · rw [hpending, hstorage]
    rfl
  · rw [hpending]
    rfl

/-- Every reachable blockchain satisfies the ledger invariant, whatever faults its calls
met. -/
theorem Reachable.ledgerValid {b : Blockchain} (hreach : Reachable C F b) : b.LedgerValid C :=
  Reachable.invariant (fun _ _ _ h => NewBlockchain_ledgerValid_of_empty h)
    (fun _ _ _ _ hvalid h => NewBlockchain_ledgerValid_of_valid hvalid h)
    (fun _ _ hstep hvalid => hstep.ledgerValid hvalid) hreach

end Blockchain

end flow_emulator.emulator
