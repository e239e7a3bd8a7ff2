import FlowEmulator.Emulator.Execute

namespace flow_emulator.emulator

open flow_emulator.flowgo flow_emulator.types flow_emulator.storage

/-- What `commitBlock` stores for a pending block, given its sealed results. -/
def PendingBlock.storedBlock (H : Hashing) (pb : PendingBlock)
    (transactionResults : List (Identifier × StorableTransactionResult)) : StoredBlock :=
  ⟨pb.Block H, pb.Collections H, pb.Transactions H, transactionResults, pb.LedgerDelta, pb.Events⟩

@[simp] theorem PendingBlock.storedBlock_height (H : Hashing) (pb : PendingBlock)
    (transactionResults : List (Identifier × StorableTransactionResult)) :
    (pb.storedBlock H transactionResults).Block.Header.Height = pb.height := rfl

/-- A stored pending block keeps its queue, in order. -/
@[simp] theorem PendingBlock.storedBlock_transactions (H : Hashing) (pb : PendingBlock)
    (transactionResults : List (Identifier × StorableTransactionResult)) :
    (pb.storedBlock H transactionResults).Transactions.map (·.2) = pb.transactions := by
  simp only [PendingBlock.storedBlock, PendingBlock.Transactions, List.map_map]
  exact List.map_id _

/-- A stored pending block's transactions are keyed by their IDs, in queue order. -/
@[simp] theorem PendingBlock.Transactions_keys (H : Hashing) (pb : PendingBlock) :
    (pb.Transactions H).map (·.1) = pb.transactions.map H.TransactionID := by
  simp [PendingBlock.Transactions]

/-- A block `commitBlock` accepts, empty or complete, has executed its whole queue. -/
theorem PendingBlock.take_index_of_complete {pb : PendingBlock}
    (hcomplete : pb.transactions = [] ∨ (0 < pb.index ∧ pb.transactions.length ≤ pb.index)) :
    pb.transactions.take pb.index = pb.transactions := by
  rcases hcomplete with hnil | ⟨-, hle⟩
  · simp [hnil]
  · exact List.take_of_length_le hle

/-- A complete block's cursor stands at the end of its queue. -/
theorem PendingBlock.index_of_complete {pb : PendingBlock}
    (hcomplete : pb.transactions = [] ∨ (0 < pb.index ∧ pb.transactions.length ≤ pb.index))
    (hcursor : pb.index ≤ pb.transactions.length) : pb.index = pb.transactions.length := by
  rcases hcomplete with hnil | ⟨-, hle⟩
  · simp only [hnil, List.length_nil] at hcursor ⊢
    omega
  · omega

/-- The storage backends' count check, met by a pending block: its queue holds as many
distinct transaction IDs as it has recorded results. -/
def PendingBlock.countsMatch (H : Hashing) (pb : PendingBlock) : Prop :=
  (pb.transactions.map H.TransactionID).dedup.length = (pb.transactionResults.map (·.1)).dedup.length

instance (H : Hashing) (pb : PendingBlock) : Decidable (pb.countsMatch H) :=
  inferInstanceAs (Decidable (_ = _))

/-- Sealing keeps the keys of the recorded results. -/
theorem convertToSealedResults_keys (C : Collaborators) :
    ∀ {results : List (Identifier × IndexedTransactionResult)}
      {sealed : List (Identifier × StorableTransactionResult)},
      convertToSealedResults C results = .ok sealed → sealed.map (·.1) = results.map (·.1)
  | [], _, h => by cases h; rfl
  | (id, result) :: results, sealed, h => by
    rw [convertToSealedResults] at h
    split at h
    · cases h
    · cases hrest : convertToSealedResults C results with
      | error err => rw [hrest] at h; cases h
      | ok rest =>
        rw [hrest] at h
        cases h
        simp [convertToSealedResults_keys C hrest]

/-- Once its whole queue has executed, a stored pending block seals one result per
transaction exactly when it recorded one per executed position. -/
theorem PendingBlock.recorded_of_sealed {C : Collaborators} {pb : PendingBlock}
    {transactionResults : List (Identifier × StorableTransactionResult)}
    (hconv : convertToSealedResults C pb.transactionResults = .ok transactionResults)
    (hindex : pb.index = pb.transactions.length)
    (hsealed : (pb.storedBlock C.toHashing transactionResults).TransactionResults.length =
      (pb.storedBlock C.toHashing transactionResults).Transactions.length) :
    pb.transactionResults.length = pb.index := by
  have hkeys := congrArg List.length (convertToSealedResults_keys C hconv)
  simp only [List.length_map] at hkeys
  simp only [PendingBlock.storedBlock, PendingBlock.Transactions, List.length_map] at hsealed
  omega

namespace Blockchain

variable (C : Collaborators)

/-- The blockchain after a successful commit: the block appended to storage and a fresh
pending block on top of it. -/
def committed (env : Environment) (b : Blockchain)
    (transactionResults : List (Identifier × StorableTransactionResult)) : Blockchain :=
  let storage : Store := ⟨b.storage.blocks ++ [b.pendingBlock.storedBlock C.toHashing transactionResults]⟩
  { b with
    storage
    pendingBlock := newPendingBlock C.toHashing (b.pendingBlock.Block C.toHashing)
      (storage.LedgerViewByHeight b.pendingBlock.height) env.viewIncrease env.now }

theorem commitBlock_of_not_started {b : Blockchain} {env : Environment}
    (hindex : b.pendingBlock.index = 0) (hne : b.pendingBlock.transactions ≠ []) :
    b.commitBlock C env =
      (.error (.PendingBlockCommitBeforeExecution (b.pendingBlock.ID C.toHashing)), b) := by
  have hstarted : b.pendingBlock.ExecutionStarted = false := by
    simp [PendingBlock.ExecutionStarted, hindex]
  rw [commitBlock, hstarted, (PendingBlock.Empty_eq_false_iff _).mpr hne]
  rfl

theorem commitBlock_of_mid_execution {b : Blockchain} {env : Environment}
    (hstarted : 0 < b.pendingBlock.index)
    (hlt : b.pendingBlock.index < b.pendingBlock.transactions.length) :
    b.commitBlock C env =
      (.error (.PendingBlockMidExecution (b.pendingBlock.ID C.toHashing)), b) := by
  rw [commitBlock, (PendingBlock.ExecutionStarted_iff _).mpr hstarted,
    (PendingBlock.ExecutionComplete_eq_false_iff _).mpr hlt]
  rfl

/-- A complete (or empty) pending block is committed unless a conversion fails or the
storage backend refuses it, for its count check or its own fault; a failure changes
nothing. -/
theorem commitBlock_of_complete {b : Blockchain} {env : Environment}
    (hcomplete : b.pendingBlock.transactions.length ≤ b.pendingBlock.index) :
    b.commitBlock C env =
      match convertToSealedResults C b.pendingBlock.transactionResults with
      | .error err => (.error err, b)
      | .ok transactionResults =>
        if b.pendingBlock.countsMatch C.toHashing then
          match env.storageFault 0 with
          | some message => (.error (.Storage (.Other message)), b)
          | none => (.ok (b.pendingBlock.Block C.toHashing), b.committed C env transactionResults)
        else (.error (.Storage (.Other "transactions count does not match result count")), b) := by
  have hfirst : (!b.pendingBlock.ExecutionStarted && !b.pendingBlock.Empty) = false := by
    cases hs : b.pendingBlock.ExecutionStarted
    · have hindex : b.pendingBlock.index = 0 := by simpa [PendingBlock.ExecutionStarted] using hs
      have hnil : b.pendingBlock.transactions = [] := List.length_eq_zero.mp (by omega)
      simp [(PendingBlock.Empty_iff _).mpr hnil]
    · rfl
  have hsecond : (b.pendingBlock.ExecutionStarted && !b.pendingBlock.ExecutionComplete) = false := by
    simp [(PendingBlock.ExecutionComplete_iff _).mpr hcomplete]
  rw [commitBlock, hfirst, hsecond]
  simp only [Bool.false_eq_true, if_false, PendingBlock.TransactionResults]
  cases hconv : convertToSealedResults C b.pendingBlock.transactionResults with
  | error err => rfl
  | ok transactionResults =>
    simp only [Store.CommitBlock, PendingBlock.Transactions_keys, convertToSealedResults_keys C hconv,
      PendingBlock.countsMatch, ite_not]
    split_ifs <;> cases env.storageFault 0 <;> rfl

/-- Everything one `commitBlock` can do: fail and change nothing, or commit the pending
block as a complete (or empty) block that passes the storage's count check. -/
theorem commitBlock_cases {b b' : Blockchain} {env : Environment}
    {r : Except EmulatorError Block} (h : b.commitBlock C env = (r, b')) :
    ((∃ err, r = .error err) ∧ b' = b) ∨
      (b.pendingBlock.transactions = [] ∨
        (0 < b.pendingBlock.index ∧ b.pendingBlock.transactions.length ≤ b.pendingBlock.index)) ∧
      r = .ok (b.pendingBlock.Block C.toHashing) ∧ b.pendingBlock.countsMatch C.toHashing ∧
      env.storageFault 0 = none ∧
      ∃ transactionResults,
        convertToSealedResults C b.pendingBlock.transactionResults = .ok transactionResults ∧
        b' = b.committed C env transactionResults := by
  have herror : ∀ {err}, (Except.error err, b) = (r, b') → (∃ err, r = .error err) ∧ b' = b :=
    fun h => ⟨⟨_, (Prod.mk.inj h).1.symm⟩, (Prod.mk.inj h).2.symm⟩
  by_cases hle : b.pendingBlock.transactions.length ≤ b.pendingBlock.index
  · have hcond : b.pendingBlock.transactions = [] ∨
        (0 < b.pendingBlock.index ∧ b.pendingBlock.transactions.length ≤ b.pendingBlock.index) := by
      rcases Nat.eq_zero_or_pos b.pendingBlock.index with hzero | hpos
      · exact .inl (List.length_eq_zero.mp (by omega))
      · exact .inr ⟨hpos, hle⟩
    rw [commitBlock_of_complete C hle] at h
    split at h
    · exact .inl (herror h)
    · split at h
      · split at h
        · exact .inl (herror h)
        · obtain ⟨rfl, rfl⟩ := Prod.mk.inj h
          exact .inr ⟨hcond, rfl, ‹_›, ‹_›, _, ‹_›, rfl⟩
      · exact .inl (herror h)
  · rcases Nat.eq_zero_or_pos b.pendingBlock.index with hzero | hpos
    · rw [commitBlock_of_not_started C hzero (fun hnil => hle (by simp [hnil]))] at h
      exact .inl (herror h)
    · rw [commitBlock_of_mid_execution C hpos (by omega)] at h
      exact .inl (herror h)

/-- `commitBlock` on every pending block. It refuses a block whose execution has not
started, or has started and not finished. A complete block, the empty one included, is
committed unless a recorded result does not convert or `storage.CommitBlock` fails (its
count check, or the backend's own fault): it is stored as the block after the latest
one, under a fresh empty pending block. Every failure leaves the blockchain as it was. -/
theorem commitBlock_spec (b : Blockchain) (env : Environment) :
    (b.pendingBlock.index = 0 → b.pendingBlock.transactions ≠ [] →
      b.commitBlock C env =
        (.error (.PendingBlockCommitBeforeExecution (b.pendingBlock.ID C.toHashing)), b)) ∧
    (0 < b.pendingBlock.index → b.pendingBlock.index < b.pendingBlock.transactions.length →
      b.commitBlock C env =
        (.error (.PendingBlockMidExecution (b.pendingBlock.ID C.toHashing)), b)) ∧
    (b.pendingBlock.transactions.length ≤ b.pendingBlock.index →
      (∀ err b', b.commitBlock C env = (.error err, b') → b' = b ∧
        ((∃ e, convertToSealedResults C b.pendingBlock.transactionResults = .error e) ∨
          ¬ b.pendingBlock.countsMatch C.toHashing ∨ env.storageFault 0 ≠ none)) ∧
      ∀ transactionResults latest,
        convertToSealedResults C b.pendingBlock.transactionResults = .ok transactionResults →
        b.pendingBlock.countsMatch C.toHashing → env.storageFault 0 = none →
        b.storage.LatestBlock = .ok latest → b.pendingBlock.height = latest.Header.Height + 1 →
        let b' := (b.commitBlock C env).2
        (b.commitBlock C env).1 = .ok (b.pendingBlock.Block C.toHashing) ∧
        b'.storage.blocks =
          b.storage.blocks ++ [b.pendingBlock.storedBlock C.toHashing transactionResults] ∧
        b'.storage.LatestBlock = .ok (b.pendingBlock.Block C.toHashing) ∧
        b'.pendingBlock.parentID = C.BlockID (b.pendingBlock.Block C.toHashing) ∧
        b'.pendingBlock.height = latest.Header.Height + 2 ∧
        b'.pendingBlock.transactions = [] ∧ b'.pendingBlock.index = 0 ∧
        b'.serviceKey = b.serviceKey ∧ b'.autoMine = b.autoMine) := by
  refine ⟨commitBlock_of_not_started C, commitBlock_of_mid_execution C, fun hcomplete =>
    ⟨fun err b' h => ?_, fun transactionResults latest hconv hcount hfault _ hheight => ?_⟩⟩
  · rcases commitBlock_cases C h with ⟨-, hb'⟩ | ⟨-, hr, -⟩
    · refine ⟨hb', ?_⟩
      rw [commitBlock_of_complete C hcomplete] at h
      cases hconv : convertToSealedResults C b.pendingBlock.transactionResults with
      | error e => exact .inl ⟨e, rfl⟩
      | ok transactionResults =>
        refine .inr (or_iff_not_imp_left.mpr fun hcount hfault => ?_)
        simp only [hconv, not_not.mp hcount, if_true, hfault] at h
        cases h
    · cases hr
  · have hcommit : b.commitBlock C env =
        (.ok (b.pendingBlock.Block C.toHashing), b.committed C env transactionResults) := by
      simp only [commitBlock_of_complete C hcomplete, hconv, hcount, if_true, hfault]
    have hnext : b.pendingBlock.height + 1 = latest.Header.Height + 2 := by omega
    rw [hcommit]
    exact ⟨rfl, rfl, Store.LatestBlock_append _ _, rfl, hnext, rfl, rfl, rfl, rfl⟩

end Blockchain

end flow_emulator.emulator
