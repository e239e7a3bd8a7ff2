import FlowEmulator.Emulator.ServiceTransactions
import FlowEmulator.Emulator.BlockQueries

namespace flow_emulator.emulator

open flow_emulator.flowgo flow_emulator.types flow_emulator.storage

namespace Blockchain

variable {C : Collaborators} {F : Option (Delta × FatalError) → Prop}

section

variable {b : Blockchain} (hne : b.pendingBlock.transactions ≠ [])
  (hcomplete : b.pendingBlock.transactions.length ≤ b.pendingBlock.index)
include hne hcomplete

/-- `AddTransaction` refuses every transaction once a nonempty pending block has executed
them all. -/
theorem AddTransaction_of_executed (env : Environment) (tx : TransactionBody) :
    b.AddTransaction C env tx = (some (.PendingBlockMidExecution (b.pendingBlock.ID C.toHashing)), b) := by
  have hstarted : b.pendingBlock.ExecutionStarted = true := by
    rw [PendingBlock.ExecutionStarted_iff]
    have := List.length_pos.mpr hne
    omega
  rw [AddTransaction, if_pos hstarted]

/-- `executeAndCommitBlock` finds nothing to execute in a nonempty pending block that has
executed all its transactions, and so never commits it. -/
theorem executeAndCommitBlock_of_executed (env : Environment) :
    b.executeAndCommitBlock C env =
      ((none, [], some (.PendingBlockTransactionsExhausted (b.pendingBlock.ID C.toHashing))), b) := by
  rw [executeAndCommitBlock, (ExecuteBlock_eq_repeatExecuteNextTransaction C b env).2.1 hne hcomplete]

/-- Every call but `CommitBlock` and `ResetPendingBlock` leaves the storage and the
pending block of a nonempty, completely executed pending block as they are. -/
theorem Call.apply_of_executed (env : Environment) (call : Call) (hcommit : call ≠ .CommitBlock)
    (hreset : call ≠ .ResetPendingBlock) :
    (call.apply C env b).storage = b.storage ∧ (call.apply C env b).pendingBlock = b.pendingBlock := by
  cases call with
  | AddTransaction tx => simp [Call.apply, AddTransaction_of_executed hne hcomplete]
  | SendTransaction tx => simp [Call.apply, SendTransaction, AddTransaction_of_executed hne hcomplete]
  | ExecuteNextTransaction =>
    simp [Call.apply, ExecuteNextTransaction, executeNextTransaction_of_complete C hcomplete]
  | ExecuteBlock => simp [Call.apply, (ExecuteBlock_eq_repeatExecuteNextTransaction C b env).2.1 hne hcomplete]
  | CommitBlock => exact absurd rfl hcommit
  | ExecuteAndCommitBlock =>
    simp [Call.apply, ExecuteAndCommitBlock, executeAndCommitBlock_of_executed hne hcomplete]
  | ResetPendingBlock => exact absurd rfl hreset
  | CreateAccount publicKeys contracts =>
    -- the refreshed service key is all that changes before `AddTransaction` refuses
    rcases hkey : b.ServiceKey C (env.storageFault 0) with ⟨r, b₁⟩
    obtain ⟨hstorage, hpending⟩ := ServiceKey_frame hkey
    have hadd := AddTransaction_of_executed (C := C) (b := b₁) (hpending ▸ hne) (hpending ▸ hcomplete)
    cases r <;> simp only [Call.apply, CreateAccount, hkey, hadd] <;> (repeat' split) <;>
      exact ⟨hstorage, hpending⟩
  | ServiceKey => exact ServiceKey_frame (Prod.ext rfl rfl)
  | EnableAutoMine => exact ⟨rfl, rfl⟩
  | DisableAutoMine => exact ⟨rfl, rfl⟩

end

/-- Runs of calls other than `CommitBlock` and `ResetPendingBlock` leave the storage and
the pending block of a nonempty, completely executed pending block as they are. -/
theorem Call.applyAll_of_executed :
    ∀ (calls : List (Environment × Call)) {b : Blockchain}, b.pendingBlock.transactions ≠ [] →
      b.pendingBlock.transactions.length ≤ b.pendingBlock.index →
      (∀ call ∈ calls, call.2 ≠ .CommitBlock ∧ call.2 ≠ .ResetPendingBlock) →
      (Call.applyAll C calls b).storage = b.storage ∧
        (Call.applyAll C calls b).pendingBlock = b.pendingBlock
  | [], _, _, _, _ => ⟨rfl, rfl⟩
  | call :: calls, _, hne, hcomplete, hcalls => by
    obtain ⟨hcommit, hreset⟩ := hcalls call (List.mem_cons_self _ _)
    obtain ⟨hstorage, hpending⟩ := Call.apply_of_executed hne hcomplete call.1 call.2 hcommit hreset
    obtain ⟨hstorage', hpending'⟩ := Call.applyAll_of_executed calls (hpending ▸ hne)
      (hpending ▸ hcomplete) fun call' hmem => hcalls call' (List.mem_cons_of_mem _ hmem)
    exact ⟨hstorage'.trans hstorage, hpending'.trans hpending⟩

/-- A completely executed pending block stalls the emulator: until `CommitBlock` or
`ResetPendingBlock`, no call changes storage or the pending block, and every submission and
`ExecuteAndCommitBlock` fails. -/
theorem executed_block_stalls {b : Blockchain} (hne : b.pendingBlock.transactions ≠ [])
    (hcomplete : b.pendingBlock.transactions.length ≤ b.pendingBlock.index)
    (calls : List (Environment × Call))
    (hcalls : ∀ call ∈ calls, call.2 ≠ .CommitBlock ∧ call.2 ≠ .ResetPendingBlock) :
    (Call.applyAll C calls b).storage = b.storage ∧
    (Call.applyAll C calls b).pendingBlock = b.pendingBlock ∧
    ∀ env tx,
      ((Call.applyAll C calls b).AddTransaction C env tx).1 =
        some (.PendingBlockMidExecution (b.pendingBlock.ID C.toHashing)) ∧
      ((Call.applyAll C calls b).SendTransaction C env tx).1 =
        some (.Internal (C.ErrorMessage (.PendingBlockMidExecution (b.pendingBlock.ID C.toHashing)))) ∧
      ((Call.applyAll C calls b).ExecuteAndCommitBlock C env).1 =
        (none, [], some (.PendingBlockTransactionsExhausted (b.pendingBlock.ID C.toHashing))) := by
  obtain ⟨hstorage, hpending⟩ := Call.applyAll_of_executed calls hne hcomplete hcalls
  have hne' : (Call.applyAll C calls b).pendingBlock.transactions ≠ [] := hpending ▸ hne
  have hcomplete' := hpending ▸ hcomplete
  refine ⟨hstorage, hpending, fun env tx => ⟨?_, ?_, ?_⟩⟩ <;>
    simp [SendTransaction, ExecuteAndCommitBlock, AddTransaction_of_executed hne' hcomplete',
      executeAndCommitBlock_of_executed hne' hcomplete', hpending, sendTransactionError]

/-- Every signature of `tx` names, whenever its signer's account lookup answers, an account
that holds the key index the signature names. -/
def SignaturesKeyed (C : Collaborators) (b : Blockchain) (tx : TransactionBody) : Prop :=
  ∀ sig ∈ tx.EnvelopeSignatures ++ tx.PayloadSignatures, ∀ acc,
    b.GetAccount C none sig.Address = .ok acc → ∃ a, acc = some a ∧ sig.KeyIndex < a.Keys.length

/-- Account lookups read storage only. -/
theorem SignaturesKeyed.of_storage {b b' : Blockchain} {tx : TransactionBody}
    (hkeyed : SignaturesKeyed C b tx) (hstorage : b'.storage = b.storage) : SignaturesKeyed C b' tx := by
  have hget : b'.GetAccount C none = b.GetAccount C none := by
    funext address
    simp only [GetAccount, GetLatestBlock, GetAccountAtBlockHeight, hstorage]
  unfold SignaturesKeyed at hkeyed ⊢
  rw [hget]
  exact hkeyed

/-- `testAlternativeHashAlgo` faults only on a nil account or a key index past its keys. -/
theorem testAlternativeHashAlgo_ok {b : Blockchain} {sig : TransactionSignature} (msg : Bytes)
    (hkey : ∀ acc, b.GetAccount C none sig.Address = .ok acc →
      ∃ a, acc = some a ∧ sig.KeyIndex < a.Keys.length) :
    ∃ r, b.testAlternativeHashAlgo C sig msg = .ok r := by
  rw [testAlternativeHashAlgo]
  rcases hget : b.GetAccount C none sig.Address with _ | acc
  · exact ⟨none, rfl⟩
  · obtain ⟨a, rfl, hlt⟩ := hkey _ hget
    simp only [List.getElem?_eq_getElem hlt]
    exact ⟨_, rfl⟩

theorem firstAlternativeHashAlgo_ok {b : Blockchain} {msg : Bytes} :
    ∀ sigs : List TransactionSignature, (∀ sig ∈ sigs, ∀ acc, b.GetAccount C none sig.Address = .ok acc →
      ∃ a, acc = some a ∧ sig.KeyIndex < a.Keys.length) →
      ∃ r, b.firstAlternativeHashAlgo C msg sigs = .ok r
  | [], _ => ⟨none, rfl⟩
  | sig :: sigs, hkeys => by
    obtain ⟨r, hr⟩ := testAlternativeHashAlgo_ok msg (hkeys sig (List.mem_cons_self _ _))
    rw [firstAlternativeHashAlgo, hr]
    cases r with
    | none => exact firstAlternativeHashAlgo_ok sigs fun sig hmem => hkeys sig (List.mem_cons_of_mem _ hmem)
    | some debug => exact ⟨_, rfl⟩

/-- Signature debugging never faults on a transaction whose signatures name keys their
accounts hold. -/
theorem debugSignatureError_ok {b : Blockchain} {tx : TransactionBody} (hkeyed : SignaturesKeyed C b tx)
    (err : CodedError) : ∃ debug, b.debugSignatureError C err tx = .ok debug := by
  obtain ⟨envelope, henvelope⟩ : ∃ r, (if HasErrorCode err .ErrCodeInvalidEnvelopeSignatureError
      then b.firstAlternativeHashAlgo C (C.EnvelopeMessage tx) tx.EnvelopeSignatures else .ok none) = .ok r := by
    split
    · exact firstAlternativeHashAlgo_ok _ fun sig hmem => hkeyed sig (List.mem_append_left _ hmem)
    · exact ⟨none, rfl⟩
  obtain ⟨payload, hpayload⟩ : ∃ r, (if HasErrorCode err .ErrCodeInvalidPayloadSignatureError
      then b.firstAlternativeHashAlgo C (C.PayloadMessage tx) tx.PayloadSignatures else .ok none) = .ok r := by
    split
    · exact firstAlternativeHashAlgo_ok _ fun sig hmem => hkeyed sig (List.mem_append_right _ hmem)
    · exact ⟨none, rfl⟩
  simp only [debugSignatureError, henvelope, hpayload]
  cases envelope <;> cases payload <;> exact ⟨_, rfl⟩

section

variable (hrun : ∀ ctx tx index ledger, ∃ out, (C.Run ctx (.Transaction tx index) ledger).result = .ok out)
  (hconvert : ∀ tp, ∃ tr, C.VMTransactionResultToEmulator tp = .ok tr)
  (hstorable : ∀ tp, ∃ stored, C.ToStorableResult tp = .ok stored)

include hstorable in
/-- Sealing succeeds when every recorded procedure has a storable form. -/
theorem convertToSealedResults_ok :
    ∀ results : List (Identifier × IndexedTransactionResult),
      ∃ sealed, convertToSealedResults C results = .ok sealed
  | [] => ⟨[], rfl⟩
  | (id, result) :: results => by
    obtain ⟨stored, hstored⟩ := hstorable result.Transaction
    obtain ⟨sealed, hsealed⟩ := convertToSealedResults_ok results
    exact ⟨(id, stored) :: sealed, by simp [convertToSealedResults, hstored, hsealed, Except.map]⟩

include hstorable in
/-- A commit of a completely executed pending block that passes the storage's count check,
when storage answers and every recorded procedure has a storable form: one new block
holding the queue at the pending block's height, and an empty pending block. -/
theorem commitBlock_of_executed {b : Blockchain} {env : Environment}
    (hcomplete : b.pendingBlock.transactions.length ≤ b.pendingBlock.index)
    (hcount : b.pendingBlock.countsMatch C.toHashing) (hcommit : env.storageFault 0 = none) :
    ∃ stored, b.commitBlock C env = (.ok stored.Block, b.committed C env stored.TransactionResults) ∧
      stored.Block.Header.Height = b.pendingBlock.height ∧
      stored.Transactions.map (·.2) = b.pendingBlock.transactions ∧
      (b.committed C env stored.TransactionResults).storage.blocks = b.storage.blocks ++ [stored] ∧
      (b.committed C env stored.TransactionResults).pendingBlock.transactions = [] := by
  obtain ⟨sealed, hsealed⟩ := convertToSealedResults_ok hstorable b.pendingBlock.transactionResults
  refine ⟨b.pendingBlock.storedBlock C.toHashing sealed, ?_, rfl, PendingBlock.storedBlock_transactions _ _ _,
    rfl, rfl⟩
  simp only [commitBlock_of_complete C hcomplete, hsealed, hcount, if_true, hcommit]
  rfl

include hrun hconvert in
/-- Every transaction run completing with a procedure that converts, `executeNextTransaction`
returns a result on a block that is not complete, whose transaction at the cursor names
keys its signers hold. -/
theorem executeNextTransaction_ok_of_total {b : Blockchain} {ctx : Context}
    (hincomplete : b.pendingBlock.ExecutionComplete = false)
    (hkeyed : ∀ tx ∈ b.pendingBlock.transactions, SignaturesKeyed C b tx) :
    ∃ result b', b.executeNextTransaction C ctx none = (.ok result, b') := by
  obtain ⟨tx, htx⟩ : ∃ tx, b.pendingBlock.transactions[b.pendingBlock.index]? = some tx :=
    ⟨_, List.getElem?_eq_getElem ((PendingBlock.ExecutionComplete_eq_false_iff _).mp hincomplete)⟩
  obtain ⟨out, hout⟩ := hrun ctx tx (UInt32.ofNat b.pendingBlock.index) b.pendingBlock.ledgerView.read
  have hvm : (vmRun C ctx (.Transaction tx (UInt32.ofNat b.pendingBlock.index))
      b.pendingBlock.ledgerView.read none).result = .ok out := hout
  rw [executeNextTransaction_of_run_ok C htx hvm]
  obtain ⟨tr, htr⟩ := hconvert (.ofOutput tx (UInt32.ofNat b.pendingBlock.index) out)
  have hkeyed' : SignaturesKeyed C { b with pendingBlock := (advancedPendingBlock C b.pendingBlock tx
      (vmRun C ctx (.Transaction tx (UInt32.ofNat b.pendingBlock.index)) b.pendingBlock.ledgerView.read
        none).writes out) } tx :=
    (hkeyed tx (List.getElem?_mem htx)).of_storage rfl
  simp only [Prod.mk.injEq, exists_and_right, exists_eq', and_true]
  cases herr : tr.Error with
  | none => exact ⟨tr, by simp [transactionResultOf, htr, herr]⟩
  | some err =>
    obtain ⟨debug, hdebug⟩ := debugSignatureError_ok hkeyed' err
    exact ⟨{ tr with Debug := some debug }, by simp [transactionResultOf, htr, herr, hdebug, Except.map]⟩

include hrun hconvert in
/-- `ExecuteBlock` on a block that is empty or not complete, whose queued transactions'
signatures name held keys, with no VM fault: no error, the rest of the queue executed, and
storage, queue and height as they were. -/
theorem ExecuteBlock_of_total {b : Blockchain} {env : Environment}
    (hkeyed : ∀ tx ∈ b.pendingBlock.transactions, SignaturesKeyed C b tx)
    (hvm : ∀ k, env.vmFault k = none)
    (hready : b.pendingBlock.transactions = [] ∨ b.pendingBlock.index < b.pendingBlock.transactions.length) :
    ∃ results b₁, b.ExecuteBlock C env = (results, none, b₁) ∧
      results.length = b.pendingBlock.transactions.length - b.pendingBlock.index ∧
      b₁.storage = b.storage ∧ b₁.pendingBlock.transactions = b.pendingBlock.transactions ∧
      b₁.pendingBlock.height = b.pendingBlock.height := by
  rcases hready with hempty | hlt
  · refine ⟨[], b, (ExecuteBlock_eq_repeatExecuteNextTransaction C b env).1 hempty, ?_, rfl, rfl, rfl⟩
    simp [hempty]
  · have hok : ∀ (b' : Blockchain) (k : Nat),
        b'.storage = b.storage ∧ b'.pendingBlock.transactions = b.pendingBlock.transactions →
        b'.pendingBlock.ExecutionComplete = false →
        ∃ result b'', b'.executeNextTransaction C ⟨some (b.pendingBlock.Block C.toHashing).Header⟩
          (env.vmFault k) = (.ok result, b'') ∧
          b''.storage = b.storage ∧ b''.pendingBlock.transactions = b.pendingBlock.transactions :=
      fun b' k ⟨hstorage', hqueue'⟩ hincomplete => by
        rw [hvm k]
        obtain ⟨result, b'', hstep⟩ := executeNextTransaction_ok_of_total hrun hconvert hincomplete
          fun tx hmem => (hkeyed tx (hqueue' ▸ hmem)).of_storage hstorage'
        obtain ⟨hstorage'', -, -, hqueue'', -⟩ := executeNextTransaction_frame C hstep
        exact ⟨result, b'', hstep, hstorage''.trans hstorage', hqueue''.trans hqueue'⟩
    obtain ⟨results, b₁, hloop⟩ := executeLoop_eq_none_of_ok C hok
      (b.pendingBlock.transactions.length - b.pendingBlock.index) [] b ⟨rfl, rfl⟩
    obtain ⟨-, hqueue, hlength⟩ := executeLoop_complete C _ _ _ le_rfl hlt.le hloop
    obtain ⟨hstorage, -, -, hheader⟩ := executeLoop_frame _ _ _ hloop
    have hnotEmpty : b.pendingBlock.Empty = false :=
      (PendingBlock.Empty_eq_false_iff _).mpr (List.ne_nil_of_length_pos (by omega))
    refine ⟨results, b₁, ?_, by rw [hlength, List.length_nil, Nat.zero_add], hstorage, hqueue,
      congrArg Header.Height hheader⟩
    simp only [ExecuteBlock, hnotEmpty, (PendingBlock.ExecutionComplete_eq_false_iff _).mpr hlt,
      PendingBlock.Size, hloop, Bool.false_eq_true, if_false]

include hrun hconvert hstorable in
/-- Progress from every reachable state: when every run completes with a storable result,
signatures name held keys and no fault strikes, one call (`ExecuteAndCommitBlock`, or
`CommitBlock` once the queue has run) commits the whole queue as one new block. -/
theorem commits_queue {b : Blockchain} (hreach : Reachable C F b)
    (hrecorded : b.pendingBlock.transactionResults.length = b.pendingBlock.index)
    (hkeyed : ∀ tx ∈ b.pendingBlock.transactions, SignaturesKeyed C b tx)
    (env : Environment) (hvm : ∀ k, env.vmFault k = none) (hcommit : env.storageFault 0 = none) :
    (b.pendingBlock.transactions = [] ∨ b.pendingBlock.index < b.pendingBlock.transactions.length →
      ∃ results stored, (b.ExecuteAndCommitBlock C env).1 = (some stored.Block, results, none) ∧
        results.length = b.pendingBlock.transactions.length - b.pendingBlock.index ∧
        (b.ExecuteAndCommitBlock C env).2.storage.blocks = b.storage.blocks ++ [stored] ∧
        stored.Block.Header.Height = b.pendingBlock.height ∧
        stored.Transactions.map (·.2) = b.pendingBlock.transactions ∧
        (b.ExecuteAndCommitBlock C env).2.pendingBlock.transactions = []) ∧
    (b.pendingBlock.transactions ≠ [] → b.pendingBlock.transactions.length ≤ b.pendingBlock.index →
      ∃ stored, (b.CommitBlock C env).1 = .ok stored.Block ∧
        (b.CommitBlock C env).2.storage.blocks = b.storage.blocks ++ [stored] ∧
        stored.Block.Header.Height = b.pendingBlock.height ∧
        stored.Transactions.map (·.2) = b.pendingBlock.transactions ∧
        (b.CommitBlock C env).2.pendingBlock.transactions = []) := by
  obtain ⟨hchain, htransactions⟩ := hreach.transactionsValid
  refine ⟨fun hready => ?_, fun _ hcomplete => ?_⟩
  · obtain ⟨results, b₁, hexec, hlength, hstorage, hqueue, hheight⟩ :=
      ExecuteBlock_of_total hrun hconvert hkeyed hvm hready
    obtain ⟨hcomplete₁, hcount₁⟩ := ExecuteBlock_countsMatch htransactions hchain.cursor hrecorded hexec
    obtain ⟨stored, hcommitted, hheight₁, htxs, hblocks, hempty⟩ :=
      commitBlock_of_executed hstorable hcomplete₁ hcount₁ hcommit
    simp only [ExecuteAndCommitBlock, executeAndCommitBlock, hexec, hcommitted]
    exact ⟨results, stored, rfl, hlength, hstorage ▸ hblocks, hheight₁.trans hheight, htxs.trans hqueue,
      hempty⟩
  · obtain ⟨stored, hcommitted, hheight, htxs, hblocks, hempty⟩ := commitBlock_of_executed hstorable
      hcomplete (htransactions.countsMatch_of_recorded hrecorded hcomplete) hcommit
    simp only [CommitBlock, hcommitted]
    exact ⟨stored, rfl, hblocks, hheight, htxs, hempty⟩

end

/-- The chain with a committed block and a queued transaction, with a VM whose runs all
succeed: one `ExecuteAndCommitBlock` commits the queued transaction. -/
theorem commits_queue_of_sampleChain :
    let C := sampleCollaborators
    let env := Environment.calm
    let b := sampleChain
    (∀ ctx tx index ledger, ∃ out, (C.Run ctx (.Transaction tx index) ledger).result = .ok out) ∧
    (∀ tp, ∃ tr, C.VMTransactionResultToEmulator tp = .ok tr) ∧
    (∀ tp, ∃ stored, C.ToStorableResult tp = .ok stored) ∧
    Reachable C (fun _ => True) b ∧
    b.pendingBlock.transactionResults.length = b.pendingBlock.index ∧
    (∀ tx ∈ b.pendingBlock.transactions, SignaturesKeyed C b tx) ∧
    (∀ k, env.vmFault k = none) ∧ env.storageFault 0 = none ∧
    b.pendingBlock.transactions = [sampleTransaction 2] ∧
    ((b.pendingBlock.transactions = [] ∨ b.pendingBlock.index < b.pendingBlock.transactions.length →
      ∃ results stored, (b.ExecuteAndCommitBlock C env).1 = (some stored.Block, results, none) ∧
        results.length = b.pendingBlock.transactions.length - b.pendingBlock.index ∧
        (b.ExecuteAndCommitBlock C env).2.storage.blocks = b.storage.blocks ++ [stored] ∧
        stored.Block.Header.Height = b.pendingBlock.height ∧
        stored.Transactions.map (·.2) = b.pendingBlock.transactions ∧
        (b.ExecuteAndCommitBlock C env).2.pendingBlock.transactions = []) ∧
    (b.pendingBlock.transactions ≠ [] → b.pendingBlock.transactions.length ≤ b.pendingBlock.index →
      ∃ stored, (b.CommitBlock C env).1 = .ok stored.Block ∧
        (b.CommitBlock C env).2.storage.blocks = b.storage.blocks ++ [stored] ∧
        stored.Block.Header.Height = b.pendingBlock.height ∧
        stored.Transactions.map (·.2) = b.pendingBlock.transactions ∧
        (b.CommitBlock C env).2.pendingBlock.transactions = [])) := by
  intro C env b
  have hrun : ∀ ctx tx index ledger, ∃ out, (C.Run ctx (.Transaction tx index) ledger).result = .ok out :=
    fun _ _ _ _ => ⟨_, rfl⟩
  have hconvert : ∀ tp, ∃ tr, C.VMTransactionResultToEmulator tp = .ok tr := fun _ => ⟨_, rfl⟩
  have hstorable : ∀ tp, ∃ stored, C.ToStorableResult tp = .ok stored := fun _ => ⟨_, rfl⟩
  have hreach : Reachable C (fun _ => True) b := Reachable.of_sampleChain trivial
  have hqueue : b.pendingBlock.transactions = [sampleTransaction 2] := by decide
  have hkeyed : ∀ tx ∈ b.pendingBlock.transactions, SignaturesKeyed C b tx := by
    rw [hqueue]
    simp [SignaturesKeyed, sampleTransaction]
  have hrecorded : b.pendingBlock.transactionResults.length = b.pendingBlock.index := by decide
  exact ⟨hrun, hconvert, hstorable, hreach, hrecorded, hkeyed, fun _ => rfl, rfl, hqueue,
    commits_queue hrun hconvert hstorable hreach hrecorded hkeyed env (fun _ => rfl) rfl⟩

/-- With auto-mine on, a `SendTransaction` whose commit meets a storage failure leaves its
transaction executed in the pending block; later calls, in a calm environment, then
stall. -/
theorem executed_block_stalls_after_failed_commit :
    let C := sampleCollaborators
    let failingCommit : Environment :=
      { Environment.calm with storageFault := fun k => if k = 1 then some "disk" else none }
    let b := (Call.SendTransaction (sampleTransaction 1)).apply C failingCommit
      (Call.EnableAutoMine.apply C .calm sampleGenesis)
    let calls : List (Environment × Call) :=
      [(.calm, .SendTransaction (sampleTransaction 2)), (.calm, .ExecuteAndCommitBlock)]
    Reachable C (fun _ => True) b ∧ b.storage.blocks.length = 1 ∧
    b.pendingBlock.transactions ≠ [] ∧ b.pendingBlock.transactions.length ≤ b.pendingBlock.index ∧
    (∀ call ∈ calls, call.2 ≠ .CommitBlock ∧ call.2 ≠ .ResetPendingBlock) ∧
    ((Call.applyAll C calls b).storage = b.storage ∧
    (Call.applyAll C calls b).pendingBlock = b.pendingBlock ∧
    ∀ env tx,
      ((Call.applyAll C calls b).AddTransaction C env tx).1 =
        some (.PendingBlockMidExecution (b.pendingBlock.ID C.toHashing)) ∧
      ((Call.applyAll C calls b).SendTransaction C env tx).1 =
        some (.Internal (C.ErrorMessage (.PendingBlockMidExecution (b.pendingBlock.ID C.toHashing)))) ∧
      ((Call.applyAll C calls b).ExecuteAndCommitBlock C env).1 =
        (none, [], some (.PendingBlockTransactionsExhausted (b.pendingBlock.ID C.toHashing)))) := by
  intro C failingCommit b calls
  have hne : b.pendingBlock.transactions ≠ [] := by decide
  have hcomplete : b.pendingBlock.transactions.length ≤ b.pendingBlock.index := by decide
  have hcalls : ∀ call ∈ calls, call.2 ≠ .CommitBlock ∧ call.2 ≠ .ResetPendingBlock := by simp [calls]
  exact ⟨.call _ _ (fun _ => trivial) (.call _ _ (fun _ => trivial) Reachable.of_sampleGenesis),
    by decide, hne, hcomplete, hcalls, executed_block_stalls hne hcomplete calls hcalls⟩

/-- `ResetPendingBlock` when it succeeds, and a restart of the emulator on its store,
keep the storage and leave an empty pending block whose execution has not started. -/
theorem drops_pending_block {b b' : Blockchain} (hvalid : b.Valid C)
    (hdrop : (∃ env, b.ResetPendingBlock C env = (none, b')) ∨
      ∃ env serviceKey, NewBlockchain C env b.storage serviceKey = .ok b') :
    b'.storage = b.storage ∧ b'.pendingBlock.transactions = [] ∧ b'.pendingBlock.index = 0 := by
  rcases hdrop with ⟨env, h⟩ | ⟨env, serviceKey, h⟩
  · rw [ResetPendingBlock] at h
    split at h
    · cases h
    · cases h
      exact ⟨rfl, rfl, rfl⟩
  · obtain ⟨hstorage, latest, -, hpending⟩ := NewBlockchain_of_nonempty C hvalid.chained.nonempty h
    rw [hpending]
    exact ⟨hstorage, rfl, rfl⟩

/-- A queued transaction is in neither of storage's transaction indexes. -/
theorem TransactionsValid.not_stored_of_queued {b : Blockchain} (hvalid : b.TransactionsValid C)
    {tx : TransactionBody} (hqueued : tx ∈ b.pendingBlock.transactions) :
    b.storage.TransactionByID (C.TransactionID tx) = .error .ErrNotFound ∧
      b.storage.TransactionResultByID (C.TransactionID tx) = .error .ErrNotFound := by
  have hcommitted : C.TransactionID tx ∉ b.storage.collectionTransactionIDs := fun h =>
    List.disjoint_of_nodup_append hvalid.nodup h (List.mem_map_of_mem _ hqueued)
  refine ⟨Store.TransactionByID_eq_error_iff.mpr (hvalid.stored ▸ hcommitted), ?_⟩
  rcases Store.TransactionResultByID_cases b.storage (C.TransactionID tx) with ⟨-, hfind⟩ | ⟨hkey, -⟩
  · exact hfind
  · exact absurd ((hvalid.storedResults _).mp hkey) hcommitted

/-- Dropping the pending block, by `ResetPendingBlock` or a restart, keeps the chain and
loses exactly the queue: its transactions are reported `Unknown` and admitted again, and
every other ID is answered as before. -/
theorem Reachable.dropping_pending_block {b b' : Blockchain} (hreach : Reachable C F b)
    (hdrop : (∃ env, b.ResetPendingBlock C env = (none, b')) ∨
      ∃ env serviceKey, NewBlockchain C env b.storage serviceKey = .ok b') :
    b'.storage = b.storage ∧ b'.pendingBlock.transactions = [] ∧
    (∀ txID, txID ∉ b.pendingBlock.transactions.map C.TransactionID →
      b'.GetTransactionResult C none txID = b.GetTransactionResult C none txID) ∧
    ∀ tx ∈ b.pendingBlock.transactions,
      b'.GetTransactionResult C none (C.TransactionID tx) = .ok ⟨.Unknown, 0, "", [], ZeroID, 0⟩ ∧
      ∀ env, env.storageFault 0 = none → C.Validate b.storage tx = none →
        b'.AddTransaction C env tx = (none, { b' with pendingBlock := b'.pendingBlock.AddTransaction tx }) := by
  obtain ⟨hchain, hvalid⟩ := hreach.transactionsValid
  obtain ⟨hstorage, hempty, hindex⟩ := drops_pending_block hchain hdrop
  have hcontains' : ∀ txID, b'.pendingBlock.ContainsTransaction C.toHashing txID = false := by
    simp [PendingBlock.ContainsTransaction, hempty]
  refine ⟨hstorage, hempty, fun txID hqueued => ?_, fun tx hqueued => ?_⟩
  · have hcontains : b.pendingBlock.ContainsTransaction C.toHashing txID = false := by
      simpa [← Bool.not_eq_true, PendingBlock.ContainsTransaction_iff] using hqueued
    simp only [GetTransactionResult, hcontains, hcontains', hstorage]
  · obtain ⟨hbody, hresult⟩ := hvalid.not_stored_of_queued hqueued
    refine ⟨by simp [GetTransactionResult, hcontains', hstorage, withFault, hresult],
      fun env hfault hvalidated => AddTransaction_of_admits C ⟨hindex, by simp [hempty], hfault,
        hstorage ▸ hbody, hstorage ▸ hvalidated⟩⟩

/-- A transaction queued on the genesis chain and dropped by `ResetPendingBlock`. -/
theorem dropping_pending_block_of_one_transaction :
    let C := sampleCollaborators
    let b := (Call.AddTransaction (sampleTransaction 1)).apply C .calm sampleGenesis
    let b' := (b.ResetPendingBlock C .calm).2
    Reachable C (fun _ => True) b ∧ b.pendingBlock.transactions = [sampleTransaction 1] ∧
    ((∃ env, b.ResetPendingBlock C env = (none, b')) ∨
      ∃ env serviceKey, NewBlockchain C env b.storage serviceKey = .ok b') ∧
    (b'.storage = b.storage ∧ b'.pendingBlock.transactions = [] ∧
    (∀ txID, txID ∉ b.pendingBlock.transactions.map C.TransactionID →
      b'.GetTransactionResult C none txID = b.GetTransactionResult C none txID) ∧
    ∀ tx ∈ b.pendingBlock.transactions,
      b'.GetTransactionResult C none (C.TransactionID tx) = .ok ⟨.Unknown, 0, "", [], ZeroID, 0⟩ ∧
      ∀ env, env.storageFault 0 = none → C.Validate b.storage tx = none →
        b'.AddTransaction C env tx = (none, { b' with pendingBlock := b'.pendingBlock.AddTransaction tx })) := by
  intro C b b'
  have hreach : Reachable C (fun _ => True) b :=
    .call _ _ (fun _ => trivial) Reachable.of_sampleGenesis
  have hdrop : (∃ env, b.ResetPendingBlock C env = (none, b')) ∨
      ∃ env serviceKey, NewBlockchain C env b.storage serviceKey = .ok b' := .inl ⟨.calm, rfl⟩
  exact ⟨hreach, rfl, hdrop, Reachable.dropping_pending_block hreach hdrop⟩

end Blockchain

end flow_emulator.emulator
