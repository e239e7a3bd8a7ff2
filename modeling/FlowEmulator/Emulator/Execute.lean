import FlowEmulator.Emulator.Lifecycle

namespace flow_emulator.emulator

open flow_emulator.flowgo flow_emulator.types flow_emulator.storage

/-- The environment of the `k`-th single-run call that meets what the `k`-th VM run of
one call meets in `env`. -/
def Environment.run (env : Environment) (k : Nat) : Environment :=
  { env with vmFault := fun _ => env.vmFault k }

/-- An environment in which no call fails. -/
def Environment.calm : Environment := ⟨0, 1, fun _ => none, fun _ => none⟩

/-- A configuration for concrete cases: transactions identified by their gas limit,
blocks by their height, a VM that completes every procedure without writes or events,
and accounts without keys. -/
def sampleCollaborators : Collaborators where
  TransactionID tx := tx.GasLimit
  BlockID block := block.Header.Height
  CollectionID col := col.Transactions.length
  Run _ _ _ := ⟨[], .ok ⟨none, [], [], 0, none⟩⟩
  GetAccount address _ := .ok ⟨address, 0, [], []⟩
  Validate _ _ := none
  convertAccessError := .Access
  VMTransactionResultToEmulator tp :=
    .ok ⟨tp.Transaction.GasLimit, tp.ComputationUsed, tp.Err, tp.Logs, tp.Events, none⟩
  ToStorableResult _ := .ok ⟨0, "", [], []⟩
  Verify _ _ _ _ := false
  EnvelopeMessage _ := []
  PayloadMessage _ := []
  CreateAccountTemplate _ _ _ := .error "no template"
  SignEnvelope tx _ _ _ := .ok tx
  ErrorMessage _ := ""
  GenesisTime := 0
  DefaultMaxTransactionGasLimit := 9999

/-- The transaction `sampleCollaborators` identifies by `id`. -/
def sampleTransaction (id : Nat) : TransactionBody := ⟨0, [], [], id, ⟨0, 0, 0⟩, 0, [], [], []⟩

/-- A service key for concrete cases. -/
def sampleServiceKey : ServiceKey := ⟨0, 0, 0, none, .SHA3_256, 1000⟩

/-- The blockchain `NewBlockchain` opens for `sampleCollaborators` over the empty store:
the genesis block, and an empty pending block on it. -/
def sampleGenesis : Blockchain :=
  ⟨⟨[⟨Genesis sampleCollaborators, [], [], [], [], []⟩]⟩,
    newPendingBlock sampleCollaborators.toHashing (Genesis sampleCollaborators) ⟨Ledger.empty, []⟩ 1 0,
    sampleServiceKey, false⟩

namespace Blockchain

variable (C : Collaborators)

/-- The pending block after the transaction `tx` at its cursor ran to completion with
output `out`, the writes `writes` of the child view it ran on merged into the shared
view. -/
def advancedPendingBlock (pb : PendingBlock) (tx : TransactionBody) (writes : Delta)
    (out : ProcedureOutput) : PendingBlock :=
  { pb with
    ledgerView := pb.ledgerView.write writes
    index := pb.index + 1
    events := pb.events ++ out.Events
    transactionResults := mapInsert pb.transactionResults (C.TransactionID tx)
      ⟨.ofOutput tx (UInt32.ofNat pb.index) out, UInt32.ofNat pb.index⟩ }

@[simp] theorem advancedPendingBlock_index (pb : PendingBlock) (tx : TransactionBody)
    (writes : Delta) (out : ProcedureOutput) :
    (advancedPendingBlock C pb tx writes out).index = pb.index + 1 := rfl

@[simp] theorem advancedPendingBlock_transactions (pb : PendingBlock) (tx : TransactionBody)
    (writes : Delta) (out : ProcedureOutput) :
    (advancedPendingBlock C pb tx writes out).transactions = pb.transactions := rfl

/-- Advancing records at most one more result. -/
theorem advancedPendingBlock_results_length (pb : PendingBlock) (tx : TransactionBody)
    (writes : Delta) (out : ProcedureOutput) :
    (advancedPendingBlock C pb tx writes out).transactionResults.length ≤
      pb.transactionResults.length + 1 :=
  length_mapInsert_le _ _ _

theorem executeNextTransaction_of_complete {b : Blockchain} {ctx : Context}
    {fault : Option (Delta × FatalError)}
    (hle : b.pendingBlock.transactions.length ≤ b.pendingBlock.index) :
    b.executeNextTransaction C ctx fault =
      (.error (.PendingBlockTransactionsExhausted (b.pendingBlock.ID C.toHashing)), b) := by
  rw [executeNextTransaction, if_pos ((PendingBlock.ExecutionComplete_iff _).mpr hle)]

/-- A fatal VM run of the transaction at the cursor: the VM error is returned, the
cursor moves past the transaction, and the run's writes are dropped with its child
view. -/
theorem executeNextTransaction_of_run_error {b : Blockchain} {ctx : Context}
    {fault : Option (Delta × FatalError)} {tx : TransactionBody} {err : FatalError}
    (htx : b.pendingBlock.transactions[b.pendingBlock.index]? = some tx)
    (hr : (vmRun C ctx (.Transaction tx (UInt32.ofNat b.pendingBlock.index))
      b.pendingBlock.ledgerView.read fault).result = .error err) :
    b.executeNextTransaction C ctx fault =
      (.error (.VM err), { b with pendingBlock := { b.pendingBlock with index := b.pendingBlock.index + 1 } }) := by
  have hincomplete : b.pendingBlock.ExecutionComplete = false :=
    (PendingBlock.ExecutionComplete_eq_false_iff _).mpr (List.getElem?_eq_some_iff.mp htx).1
  simp only [executeNextTransaction, hincomplete, PendingBlock.ExecuteNextTransaction, htx,
    runTransaction, View.NewChild_read, hr, Bool.false_eq_true, if_false]

/-- A completed VM run of the transaction at the cursor: the pending block advances, and
the call returns the converted result (or the conversion's error). -/
theorem executeNextTransaction_of_run_ok {b : Blockchain} {ctx : Context}
    {fault : Option (Delta × FatalError)} {tx : TransactionBody} {out : ProcedureOutput}
    (htx : b.pendingBlock.transactions[b.pendingBlock.index]? = some tx)
    (hr : (vmRun C ctx (.Transaction tx (UInt32.ofNat b.pendingBlock.index))
      b.pendingBlock.ledgerView.read fault).result = .ok out) :
    let b' := { b with pendingBlock := (advancedPendingBlock C b.pendingBlock tx
      (vmRun C ctx (.Transaction tx (UInt32.ofNat b.pendingBlock.index))
        b.pendingBlock.ledgerView.read fault).writes out) }
    b.executeNextTransaction C ctx fault =
      (b'.transactionResultOf C (.ofOutput tx (UInt32.ofNat b.pendingBlock.index) out), b') := by
  have hincomplete : b.pendingBlock.ExecutionComplete = false :=
    (PendingBlock.ExecutionComplete_eq_false_iff _).mpr (List.getElem?_eq_some_iff.mp htx).1
  simp only [executeNextTransaction, hincomplete, PendingBlock.ExecuteNextTransaction, htx,
    runTransaction, View.NewChild_read, hr, Bool.false_eq_true, if_false, advancedPendingBlock,
    View.MergeView_NewChild_write, TransactionProcedure.ofOutput_events]

/-- Everything one `executeNextTransaction` can do to the blockchain: refuse a complete
block, only move the cursor past a transaction whose VM run failed fatally, or advance
past the transaction at the cursor, whatever it then returns. -/
theorem executeNextTransaction_cases {b b' : Blockchain} {ctx : Context}
    {fault : Option (Delta × FatalError)} {r : Except EmulatorError TransactionResult}
    (h : b.executeNextTransaction C ctx fault = (r, b')) :
    (b.pendingBlock.transactions.length ≤ b.pendingBlock.index ∧
        r = .error (.PendingBlockTransactionsExhausted (b.pendingBlock.ID C.toHashing)) ∧ b' = b) ∨
    (∃ tx err, b.pendingBlock.transactions[b.pendingBlock.index]? = some tx ∧
        (vmRun C ctx (.Transaction tx (UInt32.ofNat b.pendingBlock.index))
          b.pendingBlock.ledgerView.read fault).result = .error err ∧
        r = .error (.VM err) ∧
        b' = { b with pendingBlock := { b.pendingBlock with index := b.pendingBlock.index + 1 } }) ∨
    (∃ tx out, b.pendingBlock.transactions[b.pendingBlock.index]? = some tx ∧
        (vmRun C ctx (.Transaction tx (UInt32.ofNat b.pendingBlock.index))
          b.pendingBlock.ledgerView.read fault).result = .ok out ∧
        b' = { b with pendingBlock := (advancedPendingBlock C b.pendingBlock tx
          (vmRun C ctx (.Transaction tx (UInt32.ofNat b.pendingBlock.index))
            b.pendingBlock.ledgerView.read fault).writes out) }) := by
  cases htx : b.pendingBlock.transactions[b.pendingBlock.index]? with
  | none =>
    rw [executeNextTransaction_of_complete C (List.getElem?_eq_none_iff.mp htx), Prod.mk.injEq] at h
    exact .inl ⟨List.getElem?_eq_none_iff.mp htx, h.1.symm, h.2.symm⟩
  | some tx =>
    cases hr : (vmRun C ctx (.Transaction tx (UInt32.ofNat b.pendingBlock.index))
      b.pendingBlock.ledgerView.read fault).result with
    | error err =>
      rw [executeNextTransaction_of_run_error C htx hr, Prod.mk.injEq] at h
      exact .inr (.inl ⟨tx, err, rfl, hr, h.1.symm, h.2.symm⟩)
    | ok out =>
      rw [executeNextTransaction_of_run_ok C htx hr, Prod.mk.injEq] at h
      exact .inr (.inr ⟨tx, out, rfl, hr, h.2.symm⟩)

/-- What one `executeNextTransaction` does, for every pending block. On a complete block
it refuses and changes nothing. Otherwise the cursor moves past the transaction at it
whatever happens: a fatal VM run returns the VM error and leaves results, events and
view as they were; a completed run is recorded with its events and writes, whatever the
call then returns, a failed conversion of the procedure included. -/
theorem executeNextTransaction_spec (b : Blockchain) (ctx : Context)
    (fault : Option (Delta × FatalError)) :
    (b.pendingBlock.transactions.length ≤ b.pendingBlock.index →
      b.executeNextTransaction C ctx fault =
        (.error (.PendingBlockTransactionsExhausted (b.pendingBlock.ID C.toHashing)), b)) ∧
    ∀ tx, b.pendingBlock.transactions[b.pendingBlock.index]? = some tx →
      let run := vmRun C ctx (.Transaction tx (UInt32.ofNat b.pendingBlock.index))
        b.pendingBlock.ledgerView.read fault
      (∀ err, run.result = .error err →
        b.executeNextTransaction C ctx fault =
          (.error (.VM err), { b with pendingBlock :=
            { b.pendingBlock with index := b.pendingBlock.index + 1 } })) ∧
      (∀ out, run.result = .ok out →
        let b' := { b with
          pendingBlock := advancedPendingBlock C b.pendingBlock tx run.writes out }
        b.executeNextTransaction C ctx fault =
          (b'.transactionResultOf C (.ofOutput tx (UInt32.ofNat b.pendingBlock.index) out), b') ∧
        ∀ e, C.VMTransactionResultToEmulator (.ofOutput tx (UInt32.ofNat b.pendingBlock.index) out) =
          .error e → (b.executeNextTransaction C ctx fault).1 = .error (.Convert e)) :=
  ⟨fun hle => executeNextTransaction_of_complete C hle, fun _ htx =>
    ⟨fun _ hr => executeNextTransaction_of_run_error C htx hr, fun _ hr =>
      ⟨executeNextTransaction_of_run_ok C htx hr, fun _ he => by
        rw [executeNextTransaction_of_run_ok C htx hr]
        simp only [transactionResultOf, he]⟩⟩⟩

/-- A completed run whose procedure fails to convert: `executeNextTransaction` returns
the conversion error, yet the cursor has moved past the transaction. -/
theorem executeNextTransaction_conversion_error_advances :
    let C' := { sampleCollaborators with VMTransactionResultToEmulator := fun _ => .error "convert" }
    let b : Blockchain := ⟨Store.empty,
      { newPendingBlock C'.toHashing (Genesis C') ⟨Ledger.empty, []⟩ 1 0 with
        transactions := [sampleTransaction 1] }, sampleServiceKey, false⟩
    b.pendingBlock.index < b.pendingBlock.transactions.length ∧
      (b.executeNextTransaction C' ⟨none⟩ none).1 = .error (.Convert "convert") ∧
      (b.executeNextTransaction C' ⟨none⟩ none).2.pendingBlock.index = b.pendingBlock.index + 1 :=
  ⟨by decide, rfl, rfl⟩

/-- `executeNextTransaction` touches only the pending block's view, cursor, results and
events. -/
theorem executeNextTransaction_frame {b b' : Blockchain} {ctx : Context}
    {fault : Option (Delta × FatalError)} {r : Except EmulatorError TransactionResult}
    (h : b.executeNextTransaction C ctx fault = (r, b')) :
    b'.storage = b.storage ∧ b'.serviceKey = b.serviceKey ∧ b'.autoMine = b.autoMine ∧
      b'.pendingBlock.transactions = b.pendingBlock.transactions ∧
      (b'.pendingBlock.Block C.toHashing).Header = (b.pendingBlock.Block C.toHashing).Header := by
  rcases executeNextTransaction_cases C h with ⟨-, -, rfl⟩ | ⟨_, _, -, -, -, rfl⟩ | ⟨_, _, -, -, rfl⟩ <;>
    exact ⟨rfl, rfl, rfl, rfl, rfl⟩

/-- On a block that is not complete, the cursor moves by exactly one, whatever the call
returns. -/
theorem executeNextTransaction_advances {b b' : Blockchain} {ctx : Context}
    {fault : Option (Delta × FatalError)} {r : Except EmulatorError TransactionResult}
    (h : b.executeNextTransaction C ctx fault = (r, b'))
    (hlt : b.pendingBlock.index < b.pendingBlock.transactions.length) :
    b'.pendingBlock.index = b.pendingBlock.index + 1 := by
  rcases executeNextTransaction_cases C h with ⟨hle, -, -⟩ | ⟨_, _, -, -, -, rfl⟩ | ⟨_, _, -, -, rfl⟩
  · omega
  · rfl
  · rfl

/-- The cursor never moves back. -/
theorem executeNextTransaction_index_le {b b' : Blockchain} {ctx : Context}
    {fault : Option (Delta × FatalError)} {r : Except EmulatorError TransactionResult}
    (h : b.executeNextTransaction C ctx fault = (r, b')) :
    b.pendingBlock.index ≤ b'.pendingBlock.index := by
  rcases executeNextTransaction_cases C h with ⟨-, -, rfl⟩ | ⟨_, _, -, -, -, rfl⟩ | ⟨_, _, -, -, rfl⟩
  · exact le_rfl
  all_goals exact Nat.le_succ _

/-- A call that returns a result has advanced the cursor by exactly one. -/
theorem executeNextTransaction_ok {b b' : Blockchain} {ctx : Context}
    {fault : Option (Delta × FatalError)} {result : TransactionResult}
    (h : b.executeNextTransaction C ctx fault = (.ok result, b')) :
    b.pendingBlock.index < b.pendingBlock.transactions.length ∧
      b'.pendingBlock.index = b.pendingBlock.index + 1 := by
  rcases executeNextTransaction_cases C h with ⟨-, h, -⟩ | ⟨_, _, -, -, h, -⟩ | ⟨_, _, htx, -, rfl⟩
  · cases h
  · cases h
  · exact ⟨(List.getElem?_eq_some_iff.mp htx).1, rfl⟩

/-- `ExecuteNextTransaction` called again and again from one state, the `k`-th call in
`envs k`, until the block is complete or a call fails: the results of the calls that
returned one, the failing call's error, and the final state. -/
def repeatExecuteNextTransaction (envs : Nat → Environment) :
    Nat → List TransactionResult → Blockchain →
      List TransactionResult × Option EmulatorError × Blockchain
  | 0, results, b => (results, none, b)
  | fuel + 1, results, b =>
    if b.pendingBlock.ExecutionComplete then (results, none, b)
    else
      match b.ExecuteNextTransaction C (envs results.length) with
      | (.error err, b) => (results, some err, b)
      | (.ok result, b) => repeatExecuteNextTransaction envs fuel (results ++ [result]) b

/-- `ExecuteBlock`'s loop, run in the context of the block's header, is `ExecuteNextTransaction`
repeated: the header, and so the context, stays the same from one step to the next. -/
theorem executeLoop_eq_repeat (env : Environment) :
    ∀ (fuel : Nat) (results : List TransactionResult) (b : Blockchain),
      executeLoop C ⟨some (b.pendingBlock.Block C.toHashing).Header⟩ env.vmFault fuel results b =
        repeatExecuteNextTransaction C env.run fuel results b
  | 0, _, _ => rfl
  | fuel + 1, results, b => by
    simp only [executeLoop, repeatExecuteNextTransaction, ExecuteNextTransaction,
      newFVMContextFromHeader, Environment.run]
    split
    · rfl
    · cases h : b.executeNextTransaction C ⟨some (b.pendingBlock.Block C.toHashing).Header⟩
        (env.vmFault results.length) with
      | mk r b' =>
        cases r with
        | error err => rfl
        | ok result =>
          simp only
          rw [← (executeNextTransaction_frame C h).2.2.2.2]
          exact executeLoop_eq_repeat env fuel _ b'

/-- Everything one iteration of `ExecuteBlock`'s loop can do: stop on a complete block,
stop on a call that fails, or go on from the state the call left, its result appended. -/
theorem executeLoop_succ_cases {ctx : Context} {vmFault : Nat → Option (Delta × FatalError)}
    {fuel : Nat} {results results' : List TransactionResult} {err : Option EmulatorError}
    {b b' : Blockchain} (h : executeLoop C ctx vmFault (fuel + 1) results b = (results', err, b')) :
    (b.pendingBlock.transactions.length ≤ b.pendingBlock.index ∧ results' = results ∧ err = none ∧
        b' = b) ∨
      (∃ e, b.executeNextTransaction C ctx (vmFault results.length) = (.error e, b') ∧
        results' = results ∧ err = some e) ∨
      ∃ result b₁, b.executeNextTransaction C ctx (vmFault results.length) = (.ok result, b₁) ∧
        executeLoop C ctx vmFault fuel (results ++ [result]) b₁ = (results', err, b') := by
  rw [executeLoop] at h
  split at h
  · obtain ⟨rfl, rfl, rfl⟩ : results = results' ∧ none = err ∧ b = b' := by simpa using h
    exact .inl ⟨(PendingBlock.ExecutionComplete_iff _).mp ‹_›, rfl, rfl, rfl⟩
  · rcases hstep : b.executeNextTransaction C ctx (vmFault results.length) with ⟨_ | result, b₁⟩ <;>
      rw [hstep] at h
    · obtain ⟨rfl, rfl, rfl⟩ := by simpa using h
      exact .inr (.inl ⟨_, rfl, rfl, rfl⟩)
    · exact .inr (.inr ⟨result, b₁, rfl, h⟩)

/-- A run of `ExecuteBlock`'s loop with enough fuel that returns no error has completed
the block, with one result per transaction it executed. -/
theorem executeLoop_complete {ctx : Context} {vmFault : Nat → Option (Delta × FatalError)} :
    ∀ (fuel : Nat) (results : List TransactionResult) (b : Blockchain)
      {results' : List TransactionResult} {b' : Blockchain},
      b.pendingBlock.transactions.length - b.pendingBlock.index ≤ fuel →
      b.pendingBlock.index ≤ b.pendingBlock.transactions.length →
      executeLoop C ctx vmFault fuel results b = (results', none, b') →
      b'.pendingBlock.index = b'.pendingBlock.transactions.length ∧
        b'.pendingBlock.transactions = b.pendingBlock.transactions ∧
        results'.length = results.length + (b.pendingBlock.transactions.length - b.pendingBlock.index)
  | 0, results, b, _, _, hfuel, hle, h => by
    simp only [executeLoop, Prod.mk.injEq] at h
    obtain ⟨rfl, -, rfl⟩ := h
    exact ⟨by omega, rfl, by omega⟩
  | fuel + 1, results, b, _, _, hfuel, hle, h => by
    rcases executeLoop_succ_cases C h with ⟨hdone, rfl, -, rfl⟩ | ⟨_, -, -, h⟩ | ⟨result, b₁, hstep, h⟩
    · exact ⟨by omega, rfl, by omega⟩
    · cases h
    · obtain ⟨hlt, hindex⟩ := executeNextTransaction_ok C hstep
      have hqueue := (executeNextTransaction_frame C hstep).2.2.2.1
      have hlen := congrArg List.length hqueue
      obtain ⟨hdone, hsame, hlength⟩ := executeLoop_complete fuel _ b₁ (by omega) (by omega) h
      refine ⟨hdone, hsame.trans hqueue, ?_⟩
      simp only [List.length_append, List.length_singleton] at hlength
      omega

/-- `ExecuteBlock` is `ExecuteNextTransaction` called until the block is complete or a
call fails, the `k`-th call meeting the `k`-th VM run's fault; on an empty or a complete
block it changes nothing. -/
theorem ExecuteBlock_eq_repeatExecuteNextTransaction (b : Blockchain) (env : Environment) :
    (b.pendingBlock.transactions = [] → b.ExecuteBlock C env = ([], none, b)) ∧
    (b.pendingBlock.transactions ≠ [] →
      b.pendingBlock.transactions.length ≤ b.pendingBlock.index →
      b.ExecuteBlock C env =
        ([], some (.PendingBlockTransactionsExhausted (b.pendingBlock.ID C.toHashing)), b)) ∧
    (b.pendingBlock.index < b.pendingBlock.transactions.length →
      b.ExecuteBlock C env = b.repeatExecuteNextTransaction C env.run
        (b.pendingBlock.transactions.length - b.pendingBlock.index) [] ∧
      ∀ results b', b.ExecuteBlock C env = (results, none, b') →
        b'.pendingBlock.index = b.pendingBlock.transactions.length ∧
        b'.pendingBlock.transactions = b.pendingBlock.transactions ∧
        results.length = b.pendingBlock.transactions.length - b.pendingBlock.index) := by
  refine ⟨fun hempty => ?_, fun hne hle => ?_, fun hlt => ?_⟩
  · simp [ExecuteBlock, (PendingBlock.Empty_iff _).mpr hempty]
  · have hnotEmpty := (PendingBlock.Empty_eq_false_iff _).mpr hne
    simp [ExecuteBlock, hnotEmpty, (PendingBlock.ExecutionComplete_iff _).mpr hle]
  · have hnotEmpty := (PendingBlock.Empty_eq_false_iff _).mpr
      (List.ne_nil_of_length_pos (Nat.lt_of_le_of_lt (Nat.zero_le _) hlt))
    have hexec : b.ExecuteBlock C env = executeLoop C ⟨some (b.pendingBlock.Block C.toHashing).Header⟩
        env.vmFault (b.pendingBlock.transactions.length - b.pendingBlock.index) [] b := by
      simp [ExecuteBlock, hnotEmpty, (PendingBlock.ExecutionComplete_eq_false_iff _).mpr hlt,
        PendingBlock.Size]
    refine ⟨hexec.trans (executeLoop_eq_repeat C env _ _ _), fun results b' h => ?_⟩
    obtain ⟨hdone, hsame, hlength⟩ := executeLoop_complete C _ [] b le_rfl hlt.le (hexec.symm.trans h)
    exact ⟨hdone.trans (congrArg List.length hsame), hsame, by simpa using hlength⟩

end Blockchain

end flow_emulator.emulator
