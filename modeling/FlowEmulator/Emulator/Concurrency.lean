import FlowEmulator.Emulator.Transactions

namespace flow_emulator.emulator

open flow_emulator.flowgo flow_emulator.types flow_emulator.storage

/-- Where one `AddTransaction` call stands. The call takes no lock, so each of its checks,
and its append, reads or writes the shared blockchain as it is at that moment. -/
inductive AddTransactionStep where
  | checkStarted
  | checkContains
  | checkStorage
  | validate
  | append
  | returned (err : Option EmulatorError)
  deriving DecidableEq, Repr

/-- One atomic step of an `AddTransaction(tx)` call on the shared blockchain. -/
def AddTransactionStep.next (C : Collaborators) (env : Environment) (tx : TransactionBody) :
    AddTransactionStep → Blockchain → AddTransactionStep × Blockchain
  | .checkStarted, b =>
    if b.pendingBlock.ExecutionStarted then
      (.returned (some (.PendingBlockMidExecution (b.pendingBlock.ID C.toHashing))), b)
    else (.checkContains, b)
  | .checkContains, b =>
    if b.pendingBlock.ContainsTransaction C.toHashing (C.TransactionID tx) then
      (.returned (some (.DuplicateTransaction (C.TransactionID tx))), b)
    else (.checkStorage, b)
  | .checkStorage, b =>
    match withFault (env.storageFault 0) (b.storage.TransactionByID (C.TransactionID tx)) with
    | .ok _ => (.returned (some (.DuplicateTransaction (C.TransactionID tx))), b)
    | .error .ErrNotFound => (.validate, b)
    | .error err => (.returned (some (.FailedToCheckStorage err)), b)
  | .validate, b =>
    match C.Validate b.storage tx with
    | some err => (.returned (some (C.convertAccessError err)), b)
    | none => (.append, b)
  | .append, b => (.returned none, { b with pendingBlock := b.pendingBlock.AddTransaction tx })
  | .returned err, b => (.returned err, b)

/-- Where one `ExecuteBlock` call stands. It takes no lock: it checks the pending block
and fixes the block context once, then runs its loop one iteration per step, each
checking that the block is not complete and executing the transaction at the cursor. -/
inductive ExecuteBlockStep where
  | start
  | loop (ctx : Context) (results : List TransactionResult)
  | returned (results : List TransactionResult) (err : Option EmulatorError)

/-- One atomic step of an `ExecuteBlock` call on the shared blockchain. -/
def ExecuteBlockStep.next (C : Collaborators) (env : Environment) :
    ExecuteBlockStep → Blockchain → ExecuteBlockStep × Blockchain
  | .start, b =>
    if b.pendingBlock.Empty then (.returned [] none, b)
    else if b.pendingBlock.ExecutionComplete then
      (.returned [] (some (.PendingBlockTransactionsExhausted (b.pendingBlock.ID C.toHashing))), b)
    else (.loop ⟨some (b.pendingBlock.Block C.toHashing).Header⟩ [], b)
  | .loop ctx results, b =>
    if b.pendingBlock.ExecutionComplete then (.returned results none, b)
    else
      match b.executeNextTransaction C ctx (env.vmFault results.length) with
      | (.error err, b) => (.returned results (some err), b)
      | (.ok result, b) => (.loop ctx (results ++ [result]), b)
  | .returned results err, b => (.returned results err, b)

/-- Where one `SendTransaction(tx)` call stands. It takes no lock: its `AddTransaction`
runs step by step, then it reads the auto-mine switch, then its `executeAndCommitBlock`
runs `ExecuteBlock` step by step and commits. -/
inductive SendTransactionStep where
  | add (step : AddTransactionStep)
  | execute (step : ExecuteBlockStep)
  | returned (err : Option EmulatorError)

/-- One atomic step of a `SendTransaction(tx)` call on the shared blockchain. The step
after its `AddTransaction` returns maps the error or reads the switch; the step after its
`ExecuteBlock` returns commits. The auto-mined `executeAndCommitBlock` meets the storage
faults after the one its `AddTransaction` met. -/
def SendTransactionStep.next (C : Collaborators) (env : Environment) (tx : TransactionBody) :
    SendTransactionStep → Blockchain → SendTransactionStep × Blockchain
  | .add (.returned (some err)), b => (.returned (some (Blockchain.sendTransactionError C err)), b)
  | .add (.returned none), b => if b.autoMine then (.execute .start, b) else (.returned none, b)
  | .add step, b =>
    let s := step.next C env tx b
    (.add s.1, s.2)
  | .execute (.returned _ (some err)), b => (.returned (some err), b)
  | .execute (.returned _ none), b =>
    match b.commitBlock C (env.shiftStorage 1) with
    | (.error err, b) => (.returned (some err), b)
    | (.ok _, b) => (.returned none, b)
  | .execute step, b =>
    let s := step.next C (env.shiftStorage 1) b
    (.execute s.1, s.2)
  | .returned err, b => (.returned err, b)

/-- A call made without the lock, and where it stands. -/
inductive ClientCall where
  | AddTransaction (tx : TransactionBody) (step : AddTransactionStep)
  | SendTransaction (tx : TransactionBody) (step : SendTransactionStep)
  | ExecuteBlock (step : ExecuteBlockStep)

namespace ClientCall

variable (C : Collaborators) (env : Environment)

/-- One atomic step of a call made without the lock. -/
def next : ClientCall → Blockchain → ClientCall × Blockchain
  | .AddTransaction tx step, b =>
    let s := step.next C env tx b
    (.AddTransaction tx s.1, s.2)
  | .SendTransaction tx step, b =>
    let s := step.next C env tx b
    (.SendTransaction tx s.1, s.2)
  | .ExecuteBlock step, b =>
    let s := step.next C env b
    (.ExecuteBlock s.1, s.2)

/-- `n` steps of one call, with nothing interleaved. -/
def run : Nat → ClientCall × Blockchain → ClientCall × Blockchain
  | 0, s => s
  | n + 1, s => run n (s.1.next C env s.2)

/-- A call that has come to rest stays there. -/
theorem run_of_next_eq (call : ClientCall) (b : Blockchain) (h : call.next C env b = (call, b)) :
    ∀ n, run C env n (call, b) = (call, b)
  | 0 => rfl
  | n + 1 => by rw [run, h, run_of_next_eq call b h n]

/-- An `AddTransaction` call whose five steps run with nothing interleaved is the
sequential `AddTransaction`: same result, same blockchain. -/
theorem run_AddTransaction (tx : TransactionBody) (b : Blockchain) :
    run C env 5 (.AddTransaction tx .checkStarted, b) =
      (.AddTransaction tx (.returned (b.AddTransaction C env tx).1), (b.AddTransaction C env tx).2) := by
  have hrest := fun err b => run_of_next_eq C env (.AddTransaction tx (.returned err)) b rfl
  cases hstarted : b.pendingBlock.ExecutionStarted
  case true => simp [run, next, AddTransactionStep.next, Blockchain.AddTransaction, hstarted, hrest]
  cases hcontains : b.pendingBlock.ContainsTransaction C.toHashing (C.TransactionID tx)
  case true =>
    simp [run, next, AddTransactionStep.next, Blockchain.AddTransaction, hstarted, hcontains, hrest]
  cases hstored : withFault (env.storageFault 0) (b.storage.TransactionByID (C.TransactionID tx)) with
  | ok _ =>
    simp [run, next, AddTransactionStep.next, Blockchain.AddTransaction, hstarted, hcontains, hstored,
      hrest]
  | error err =>
    cases err with
    | Other message =>
      simp [run, next, AddTransactionStep.next, Blockchain.AddTransaction, hstarted, hcontains,
        hstored, hrest]
    | ErrNotFound =>
      cases hvalid : C.Validate b.storage tx <;>
        simp [run, next, AddTransactionStep.next, Blockchain.AddTransaction, hstarted, hcontains,
          hstored, hvalid, hrest]

/-- `ExecuteBlock`'s loop run one iteration per step with nothing interleaved, given
enough steps to see the block complete, is the loop of the sequential `ExecuteBlock`. -/
theorem run_loop (ctx : Context) :
    ∀ (fuel : Nat) (results : List TransactionResult) (b : Blockchain),
      b.pendingBlock.index ≤ b.pendingBlock.transactions.length →
      b.pendingBlock.transactions.length - b.pendingBlock.index ≤ fuel →
      run C env (fuel + 1) (.ExecuteBlock (.loop ctx results), b) =
        (.ExecuteBlock (.returned (Blockchain.executeLoop C ctx env.vmFault fuel results b).1
          (Blockchain.executeLoop C ctx env.vmFault fuel results b).2.1),
          (Blockchain.executeLoop C ctx env.vmFault fuel results b).2.2)
  | 0, results, b, hle, hfuel => by
    have hcomplete : b.pendingBlock.ExecutionComplete = true :=
      (PendingBlock.ExecutionComplete_iff _).mpr (by omega)
    simp [run, next, ExecuteBlockStep.next, Blockchain.executeLoop, hcomplete]
  | fuel + 1, results, b, hle, hfuel => by
    have hrest := fun results err b =>
      run_of_next_eq C env (.ExecuteBlock (.returned results err)) b rfl
    cases hcomplete : b.pendingBlock.ExecutionComplete
    case true => simp [run, next, ExecuteBlockStep.next, Blockchain.executeLoop, hcomplete, hrest]
    rcases hstep : b.executeNextTransaction C ctx (env.vmFault results.length) with ⟨_ | result, b₁⟩
    · simp [run, next, ExecuteBlockStep.next, Blockchain.executeLoop, hcomplete, hstep, hrest]
    · obtain ⟨-, hindex⟩ := Blockchain.executeNextTransaction_ok C hstep
      have hlength := congrArg List.length (Blockchain.executeNextTransaction_frame C hstep).2.2.2.1
      have hlt := (Blockchain.executeNextTransaction_ok C hstep).1
      have hloop := run_loop ctx fuel (results ++ [result]) b₁ (by omega) (by omega)
      rw [run, next]
      simp only [ExecuteBlockStep.next, hcomplete, hstep, Bool.false_eq_true, if_false]
      rw [hloop, Blockchain.executeLoop, hcomplete]
      simp only [Bool.false_eq_true, if_false, hstep]

/-- An `ExecuteBlock` call run with nothing interleaved, one step for its checks, one per
transaction left and one to see the block complete, is the sequential `ExecuteBlock`. -/
theorem run_ExecuteBlock (b : Blockchain)
    (hle : b.pendingBlock.index ≤ b.pendingBlock.transactions.length) :
    run C env (b.pendingBlock.transactions.length - b.pendingBlock.index + 2) (.ExecuteBlock .start, b) =
      (.ExecuteBlock (.returned (b.ExecuteBlock C env).1 (b.ExecuteBlock C env).2.1),
        (b.ExecuteBlock C env).2.2) := by
  have hrest := fun results err b =>
    run_of_next_eq C env (.ExecuteBlock (.returned results err)) b rfl
  cases hempty : b.pendingBlock.Empty
  case true => simp [run, next, ExecuteBlockStep.next, Blockchain.ExecuteBlock, hempty, hrest]
  cases hcomplete : b.pendingBlock.ExecutionComplete
  case true =>
    simp [run, next, ExecuteBlockStep.next, Blockchain.ExecuteBlock, hempty, hcomplete, hrest]
  rw [run, next]
  simp only [ExecuteBlockStep.next, hempty, hcomplete, Bool.false_eq_true, if_false]
  rw [run_loop C env _ _ [] b hle le_rfl]
  simp [Blockchain.ExecuteBlock, hempty, hcomplete, PendingBlock.Size]

/-- `m` steps after `n` steps are `m + n` steps. -/
theorem run_add (m : Nat) : ∀ (n : Nat) (s : ClientCall × Blockchain),
    run C env (m + n) s = run C env m (run C env n s)
  | 0, _ => rfl
  | n + 1, s => by
    show run C env (m + n + 1) s = run C env m (run C env n (s.1.next C env s.2))
    rw [run, run_add m n]

/-- A run that has come to rest after `n` steps is at rest after any more. -/
theorem run_of_rest {n : Nat} {s : ClientCall × Blockchain} {call : ClientCall} {b : Blockchain}
    (h : run C env n s = (call, b)) (hrest : call.next C env b = (call, b)) (m : Nat) :
    run C env (m + n) s = (call, b) := by
  rw [run_add, h, run_of_next_eq C env call b hrest]

/-- Inside `SendTransaction`, its `AddTransaction` steps as it would alone, up to the step
where it returns. -/
theorem run_add_phase (tx : TransactionBody) :
    ∀ (k : Nat) (step : AddTransactionStep) (b : Blockchain) {err : Option EmulatorError}
      {b' : Blockchain},
      run C env k (.AddTransaction tx step, b) = (.AddTransaction tx (.returned err), b') →
      ∃ j ≤ k, run C env j (.SendTransaction tx (.add step), b) =
        (.SendTransaction tx (.add (.returned err)), b')
  | 0, _, _, _, _, h => by
    simp only [run, Prod.mk.injEq, ClientCall.AddTransaction.injEq, true_and] at h
    obtain ⟨rfl, rfl⟩ := h
    exact ⟨0, le_rfl, rfl⟩
  | k + 1, step, b, _, _, h => by
    cases step with
    | returned err =>
      rw [run_of_next_eq C env (.AddTransaction tx (.returned err)) b rfl] at h
      simp only [Prod.mk.injEq, ClientCall.AddTransaction.injEq, AddTransactionStep.returned.injEq,
        true_and] at h
      obtain ⟨rfl, rfl⟩ := h
      exact ⟨0, Nat.zero_le _, rfl⟩
    | _ =>
      obtain ⟨j, hj, hrun⟩ := run_add_phase tx k _ _ h
      exact ⟨j + 1, Nat.succ_le_succ hj, hrun⟩

/-- Inside `SendTransaction`, the auto-mined `ExecuteBlock` steps as it would alone, up to
the step where it returns. -/
theorem run_execute_phase (tx : TransactionBody) :
    ∀ (k : Nat) (step : ExecuteBlockStep) (b : Blockchain) {results : List TransactionResult}
      {err : Option EmulatorError} {b' : Blockchain},
      run C (env.shiftStorage 1) k (.ExecuteBlock step, b) = (.ExecuteBlock (.returned results err), b') →
      ∃ j ≤ k, run C env j (.SendTransaction tx (.execute step), b) =
        (.SendTransaction tx (.execute (.returned results err)), b')
  | 0, _, _, _, _, _, h => by
    simp only [run, Prod.mk.injEq, ClientCall.ExecuteBlock.injEq] at h
    obtain ⟨rfl, rfl⟩ := h
    exact ⟨0, le_rfl, rfl⟩
  | k + 1, step, b, _, _, _, h => by
    cases step with
    | returned results err =>
      rw [run_of_next_eq C _ (.ExecuteBlock (.returned results err)) b rfl] at h
      simp only [Prod.mk.injEq, ClientCall.ExecuteBlock.injEq, ExecuteBlockStep.returned.injEq] at h
      obtain ⟨⟨rfl, rfl⟩, rfl⟩ := h
      exact ⟨0, Nat.zero_le _, rfl⟩
    | _ =>
      obtain ⟨j, hj, hrun⟩ := run_execute_phase tx k _ _ h
      exact ⟨j + 1, Nat.succ_le_succ hj, hrun⟩

/-- A `SendTransaction` call run with nothing interleaved is the sequential
`SendTransaction`: same result, same blockchain. Its `AddTransaction` takes at most five
steps, the auto-mined `ExecuteBlock` at most one per transaction and three more, and the
two steps after them map the error, read the switch or commit. -/
theorem run_SendTransaction (tx : TransactionBody) (b : Blockchain) :
    run C env (b.pendingBlock.transactions.length + 10) (.SendTransaction tx (.add .checkStarted), b) =
      (.SendTransaction tx (.returned (b.SendTransaction C env tx).1), (b.SendTransaction C env tx).2) := by
  suffices ∃ n ≤ b.pendingBlock.transactions.length + 10,
      run C env n (.SendTransaction tx (.add .checkStarted), b) =
        (.SendTransaction tx (.returned (b.SendTransaction C env tx).1), (b.SendTransaction C env tx).2) by
    obtain ⟨n, hn, hrun⟩ := this
    rw [← Nat.sub_add_cancel hn]
    exact run_of_rest C env hrun rfl _
  obtain ⟨j, hj, hadd⟩ := run_add_phase C env tx 5 .checkStarted b (run_AddTransaction C env tx b)
  rcases hresult : b.AddTransaction C env tx with ⟨_ | err, b₁⟩ <;> rw [hresult] at hadd
  · obtain ⟨hadmits, rfl⟩ := Blockchain.AddTransaction_eq_none C hresult
    cases hauto : b.autoMine
    · -- auto-mine off: the step after the append reads the switch, and the call returns
      refine ⟨1 + j, by omega, ?_⟩
      rw [run_add, hadd]
      simp [run, next, SendTransactionStep.next, Blockchain.SendTransaction, hresult, hauto]
    -- auto-mine on: `ExecuteBlock` runs on the appended block, then the commit
    set b₁ : Blockchain := { b with pendingBlock := b.pendingBlock.AddTransaction tx }
    have hindex : b.pendingBlock.index = 0 := by
      simpa [PendingBlock.ExecutionStarted] using hadmits.notStarted
    obtain ⟨k, hk, hexec⟩ := run_execute_phase C env tx _ .start b₁
      (run_ExecuteBlock C (env.shiftStorage 1) b₁ (by simp [b₁, hindex]))
    have hstart : run C env 1 (.SendTransaction tx (.add (.returned none)), b₁) =
        (.SendTransaction tx (.execute .start), b₁) := by
      simp [run, next, SendTransactionStep.next, hauto, b₁]
    refine ⟨1 + k + (1 + j), by simp [b₁, hindex] at hk; omega, ?_⟩
    rw [run_add, run_add C env 1 j, hadd, hstart, run_add, hexec]
    rcases hE : b₁.ExecuteBlock C (env.shiftStorage 1) with ⟨results, _ | err, b₂⟩ <;>
      simp only [Blockchain.SendTransaction, hresult, hauto, if_true, Blockchain.executeAndCommitBlock, hE]
    · rcases hcommit : b₂.commitBlock C (env.shiftStorage 1) with ⟨_ | block, b₃⟩ <;>
        simp only [run, next, SendTransactionStep.next, hcommit]
    · rfl
  · -- refused: the step after the refusal maps the error, and the call returns
    refine ⟨1 + j, by omega, ?_⟩
    rw [run_add, hadd]
    simp [run, next, SendTransactionStep.next, Blockchain.SendTransaction, hresult]

end ClientCall

/-- The calls that run under `b.mu`: each is one atomic step of a concurrent run. -/
inductive LockedCall where
  | ExecuteNextTransaction
  | CommitBlock
  | ExecuteAndCommitBlock
  | ResetPendingBlock
  | CreateAccount (publicKeys : List AccountKey) (contracts : List Contract)

/-- The sequential call a locked call is. -/
def LockedCall.toCall : LockedCall → Call
  | .ExecuteNextTransaction => .ExecuteNextTransaction
  | .CommitBlock => .CommitBlock
  | .ExecuteAndCommitBlock => .ExecuteAndCommitBlock
  | .ResetPendingBlock => .ResetPendingBlock
  | .CreateAccount publicKeys contracts => .CreateAccount publicKeys contracts

/-- One scheduling decision: a step of the `i`-th client's call, or a whole locked call in
its environment. -/
inductive Scheduled where
  | client (i : Nat)
  | locked (env : Environment) (call : LockedCall)

/-- Calls made without the lock, each at its own step, beside locked calls, interleaved as
`schedule` says. -/
def interleave (C : Collaborators) (env : Environment) :
    List Scheduled → List ClientCall × Blockchain → List ClientCall × Blockchain
  | [], s => s
  | .client i :: schedule, (clients, b) =>
    match clients[i]? with
    | none => interleave C env schedule (clients, b)
    | some call =>
      let (call', b') := call.next C env b
      interleave C env schedule (clients.set i call', b')
  | .locked env' call :: schedule, (clients, b) =>
    interleave C env schedule (clients, call.toCall.apply C env' b)

/-- Two clients, each at the start of an `AddTransaction(tx)` call. -/
def twoClients (tx : TransactionBody) : List ClientCall :=
  [.AddTransaction tx .checkStarted, .AddTransaction tx .checkStarted]

/-- Client 0 runs its four checks, then client 1 its four, then each appends. -/
def checksBeforeAppends : List Scheduled :=
  List.replicate 4 (.client 0) ++ List.replicate 4 (.client 1) ++ [.client 0, .client 1]

namespace Blockchain

/-- Two clients submit the same transaction to a reachable blockchain at the same time.
Both pass every check before either appends, so both calls return no error and the
transaction is queued twice, breaking the uniqueness of queued IDs; whichever call goes
first in a sequential run, the second is refused as a duplicate and the transaction is
queued once. -/
theorem AddTransaction_interleaving_queues_twice :
    Reachable sampleCollaborators (fun _ => True) sampleGenesis ∧
      (interleave sampleCollaborators .calm checksBeforeAppends
          (twoClients (sampleTransaction 1), sampleGenesis)).1 =
        [.AddTransaction (sampleTransaction 1) (.returned none),
          .AddTransaction (sampleTransaction 1) (.returned none)] ∧
      (interleave sampleCollaborators .calm checksBeforeAppends
          (twoClients (sampleTransaction 1), sampleGenesis)).2.pendingBlock.transactions =
        [sampleTransaction 1, sampleTransaction 1] ∧
      ¬ ((interleave sampleCollaborators .calm checksBeforeAppends
          (twoClients (sampleTransaction 1), sampleGenesis)).2.pendingBlock.transactions.map
            sampleCollaborators.TransactionID).Nodup ∧
      (sampleGenesis.AddTransaction sampleCollaborators .calm (sampleTransaction 1)).1 = none ∧
      ((sampleGenesis.AddTransaction sampleCollaborators .calm (sampleTransaction 1)).2.AddTransaction
        sampleCollaborators .calm (sampleTransaction 1)).1 = some (.DuplicateTransaction 1) ∧
      ((sampleGenesis.AddTransaction sampleCollaborators .calm (sampleTransaction 1)).2.AddTransaction
        sampleCollaborators .calm (sampleTransaction 1)).2.pendingBlock.transactions =
          [sampleTransaction 1] :=
  ⟨Reachable.of_sampleGenesis, rfl, rfl, by decide, rfl, rfl, rfl⟩

end Blockchain

end flow_emulator.emulator
