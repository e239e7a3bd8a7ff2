import FlowEmulator.Emulator.Chain

namespace flow_emulator.emulator

open flow_emulator.flowgo flow_emulator.types flow_emulator.storage

/-- `result` is what executing `tx` as the `txIndex`-th transaction of a block gives over
`storage`: the converted procedure of a completed VM run of `tx` at that position, with
signature debugging read from `storage`. -/
def ResultOf (C : Collaborators) (storage : Store) (tx : TransactionBody) (txIndex : Nat)
    (result : TransactionResult) : Prop :=
  ∃ (b : Blockchain) (out : ProcedureOutput), b.storage = storage ∧
    b.transactionResultOf C (.ofOutput tx (UInt32.ofNat txIndex) out) = .ok result

namespace Blockchain

variable {C : Collaborators}

/-- `ExecuteBlock`'s loop touches neither storage nor the switch, the queue or the pending
block's header. -/
theorem executeLoop_frame {ctx : Context} {vmFault : Nat → Option (Delta × FatalError)} :
    ∀ (fuel : Nat) (results : List TransactionResult) (b : Blockchain)
      {results' : List TransactionResult} {err : Option EmulatorError} {b' : Blockchain},
      executeLoop C ctx vmFault fuel results b = (results', err, b') →
      b'.storage = b.storage ∧ b'.autoMine = b.autoMine ∧
        b'.pendingBlock.transactions = b.pendingBlock.transactions ∧
        (b'.pendingBlock.Block C.toHashing).Header = (b.pendingBlock.Block C.toHashing).Header
  | 0, _, _, _, _, _, h => by
    rw [executeLoop, Prod.mk.injEq, Prod.mk.injEq] at h
    exact h.2.2 ▸ ⟨rfl, rfl, rfl, rfl⟩
  | fuel + 1, results, b, _, _, _, h => by
    rcases executeLoop_succ_cases C h with ⟨-, -, -, rfl⟩ | ⟨_, hstep, -⟩ | ⟨result, b₁, hstep, h⟩
    · exact ⟨rfl, rfl, rfl, rfl⟩
    · obtain ⟨hstorage, -, hauto, hqueue, hheader⟩ := executeNextTransaction_frame C hstep
      exact ⟨hstorage, hauto, hqueue, hheader⟩
    · obtain ⟨hstorage, -, hauto, hqueue, hheader⟩ := executeNextTransaction_frame C hstep
      obtain ⟨hstorage', hauto', hqueue', hheader'⟩ := executeLoop_frame fuel _ b₁ h
      exact ⟨hstorage'.trans hstorage, hauto'.trans hauto, hqueue'.trans hqueue,
        hheader'.trans hheader⟩

/-- An `ExecuteBlock` that returns no error has executed the whole queue and changed
neither storage nor the switch, the queue or the pending block's header. -/
theorem ExecuteBlock_of_none {env : Environment} {b b' : Blockchain}
    {results : List TransactionResult} (h : b.ExecuteBlock C env = (results, none, b'))
    (hne : b.pendingBlock.transactions ≠ []) (hindex : b.pendingBlock.index = 0) :
    b'.storage = b.storage ∧ b'.autoMine = b.autoMine ∧
      b'.pendingBlock.transactions = b.pendingBlock.transactions ∧
      (b'.pendingBlock.Block C.toHashing).Header = (b.pendingBlock.Block C.toHashing).Header ∧
      b'.pendingBlock.transactions.length ≤ b'.pendingBlock.index := by
  have hlt : b.pendingBlock.index < b.pendingBlock.transactions.length := by
    rw [hindex]
    exact List.length_pos.mpr hne
  have hnotEmpty := (PendingBlock.Empty_eq_false_iff _).mpr hne
  have hloop := h
  simp only [ExecuteBlock, hnotEmpty, (PendingBlock.ExecutionComplete_eq_false_iff _).mpr hlt,
    Bool.false_eq_true, if_false, PendingBlock.Size] at hloop
  obtain ⟨hdone, hsame, -⟩ := executeLoop_complete C _ [] b le_rfl hlt.le hloop
  exact ⟨(executeLoop_frame _ _ b hloop).1, (executeLoop_frame _ _ b hloop).2.1, hsame,
    (executeLoop_frame _ _ b hloop).2.2.2, hdone.ge⟩

/-- Each result `ExecuteBlock`'s loop collects is the result of the transaction at its
position, counted from the cursor where the loop starts. -/
theorem executeLoop_results {ctx : Context} {vmFault : Nat → Option (Delta × FatalError)} :
    ∀ (fuel : Nat) (results : List TransactionResult) (b : Blockchain)
      {results' : List TransactionResult} {b' : Blockchain},
      executeLoop C ctx vmFault fuel results b = (results', none, b') →
      ∃ rest, results' = results ++ rest ∧ ∀ j (hj : j < rest.length), ∃ tx,
        b.pendingBlock.transactions[b.pendingBlock.index + j]? = some tx ∧
        ResultOf C b.storage tx (b.pendingBlock.index + j) rest[j]
  | 0, results, b, _, _, h => by
    simp only [executeLoop, Prod.mk.injEq] at h
    obtain ⟨rfl, -, rfl⟩ := h
    exact ⟨[], by simp, fun _ hj => absurd hj (Nat.not_lt_zero _)⟩
  | fuel + 1, results, b, _, _, h => by
    rcases executeLoop_succ_cases C h with ⟨-, rfl, -, -⟩ | ⟨_, -, -, h⟩ | ⟨result, b₁, hstep, h⟩
    · exact ⟨[], by simp, fun _ hj => absurd hj (Nat.not_lt_zero _)⟩
    · cases h
    rcases executeNextTransaction_cases C hstep with
      ⟨-, h', -⟩ | ⟨_, _, -, -, h', -⟩ | ⟨tx, out, htx, hr, rfl⟩
    · cases h'
    · cases h'
    obtain ⟨rest, rfl, hrest⟩ := executeLoop_results fuel _ _ h
    refine ⟨result :: rest, by simp, fun j hj => ?_⟩
    cases j with
    | zero =>
      refine ⟨tx, htx, _, out, ?_,
        (Prod.mk.inj ((executeNextTransaction_of_run_ok C htx hr).symm.trans hstep)).1⟩
      rfl
    | succ j =>
      obtain ⟨tx', htx', hresult⟩ := hrest j (by simpa using hj)
      rw [advancedPendingBlock, Nat.add_right_comm] at htx' hresult
      exact ⟨tx', htx', hresult⟩

/-- An `ExecuteBlock` that returns no error from a block whose execution has not
started returns one result per queued transaction, each that transaction's own. -/
theorem ExecuteBlock_results {env : Environment} {b b' : Blockchain}
    {results : List TransactionResult} (h : b.ExecuteBlock C env = (results, none, b'))
    (hne : b.pendingBlock.transactions ≠ []) (hindex : b.pendingBlock.index = 0) :
    results.length = b.pendingBlock.transactions.length ∧
      ∀ j (hj : j < results.length), ∃ tx, b.pendingBlock.transactions[j]? = some tx ∧
        ResultOf C b.storage tx j results[j] := by
  have hlt : b.pendingBlock.index < b.pendingBlock.transactions.length := by
    rw [hindex]
    exact List.length_pos.mpr hne
  simp only [ExecuteBlock, (PendingBlock.Empty_eq_false_iff _).mpr hne,
    (PendingBlock.ExecutionComplete_eq_false_iff _).mpr hlt, Bool.false_eq_true, if_false,
    PendingBlock.Size] at h
  obtain ⟨-, -, hlength⟩ := executeLoop_complete C _ [] b le_rfl hlt.le h
  obtain ⟨rest, rfl, hrest⟩ := executeLoop_results _ [] b h
  refine ⟨by simpa [hindex] using hlength, fun j hj => ?_⟩
  simpa [hindex] using hrest j (by simpa using hj)

/-- What `SendTransaction`, `CreateAccount` and `deployContract` rely on: a transaction
admitted to the pending block, then executed and committed with the rest of the queue
without error, leaves a nonempty list of results whose last element is that
transaction's own, and one new block holding the queue followed by the transaction,
under an empty pending block one height above. -/
theorem executeAndCommitBlock_of_admitted {env env' : Environment} {b b₁ b₂ : Blockchain}
    {tx : TransactionBody} {block : Option Block} {results : List TransactionResult}
    (hadd : b.AddTransaction C env tx = (none, b₁))
    (hmine : b₁.executeAndCommitBlock C env' = ((block, results, none), b₂)) :
    ∃ last stored, results.getLast? = some last ∧
      ResultOf C b.storage tx b.pendingBlock.transactions.length last ∧
      b₂.storage.blocks = b.storage.blocks ++ [stored] ∧
      stored.Block.Header.Height = b.pendingBlock.height ∧
      stored.Transactions.map (·.2) = b.pendingBlock.transactions ++ [tx] ∧
      b₂.pendingBlock.transactions = [] ∧ b₂.pendingBlock.height = b.pendingBlock.height + 1 := by
  obtain ⟨hadmits, rfl⟩ := AddTransaction_eq_none C hadd
  rw [executeAndCommitBlock] at hmine
  split at hmine
  · cases (Prod.mk.inj hmine).1
  rename_i b₃ hexec
  split at hmine
  · cases (Prod.mk.inj hmine).1
  rename_i blk b₄ hcommit
  obtain ⟨⟨-, rfl, -⟩, rfl⟩ := Prod.mk.inj hmine
  have hne : (b.pendingBlock.AddTransaction tx).transactions ≠ [] := by simp
  obtain ⟨hstorage, -, hqueue, hheader, -⟩ := ExecuteBlock_of_none hexec hne hadmits.notStarted
  obtain ⟨hlength, hresults⟩ := ExecuteBlock_results hexec hne hadmits.notStarted
  have hlast : b.pendingBlock.transactions.length < results.length := by simp [hlength]
  obtain ⟨tx', htx', hresult⟩ := hresults _ hlast
  rw [PendingBlock.AddTransaction_transactions, List.getElem?_concat_length] at htx'
  cases htx'
  rcases commitBlock_cases C hcommit with ⟨⟨_, herr⟩, -⟩ | ⟨-, -, -, -, transactionResults, -, rfl⟩
  · cases herr
  have hheight : b₃.pendingBlock.height = b.pendingBlock.height := congrArg Header.Height hheader
  refine ⟨_, b₃.pendingBlock.storedBlock C.toHashing transactionResults, ?_, hresult, ?_, hheight,
    ?_, rfl, ?_⟩
  · have hidx : results.length - 1 = b.pendingBlock.transactions.length := by simp [hlength]
    rw [List.getLast?_eq_getElem?, hidx]
    exact List.getElem?_eq_getElem _
  · simp [committed, hstorage]
  · rw [PendingBlock.storedBlock_transactions, hqueue]
    rfl
  · simp [committed, newPendingBlock, PendingBlock.Block, hheight]

/-- An auto-mined `SendTransaction` that returns no error, from a valid blockchain, has
admitted `tx`, executed the whole queue and committed it: exactly one new block, one above
the latest, holding the transactions queued before the call followed by `tx`, and an
empty pending block on top. -/
theorem SendTransaction_autoMine_of_none {env : Environment} {b b' : Blockchain}
    {tx : TransactionBody} (hvalid : b.Valid C) (hauto : b.autoMine = true)
    (h : b.SendTransaction C env tx = (none, b')) :
    ∃ stored latest, b.storage.LatestBlock = .ok latest ∧
      b'.storage.blocks = b.storage.blocks ++ [stored] ∧
      stored.Block.Header.Height = latest.Header.Height + 1 ∧
      stored.Transactions.map (·.2) = b.pendingBlock.transactions ++ [tx] ∧
      b'.pendingBlock.transactions = [] := by
  obtain ⟨latest, hlatest, -, hheight⟩ := hvalid.onLatest
  rw [SendTransaction] at h
  split at h
  · cases (Prod.mk.inj h).1
  rename_i b₁ hadd
  have hauto₁ : b₁.autoMine = true := (AddTransaction_eq_none C hadd).2 ▸ hauto
  simp only [hauto₁, if_true] at h
  split at h
  · cases (Prod.mk.inj h).1
  rename_i b₂ hmine
  obtain rfl := (Prod.mk.inj h).2
  obtain ⟨-, stored, -, -, hblocks, hstored, htxs, hempty, -⟩ :=
    executeAndCommitBlock_of_admitted hadd hmine
  exact ⟨stored, latest, hlatest, hblocks, hstored.trans hheight, htxs, hempty⟩

/-- `ExecuteBlock`'s loop never moves the cursor back. -/
theorem executeLoop_index_le {ctx : Context} {vmFault : Nat → Option (Delta × FatalError)} :
    ∀ (fuel : Nat) (results : List TransactionResult) (b : Blockchain)
      {results' : List TransactionResult} {err : Option EmulatorError} {b' : Blockchain},
      executeLoop C ctx vmFault fuel results b = (results', err, b') →
      b.pendingBlock.index ≤ b'.pendingBlock.index
  | 0, _, _, _, _, _, h => by
    rw [executeLoop, Prod.mk.injEq, Prod.mk.injEq] at h
    exact h.2.2 ▸ le_rfl
  | fuel + 1, results, b, _, _, _, h => by
    rcases executeLoop_succ_cases C h with ⟨-, -, -, rfl⟩ | ⟨_, hstep, -⟩ | ⟨result, b₁, hstep, h⟩
    · exact le_rfl
    · exact executeNextTransaction_index_le C hstep
    · exact (executeNextTransaction_index_le C hstep).trans (executeLoop_index_le fuel _ b₁ h)

/-- `ExecuteBlock`'s loop, given a turn on a block that is not complete, moves the cursor
past at least one transaction, whatever it returns. -/
theorem executeLoop_advances {ctx : Context} {vmFault : Nat → Option (Delta × FatalError)}
    {fuel : Nat} {results results' : List TransactionResult} {err : Option EmulatorError}
    {b b' : Blockchain} (hfuel : 0 < fuel)
    (h : executeLoop C ctx vmFault fuel results b = (results', err, b'))
    (hlt : b.pendingBlock.index < b.pendingBlock.transactions.length) :
    b.pendingBlock.index < b'.pendingBlock.index := by
  obtain ⟨fuel, rfl⟩ := Nat.exists_eq_add_of_lt hfuel
  rcases executeLoop_succ_cases C h with ⟨hle, -, -, -⟩ | ⟨_, hstep, -⟩ | ⟨result, b₁, hstep, h⟩
  · omega
  · have := executeNextTransaction_advances C hstep hlt
    omega
  · have := executeNextTransaction_advances C hstep hlt
    have := executeLoop_index_le _ _ b₁ h
    omega

/-- An `executeAndCommitBlock` on a block that is not complete keeps the switch, and
either commits the block, leaving an empty pending block, or leaves a block whose
execution has started. -/
theorem executeAndCommitBlock_opens {env : Environment} {b b' : Blockchain}
    {r : Option Block × List TransactionResult × Option EmulatorError}
    (h : b.executeAndCommitBlock C env = (r, b'))
    (hlt : b.pendingBlock.index < b.pendingBlock.transactions.length) :
    b'.autoMine = b.autoMine ∧ (b'.pendingBlock.transactions = [] ∨ 0 < b'.pendingBlock.index) := by
  have hne : b.pendingBlock.transactions ≠ [] := List.ne_nil_of_length_pos (by omega)
  rcases hexec : b.ExecuteBlock C env with ⟨results, err, b₁⟩
  have hloop := hexec
  simp only [ExecuteBlock, (PendingBlock.Empty_eq_false_iff _).mpr hne,
    (PendingBlock.ExecutionComplete_eq_false_iff _).mpr hlt, PendingBlock.Size, Bool.false_eq_true,
    if_false] at hloop
  have hstarted := executeLoop_advances (by omega) hloop hlt
  have hauto := (executeLoop_frame _ _ _ hloop).2.1
  rw [executeAndCommitBlock, hexec] at h
  cases err with
  | some e =>
    obtain ⟨-, rfl⟩ := Prod.mk.inj h
    exact ⟨hauto, .inr (by omega)⟩
  | none =>
    rcases hcommit : b₁.commitBlock C env with ⟨_ | block, b₂⟩ <;> simp only [hcommit] at h <;>
      obtain ⟨-, rfl⟩ := Prod.mk.inj h
    · rcases commitBlock_cases C hcommit with ⟨-, rfl⟩ | ⟨-, hr, -⟩
      · exact ⟨hauto, .inr (by omega)⟩
      · cases hr
    · rcases commitBlock_cases C hcommit with ⟨⟨_, herr⟩, -⟩ | ⟨-, -, -, -, _, -, rfl⟩
      · cases herr
      · exact ⟨hauto, .inl rfl⟩

/-- `SendTransaction` on a block whose execution has started fails: `AddTransaction`
refuses. -/
theorem SendTransaction_of_started {env : Environment} {b : Blockchain} {tx : TransactionBody}
    (hstarted : 0 < b.pendingBlock.index) : (b.SendTransaction C env tx).1 ≠ none := by
  rcases AddTransaction_cases C env b tx with ⟨hfail, -⟩ | hadmits
  · rw [SendTransaction]
    split
    · simp
    · rename_i hadd
      exact absurd (congrArg Prod.fst hadd) hfail
  · exact absurd hadmits.notStarted (by omega)

/-- With auto-mine on, a `SendTransaction` keeps auto-mine on and keeps the pending block
empty or started: it commits its admitted transaction in a block of its own, or leaves a
block that refuses every later transaction. -/
theorem SendTransaction_keeps_open (env : Environment) (tx : TransactionBody) {b : Blockchain}
    (hauto : b.autoMine = true)
    (hopen : b.pendingBlock.transactions = [] ∨ 0 < b.pendingBlock.index) :
    (b.SendTransaction C env tx).2.autoMine = true ∧
      ((b.SendTransaction C env tx).2.pendingBlock.transactions = [] ∨
        0 < (b.SendTransaction C env tx).2.pendingBlock.index) := by
  rw [SendTransaction]
  split
  · rename_i hadd
    rcases AddTransaction_cases C env b tx with ⟨-, hsame⟩ | hadmits
    · rw [hadd] at hsame
      exact hsame ▸ ⟨hauto, hopen⟩
    · cases (AddTransaction_of_admits C hadmits).symm.trans hadd
  · rename_i b₁ hadd
    obtain ⟨hadmits, rfl⟩ := AddTransaction_eq_none C hadd
    have hempty : b.pendingBlock.transactions = [] :=
      hopen.resolve_right (by simp [hadmits.notStarted])
    have hauto₁ : ({ b with pendingBlock := b.pendingBlock.AddTransaction tx } : Blockchain).autoMine = true :=
      hauto
    rw [if_pos hauto₁]
    rcases hmine : executeAndCommitBlock C (env.shiftStorage 1)
      { b with pendingBlock := b.pendingBlock.AddTransaction tx } with ⟨⟨_, _, _ | _⟩, b₂⟩ <;>
    obtain ⟨hauto₂, hopen₂⟩ := executeAndCommitBlock_opens hmine (by simp [hadmits.notStarted, hempty]) <;>
    exact ⟨hauto₂.trans hauto, hopen₂⟩

/-- Along `SendTransaction` calls from a reachable blockchain with auto-mine on and its
pending block empty or started, each blockchain is reachable, with auto-mine on and its
pending block empty or started. -/
theorem applyAll_SendTransaction_open :
    ∀ (sends : List (Environment × TransactionBody)) {b : Blockchain},
      Reachable C (fun _ => True) b → b.autoMine = true →
      (b.pendingBlock.transactions = [] ∨ 0 < b.pendingBlock.index) →
      let b' := Call.applyAll C (sends.map fun send => (send.1, .SendTransaction send.2)) b
      Reachable C (fun _ => True) b' ∧ b'.autoMine = true ∧
        (b'.pendingBlock.transactions = [] ∨ 0 < b'.pendingBlock.index)
  | [], _, hreach, hauto, hopen => ⟨hreach, hauto, hopen⟩
  | send :: sends, _, hreach, hauto, hopen => by
    obtain ⟨hauto', hopen'⟩ := SendTransaction_keeps_open send.1 send.2 hauto hopen
    exact applyAll_SendTransaction_open sends
      (.call send.1 (.SendTransaction send.2) (fun _ => trivial) hreach) hauto' hopen'

/-- Auto-mining over a run of submissions. From a reachable blockchain with auto-mine on
and an empty pending block, after any `SendTransaction` calls, a `SendTransaction(tx)`
that returns no error commits exactly one new block, at height L + 1, whose only
transaction is `tx`, and leaves the pending block empty. -/
theorem Reachable.SendTransaction_autoMine {b₀ : Blockchain}
    (hreach : Reachable C (fun _ => True) b₀) (hauto : b₀.autoMine = true)
    (hempty : b₀.pendingBlock.transactions = []) (sends : List (Environment × TransactionBody))
    (env : Environment) (tx : TransactionBody) :
    let b := Call.applyAll C (sends.map fun send => (send.1, .SendTransaction send.2)) b₀
    (b.SendTransaction C env tx).1 = none →
    ∃ stored latest, b.storage.LatestBlock = .ok latest ∧
      (b.SendTransaction C env tx).2.storage.blocks = b.storage.blocks ++ [stored] ∧
      stored.Block.Header.Height = latest.Header.Height + 1 ∧
      stored.Transactions.map (·.2) = [tx] ∧
      (b.SendTransaction C env tx).2.pendingBlock.transactions = [] := by
  intro b hnone
  obtain ⟨hreach', hauto', hopen⟩ := applyAll_SendTransaction_open sends hreach hauto (.inl hempty)
  obtain ⟨stored, latest, hlatest, hblocks, hheight, htxs, hpending⟩ :=
    SendTransaction_autoMine_of_none hreach'.valid hauto' (Prod.ext hnone rfl)
  have hnil : b.pendingBlock.transactions = [] :=
    hopen.resolve_right fun hstarted => SendTransaction_of_started hstarted hnone
  exact ⟨stored, latest, hlatest, hblocks, hheight, by rw [htxs, hnil]; rfl, hpending⟩

/-- Auto-mine on at genesis: after a first `SendTransaction`, a second one seals its
transaction alone in the next block. -/
theorem SendTransaction_autoMine_of_sends :
    let C := sampleCollaborators
    let b₀ : Blockchain := { sampleGenesis with autoMine := true }
    let sends : List (Environment × TransactionBody) := [(.calm, sampleTransaction 1)]
    let b := Call.applyAll C (sends.map fun send => (send.1, .SendTransaction send.2)) b₀
    let tx := sampleTransaction 2
    Reachable C (fun _ => True) b₀ ∧ b₀.autoMine = true ∧ b₀.pendingBlock.transactions = [] ∧
      (b.SendTransaction C .calm tx).1 = none ∧
      ∃ stored latest, b.storage.LatestBlock = .ok latest ∧
        (b.SendTransaction C .calm tx).2.storage.blocks = b.storage.blocks ++ [stored] ∧
        stored.Block.Header.Height = latest.Header.Height + 1 ∧
        stored.Transactions.map (·.2) = [tx] ∧
        (b.SendTransaction C .calm tx).2.pendingBlock.transactions = [] := by
  have hreach : Reachable sampleCollaborators (fun _ => True) { sampleGenesis with autoMine := true } :=
    .call .calm .EnableAutoMine (fun _ => trivial) Reachable.of_sampleGenesis
  have hnone : ((Call.applyAll sampleCollaborators
      ([(Environment.calm, sampleTransaction 1)].map fun send => (send.1, .SendTransaction send.2))
      { sampleGenesis with autoMine := true }).SendTransaction sampleCollaborators .calm
        (sampleTransaction 2)).1 = none := rfl
  exact ⟨hreach, rfl, rfl, hnone, Reachable.SendTransaction_autoMine hreach rfl rfl _ .calm _ hnone⟩

end Blockchain

end flow_emulator.emulator
