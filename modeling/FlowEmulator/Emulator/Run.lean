import FlowEmulator.Emulator.Admission
import Mathlib.Logic.Relation

namespace flow_emulator.emulator

open flow_emulator.flowgo flow_emulator.types flow_emulator.storage

/-- The public operations of `Blockchain` that change its state, with their arguments.
A run takes each of them as one atomic call, the queries apart, which change nothing. -/
inductive Call where
  | AddTransaction (tx : TransactionBody)
  | SendTransaction (tx : TransactionBody)
  | ExecuteNextTransaction
  | ExecuteBlock
  | CommitBlock
  | ExecuteAndCommitBlock
  | ResetPendingBlock
  | CreateAccount (publicKeys : List AccountKey) (contracts : List Contract)
  | ServiceKey
  | EnableAutoMine
  | DisableAutoMine

/-- The blockchain after `call` in environment `env`, whatever the call returns. -/
def Call.apply (C : Collaborators) (env : Environment) : Call → Blockchain → Blockchain
  | .AddTransaction tx, b => (b.AddTransaction C env tx).2
  | .SendTransaction tx, b => (b.SendTransaction C env tx).2
  | .ExecuteNextTransaction, b => (b.ExecuteNextTransaction C env).2
  | .ExecuteBlock, b => (b.ExecuteBlock C env).2.2
  | .CommitBlock, b => (b.CommitBlock C env).2
  | .ExecuteAndCommitBlock, b => (b.ExecuteAndCommitBlock C env).2
  | .ResetPendingBlock, b => (b.ResetPendingBlock C env).2
  | .CreateAccount publicKeys contracts, b => (b.CreateAccount C env publicKeys contracts).2
  | .ServiceKey, b => (b.ServiceKey C (env.storageFault 0)).2
  | .EnableAutoMine, b => b.EnableAutoMine
  | .DisableAutoMine, b => b.DisableAutoMine

/-- The blockchain after the calls `calls`, each in its own environment, one after
another, whatever each returns. -/
def Call.applyAll (C : Collaborators) (calls : List (Environment × Call)) (b : Blockchain) :
    Blockchain :=
  calls.foldl (fun b call => call.2.apply C call.1 b) b

namespace Blockchain

variable (C : Collaborators)

/-- The primitive changes every call is made of, the VM fault met by each execution
allowed by `F`. -/
inductive Step (F : Option (Delta × FatalError) → Prop) : Blockchain → Blockchain → Prop
  /-- A new cached service key or auto-mine switch, and nothing else. -/
  | configure (b : Blockchain) (serviceKey : emulator.ServiceKey) (autoMine : Bool) :
      Step F b { b with serviceKey, autoMine }
  /-- `AddTransaction` admitting a transaction. -/
  | enqueue (env : Environment) (b : Blockchain) (tx : TransactionBody) :
      b.Admits C env tx → Step F b { b with pendingBlock := b.pendingBlock.AddTransaction tx }
  /-- One `executeNextTransaction` in the context of the pending block's header. -/
  | execute {b b' : Blockchain} {fault : Option (Delta × FatalError)}
      {r : Except EmulatorError TransactionResult} : F fault →
      b.executeNextTransaction C ⟨some (b.pendingBlock.Block C.toHashing).Header⟩ fault = (r, b') →
      Step F b b'
  /-- A successful `commitBlock`, past the storage's count check. -/
  | commit (env : Environment) (b : Blockchain)
      (transactionResults : List (Identifier × StorableTransactionResult)) :
      (b.pendingBlock.transactions = [] ∨
        (0 < b.pendingBlock.index ∧ b.pendingBlock.transactions.length ≤ b.pendingBlock.index)) →
      b.pendingBlock.countsMatch C.toHashing →
      convertToSealedResults C b.pendingBlock.transactionResults = .ok transactionResults →
      Step F b (b.committed C env transactionResults)
  /-- A fresh pending block on the latest committed block. -/
  | reset (b : Blockchain) (latestBlock : Block) (viewIncrease now : Nat) :
      b.storage.LatestBlock = .ok latestBlock →
      Step F b { b with pendingBlock := (newPendingBlock C.toHashing latestBlock
        (b.storage.LedgerViewByHeight latestBlock.Header.Height) viewIncrease now) }

variable {C} {F : Option (Delta × FatalError) → Prop}

theorem AddTransaction_steps {env : Environment} {b b' : Blockchain} {tx : TransactionBody}
    {r : Option EmulatorError} (h : b.AddTransaction C env tx = (r, b')) :
    Relation.ReflTransGen (Step C F) b b' := by
  rcases AddTransaction_cases C env b tx with ⟨-, hsame⟩ | hadmits
  · rw [h] at hsame
    exact hsame ▸ .refl
  · rw [AddTransaction_of_admits C hadmits, Prod.mk.injEq] at h
    exact h.2 ▸ .single (.enqueue env b tx hadmits)

theorem commitBlock_steps {env : Environment} {b b' : Blockchain} {r : Except EmulatorError Block}
    (h : b.commitBlock C env = (r, b')) : Relation.ReflTransGen (Step C F) b b' := by
  rcases commitBlock_cases C h with ⟨-, rfl⟩ | ⟨hcomplete, -, hcount, -, transactionResults, hconv, rfl⟩
  · exact .refl
  · exact .single (.commit env b transactionResults hcomplete hcount hconv)

/-- `ExecuteBlock`'s loop, in the context of the block's header, is a sequence of
executions. -/
theorem executeLoop_steps {vmFault : Nat → Option (Delta × FatalError)} (hF : ∀ k, F (vmFault k)) :
    ∀ (fuel : Nat) (results : List TransactionResult) (b : Blockchain)
      {results' : List TransactionResult} {err : Option EmulatorError} {b' : Blockchain},
      executeLoop C ⟨some (b.pendingBlock.Block C.toHashing).Header⟩ vmFault fuel results b =
        (results', err, b') →
      Relation.ReflTransGen (Step C F) b b'
  | 0, _, _, _, _, _, h => by
    rw [executeLoop, Prod.mk.injEq, Prod.mk.injEq] at h
    exact h.2.2 ▸ .refl
  | fuel + 1, results, b, _, _, _, h => by
    rcases executeLoop_succ_cases C h with ⟨-, -, -, rfl⟩ | ⟨_, hstep, -⟩ | ⟨result, b₁, hstep, h⟩
    · exact .refl
    · exact .single (.execute (hF results.length) hstep)
    · rw [← (executeNextTransaction_frame C hstep).2.2.2.2] at h
      exact .head (.execute (hF results.length) hstep) (executeLoop_steps hF fuel _ b₁ h)

theorem ExecuteBlock_steps {env : Environment} (hF : ∀ k, F (env.vmFault k)) {b b' : Blockchain}
    {results : List TransactionResult} {err : Option EmulatorError}
    (h : b.ExecuteBlock C env = (results, err, b')) : Relation.ReflTransGen (Step C F) b b' := by
  rw [ExecuteBlock] at h
  split at h
  · rw [Prod.mk.injEq, Prod.mk.injEq] at h
    exact h.2.2 ▸ .refl
  · split at h
    · rw [Prod.mk.injEq, Prod.mk.injEq] at h
      exact h.2.2 ▸ .refl
    · exact executeLoop_steps hF _ _ b h

theorem executeAndCommitBlock_steps (env : Environment) (hF : ∀ k, F (env.vmFault k))
    {b b' : Blockchain} {r : Option Block × List TransactionResult × Option EmulatorError}
    (h : b.executeAndCommitBlock C env = (r, b')) : Relation.ReflTransGen (Step C F) b b' := by
  rw [executeAndCommitBlock] at h
  split at h
  · rename_i hexec
    exact (Prod.mk.inj h).2 ▸ ExecuteBlock_steps hF hexec
  · rename_i hexec
    split at h <;> rename_i hcommit <;>
      exact (Prod.mk.inj h).2 ▸ (ExecuteBlock_steps hF hexec).trans (commitBlock_steps hcommit)

theorem ResetPendingBlock_steps {env : Environment} {b b' : Blockchain} {r : Option EmulatorError}
    (h : b.ResetPendingBlock C env = (r, b')) : Relation.ReflTransGen (Step C F) b b' := by
  rw [ResetPendingBlock] at h
  split at h
  · exact (Prod.mk.inj h).2 ▸ .refl
  · rename_i latestBlock hlatest
    have hstored : b.storage.LatestBlock = .ok latestBlock := by
      cases hfault : env.storageFault 0 <;> simp_all [withFault]
    exact (Prod.mk.inj h).2 ▸ .single (.reset b latestBlock env.viewIncrease env.now hstored)

theorem SendTransaction_steps {env : Environment} (hF : ∀ k, F (env.vmFault k))
    {b b' : Blockchain} {tx : TransactionBody} {r : Option EmulatorError}
    (h : b.SendTransaction C env tx = (r, b')) : Relation.ReflTransGen (Step C F) b b' := by
  rw [SendTransaction] at h
  split at h
  · rename_i hadd
    exact (Prod.mk.inj h).2 ▸ AddTransaction_steps hadd
  · rename_i hadd
    have hfirst := AddTransaction_steps (F := F) hadd
    split at h
    · split at h <;> rename_i hmine <;>
        exact (Prod.mk.inj h).2 ▸
          hfirst.trans (executeAndCommitBlock_steps (env.shiftStorage 1) hF hmine)
    · exact (Prod.mk.inj h).2 ▸ hfirst

theorem ServiceKey_steps {fault : Option String} {b b' : Blockchain}
    {r : Except EmulatorError emulator.ServiceKey} (h : b.ServiceKey C fault = (r, b')) :
    Relation.ReflTransGen (Step C F) b b' := by
  rw [ServiceKey] at h
  split at h
  · exact (Prod.mk.inj h).2 ▸ .refl
  · exact (Prod.mk.inj h).2 ▸ .refl
  · split at h
    · exact (Prod.mk.inj h).2 ▸ .refl
    · exact (Prod.mk.inj h).2 ▸ .single (.configure b _ b.autoMine)

theorem CreateAccount_steps {env : Environment} (hF : ∀ k, F (env.vmFault k))
    {b b' : Blockchain} {publicKeys : List AccountKey} {contracts : List Contract}
    {r : Except EmulatorError Address} (h : b.CreateAccount C env publicKeys contracts = (r, b')) :
    Relation.ReflTransGen (Step C F) b b' := by
  simp only [CreateAccount] at h
  repeat' split at h
  all_goals obtain ⟨-, rfl⟩ := Prod.mk.inj h
  -- each outcome is left by a prefix of the calls `CreateAccount` makes
  all_goals first
    | exact ServiceKey_steps ‹_›
    | exact (ServiceKey_steps ‹_›).trans (AddTransaction_steps ‹_›)
    | exact ((ServiceKey_steps ‹_›).trans (AddTransaction_steps ‹_›)).trans
        (executeAndCommitBlock_steps (env.shiftStorage 3) hF ‹_›)
    | exact (((ServiceKey_steps ‹_›).trans (AddTransaction_steps ‹_›)).trans
        (executeAndCommitBlock_steps (env.shiftStorage 3) hF ‹_›)).trans (commitBlock_steps ‹_›)

end Blockchain

/-- Every call is a sequence of primitive steps. -/
theorem Call.apply_steps {C : Collaborators} {F : Option (Delta × FatalError) → Prop}
    (env : Environment) (hF : ∀ k, F (env.vmFault k)) (call : Call) (b : Blockchain) :
    Relation.ReflTransGen (Blockchain.Step C F) b (call.apply C env b) := by
  cases call <;> dsimp only [Call.apply]
  case AddTransaction tx =>
    rcases h : b.AddTransaction C env tx with ⟨r, b'⟩
    exact Blockchain.AddTransaction_steps h
  case SendTransaction tx =>
    rcases h : b.SendTransaction C env tx with ⟨r, b'⟩
    exact Blockchain.SendTransaction_steps hF h
  case ExecuteNextTransaction =>
    rcases h : b.ExecuteNextTransaction C env with ⟨r, b'⟩
    exact .single (.execute (hF 0) h)
  case ExecuteBlock =>
    rcases h : b.ExecuteBlock C env with ⟨results, err, b'⟩
    exact Blockchain.ExecuteBlock_steps hF h
  case CommitBlock =>
    rcases h : b.CommitBlock C env with ⟨r, b'⟩
    exact Blockchain.commitBlock_steps h
  case ExecuteAndCommitBlock =>
    rcases h : b.ExecuteAndCommitBlock C env with ⟨r, b'⟩
    exact Blockchain.executeAndCommitBlock_steps env hF h
  case ResetPendingBlock =>
    rcases h : b.ResetPendingBlock C env with ⟨r, b'⟩
    exact Blockchain.ResetPendingBlock_steps h
  case CreateAccount publicKeys contracts =>
    rcases h : b.CreateAccount C env publicKeys contracts with ⟨r, b'⟩
    exact Blockchain.CreateAccount_steps hF h
  case ServiceKey =>
    rcases h : b.ServiceKey C (env.storageFault 0) with ⟨r, b'⟩
    exact Blockchain.ServiceKey_steps h
  case EnableAutoMine => exact .single (.configure b b.serviceKey true)
  case DisableAutoMine => exact .single (.configure b b.serviceKey false)

namespace Blockchain

variable (C : Collaborators)

/-- `NewBlockchain` over an empty store commits the genesis block, holding the
bootstrap's writes, and opens a pending block on it. -/
theorem NewBlockchain_of_empty {env : Environment} {serviceKey : emulator.ServiceKey}
    {b : Blockchain} (h : NewBlockchain C env Store.empty serviceKey = .ok b) :
    ∃ writes, b.storage.blocks = [⟨Genesis C, [], [], [], writes, []⟩] ∧
      b.pendingBlock = newPendingBlock C.toHashing (Genesis C) (b.storage.LedgerViewByHeight 0)
        env.viewIncrease env.now := by
  unfold NewBlockchain configureLedger configureNewLedger at h
  cases hfault : env.storageFault 0 with
  | some message => simp [hfault, withFault] at h
  | none =>
    simp only [hfault, withFault, Store.LatestBlock, Store.empty, List.getLast?_nil] at h
    split at h
    · cases h
    · rename_i latestBlock latestLedgerView store hconfigure
      cases h
      split at hconfigure
      · cases hconfigure
      · split at hconfigure
        · cases hconfigure
        · rename_i hcommit
          cases hconfigure
          exact ⟨_, (Store.CommitBlock_eq_ok hcommit).2.2, rfl⟩

/-- `NewBlockchain` over a store holding blocks keeps the store and opens a pending block
on its latest block. -/
theorem NewBlockchain_of_nonempty {env : Environment} {store : Store}
    {serviceKey : emulator.ServiceKey} {b : Blockchain} (hne : store.blocks ≠ [])
    (h : NewBlockchain C env store serviceKey = .ok b) :
    b.storage = store ∧ ∃ latestBlock, store.LatestBlock = .ok latestBlock ∧
      b.pendingBlock = newPendingBlock C.toHashing latestBlock
        (store.LedgerViewByHeight latestBlock.Header.Height) env.viewIncrease env.now := by
  obtain ⟨stored, hlast⟩ := Option.ne_none_iff_exists'.mp (mt List.getLast?_eq_none_iff.mp hne)
  have hlatest : store.LatestBlock = .ok stored.Block := by simp [Store.LatestBlock, hlast]
  unfold NewBlockchain configureLedger at h
  cases hfault : env.storageFault 0 with
  | some message => simp [hfault, withFault] at h
  | none =>
    simp only [hfault, withFault, hlatest] at h
    cases h
    exact ⟨rfl, _, hlatest, rfl⟩

/-- Blockchains a run can reach, each VM fault its calls meet allowed by `F`: one that
`NewBlockchain` opens over the empty store or over the store of a reachable blockchain,
then one after another any calls, each in its own environment and whatever it returns. -/
inductive Reachable (F : Option (Delta × FatalError) → Prop) : Blockchain → Prop
  | new (env : Environment) (serviceKey : emulator.ServiceKey) {b : Blockchain} :
      NewBlockchain C env Store.empty serviceKey = .ok b → Reachable F b
  | restart {b₀ : Blockchain} {env : Environment} {serviceKey : emulator.ServiceKey}
      {b : Blockchain} :
      Reachable F b₀ → NewBlockchain C env b₀.storage serviceKey = .ok b → Reachable F b
  | call {b : Blockchain} (env : Environment) (call : Call) :
      (∀ k, F (env.vmFault k)) → Reachable F b → Reachable F (call.apply C env b)

variable {C} {F : Option (Delta × FatalError) → Prop}

/-- `sampleGenesis` is where a run over the empty store starts. -/
theorem Reachable.of_sampleGenesis : Reachable sampleCollaborators F sampleGenesis :=
  .new .calm sampleServiceKey rfl

/-- A chain past genesis: transaction 1 queued, executed and committed in block 1, then
transaction 2 queued on the pending block. -/
def sampleChain : Blockchain :=
  (Call.AddTransaction (sampleTransaction 2)).apply sampleCollaborators .calm
    (Call.CommitBlock.apply sampleCollaborators .calm
      (Call.ExecuteNextTransaction.apply sampleCollaborators .calm
        ((Call.AddTransaction (sampleTransaction 1)).apply sampleCollaborators .calm sampleGenesis)))

theorem Reachable.of_sampleChain (hF : F none) : Reachable sampleCollaborators F sampleChain :=
  .call _ _ (fun _ => hF) (.call _ _ (fun _ => hF) (.call _ _ (fun _ => hF)
    (.call _ _ (fun _ => hF) Reachable.of_sampleGenesis)))

/-- A property every primitive step keeps holds along a sequence of them. -/
theorem Step.preserves {I : Blockchain → Prop} (hstep : ∀ b b', Step C F b b' → I b → I b')
    {b b' : Blockchain} (hsteps : Relation.ReflTransGen (Step C F) b b') (hb : I b) : I b' := by
  induction hsteps with
  | refl => exact hb
  | tail _ hlast ih => exact hstep _ _ hlast ih

/-- A property of every reachable blockchain: one that `NewBlockchain` gives over the
empty store, and over the store of a blockchain that has it, and that every primitive
step keeps. -/
theorem Reachable.invariant {I : Blockchain → Prop}
    (hnew : ∀ env serviceKey b, NewBlockchain C env Store.empty serviceKey = .ok b → I b)
    (hrestart : ∀ b₀ env serviceKey b, I b₀ → NewBlockchain C env b₀.storage serviceKey = .ok b → I b)
    (hstep : ∀ b b', Step C F b b' → I b → I b') {b : Blockchain} (hreach : Reachable C F b) :
    I b := by
  induction hreach with
  | new env serviceKey h => exact hnew env serviceKey _ h
  | restart _ h ih => exact hrestart _ _ _ _ ih h
  | call env call hF _ ih => exact Step.preserves hstep (call.apply_steps env hF _) ih

end Blockchain

end flow_emulator.emulator
