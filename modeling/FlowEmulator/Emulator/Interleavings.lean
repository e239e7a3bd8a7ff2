import FlowEmulator.Emulator.AutoMine
import FlowEmulator.Emulator.Concurrency
import FlowEmulator.Emulator.Ledger

namespace flow_emulator.emulator

open flow_emulator.flowgo flow_emulator.types flow_emulator.storage

namespace Blockchain

variable {C : Collaborators} {F : Option (Delta × FatalError) → Prop}

section AutoMineSwitch

/-! Only `EnableAutoMine` and `DisableAutoMine` set the auto-mine switch. -/

end AutoMineSwitch

/-- What one scheduled step can do to the shared blockchain: a primitive step, or the
append of an `AddTransaction`, which queues its transaction whatever the other calls did
since its checks. -/
inductive ConcurrentStep (C : Collaborators) (F : Option (Delta × FatalError) → Prop) :
    Blockchain → Blockchain → Prop
  | step {b b' : Blockchain} : Step C F b b' → ConcurrentStep C F b b'
  | append (b : Blockchain) (tx : TransactionBody) :
      ConcurrentStep C F b { b with pendingBlock := b.pendingBlock.AddTransaction tx }

/-- A property every concurrent step keeps holds along a sequence of them. -/
theorem ConcurrentStep.preserves {I : Blockchain → Prop}
    (hstep : ∀ b b', ConcurrentStep C F b b' → I b → I b') {b b' : Blockchain}
    (hsteps : Relation.ReflTransGen (ConcurrentStep C F) b b') (hb : I b) : I b' := by
  induction hsteps with
  | refl => exact hb
  | tail _ hlast ih => exact hstep _ _ hlast ih

/-- A concurrent step only ever appends to the committed chain. -/
theorem ConcurrentStep.storage_prefix {b b' : Blockchain} (hstep : ConcurrentStep C F b b') :
    b.storage.blocks <+: b'.storage.blocks := by
  cases hstep with
  | step hstep => exact hstep.storage_prefix
  | append => exact List.prefix_refl _

/-- An unchecked append keeps the ledger invariant: the executed prefix of the queue, and
so the pending view's replay, is the same. -/
theorem LedgerValid.append {b : Blockchain} (hvalid : b.LedgerValid C) (tx : TransactionBody) :
    LedgerValid C { b with pendingBlock := b.pendingBlock.AddTransaction tx } := by
  have hcursor := hvalid.cursor
  refine ⟨⟨hvalid.chained, hvalid.onLatest, ?_⟩, hvalid.recorded, hvalid.pendingBase, ?_,
    hvalid.committed⟩
  · simp only [PendingBlock.AddTransaction_index, PendingBlock.AddTransaction_transactions,
      List.length_append, List.length_singleton]
    omega
  · simp only [PendingBlock.AddTransaction_index, PendingBlock.AddTransaction_transactions,
      List.take_append_of_le_length hcursor]
    exact hvalid.pendingRead

/-- Every concurrent step keeps the ledger invariant. -/
theorem ConcurrentStep.ledgerValid {b b' : Blockchain} (hstep : ConcurrentStep C F b b')
    (hvalid : b.LedgerValid C) : b'.LedgerValid C := by
  cases hstep with
  | step hstep => exact hstep.ledgerValid hvalid
  | append tx => exact hvalid.append tx

/-- Collaborators whose VM writes the height of the header it runs under to register 5. -/
def heightRecordingCollaborators : Collaborators := { sampleCollaborators with
  Run := fun ctx proc _ => match proc with
    | .Transaction _ _ => ⟨[(5, (ctx.BlockHeader.map (·.Height)).getD 0)], .ok ⟨none, [], [], 0, none⟩⟩
    | _ => ⟨[], .ok ⟨none, [], [], 0, none⟩⟩ }

/-- The stale-header race. `ExecuteBlock` takes no lock and fixes its block context before
its loop: a commit and an append between two iterations make it execute the next block's
transaction under the committed block's header. Every executed position then holds its
result, yet the pending view is no replay under the pending block's header. -/
theorem ExecuteBlock_interleaving_uses_stale_header :
    let C := heightRecordingCollaborators
    let b := (Call.AddTransaction (sampleTransaction 1)).apply C .calm sampleGenesis
    let schedule : List Scheduled :=
      [.client 0, .client 0, .locked .calm .CommitBlock] ++ List.replicate 5 (.client 1) ++ [.client 0]
    let b' := (interleave C .calm schedule
      ([.ExecuteBlock .start, .AddTransaction (sampleTransaction 2) .checkStarted], b)).2
    Reachable C (fun _ => True) b ∧ b'.storage.blocks.length = 2 ∧
      b'.pendingBlock.transactionResults.length = b'.pendingBlock.index ∧
      ¬ ∃ latest, b'.storage.LatestBlock = .ok latest ∧
        b'.pendingBlock.ledgerView.read =
          replay C ⟨some (b'.pendingBlock.Block C.toHashing).Header⟩
            (b'.storage.LedgerViewByHeight latest.Header.Height).read 0
            (b'.pendingBlock.transactions.take b'.pendingBlock.index) := by
  dsimp only
  refine ⟨.call _ _ (fun _ => trivial) (.new .calm sampleServiceKey rfl), by decide, by decide, ?_⟩
  rintro ⟨latest, hlatest, hread⟩
  obtain rfl := Except.ok.inj (hlatest.symm.trans rfl)
  exact absurd (congrFun hread 5) (by decide)

end Blockchain

end flow_emulator.emulator
