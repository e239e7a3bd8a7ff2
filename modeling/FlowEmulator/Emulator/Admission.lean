import FlowEmulator.Emulator.Commit

namespace flow_emulator.emulator

open flow_emulator.flowgo flow_emulator.types flow_emulator.storage

namespace Blockchain

variable (C : Collaborators)

/-- What `AddTransaction` requires before it appends `tx`: execution of the pending
block has not started, the ID is neither queued nor stored (the storage lookup
answering), and the validator accepts the transaction. -/
structure Admits (env : Environment) (b : Blockchain) (tx : TransactionBody) : Prop where
  notStarted : b.pendingBlock.index = 0
  notQueued : C.TransactionID tx ∉ b.pendingBlock.transactions.map C.TransactionID
  storageAnswers : env.storageFault 0 = none
  notStored : b.storage.TransactionByID (C.TransactionID tx) = .error .ErrNotFound
  validated : C.Validate b.storage tx = none

/-- An admissible transaction is appended to the queue and nothing else changes. -/
theorem AddTransaction_of_admits {env : Environment} {b : Blockchain} {tx : TransactionBody}
    (h : b.Admits C env tx) :
    b.AddTransaction C env tx = (none, { b with pendingBlock := b.pendingBlock.AddTransaction tx }) := by
  have hstarted : b.pendingBlock.ExecutionStarted = false := by
    simp [PendingBlock.ExecutionStarted, h.notStarted]
  have hcontains : b.pendingBlock.ContainsTransaction C.toHashing (C.TransactionID tx) = false := by
    simpa [← Bool.not_eq_true, PendingBlock.ContainsTransaction_iff] using h.notQueued
  simp [AddTransaction, hstarted, hcontains, h.storageAnswers, withFault, h.notStored, h.validated]

/-- Everything one `AddTransaction` can do: refuse with an error and change nothing, or
admit the transaction. -/
theorem AddTransaction_cases (env : Environment) (b : Blockchain) (tx : TransactionBody) :
    ((b.AddTransaction C env tx).1 ≠ none ∧ (b.AddTransaction C env tx).2 = b) ∨
      b.Admits C env tx := by
  by_cases hindex : b.pendingBlock.index = 0
  swap
  · have hstarted := (PendingBlock.ExecutionStarted_iff _).mpr (Nat.pos_of_ne_zero hindex)
    simp [AddTransaction, hstarted]
  have hstarted : b.pendingBlock.ExecutionStarted = false := by
    simp [PendingBlock.ExecutionStarted, hindex]
  by_cases hqueued : C.TransactionID tx ∈ b.pendingBlock.transactions.map C.TransactionID
  · have hcontains := (PendingBlock.ContainsTransaction_iff _ _ _).mpr hqueued
    simp [AddTransaction, hstarted, hcontains]
  have hcontains : b.pendingBlock.ContainsTransaction C.toHashing (C.TransactionID tx) = false := by
    simpa [← Bool.not_eq_true, PendingBlock.ContainsTransaction_iff] using hqueued
  cases hfault : env.storageFault 0 with
  | some message => simp [AddTransaction, hstarted, hcontains, hfault, withFault]
  | none =>
    cases hstored : b.storage.TransactionByID (C.TransactionID tx) with
    | ok _ => simp [AddTransaction, hstarted, hcontains, hfault, withFault, hstored]
    | error err =>
      cases err with
      | Other message => simp [AddTransaction, hstarted, hcontains, hfault, withFault, hstored]
      | ErrNotFound =>
        cases hvalid : C.Validate b.storage tx with
        | some message =>
          simp [AddTransaction, hstarted, hcontains, hfault, withFault, hstored, hvalid]
        | none => exact .inr ⟨hindex, hqueued, hfault, hstored, hvalid⟩

/-- A call that returns no error admitted the transaction. -/
theorem AddTransaction_eq_none {env : Environment} {b b' : Blockchain} {tx : TransactionBody}
    (h : b.AddTransaction C env tx = (none, b')) :
    b.Admits C env tx ∧ b' = { b with pendingBlock := b.pendingBlock.AddTransaction tx } := by
  rcases AddTransaction_cases C env b tx with ⟨hnone, -⟩ | hadmits
  · exact absurd (congrArg Prod.fst h) hnone
  · exact ⟨hadmits, (Prod.mk.inj ((AddTransaction_of_admits C hadmits).symm.trans h)).2.symm⟩

end Blockchain

end flow_emulator.emulator
