import FlowEmulator.Emulator.Run

namespace flow_emulator.emulator

open flow_emulator.flowgo flow_emulator.types flow_emulator.storage

namespace Blockchain

variable {C : Collaborators}

/-- `testAlternativeHashAlgo` indexes the signer's keys with the signature's key index
unchecked: a signature naming an account the VM finds, at a key index past the end of
its keys, faults at run time. -/
theorem testAlternativeHashAlgo_of_missing_key {storage : Store} {sig : TransactionSignature}
    {msg : Bytes} {latest : Block} {acc : Account} (hlatest : storage.LatestBlock = .ok latest)
    (hacc : C.GetAccount sig.Address (storage.ledgerAt latest.Header.Height) = .ok acc)
    (hkey : acc.Keys.length ≤ sig.KeyIndex) (pendingBlock : PendingBlock)
    (serviceKey : emulator.ServiceKey) (autoMine : Bool) :
    testAlternativeHashAlgo C ⟨storage, pendingBlock, serviceKey, autoMine⟩ sig msg =
      .error (.Runtime .IndexOutOfRange) := by
  simp [testAlternativeHashAlgo, GetAccount, GetLatestBlock, withFault, hlatest,
    GetAccountAtBlockHeight, hacc, List.getElem?_eq_none hkey]

/-- The signature debugging of `executeNextTransaction` faults at run time. When the
transaction at the cursor runs to completion with an error carrying the
invalid-envelope-signature code, and its first envelope signature names an account the
VM finds at a key index past the end of that account's keys, the call fails with an
index-out-of-range fault (after the pending block has advanced past the transaction). -/
theorem executeNextTransaction_debug_index_out_of_range {b : Blockchain} {ctx : Context}
    {fault : Option (Delta × FatalError)} {tx : TransactionBody} {out : ProcedureOutput}
    {tr : TransactionResult} {err : CodedError} {sig : TransactionSignature}
    {sigs : List TransactionSignature} {latest : Block} {acc : Account}
    (htx : b.pendingBlock.transactions[b.pendingBlock.index]? = some tx)
    (hrun : (vmRun C ctx (.Transaction tx (UInt32.ofNat b.pendingBlock.index))
      b.pendingBlock.ledgerView.read fault).result = .ok out)
    (hconv : C.VMTransactionResultToEmulator (.ofOutput tx (UInt32.ofNat b.pendingBlock.index) out) =
      .ok tr)
    (herr : tr.Error = some err) (hcode : HasErrorCode err .ErrCodeInvalidEnvelopeSignatureError)
    (hsigs : tx.EnvelopeSignatures = sig :: sigs) (hlatest : b.storage.LatestBlock = .ok latest)
    (hacc : C.GetAccount sig.Address (b.storage.ledgerAt latest.Header.Height) = .ok acc)
    (hkey : acc.Keys.length ≤ sig.KeyIndex) :
    (b.executeNextTransaction C ctx fault).1 = .error (.Runtime .IndexOutOfRange) := by
  rw [executeNextTransaction_of_run_ok C htx hrun]
  simp [transactionResultOf, hconv, herr, debugSignatureError, hcode, hsigs, firstAlternativeHashAlgo,
    testAlternativeHashAlgo_of_missing_key hlatest hacc hkey]
  rfl

/-- A VM that rejects every transaction's envelope signature, and a transaction whose
envelope signature names key 0 of an account without keys: once the transaction is
queued in a reachable blockchain, executing it faults at run time. -/
theorem executeNextTransaction_debug_faults_on_missing_key :
    let C : Collaborators := { sampleCollaborators with
      Run := fun _ _ _ => ⟨[], .ok ⟨some ⟨[.ErrCodeInvalidEnvelopeSignatureError], "signature"⟩,
        [], [], 0, none⟩⟩ }
    let tx : TransactionBody := { sampleTransaction 1 with EnvelopeSignatures := [⟨0, 0, 0, []⟩] }
    let b := (Call.AddTransaction tx).apply C .calm sampleGenesis
    Reachable C (fun _ => True) b ∧
      (b.executeNextTransaction C ⟨some (b.pendingBlock.Block C.toHashing).Header⟩ none).1 =
        .error (.Runtime .IndexOutOfRange) := by
  intro C tx b
  exact ⟨.call .calm _ (fun _ => trivial) (.new .calm sampleServiceKey rfl),
    executeNextTransaction_debug_index_out_of_range rfl rfl rfl rfl rfl rfl rfl rfl
      (Nat.le_refl 0)⟩

end Blockchain

end flow_emulator.emulator
