import FlowEmulator.Emulator.Events
import FlowEmulator.Emulator.Ledger

namespace flow_emulator.storage

open flow_emulator.flowgo flow_emulator.types

namespace Store.Chained

variable {H : Hashing} {store : Store}

/-- A chained store has no block at or above its length. -/
theorem BlockByHeight_of_le (hchain : store.Chained H) {height : Nat}
    (hle : store.blocks.length ≤ height) : store.BlockByHeight height = .error .ErrNotFound := by
  rw [Store.BlockByHeight, List.find?_eq_none.mpr fun stored hmem => ?_]
  have := hchain.height_lt stored hmem
  simp only [decide_eq_true_eq]
  omega

/-- At or above the latest height, the ledger of a chained store is the latest ledger. -/
theorem ledgerAt_of_le (hchain : store.Chained H) {height : Nat}
    (hle : store.blocks.length - 1 ≤ height) :
    store.ledgerAt height = store.ledgerAt (store.blocks.length - 1) := by
  have hbelow : ∀ stored ∈ store.blocks, stored.Block.Header.Height ≤ store.blocks.length - 1 :=
    fun stored hmem => Nat.le_sub_one_of_lt (hchain.height_lt stored hmem)
  rw [Store.ledgerAt_of_forall_le fun stored hmem => (hbelow stored hmem).trans hle,
    Store.ledgerAt_of_forall_le hbelow]

end Store.Chained

end flow_emulator.storage

namespace flow_emulator.emulator

open flow_emulator.flowgo flow_emulator.types flow_emulator.storage

namespace Blockchain

variable {C : Collaborators} {F : Option (Delta × FatalError) → Prop}

/-- `GetAccount` and `GetAccountUnsafe` read at the latest height, one below the store's
length. -/
theorem Valid.GetAccount_eq {b : Blockchain} (hvalid : b.Valid C) (address : Address) :
    b.GetAccount C none address = b.GetAccountAtBlockHeight C address (b.storage.blocks.length - 1) ∧
      b.GetAccountUnsafe C none address =
        b.GetAccountAtBlockHeight C address (b.storage.blocks.length - 1) := by
  obtain ⟨latest, hlatest, -, -⟩ := hvalid.onLatest
  have hheight : latest.Header.Height = b.storage.blocks.length - 1 := by
    have := hvalid.chained.latest_height hlatest
    omega
  simp [GetAccount, GetAccountUnsafe, GetLatestBlock, withFault, hlatest, hheight]

/-- The only error `GetAccountAtBlockHeight` returns is a missing account; a failed lookup
for any other reason gives a nil account with a nil error. -/
theorem GetAccountAtBlockHeight_cases (b : Blockchain) (address : Address) (height : Nat) :
    (∀ err, b.GetAccountAtBlockHeight C address height = .error err →
      err = .AccountNotFound address) ∧
    (∀ err, C.GetAccount address (b.storage.ledgerAt height) = .error err →
      IsAccountNotFoundError err = false → b.GetAccountAtBlockHeight C address height = .ok none) := by
  constructor
  · intro err h
    unfold GetAccountAtBlockHeight at h
    split at h
    · split at h <;> cases h
      rfl
    · cases h
  · intro err hlookup hcode
    simp [GetAccountAtBlockHeight, hlookup, hcode]

/-- `GetAccountAtBlockHeight` over a run: above the latest height it reads the latest
ledger where `ExecuteScriptAtBlockHeight` fails with `BlockNotFoundByHeight`, and it fails
only on a missing account, a failed VM lookup giving a nil account with a nil error. -/
theorem Reachable.GetAccountAtBlockHeight_ignores_missing_blocks {b : Blockchain}
    (hreach : Reachable C F b) (address : Address) {α : Type}
    (executeScriptAtBlock : Block → Except EmulatorError α) :
    (∀ height, b.storage.blocks.length ≤ height →
      b.GetAccountAtBlockHeight C address height =
        b.GetAccountAtBlockHeight C address (b.storage.blocks.length - 1) ∧
      b.ExecuteScriptAtBlockHeight none executeScriptAtBlock height =
        .error (.BlockNotFoundByHeight height)) ∧
    (∀ height err, b.GetAccountAtBlockHeight C address height = .error err →
      err = .AccountNotFound address) ∧
    (∀ height err, C.GetAccount address (b.storage.ledgerAt height) = .error err →
      IsAccountNotFoundError err = false → b.GetAccountAtBlockHeight C address height = .ok none) ∧
    b.GetAccount C none address = b.GetAccountAtBlockHeight C address (b.storage.blocks.length - 1) ∧
    b.GetAccountUnsafe C none address =
      b.GetAccountAtBlockHeight C address (b.storage.blocks.length - 1) := by
  have hvalid := hreach.valid
  refine ⟨fun height hle => ⟨?_, ?_⟩, fun height => (GetAccountAtBlockHeight_cases b address height).1,
    fun height => (GetAccountAtBlockHeight_cases b address height).2, hvalid.GetAccount_eq address⟩
  · simp only [GetAccountAtBlockHeight, Store.LedgerViewByHeight_read,
      hvalid.chained.ledgerAt_of_le (Nat.sub_le_of_le_add (Nat.le_succ_of_le hle))]
  · simp [ExecuteScriptAtBlockHeight, getBlockByHeight, withFault, hvalid.chained.BlockByHeight_of_le hle]

/-- Collaborators whose VM fails to read the account at address 0 for another reason
than a missing account. -/
def lookupFaultCollaborators : Collaborators :=
  { sampleCollaborators with
    GetAccount := fun address _ =>
      if address = 0 then .error ⟨[.Other 1], "ledger read failed"⟩ else .ok ⟨address, 0, [], []⟩ }

/-- On the genesis chain, the account at address 1 is found at height 1, where no block
is and where a script fails with `BlockNotFoundByHeight`; and the failed lookup at
address 0 makes `GetAccount` and `GetAccountUnsafe` return a nil account with a nil
error. -/
theorem GetAccountAtBlockHeight_above_genesis :
    Reachable lookupFaultCollaborators (fun _ => True) sampleGenesis ∧
    sampleGenesis.GetAccountAtBlockHeight lookupFaultCollaborators 1 1 = .ok (some ⟨1, 0, [], []⟩) ∧
      sampleGenesis.ExecuteScriptAtBlockHeight none (fun _ => (.ok () : Except EmulatorError Unit)) 1 =
        .error (.BlockNotFoundByHeight 1) ∧
      sampleGenesis.GetAccount lookupFaultCollaborators none 0 = .ok none ∧
      sampleGenesis.GetAccountUnsafe lookupFaultCollaborators none 0 = .ok none := by
  have hreach : Reachable lookupFaultCollaborators (fun _ => True) sampleGenesis :=
    .new .calm sampleServiceKey rfl
  obtain ⟨habove, -, -, -, -⟩ :=
    Reachable.GetAccountAtBlockHeight_ignores_missing_blocks hreach 1
      (fun _ => (.ok () : Except EmulatorError Unit))
  obtain ⟨-, -, hfault0, hget0, hunsafe0⟩ :=
    Reachable.GetAccountAtBlockHeight_ignores_missing_blocks hreach 0
      (fun _ => (.ok () : Except EmulatorError Unit))
  have hnil := hfault0 0 _ rfl rfl
  exact ⟨hreach, (habove 1 le_rfl).1.trans rfl, (habove 1 le_rfl).2, hget0.trans hnil, hunsafe0.trans hnil⟩

end Blockchain

end flow_emulator.emulator
