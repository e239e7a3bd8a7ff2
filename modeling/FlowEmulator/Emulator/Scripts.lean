import FlowEmulator.Emulator.Accounts
import FlowEmulator.Emulator.BlockQueries

namespace flow_emulator.storage

open flow_emulator.flowgo flow_emulator.types

/-- In a chained store the block found at a committed height is the one stored there. -/
theorem Store.Chained.BlockByHeight_getElem {H : Hashing} {store : Store} (hchain : store.Chained H)
    {height : Nat} (hlt : height < store.blocks.length) :
    store.BlockByHeight height = .ok store.blocks[height].Block := by
  obtain ⟨block, hblock⟩ := hchain.BlockByHeight_of_lt hlt
  obtain ⟨stored, hmem, rfl, hheight⟩ := Store.BlockByHeight_eq_ok hblock
  obtain ⟨i, hi, rfl⟩ := List.getElem_of_mem hmem
  obtain rfl : i = height := (hchain.heights i hi).symm.trans hheight
  exact hblock

end flow_emulator.storage

namespace flow_emulator.emulator

open flow_emulator.flowgo flow_emulator.types flow_emulator.storage

/-- Modelled from the spec: `types.ScriptResult` (the `types` package is absent from the
sources), what a script run returns. -/
structure ScriptResult where
  ScriptID : Identifier
  Value : Option Value
  Error : Option CodedError
  Logs : List String
  Events : List Event
  ComputationUsed : Nat
  deriving DecidableEq, Repr

namespace Blockchain

variable (C : Collaborators) (scriptHash : Bytes → Identifier)
  (FlowEventsToSDK : List Event → Except String (List Event))

/-- `executeScriptAtBlock`: the script and its arguments run in the context of the
requested block's header over a fresh view of the ledger committed at its height, the
run meeting the VM fault `vmFault`; the view is dropped. A fatal VM error and a failed
event conversion are returned; otherwise the result carries the script's ID
(`scriptHash`, `sdk.HashToID` of its SHA3-256 hash), its value when it succeeded and its
error when it did not. -/
def executeScriptAtBlock (vmFault : Option (Delta × FatalError)) (b : Blockchain) (script : Bytes)
    (arguments : List Bytes) (requestedBlock : Block) : Except EmulatorError ScriptResult :=
  let requestedLedgerView := b.storage.LedgerViewByHeight requestedBlock.Header.Height
  let run := vmRun C ⟨some requestedBlock.Header⟩ (.Script script arguments) requestedLedgerView.read vmFault
  match run.result with
  | .error err => .error (.VM err)
  | .ok scriptProc =>
    match FlowEventsToSDK scriptProc.Events with
    | .error err => .error (.Convert err)
    | .ok events =>
      .ok ⟨scriptHash script, if scriptProc.Err = none then scriptProc.Value else none, scriptProc.Err,
        scriptProc.Logs, events, scriptProc.ComputationUsed⟩

/-- `ExecuteScript`: the script runs at the latest committed block. -/
def ExecuteScript (fault : Option String) (vmFault : Option (Delta × FatalError)) (b : Blockchain)
    (script : Bytes) (arguments : List Bytes) : Except EmulatorError ScriptResult :=
  match b.GetLatestBlock fault with
  | .error err => .error err
  | .ok latestBlock => b.executeScriptAtBlock C scriptHash FlowEventsToSDK vmFault script arguments latestBlock

/-- `ExecuteScriptAtBlockID`: the script runs at the committed block found by ID. -/
def ExecuteScriptAtBlockID (fault : Option String) (vmFault : Option (Delta × FatalError))
    (b : Blockchain) (script : Bytes) (arguments : List Bytes) (blockID : Identifier) :
    Except EmulatorError ScriptResult :=
  match b.GetBlockByID C fault blockID with
  | .error err => .error err
  | .ok (requestedBlock, _) =>
    b.executeScriptAtBlock C scriptHash FlowEventsToSDK vmFault script arguments requestedBlock

variable {C} {F : Option (Delta × FatalError) → Prop}

/-- A script at a block of height `h` reads the ledger committed at `h`: two blockchains
whose ledgers agree there give it the same answer. -/
theorem executeScriptAtBlock_congr {vmFault : Option (Delta × FatalError)} {b b' : Blockchain}
    {script : Bytes} {arguments : List Bytes} {requestedBlock : Block}
    (hledger : b'.storage.ledgerAt requestedBlock.Header.Height = b.storage.ledgerAt requestedBlock.Header.Height) :
    b'.executeScriptAtBlock C scriptHash FlowEventsToSDK vmFault script arguments requestedBlock =
      b.executeScriptAtBlock C scriptHash FlowEventsToSDK vmFault script arguments requestedBlock := by
  simp only [executeScriptAtBlock, Store.LedgerViewByHeight_read, hledger]

/-- The three script entry points over a run agree: the latest height for `ExecuteScript`,
and for a committed block's height or (with distinct IDs) its ID, the block stored there
over the ledger committed at that height. -/
theorem Reachable.ExecuteScript_entry_points {b : Blockchain} (hreach : Reachable C F b)
    (hnodup : (b.storage.blocks.map fun stored => C.BlockID stored.Block).Nodup)
    (vmFault : Option (Delta × FatalError)) (script : Bytes) (arguments : List Bytes) :
    b.ExecuteScript C scriptHash FlowEventsToSDK none vmFault script arguments =
      b.ExecuteScriptAtBlockHeight none
        (b.executeScriptAtBlock C scriptHash FlowEventsToSDK vmFault script arguments)
        (b.storage.blocks.length - 1) ∧
    ∀ h (hh : h < b.storage.blocks.length),
      b.ExecuteScriptAtBlockHeight none
          (b.executeScriptAtBlock C scriptHash FlowEventsToSDK vmFault script arguments) h =
        b.executeScriptAtBlock C scriptHash FlowEventsToSDK vmFault script arguments
          b.storage.blocks[h].Block ∧
      b.ExecuteScriptAtBlockID C scriptHash FlowEventsToSDK none vmFault script arguments
          (C.BlockID b.storage.blocks[h].Block) =
        b.executeScriptAtBlock C scriptHash FlowEventsToSDK vmFault script arguments
          b.storage.blocks[h].Block := by
  have hchain := hreach.valid.chained
  have hatHeight : ∀ h (hh : h < b.storage.blocks.length),
      b.ExecuteScriptAtBlockHeight none
          (b.executeScriptAtBlock C scriptHash FlowEventsToSDK vmFault script arguments) h =
        b.executeScriptAtBlock C scriptHash FlowEventsToSDK vmFault script arguments
          b.storage.blocks[h].Block := fun h hh => by
    simp [ExecuteScriptAtBlockHeight, getBlockByHeight, withFault, hchain.BlockByHeight_getElem hh]
  have hlen : 0 < b.storage.blocks.length := List.length_pos.mpr hchain.nonempty
  have hlatest : b.storage.LatestBlock = .ok b.storage.blocks[b.storage.blocks.length - 1].Block :=
    Store.LatestBlock_eq_ok_iff.mpr ⟨hlen, rfl⟩
  refine ⟨?_, fun h hh => ⟨hatHeight h hh, ?_⟩⟩
  · rw [hatHeight _ (by omega)]
    simp [ExecuteScript, GetLatestBlock, withFault, hlatest]
  · have hfound := Store.BlockByID_of_nodup hnodup (List.getElem_mem hh)
    simp [ExecuteScriptAtBlockID, GetBlockByID, withFault, hfound]

/-- On the chain of one committed block over genesis, whose blocks `sampleCollaborators`
identifies by height, the three entry points agree at both heights. -/
theorem ExecuteScript_entry_points_of_one_block :
    let C := sampleCollaborators
    let scriptHash : Bytes → Identifier := fun script => script.length
    let FlowEventsToSDK : List Event → Except String (List Event) := .ok
    let b := Call.CommitBlock.apply C .calm (Call.ExecuteNextTransaction.apply C .calm
      ((Call.AddTransaction (sampleTransaction 1)).apply C .calm sampleGenesis))
    Reachable C (fun _ => True) b ∧
    (b.storage.blocks.map fun stored => C.BlockID stored.Block).Nodup ∧ b.storage.blocks.length = 2 ∧
    (b.ExecuteScript C scriptHash FlowEventsToSDK none none [1] [] =
      b.ExecuteScriptAtBlockHeight none
        (b.executeScriptAtBlock C scriptHash FlowEventsToSDK none [1] []) (b.storage.blocks.length - 1) ∧
    ∀ h (hh : h < b.storage.blocks.length),
      b.ExecuteScriptAtBlockHeight none (b.executeScriptAtBlock C scriptHash FlowEventsToSDK none [1] []) h =
        b.executeScriptAtBlock C scriptHash FlowEventsToSDK none [1] [] b.storage.blocks[h].Block ∧
      b.ExecuteScriptAtBlockID C scriptHash FlowEventsToSDK none none [1] [] (C.BlockID b.storage.blocks[h].Block) =
        b.executeScriptAtBlock C scriptHash FlowEventsToSDK none [1] [] b.storage.blocks[h].Block) := by
  intro C scriptHash FlowEventsToSDK b
  have hreach : Reachable C (fun _ => True) b :=
    .call _ _ (fun _ => trivial) (.call _ _ (fun _ => trivial) (.call _ _ (fun _ => trivial)
      Reachable.of_sampleGenesis))
  have hnodup := Valid.sample_blockIDs_nodup hreach.valid
  exact ⟨hreach, hnodup, by decide,
    Reachable.ExecuteScript_entry_points scriptHash FlowEventsToSDK hreach hnodup none [1] []⟩

end Blockchain

end flow_emulator.emulator
