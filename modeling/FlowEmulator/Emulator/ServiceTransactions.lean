import FlowEmulator.Emulator.AutoMine

namespace flow_emulator.emulator

open flow_emulator.flowgo flow_emulator.types flow_emulator.storage

namespace Blockchain

variable {C : Collaborators}

/-- `ServiceKey` changes at most the cached key. -/
theorem ServiceKey_frame {fault : Option String} {b b' : Blockchain}
    {r : Except EmulatorError emulator.ServiceKey} (h : b.ServiceKey C fault = (r, b')) :
    b'.storage = b.storage ∧ b'.pendingBlock = b.pendingBlock := by
  rw [ServiceKey] at h
  repeat' split at h
  all_goals obtain ⟨-, rfl⟩ := Prod.mk.inj h
  all_goals exact ⟨rfl, rfl⟩

variable {F : Option (Delta × FatalError) → Prop}

end Blockchain

end flow_emulator.emulator
