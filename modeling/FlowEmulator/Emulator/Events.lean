import FlowEmulator.Emulator.BlockQueries

namespace flow_emulator.storage

open flow_emulator.flowgo flow_emulator.types

/-- A block found by height is a committed block, and it has that height. -/
theorem Store.BlockByHeight_eq_ok {store : Store} {height : Nat} {block : Block}
    (h : store.BlockByHeight height = .ok block) :
    ∃ stored ∈ store.blocks, stored.Block = block ∧ block.Header.Height = height := by
  unfold Store.BlockByHeight at h
  split at h
  · rename_i stored hfind
    cases h
    exact ⟨stored, List.mem_of_find?_eq_some hfind, rfl, by simpa using List.find?_some hfind⟩
  · cases h

/-- A chained store has a block at every height below its length. -/
theorem Store.Chained.BlockByHeight_of_lt {H : Hashing} {store : Store} (hchain : store.Chained H)
    {height : Nat} (hlt : height < store.blocks.length) :
    ∃ block, store.BlockByHeight height = .ok block := by
  cases hfind : store.blocks.find? (fun stored => stored.Block.Header.Height = height) with
  | none =>
    have := List.find?_eq_none.mp hfind store.blocks[height] (List.getElem_mem hlt)
    simp [hchain.heights height hlt] at this
  | some stored => exact ⟨stored.Block, by simp [Store.BlockByHeight, hfind]⟩

end flow_emulator.storage

namespace flow_emulator.emulator

open flow_emulator.flowgo flow_emulator.types flow_emulator.storage

/-- `validateEventType` accepts every event type that is not blank. -/
theorem validateEventType_eq_none {eventType : String} (htype : TrimSpace eventType ≠ "") :
    validateEventType eventType = none := by
  unfold validateEventType
  generalize TrimSpace eventType = trimmed at htype ⊢
  obtain ⟨_ | ⟨c, cs⟩⟩ := trimmed
  · exact absurd rfl htype
  · have hsize : (String.endPos ⟨c :: cs⟩).byteIdx ≠ 0 := by
      have := c.utf8Size_pos
      simp only [String.endPos, String.utf8ByteSize, String.utf8ByteSize.go]
      omega
    simpa [String.isEmpty] using fun hzero => hsize (congrArg String.Pos.byteIdx hzero)

/-- `uint64` comparisons compare the heights' values. -/
private theorem UInt64.le_iff_toNat_le (a b : UInt64) : a ≤ b ↔ a.toNat ≤ b.toNat := by
  rw [UInt64.le_def, BitVec.le_def]
  rfl

private theorem UInt64.lt_iff_toNat_lt (a b : UInt64) : a < b ↔ a.toNat < b.toNat := by
  rw [UInt64.lt_def, BitVec.lt_def]
  rfl

/-- `height++` does not wrap below the largest `uint64`. -/
private theorem UInt64.toNat_add_one {height : UInt64} (hlt : height.toNat + 1 < UInt64.size) :
    (height + 1).toNat = height.toNat + 1 := by
  show (height.toBitVec + 1#64).toNat = _
  rw [BitVec.toNat_add]
  exact Nat.mod_eq_of_lt hlt

/-- The clamp of `GetEventsForHeightRange`, read on the heights' values: with the latest
height representable, an end height of 0 or above the latest height becomes the latest. -/
private theorem UInt64.clamp_toNat {latest : Nat} (hlatest : latest < UInt64.size) (endHeight : UInt64) :
    (if endHeight = 0 ∨ endHeight > UInt64.ofNat latest then UInt64.ofNat latest else endHeight).toNat =
      if endHeight = 0 ∨ latest < endHeight.toNat then latest else endHeight.toNat := by
  have hofNat : (UInt64.ofNat latest).toNat = latest := UInt64.toNat_ofNat_of_lt hlatest
  have hgt : endHeight > UInt64.ofNat latest ↔ latest < endHeight.toNat := by
    rw [gt_iff_lt, UInt64.lt_iff_toNat_lt, hofNat]
  simp only [hgt]
  split_ifs <;> simp only [hofNat]

namespace Blockchain

variable {C : Collaborators} {F : Option (Delta × FatalError) → Prop}

/-- Events found by height are returned by `GetEventsByHeight`. -/
theorem GetEventsByHeight_of_ok {b : Blockchain} {height : Nat} {eventType : String}
    {events : List Event} (h : b.storage.EventsByHeight height eventType = .ok events) :
    b.GetEventsByHeight none height eventType = .ok events := by
  simp [GetEventsByHeight, withFault, h]

/-- A block found by height is returned, sealed, by `GetBlockByHeight`. -/
theorem GetBlockByHeight_of_ok {b : Blockchain} {height : Nat} {block : Block}
    (h : b.storage.BlockByHeight height = .ok block) :
    b.GetBlockByHeight none height = .ok (block, .Sealed) := by
  simp [GetBlockByHeight, getBlockByHeight, withFault, h]

/-- The height loop of `GetEventsForHeightRange`: from `height` up to `endHeight`, with
storage that answers, it stops within its fuel and appends, for each height in turn, the
ID, height and timestamp of the block found there and the events committed with it. -/
theorem eventsForHeights_run {b : Blockchain} (hchain : b.storage.Chained C.toHashing)
    {eventType : String} {endHeight : UInt64} (hend : endHeight.toNat < b.storage.blocks.length)
    (hsize : endHeight.toNat + 1 < UInt64.size) :
    ∀ n fuel height results, height.toNat + n = endHeight.toNat + 1 → n < fuel →
      ∃ rest, b.eventsForHeights C (fun _ => none) eventType endHeight fuel height results =
          some (.ok (results ++ rest)) ∧ rest.length = n ∧
        ∀ k (hk : k < rest.length), ∃ block events,
          b.storage.BlockByHeight (height.toNat + k) = .ok block ∧
          b.storage.EventsByHeight (height.toNat + k) eventType = .ok events ∧
          rest[k] = ⟨C.BlockID block, height.toNat + k, block.Header.Timestamp, events⟩
  | _, 0, _, _, _, hfuel => absurd hfuel (Nat.not_lt_zero _)
  | 0, fuel + 1, height, results, hn, _ => by
    have hover : ¬ height ≤ endHeight := by rw [UInt64.le_iff_toNat_le]; omega
    exact ⟨[], by simp [eventsForHeights, hover], rfl, fun _ hk => absurd hk (Nat.not_lt_zero _)⟩
  | n + 1, fuel + 1, height, results, hn, hfuel => by
    have hin : height ≤ endHeight := by rw [UInt64.le_iff_toNat_le]; omega
    obtain ⟨block, hblock⟩ := hchain.BlockByHeight_of_lt (show height.toNat < _ by omega)
    obtain ⟨-, -, -, hheight⟩ := Store.BlockByHeight_eq_ok hblock
    obtain ⟨events, hevents⟩ : ∃ events, b.storage.EventsByHeight height.toNat eventType = .ok events :=
      ⟨_, rfl⟩
    have hnext : (height + 1).toNat = height.toNat + 1 := UInt64.toNat_add_one (by omega)
    obtain ⟨rest, hrun, hlength, hrest⟩ := eventsForHeights_run hchain hend hsize n fuel (height + 1)
      (results ++ [⟨C.BlockID block, height.toNat, block.Header.Timestamp, events⟩]) (by omega)
      (by omega)
    refine ⟨⟨C.BlockID block, height.toNat, block.Header.Timestamp, events⟩ :: rest, ?_,
      by simp [hlength], fun k hk => ?_⟩
    · simpa [eventsForHeights, if_pos hin, GetBlockByHeight_of_ok hblock, hheight,
        GetEventsByHeight_of_ok hevents] using hrun
    · cases k with
      | zero => exact ⟨block, events, hblock, hevents, rfl⟩
      | succ k =>
        obtain ⟨block', events', h⟩ := hrest k (by simpa using hk)
        rw [hnext, Nat.add_right_comm] at h
        exact ⟨block', events', h⟩

/-- `GetEventsForBlockIDs`' loop over the IDs of committed blocks: with distinct block IDs,
each ID gives back its block's ID, height and timestamp and the events committed with it. -/
theorem eventsForBlockIDs_of_committed {b : Blockchain} {eventType : String}
    (hblocks : (b.storage.blocks.map fun stored => C.BlockID stored.Block).Nodup) :
    ∀ (entries : List BlockEvents) (k : Nat),
      (∀ entry ∈ entries, ∃ stored ∈ b.storage.blocks, ∃ events,
        b.storage.EventsByHeight stored.Block.Header.Height eventType = .ok events ∧
        entry = ⟨C.BlockID stored.Block, stored.Block.Header.Height, stored.Block.Header.Timestamp,
          events⟩) →
      b.eventsForBlockIDs C (fun _ => none) eventType k (entries.map (·.BlockID)) = .ok entries
  | [], _, _ => rfl
  | entry :: entries, k, hentries => by
    obtain ⟨stored, hmem, events, hevents, rfl⟩ := hentries entry (List.mem_cons_self _ _)
    have hblock : b.GetBlockByID C none (C.BlockID stored.Block) = .ok (stored.Block, .Sealed) := by
      simp [GetBlockByID, withFault, Store.BlockByID_of_nodup hblocks hmem]
    have htail := eventsForBlockIDs_of_committed hblocks entries (k + 2)
      fun entry hentry => hentries entry (List.mem_cons_of_mem _ hentry)
    simp only [List.map_cons, eventsForBlockIDs, hblock, GetEventsByHeight_of_ok hevents, htail]
    rfl

/-- `GetEventsForHeightRange` over a run: it stops, rejects a start above the clamped end,
and otherwise returns one entry per height with that block's ID, timestamp and events,
which `GetEventsForBlockIDs` returns again for distinct block IDs. -/
theorem Reachable.GetEventsForHeightRange_spec {b : Blockchain} (hreach : Reachable C F b)
    (hlength : b.storage.blocks.length < UInt64.size) {eventType : String}
    (htype : TrimSpace eventType ≠ "") (startHeight endHeight : UInt64) :
    let last := if endHeight = 0 ∨ b.storage.blocks.length - 1 < endHeight.toNat
      then b.storage.blocks.length - 1 else endHeight.toNat
    ∃ r, b.GetEventsForHeightRange C (fun _ => none) eventType startHeight endHeight = some r ∧
      (last < startHeight.toNat → r = .error (.InvalidArgument "startHeight > endHeight")) ∧
      (startHeight.toNat ≤ last → ∃ results, r = .ok results ∧
        results.length = last + 1 - startHeight.toNat ∧
        (∀ k (hk : k < results.length), ∃ block events,
          b.storage.BlockByHeight (startHeight.toNat + k) = .ok block ∧
          b.storage.EventsByHeight (startHeight.toNat + k) eventType = .ok events ∧
          results[k] = ⟨C.BlockID block, startHeight.toNat + k, block.Header.Timestamp, events⟩) ∧
        ((b.storage.blocks.map fun stored => C.BlockID stored.Block).Nodup →
          b.GetEventsForBlockIDs C (fun _ => none) eventType (results.map (·.BlockID)) =
            .ok results)) := by
  intro last
  have hvalid := hreach.valid
  obtain ⟨latest, hlatest, -, -⟩ := hvalid.onLatest
  have hheight := hvalid.chained.latest_height hlatest
  have hvalidate := validateEventType_eq_none htype
  have hlast : last ≤ b.storage.blocks.length - 1 := by
    dsimp only [last]
    split_ifs with h <;> omega
  simp only [GetEventsForHeightRange, hvalidate, GetLatestBlock, withFault, hlatest]
  generalize hend : (if endHeight = 0 ∨ endHeight > UInt64.ofNat latest.Header.Height
    then UInt64.ofNat latest.Header.Height else endHeight) = endHeight'
  have hend' : endHeight'.toNat = last := by
    rw [← hend, UInt64.clamp_toNat (by omega), show latest.Header.Height = b.storage.blocks.length - 1
      by omega]
  have hgt : startHeight > endHeight' ↔ last < startHeight.toNat := by
    rw [gt_iff_lt, UInt64.lt_iff_toNat_lt, hend']
  by_cases hover : last < startHeight.toNat
  · exact ⟨_, if_pos (hgt.mpr hover), fun _ => rfl, fun hle => absurd hle (not_le.mpr hover)⟩
  · obtain ⟨rest, hrun, hlen, hrest⟩ := eventsForHeights_run hvalid.chained
      (show endHeight'.toNat < b.storage.blocks.length by omega) (by omega)
      (last + 1 - startHeight.toNat) (UInt64.size + 1) startHeight [] (by omega) (by omega)
    refine ⟨_, (if_neg (hover ∘ hgt.mp)).trans hrun, fun h => absurd h hover,
      fun _ => ⟨rest, rfl, hlen, hrest, fun hblocks => ?_⟩⟩
    simp only [GetEventsForBlockIDs, hvalidate]
    refine eventsForBlockIDs_of_committed hblocks rest 0 fun entry hentry => ?_
    obtain ⟨k, hk, rfl⟩ := List.getElem_of_mem hentry
    obtain ⟨block, events, hblock, hevents, hentry⟩ := hrest k hk
    obtain ⟨stored, hmem, rfl, hheight⟩ := Store.BlockByHeight_eq_ok hblock
    exact ⟨stored, hmem, events, hheight ▸ hevents, hheight ▸ hentry⟩

/-- The events query on the sample chain, from height 0 with an end height of 0, which
the clamp reads as the latest height. -/
theorem GetEventsForHeightRange_of_sampleChain :
    let C := sampleCollaborators
    let b : Blockchain := sampleChain
    Reachable C (fun _ => True) b ∧ b.storage.blocks.length < UInt64.size ∧ TrimSpace "A" ≠ "" ∧
    let last := if (0 : UInt64) = 0 ∨ b.storage.blocks.length - 1 < (0 : UInt64).toNat
      then b.storage.blocks.length - 1 else (0 : UInt64).toNat
    ∃ r, b.GetEventsForHeightRange C (fun _ => none) "A" 0 0 = some r ∧
      (last < (0 : UInt64).toNat → r = .error (.InvalidArgument "startHeight > endHeight")) ∧
      ((0 : UInt64).toNat ≤ last → ∃ results, r = .ok results ∧
        results.length = last + 1 - (0 : UInt64).toNat ∧
        (∀ k (hk : k < results.length), ∃ block events,
          b.storage.BlockByHeight ((0 : UInt64).toNat + k) = .ok block ∧
          b.storage.EventsByHeight ((0 : UInt64).toNat + k) "A" = .ok events ∧
          results[k] = ⟨C.BlockID block, (0 : UInt64).toNat + k, block.Header.Timestamp, events⟩) ∧
        ((b.storage.blocks.map fun stored => C.BlockID stored.Block).Nodup →
          b.GetEventsForBlockIDs C (fun _ => none) "A" (results.map (·.BlockID)) = .ok results)) :=
  ⟨Reachable.of_sampleChain trivial, by decide, by decide,
    Reachable.GetEventsForHeightRange_spec
      (Reachable.of_sampleChain trivial : Reachable _ (fun _ => True) _) (by decide) (by decide) 0 0⟩

end Blockchain

end flow_emulator.emulator
