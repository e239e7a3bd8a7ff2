import FlowEmulator.Emulator.Run

namespace flow_emulator.storage

open flow_emulator.flowgo

/-- The latest block is the last one committed. -/
theorem Store.LatestBlock_eq_ok_iff {store : Store} {latest : Block} :
    store.LatestBlock = .ok latest ↔
      ∃ hlen : 0 < store.blocks.length, store.blocks[store.blocks.length - 1].Block = latest := by
  unfold Store.LatestBlock
  rw [List.getLast?_eq_getElem?]
  constructor
  · intro h
    split at h
    · rename_i stored hstored
      obtain ⟨hlt, rfl⟩ := List.getElem?_eq_some_iff.mp hstored
      cases h
      exact ⟨by omega, rfl⟩
    · cases h
  · rintro ⟨hlen, rfl⟩
    rw [List.getElem?_eq_getElem (by omega)]

/-- The committed chain: a nonempty list whose block at position `i` has height `i`,
each block after the first naming the one before it as its parent. -/
structure Store.Chained (H : Hashing) (store : Store) : Prop where
  nonempty : store.blocks ≠ []
  heights : ∀ i (hi : i < store.blocks.length), store.blocks[i].Block.Header.Height = i
  parents : ∀ i (hi : i + 1 < store.blocks.length),
    store.blocks[i + 1].Block.Header.ParentID = H.BlockID store.blocks[i].Block

namespace Store.Chained

variable {H : Hashing} {store : Store}

/-- The latest block of a chained store sits one below the store's length. -/
theorem latest_height (hchain : store.Chained H) {latest : Block}
    (hlatest : store.LatestBlock = .ok latest) : latest.Header.Height + 1 = store.blocks.length := by
  obtain ⟨hlen, rfl⟩ := Store.LatestBlock_eq_ok_iff.mp hlatest
  rw [hchain.heights _ (by omega)]
  omega

/-- A block one above the latest and naming it as parent extends a chained store. -/
theorem append (hchain : store.Chained H) {stored : StoredBlock} {latest : Block}
    (hlatest : store.LatestBlock = .ok latest)
    (hheight : stored.Block.Header.Height = latest.Header.Height + 1)
    (hparent : stored.Block.Header.ParentID = H.BlockID latest) :
    (⟨store.blocks ++ [stored]⟩ : Store).Chained H where
  nonempty := by simp
  heights i hi := by
    have hlen := hchain.latest_height hlatest
    simp only [List.length_append, List.length_singleton] at hi
    rw [List.getElem_append]
    split
    · exact hchain.heights i ‹_›
    · simp only [List.getElem_singleton]
      omega
  parents i hi := by
    obtain ⟨hlen, rfl⟩ := Store.LatestBlock_eq_ok_iff.mp hlatest
    simp only [List.length_append, List.length_singleton] at hi
    rw [List.getElem_append_left (by omega : i < store.blocks.length)]
    by_cases hlast : i + 1 < store.blocks.length
    · rw [List.getElem_append_left hlast]
      exact hchain.parents i hlast
    · have hi' : i = store.blocks.length - 1 := by omega
      subst hi'
      rw [List.getElem_concat_length _ _ _ (by omega)]
      exact hparent

/-- A store holding only the genesis block is chained. -/
theorem genesis {stored : StoredBlock} (hheight : stored.Block.Header.Height = 0) :
    (⟨[stored]⟩ : Store).Chained H where
  nonempty := List.cons_ne_nil _ _
  heights i hi := by
    simp only [List.length_singleton, Nat.lt_one_iff] at hi
    subst hi
    exact hheight
  parents i hi := by simp at hi

end Store.Chained

end flow_emulator.storage

namespace flow_emulator.emulator

open flow_emulator.flowgo flow_emulator.types flow_emulator.storage

namespace Blockchain

variable {C : Collaborators} {F : Option (Delta × FatalError) → Prop}

/-- The chain invariant: a chained store, a pending block on its latest block (naming
it as parent, one above it) and a cursor inside the queue. -/
structure Valid (C : Collaborators) (b : Blockchain) : Prop where
  chained : b.storage.Chained C.toHashing
  onLatest : ∃ latest, b.storage.LatestBlock = .ok latest ∧
    b.pendingBlock.parentID = C.BlockID latest ∧ b.pendingBlock.height = latest.Header.Height + 1
  cursor : b.pendingBlock.index ≤ b.pendingBlock.transactions.length

/-- One `executeNextTransaction` keeps the pending block's header and moves the cursor
at most to the end of the queue. -/
theorem executeNextTransaction_pending {b b' : Blockchain} {ctx : Context}
    {fault : Option (Delta × FatalError)} {r : Except EmulatorError TransactionResult}
    (h : b.executeNextTransaction C ctx fault = (r, b'))
    (hcursor : b.pendingBlock.index ≤ b.pendingBlock.transactions.length) :
    b'.pendingBlock.parentID = b.pendingBlock.parentID ∧
      b'.pendingBlock.height = b.pendingBlock.height ∧
      b'.pendingBlock.index ≤ b'.pendingBlock.transactions.length := by
  rcases executeNextTransaction_cases C h with ⟨-, -, rfl⟩ | ⟨_, _, htx, -, -, rfl⟩ | ⟨_, _, htx, -, rfl⟩
  · exact ⟨rfl, rfl, hcursor⟩
  all_goals exact ⟨rfl, rfl, (List.getElem?_eq_some_iff.mp htx).1⟩

/-- Every primitive step keeps the chain invariant. -/
theorem Step.valid {b b' : Blockchain} (hstep : Step C F b b') (hvalid : b.Valid C) : b'.Valid C := by
  cases hstep with
  | configure => exact ⟨hvalid.chained, hvalid.onLatest, hvalid.cursor⟩
  | enqueue env b tx hadmits =>
    exact ⟨hvalid.chained, hvalid.onLatest, by simp [hadmits.notStarted]⟩
  | execute _ h =>
    obtain ⟨hparent, hheight, hcursor⟩ := executeNextTransaction_pending h hvalid.cursor
    obtain ⟨latest, hlatest, hp, hh⟩ := hvalid.onLatest
    exact ⟨(executeNextTransaction_frame C h).1 ▸ hvalid.chained,
      ⟨latest, (executeNextTransaction_frame C h).1 ▸ hlatest, hparent.trans hp, hheight.trans hh⟩,
      hcursor⟩
  | commit env b transactionResults _ _ _ =>
    obtain ⟨latest, hlatest, hparent, hheight⟩ := hvalid.onLatest
    exact ⟨hvalid.chained.append hlatest hheight hparent,
      ⟨_, Store.LatestBlock_append _ _, rfl, rfl⟩, Nat.le_refl 0⟩
  | reset b latestBlock viewIncrease now hlatest =>
    exact ⟨hvalid.chained, ⟨latestBlock, hlatest, rfl, rfl⟩, Nat.le_refl 0⟩

/-- A primitive step only ever appends to the committed chain. -/
theorem Step.storage_prefix {b b' : Blockchain} (hstep : Step C F b b') :
    b.storage.blocks <+: b'.storage.blocks := by
  cases hstep with
  | execute _ h => exact (executeNextTransaction_frame C h).1 ▸ List.prefix_refl _
  | commit => exact List.prefix_append _ _
  | _ => exact List.prefix_refl _

theorem NewBlockchain_valid_of_empty {env : Environment} {serviceKey : emulator.ServiceKey}
    {b : Blockchain} (h : NewBlockchain C env Store.empty serviceKey = .ok b) : b.Valid C := by
  obtain ⟨writes, hblocks, hpending⟩ := NewBlockchain_of_empty C h
  have hstorage : b.storage = ⟨[⟨Genesis C, [], [], [], writes, []⟩]⟩ := by
    rw [← hblocks]
  refine ⟨hstorage ▸ Store.Chained.genesis rfl, ⟨Genesis C, ?_, ?_, ?_⟩, ?_⟩
  · rw [hstorage]
    rfl
  all_goals rw [hpending]; rfl

theorem NewBlockchain_valid_of_valid {b₀ b : Blockchain} {env : Environment}
    {serviceKey : emulator.ServiceKey} (hvalid : b₀.Valid C)
    (h : NewBlockchain C env b₀.storage serviceKey = .ok b) : b.Valid C := by
  obtain ⟨hstorage, latest, hlatest, hpending⟩ := NewBlockchain_of_nonempty C hvalid.chained.nonempty h
  refine ⟨hstorage ▸ hvalid.chained, ⟨latest, hstorage ▸ hlatest, ?_, ?_⟩, ?_⟩
  all_goals rw [hpending]; rfl

/-- Every reachable blockchain satisfies the chain invariant. -/
theorem Reachable.valid {b : Blockchain} (hreach : Reachable C F b) : b.Valid C :=
  Reachable.invariant (fun _ _ _ h => NewBlockchain_valid_of_empty h)
    (fun _ _ _ _ hvalid h => NewBlockchain_valid_of_valid hvalid h)
    (fun _ _ hstep hvalid => hstep.valid hvalid) hreach

/-- A successful commit appends exactly one block, at the pending block's height. -/
theorem commitBlock_appends {b b' : Blockchain} {env : Environment} {block : Block}
    (h : b.commitBlock C env = (.ok block, b')) :
    ∃ stored, b'.storage.blocks = b.storage.blocks ++ [stored] ∧ stored.Block = block ∧
      block.Header.Height = b.pendingBlock.height := by
  rcases commitBlock_cases C h with ⟨⟨_, herr⟩, -⟩ | ⟨-, hblock, -, -, transactionResults, -, rfl⟩
  · cases herr
  · cases hblock
    exact ⟨_, rfl, rfl, rfl⟩

/-- A call only ever appends to the committed chain. -/
theorem call_storage_prefix (env : Environment) (hF : ∀ k, F (env.vmFault k)) (call : Call)
    (b : Blockchain) : b.storage.blocks <+: (call.apply C env b).storage.blocks :=
  Step.preserves (I := fun b' => b.storage.blocks <+: b'.storage.blocks)
    (fun _ _ hstep hprefix => hprefix.trans hstep.storage_prefix) (call.apply_steps env hF b)
    (List.prefix_refl _)

/-- The chain a run builds, whatever its calls return: blocks at heights 0, …, L, each
naming the one below as parent, the pending block above the latest, a commit appending
exactly one block at L + 1, and no call rewriting a committed block. -/
theorem Reachable.chain {b : Blockchain} (hreach : Reachable C (fun _ => True) b) :
    b.storage.blocks ≠ [] ∧
    (∀ i (hi : i < b.storage.blocks.length), b.storage.blocks[i].Block.Header.Height = i) ∧
    (∀ i (hi : i + 1 < b.storage.blocks.length),
      b.storage.blocks[i + 1].Block.Header.ParentID = C.BlockID b.storage.blocks[i].Block) ∧
    (∃ latest, b.storage.LatestBlock = .ok latest ∧
      latest.Header.Height + 1 = b.storage.blocks.length ∧
      b.pendingBlock.parentID = C.BlockID latest ∧ b.pendingBlock.height = latest.Header.Height + 1 ∧
      ∀ env block b', b.commitBlock C env = (.ok block, b') →
        ∃ stored, b'.storage.blocks = b.storage.blocks ++ [stored] ∧ stored.Block = block ∧
          block.Header.Height = latest.Header.Height + 1) ∧
    b.pendingBlock.index ≤ b.pendingBlock.transactions.length ∧
    ∀ (env : Environment) (call : Call), b.storage.blocks <+: (call.apply C env b).storage.blocks := by
  have hvalid := hreach.valid
  obtain ⟨latest, hlatest, hparent, hheight⟩ := hvalid.onLatest
  refine ⟨hvalid.chained.nonempty, hvalid.chained.heights, hvalid.chained.parents,
    ⟨latest, hlatest, hvalid.chained.latest_height hlatest, hparent, hheight,
      fun env block b' h => hheight ▸ commitBlock_appends h⟩,
    hvalid.cursor, fun env call => call_storage_prefix (F := fun _ => True) env (fun _ => trivial) call b⟩

/-- The sample chain, with one committed block and a transaction queued above it, is
reachable and keeps the chain invariant. -/
theorem chain_of_sampleChain :
    let C := sampleCollaborators
    let b : Blockchain := sampleChain
    Reachable C (fun _ => True) b ∧
    (b.storage.blocks ≠ [] ∧
    (∀ i (hi : i < b.storage.blocks.length), b.storage.blocks[i].Block.Header.Height = i) ∧
    (∀ i (hi : i + 1 < b.storage.blocks.length),
      b.storage.blocks[i + 1].Block.Header.ParentID = C.BlockID b.storage.blocks[i].Block) ∧
    (∃ latest, b.storage.LatestBlock = .ok latest ∧
      latest.Header.Height + 1 = b.storage.blocks.length ∧
      b.pendingBlock.parentID = C.BlockID latest ∧ b.pendingBlock.height = latest.Header.Height + 1 ∧
      ∀ env block b', b.commitBlock C env = (.ok block, b') →
        ∃ stored, b'.storage.blocks = b.storage.blocks ++ [stored] ∧ stored.Block = block ∧
          block.Header.Height = latest.Header.Height + 1) ∧
    b.pendingBlock.index ≤ b.pendingBlock.transactions.length ∧
    ∀ (env : Environment) (call : Call), b.storage.blocks <+: (call.apply C env b).storage.blocks) := by
  intro C b
  have hreach : Reachable C (fun _ => True) b := Reachable.of_sampleChain trivial
  exact ⟨hreach, Reachable.chain hreach⟩

end Blockchain

end flow_emulator.emulator
