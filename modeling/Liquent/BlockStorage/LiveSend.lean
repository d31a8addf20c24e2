import Liquent.BlockStorage.BlockTree
import Liquent.Misc.Run

/-!
# Sending blocks to execution while blocks are committed

`send_for_execution` outside recovery (`block_store.rs`) as a task among others.  It reads the
ordered root, hands a batch of blocks to the execution pipeline, waits until the batch has been
taken and then moves the ordered root.  Other tasks run while it waits: further calls of
`send_for_execution`, the commit callbacks of batches that have been handed over, and insertions
into the tree.

Every step of a task between two waits is a step here; the reads of one step see one tree.  The
numbers of blocks, which the roots do not depend on, and messages of failed calls are left out.
-/

namespace Liquent.BlockStorage

open Misc

/-- A batch handed to the execution pipeline, with the proof for its commit callback. -/
structure Batch where
  blocks : List PipelinedBlock
  proof : WrappedLedgerInfo

/-- The channel to the execution pipeline: not set up, closed at the other end, or open. -/
inductive Channel where
  | missing
  | closed
  | connected

/-- How far a call of `send_for_execution` has come. -/
inductive SendStage where
  /-- In the loop over the blocks to commit. -/
  | looping (rest : List PipelinedBlock)
  /-- A batch that ends with `block` has been handed over; `batch` is its place, if it was sent. -/
  | awaiting (block : PipelinedBlock) (proof : WrappedLedgerInfo) (batch : Option Nat)
      (rest : List PipelinedBlock)

structure Send where
  finalityProof : WrappedLedgerInfo
  stage : SendStage

structure LiveStore where
  tree : BlockTree
  /-- `BATCH_COMMIT_SIZE`; zero when it is not set. -/
  batchCommitSize : Nat := 0
  sends : Table Nat Send := []
  /-- The blocks of the tree whose insertion time is set. -/
  stamped : List HashValue := []
  /-- The batches with which `finalize_order` was called. -/
  passed : List Batch := []
  /-- The batches that have reached the execution pipeline. -/
  handed : List Batch := []
  /-- The panic that has ended the process, if there was one. -/
  panic : Option String := none

/-- What happens next. -/
inductive LiveStep where
  | start (call : Nat) (finalityProof : WrappedLedgerInfo)
  /-- One iteration of the loop. -/
  | iterate (call : Nat) (channel : Channel)
  /-- `finalize_order` has returned. -/
  | resume (call : Nat)
  /-- The commit callback of a batch, for it and blocks that were handed over earlier. -/
  | commit (batch : Nat) (earlier : List PipelinedBlock) (commitDecision : LedgerInfoWithSignatures)
  | insertBlock (block : PipelinedBlock)
  | insertQuorumCert (qc : QuorumCert)

namespace LiveStore

variable (s : LiveStore)

def fail (message : String) : LiveStore := { s with panic := some message }

/-- A block that leaves the tree takes its insertion time with it. -/
def setTree (tree : BlockTree) : LiveStore :=
  { s with tree, stamped := s.stamped.filter (tree.blockExists ·) }

/-- Runs an operation on the tree; an error goes to a caller who drops it. -/
def onTree {α : Type} (op : TreeM α) : LiveStore :=
  match op s.tree with
  | .ok _ tree => s.setTree tree
  | .error (.error _) tree => s.setTree tree
  | .error (.panic message) tree => (s.setTree tree).fail message

/-- Goes on with the result of a read. -/
def withRead {α : Type} (read : Except Failure α) (k : α → LiveStore) : LiveStore :=
  match read with
  | .ok a => k a
  | .error (.error _) => s
  | .error (.panic message) => s.fail message

def setStage (call : Nat) (finalityProof : WrappedLedgerInfo) (stage : SendStage) : LiveStore :=
  { s with sends := s.sends.put call ⟨finalityProof, stage⟩ }

/-- The blocks that a call is to send: the path to the block that the proof commits. -/
def blocksToCommit (finalityProof : WrappedLedgerInfo) : Except Failure (List PipelinedBlock) := do
  let block ← expect (s.tree.getBlock finalityProof.commitInfo.id)
    (.error "Committed block id not found")
  let orderedRoot ← s.tree.orderedRoot
  let _ ← s.tree.commitRoot
  ensure (orderedRoot.block.round < block.block.round)
    (.error "Committed block round lower than root")
  let path ← s.tree.pathFromOrderedRoot finalityProof.commitInfo.id
  pure (path.getD [])

/-- The first section of a call. -/
def start (call : Nat) (finalityProof : WrappedLedgerInfo) : LiveStore :=
  s.withRead (s.blocksToCommit finalityProof) fun blocks =>
    if blocks = [] then s
    else if 0 < s.batchCommitSize ∧ blocks.length ≤ s.batchCommitSize then s
    else s.setStage call finalityProof (.looping blocks)

variable [Crypto]

/-- The proof with which a block is sent: the finality proof for the block that it commits, for any
other the certificate of the next block, if that commits it. -/
def proofFor (finalityProof : WrappedLedgerInfo) (block : PipelinedBlock)
    (next : Option PipelinedBlock) : Option WrappedLedgerInfo :=
  if block.id = finalityProof.commitInfo.id then some finalityProof
  else
    match next.bind fun b => s.tree.idToQuorumCert.get b.id with
    | some qc => if qc.commitInfo.id = block.id then some (intoWrappedLedgerInfo qc) else none
    | none => none

/-- `set_insertion_time` (`pipelined_block.rs:274`), which asserts that it is called once for a
block. -/
def setInsertionTime (stamped : List HashValue) (block : PipelinedBlock) :
    Option (List HashValue) :=
  if block.id ∈ stamped then none else some (stamped ++ [block.id])

/-- Calls `finalize_order` with a batch and waits. -/
def handOver (call : Nat) (finalityProof : WrappedLedgerInfo) (block : PipelinedBlock)
    (proof : WrappedLedgerInfo) (path rest : List PipelinedBlock) (channel : Channel) : LiveStore :=
  let batch : Batch := ⟨path, proof⟩
  let passed := s.passed ++ [batch]
  match channel, path.foldlM setInsertionTime s.stamped with
  | .missing, _ =>
    setStage { s with passed } call finalityProof (.awaiting block proof none rest)
  | _, none =>
    fail { s with passed }
      "assertion failed: self.pipeline_insertion_time.set(Instant::now()).is_ok()"
  | .closed, some stamped =>
    setStage { s with passed, stamped } call finalityProof (.awaiting block proof none rest)
  | .connected, some stamped =>
    setStage { s with passed, stamped, handed := s.handed ++ [batch] } call finalityProof
      (.awaiting block proof (some s.handed.length) rest)

/-- One iteration of the loop, up to the wait. -/
def iterate (call : Nat) (finalityProof : WrappedLedgerInfo) (channel : Channel) :
    List PipelinedBlock → LiveStore
  | [] => { s with sends := s.sends.retain (· ≠ call) }
  | block :: rest =>
    match s.proofFor finalityProof block rest.head? with
    -- the block goes with the next one that has a proof
    | none => s.setStage call finalityProof (.looping rest)
    | some proof =>
      s.withRead (s.tree.pathFromOrderedRoot block.id) fun path =>
        match path.getD [] with
        | [] => s.setStage call finalityProof (.looping rest)
        | first :: others =>
          s.handOver call finalityProof block proof (first :: others) rest channel

/-- The rest of an iteration, after the wait. -/
def resume (call : Nat) (finalityProof : WrappedLedgerInfo) (block : PipelinedBlock)
    (proof : WrappedLedgerInfo) (rest : List PipelinedBlock) : LiveStore :=
  (s.onTree do
    BlockTree.updateOrderedRoot block.id
    modify (·.insertOrderedCert proof)).setStage call finalityProof (.looping rest)

variable [LedgerApi]

/-- The commit callback of a batch. -/
def commit (batch : Batch) (earlier : List PipelinedBlock)
    (commitDecision : LedgerInfoWithSignatures) : LiveStore :=
  s.onTree (BlockTree.commitCallback (earlier ++ batch.blocks) batch.proof commitDecision)

/-- One step; after a panic there is none. -/
def step (genesisBlockId : HashValue) (s : LiveStore) (input : LiveStep) : Unit × LiveStore :=
  ((), if s.panic.isSome then s else
    match input with
    | .start call finalityProof =>
      if (s.sends.get call).isSome then s else s.start call finalityProof
    | .iterate call channel =>
      match s.sends.get call with
      | some ⟨finalityProof, .looping rest⟩ => s.iterate call finalityProof channel rest
      | _ => s
    | .resume call =>
      match s.sends.get call with
      | some ⟨finalityProof, .awaiting block proof _ rest⟩ =>
        s.resume call finalityProof block proof rest
      | _ => s
    | .commit batch earlier commitDecision =>
      match s.handed[batch]? with
      | some batch => s.commit batch earlier commitDecision
      | none => s
    | .insertBlock block => s.onTree (BlockTree.insertBlock genesisBlockId block)
    | .insertQuorumCert qc => s.onTree (BlockTree.insertQuorumCert qc))

end LiveStore

/-- `vote_back_pressure` (`block_store.rs:1180`), with the gap between the roots that is reported.
-/
def voteBackPressure (tree : BlockTree) (limit : Nat) : Except Failure Bool := do
  let commitRoot ← tree.commitRoot
  let orderedRoot ← tree.orderedRoot
  ensure (commitRoot.block.round ≤ orderedRoot.block.round)
    (.panic "attempt to subtract with overflow")
  ensure (limit + commitRoot.block.round ≤ u64Max) (.panic "attempt to add with overflow")
  pure (limit + commitRoot.block.round < orderedRoot.block.round)

/-! ## What a step does -/

namespace LiveStore

variable {s : LiveStore} {call : Nat} {finalityProof : WrappedLedgerInfo}

variable [Crypto] {block : PipelinedBlock}

theorem proofFor_commits {next : Option PipelinedBlock}
    {proof : WrappedLedgerInfo} (h : s.proofFor finalityProof block next = some proof) :
    proof.commitInfo.id = block.id := by
  unfold proofFor at h
  split_ifs at h with hfinal
  · obtain rfl := Option.some.inj h
    exact hfinal.symm
  · split at h
    · split_ifs at h with hqc
      obtain rfl := Option.some.inj h
      exact hqc
    · cases h

theorem resume_of_exists (h : s.tree.blockExists block.id = true)
    (proof : WrappedLedgerInfo) (rest : List PipelinedBlock) :
    s.resume call finalityProof block proof rest =
      (s.setTree ({ s.tree with orderedRootId := block.id }.insertOrderedCert proof)).setStage call
        finalityProof (.looping rest) := by
  have hmove : BlockTree.updateOrderedRoot block.id s.tree =
      .ok ⟨⟩ { s.tree with orderedRootId := block.id } := by
    unfold BlockTree.updateOrderedRoot
    rw [bind_of_ok (get_eq_ok _), ensure, if_pos h]
    rfl
  unfold resume onTree
  rw [bind_of_ok hmove, modify_eq_ok]

theorem resume_of_missing (h : s.tree.blockExists block.id ≠ true)
    (proof : WrappedLedgerInfo) (rest : List PipelinedBlock) :
    s.resume call finalityProof block proof rest =
      setStage ((s.setTree s.tree).fail "assertion failed: self.block_exists(&root_id)") call
        finalityProof (.looping rest) := by
  have hmove : BlockTree.updateOrderedRoot block.id s.tree =
      .error (.panic "assertion failed: self.block_exists(&root_id)") s.tree := by
    unfold BlockTree.updateOrderedRoot
    rw [bind_of_ok (get_eq_ok _)]
    exact bind_error_of (check_error_iff.mpr ⟨ensure_error_iff.mpr ⟨h, rfl⟩, rfl⟩)
  unfold resume onTree
  rw [bind_error_of hmove]

end LiveStore

/-! ## Calls one at a time -/

namespace LiveStore

variable {s : LiveStore} {call : Nat} {finalityProof : WrappedLedgerInfo}

/-- One call at most is under way. -/
def Serial (s : LiveStore) : Prop :=
  ∀ call call', s.sends.get call ≠ none → s.sends.get call' ≠ none → call = call'

/-- No other call is under way. -/
def Alone (s : LiveStore) (call : Nat) : Prop := ∀ call', call' ≠ call → s.sends.get call' = none

theorem Serial.alone (h : s.Serial) (hcall : s.sends.get call ≠ none) : s.Alone call := by
  intro call' hne
  by_contra hget
  exact hne (h call' call hget hcall)

theorem Alone.setStage (h : s.Alone call) (stage : SendStage) :
    (s.setStage call finalityProof stage).Serial := by
  have hnone : ∀ c, (s.setStage call finalityProof stage).sends.get c ≠ none → c = call := by
    intro c hc
    by_contra hne
    exact hc ((Table.get_put_of_ne hne).trans (h c hne))
  intro c c' hc hc'
  rw [hnone c hc, hnone c' hc']

variable [Crypto]

/-- A call waits for a batch that ends with a block. -/
def Awaits (s : LiveStore) (call : Nat) (blockId : HashValue) (batch : Option Nat) : Prop :=
  ∃ finalityProof block proof rest, block.id = blockId ∧
    s.sends.get call = some ⟨finalityProof, .awaiting block proof batch rest⟩

/-- No other call is under way, and none waits. -/
structure Quiet (s : LiveStore) (call : Nat) : Prop where
  alone : s.Alone call
  none : ∀ call' blockId batch, ¬ s.Awaits call' blockId batch

theorem quiet_of_none (h : ∀ c, s.sends.get c = none) (call : Nat) : s.Quiet call := by
  refine ⟨fun c _ => h c, ?_⟩
  rintro c blockId batch ⟨_, _, _, _, -, hget⟩
  simp [h c] at hget

theorem Serial.quiet (h : s.Serial) {rest : List PipelinedBlock}
    (hcall : s.sends.get call = some ⟨finalityProof, .looping rest⟩) : s.Quiet call := by
  refine ⟨h.alone (by simp [hcall]), ?_⟩
  rintro call' blockId batch ⟨_, _, _, _, -, hget⟩
  have heq := h call call' (by simp [hcall]) (by simp [hget])
  simp [heq, hget] at hcall

theorem Alone.awaits_setStage (h : s.Alone call) {stage : SendStage} {call' : Nat}
    {blockId : HashValue}
    {batch : Option Nat}
    (hawaits : (s.setStage call finalityProof stage).Awaits call' blockId batch) :
    call' = call ∧ ∃ block proof rest, block.id = blockId ∧
      stage = .awaiting block proof batch rest := by
  obtain ⟨fp, block, proof, rest, hid, hget⟩ := hawaits
  by_cases hne : call' = call
  · subst hne
    cases Table.get_put_self.symm.trans hget
    exact ⟨rfl, block, proof, rest, hid, rfl⟩
  · cases ((Table.get_put_of_ne hne).symm.trans hget).symm.trans (h call' hne)

theorem Serial.remove (h : s.Serial) (call : Nat) :
    Serial { s with sends := s.sends.retain (· ≠ call) } ∧ ∀ call' blockId batch,
      Awaits { s with sends := s.sends.retain (· ≠ call) } call' blockId batch →
        s.Awaits call' blockId batch := by
  have hget : ∀ c send, (s.sends.retain (· ≠ call)).get c = some send → s.sends.get c = some send :=
    fun _ _ => Table.of_get_retain
  constructor
  · intro c c' hc hc'
    obtain ⟨send, hsend⟩ := Option.ne_none_iff_exists'.mp hc
    obtain ⟨send', hsend'⟩ := Option.ne_none_iff_exists'.mp hc'
    exact h c c' (by simp [hget c send hsend]) (by simp [hget c' send' hsend'])
  · rintro c blockId batch ⟨fp, block, proof, rest, hid, hc⟩
    exact ⟨fp, block, proof, rest, hid, hget c _ hc⟩

variable [LedgerApi] {genesisBlockId : HashValue} {input : LiveStep}

/-- What a step changes while calls are made one at a time. -/
inductive Effect (genesisBlockId : HashValue) (s : LiveStore) : LiveStep → LiveStore → Prop
  | fail {i} (message : String) (sends : Table Nat Send) (stamped : List HashValue) :
      Effect genesisBlockId s i { s with panic := some message, sends, stamped }
  | loop {i c fp rest} (quiet : s.Quiet c) :
      Effect genesisBlockId s i (s.setStage c fp (.looping rest))
  | finish {c channel} (quiet : s.Quiet c) :
      Effect genesisBlockId s (.iterate c channel) { s with sends := s.sends.retain (· ≠ c) }
  | refuse {c channel proof path} {block : PipelinedBlock} (quiet : s.Quiet c)
      (hpath : s.tree.pathFromOrderedRoot block.id = .ok (some path)) (hne : path ≠ [])
      (commits : proof.commitInfo.id = block.id) (message : String) :
      Effect genesisBlockId s (.iterate c channel)
        (fail { s with passed := s.passed ++ [⟨path, proof⟩] } message)
  | handOver {c channel fp block proof path rest place handed} (quiet : s.Quiet c)
      (hpath : s.tree.pathFromOrderedRoot block.id = .ok (some path)) (hne : path ≠ [])
      (commits : proof.commitInfo.id = block.id) (stamped : List HashValue)
      (hhanded : ∀ k batch, handed[k]? = some batch →
        s.handed[k]? = some batch ∨ place = some k ∧ batch = ⟨path, proof⟩) :
      Effect genesisBlockId s (.iterate c channel)
        (setStage { s with passed := s.passed ++ [⟨path, proof⟩], stamped, handed } c fp
          (.awaiting block proof place rest))
  | resume {c fp block proof batch rest}
      (awaits : s.sends.get c = some ⟨fp, .awaiting block proof batch rest⟩)
      (hexists : s.tree.blockExists block.id = true) : Effect genesisBlockId s (.resume c)
        ((s.setTree ({ s.tree with orderedRootId := block.id }.insertOrderedCert proof)).setStage
          c fp (.looping rest))
  | commit {k batch} (earlier decision) (handed : s.handed[k]? = some batch) :
      Effect genesisBlockId s (.commit k earlier decision) (s.commit batch earlier decision)
  | insertBlock (block) : Effect genesisBlockId s (.insertBlock block)
      (s.onTree (BlockTree.insertBlock genesisBlockId block))
  | insertQuorumCert (qc) : Effect genesisBlockId s (.insertQuorumCert qc)
      (s.onTree (BlockTree.insertQuorumCert qc))

theorem handOver_effect {proof : WrappedLedgerInfo} {path : List PipelinedBlock}
    (hquiet : s.Quiet call) (hpath : s.tree.pathFromOrderedRoot block.id = .ok (some path))
    (hne : path ≠ []) (hcommits : proof.commitInfo.id = block.id) (rest : List PipelinedBlock)
    (channel : Channel) : s.Effect genesisBlockId (.iterate call channel)
      (s.handOver call finalityProof block proof path rest channel) := by
  unfold handOver
  dsimp only
  split
  · exact .handOver hquiet hpath hne hcommits _ fun _ _ => .inl
  · exact .refuse hquiet hpath hne hcommits _
  · exact .handOver hquiet hpath hne hcommits _ fun _ _ => .inl
  · refine .handOver hquiet hpath hne hcommits _ ?_
    intro k batch hbatch
    rcases Nat.lt_or_ge k s.handed.length with hk | hk
    · rw [List.getElem?_append_left hk] at hbatch
      exact .inl hbatch
    · rw [List.getElem?_append_right hk, List.getElem?_singleton] at hbatch
      split_ifs at hbatch with hzero
      obtain rfl : k = s.handed.length := by omega
      exact .inr ⟨rfl, (Option.some.inj hbatch).symm⟩

theorem iterate_effect (hquiet : s.Quiet call) (channel : Channel) (blocks : List PipelinedBlock) :
    s.iterate call finalityProof channel blocks = s ∨ s.Effect genesisBlockId
      (.iterate call channel) (s.iterate call finalityProof channel blocks) := by
  cases blocks with
  | nil => exact .inr (.finish hquiet)
  | cons block rest =>
    simp only [iterate]
    cases hproof : s.proofFor finalityProof block rest.head? with
    | none => exact .inr (.loop hquiet)
    | some proof =>
      simp only [withRead]
      split
      · rename_i path hpath
        cases path with
        | none => exact .inr (.loop hquiet)
        | some path =>
          cases path with
          | nil => exact .inr (.loop hquiet)
          | cons first others =>
            exact .inr (handOver_effect hquiet hpath (List.cons_ne_nil _ _)
              (proofFor_commits hproof) rest channel)
      · exact .inl rfl
      · exact .inr (.fail _ _ _)

theorem step_effect (hserial : s.panic = none → s.Serial)
    (hstart : ∀ call finalityProof, input = .start call finalityProof → ∀ c, s.sends.get c = none) :
    (step genesisBlockId s input).2 = s ∨
      s.panic = none ∧ s.Effect genesisBlockId input (step genesisBlockId s input).2 := by
  unfold step
  dsimp only
  split
  · exact .inl rfl
  · rename_i hlive
    have hpanic : s.panic = none := by simpa using hlive
    rw [and_iff_right hpanic]
    cases input with
    | start call finalityProof =>
      dsimp only
      split
      · exact .inl rfl
      · simp only [start, withRead]
        split
        · split_ifs
          · exact .inl rfl
          · exact .inl rfl
          · exact .inr (.loop (quiet_of_none (hstart _ _ rfl) call))
        · exact .inl rfl
        · exact .inr (.fail _ _ _)
    | iterate call channel =>
      dsimp only
      split
      · rename_i hcall
        exact iterate_effect ((hserial hpanic).quiet hcall) _ _
      · exact .inl rfl
    | resume call =>
      dsimp only
      split
      · rename_i block proof batch rest hcall
        right
        by_cases hexists : s.tree.blockExists block.id = true
        · rw [resume_of_exists hexists]
          exact .resume hcall hexists
        · rw [resume_of_missing hexists]
          exact .fail _ _ _
      · exact .inl rfl
    | commit k earlier commitDecision =>
      dsimp only
      split
      · rename_i hbatch
        exact .inr (.commit _ _ hbatch)
      · exact .inl rfl
    | insertBlock block => exact .inr (.insertBlock block)
    | insertQuorumCert qc => exact .inr (.insertQuorumCert qc)

end LiveStore

end Liquent.BlockStorage
