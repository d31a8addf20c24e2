import Liquent.BlockStorage.BlockStore

/-!
# Recovery

How a node replays blocks that it has stored or fetched (`block_store.rs`, cited by line):
`recover_blocks` numbers the blocks on the path to each committing certificate and hands them to the
executor, and `rebuild` makes a new tree from the database.
-/

namespace Liquent

open Misc

namespace BlockStore

/-! ## Answers of the environment -/

/-- Whether the executor does what it is asked next. -/
def pipelineAnswers : Sync Bool := do
  let s ← get
  modify fun s => { s with env := { s.env with progress := s.env.progress.tail } }
  pure (s.env.progress.headD false)

/-- `BlockTree::commit_callback`: the commit root moves up, and some blocks leave memory. -/
def commitCallback (committedRound : Nat) (proof : LedgerInfoWithSignatures) : Sync Unit := do
  let s ← get
  let root ← check (rootBlock s s.tree.commitRootId)
  if committedRound ≤ root.block.round then pure ()
  else
    modify fun s =>
      { s with
        env := { s.env with pruned := s.env.pruned.tail }
        tree := (s.tree.without (s.env.pruned.headD [])).updateHighestCommitCert proof }

/-- The randomness that `commit_ledger` (`liquent_state_computer.rs:161`) persists: that of numbered
blocks, up to the end of the epoch if the proof names it. -/
def randomnessToPersist (proof : LedgerInfoWithSignatures) (blocks : List PipelinedBlock) :
    List (Nat × List UInt8) :=
  let randomnessData := blocks.filterMap fun p =>
    p.randomness.bind fun r => p.block.blockNumber.map fun number => (number, r.randomness)
  match proof.ledgerInfo.commitInfo.epochBlockInfo with
  | some info => randomnessData.filter (·.1 ≤ info.blockNumber)
  | none => randomnessData

/-- What a commit writes: the randomness of the blocks, then the tree. -/
def commitBlocks (blocks : List PipelinedBlock) (proof : LedgerInfoWithSignatures) : Sync Unit :=
  match blocks.getLast? with
  | none => pure ()
  | some last => do
    modify (·.withDb (·.putRandomness (randomnessToPersist proof blocks)))
    commitCallback last.block.round proof

/-- A commit by the pipeline. -/
def commit (c : Commit) : Sync Unit := do
  let s ← get
  commitBlocks (c.indices.filterMap (s.pipeline[·]?)) c.proof

/-- A wait, during which the pipeline may commit. -/
def await : Sync Unit := do
  let s ← get
  modify fun s => { s with env := { s.env with commits := s.env.commits.tail } }
  (s.env.commits.headD []).forM fun c => orSkip (commit c)

/-- `path_from_root_to_block`, oldest block first. A path visits a block once, so the number of
blocks bounds the loop. -/
def pathFromRoot (s : NodeState) (rootId : HashValue) (rootRound : Nat) :
    Nat → HashValue → List BlockRef → Option (List BlockRef)
  | 0, _, _ => none
  | fuel + 1, id, path =>
    match s.tree.blocks.get id with
    | none => none
    | some ref =>
      match s.heap[ref]? with
      | none => none
      | some p =>
        if p.block.round ≤ rootRound then (if id = rootId then some path else none)
        else pathFromRoot s rootId rootRound fuel p.block.parentId (ref :: path)

/-! ## Numbering and execution -/

/-- The number of a block's parent, in memory or else in the database. -/
def parentNumber (s : NodeState) (block : Block) : Except String Nat :=
  match (s.getBlock block.parentId).map (·.block) <|> s.db.getBlock block.epoch block.parentId with
  | none => .error s!"Cannot find the parent_block id {block.parentId}"
  | some parent =>
    match parent.blockNumber with
    | some number => .ok number
    | none => .error "called `Option::unwrap()` on a `None` value"

def blockAt (s : NodeState) (ref : BlockRef) : Except String PipelinedBlock :=
  match s.heap[ref]? with
  | some p => .ok p
  | none => .error "Root must exist"

/-- Runs a check whose failure is a panic: no caller recovers from it, so the state records it. -/
def orPanic {α : Type} (r : Except String α) : Sync α :=
  match r with
  | .ok a => pure a
  | .error e => do
    modify fun s => { s with panic := some e }
    throw e

variable [Crypto]

/-- One iteration of `init_block_number`: the number given to a block that had none. -/
def numberBlock (ref : BlockRef) : Sync (List (Nat × Nat × HashValue)) := do
  let s ← get
  let p ← check (blockAt s ref)
  let parent ← orPanic (parentNumber s p.block)
  match p.block.blockNumber with
  | some number =>
    orPanic (ensure (number = parent + 1) "assertion failed: block number")
    pure []
  | none =>
    modify (·.updateBlock ref fun p => { p with block := p.block.setBlockNumber (parent + 1) })
    pure [(p.block.epoch, parent + 1, p.id)]

def numberBlocks : List BlockRef → Sync (List (Nat × Nat × HashValue))
  | [] => pure []
  | ref :: rest => do
    let first ← numberBlock ref
    let others ← numberBlocks rest
    pure (first ++ others)

/-- `init_block_number` (505). -/
def initBlockNumber (path : List BlockRef) : Sync Unit := do
  let numbers ← numberBlocks path
  modify (·.withDb (·.saveTree [] [] numbers))

/-- The randomness with which a block is replayed: its own, or else the one in the database. -/
def recoveryRandomness (cfg : NodeConfig) (ref : BlockRef) (number : Nat) :
    Sync (Option (List UInt8)) := do
  let s ← get
  let p ← check (blockAt s ref)
  if cfg.requireBlockRandomness = true ∧ p.block.epoch ≠ 1 then
    modify (·.updateBlock ref (trySetRandomnessFromDb cfg s.db p.block))
    match (trySetRandomnessFromDb cfg s.db p.block p).randomness with
    | some r => pure (some r.randomness)
    | none =>
      let id := p.id
      throw s!"Randomness is required but not found in block {id}, block_number={number}"
  else pure none

/-- The body of the loop of `send_for_execution` in recovery. -/
def replayBlock (cfg : NodeConfig) (ref : BlockRef) : Sync Unit := do
  let s ← get
  let p ← check (blockAt s ref)
  let id := p.id
  let blockNumber ← check (match p.block.blockNumber with
    | some number => .ok number
    | none => .error s!"Block number not found for block {id}")
  let randomness ← recoveryRandomness cfg ref blockNumber
  modify fun s => { s with executed := s.executed ++
    [{ block := p.block, blockNumber, randomness }] }
  let ok ← pipelineAnswers
  check (ensure (ok = true) s!"Failed to get executed result for block {id} during recovery")

/-- The blocks of a path that recovery may execute: none beyond the block that ends the epoch. -/
def withinLimit (s : NodeState) (limit : Option Nat) (path : List BlockRef) : List BlockRef :=
  path.filter fun ref =>
    match limit, (s.heap[ref]?).bind (·.block.blockNumber) with
    | some limit, some number => number ≤ limit
    | _, _ => true

/-- The end of `send_for_execution` in recovery: the replay of the blocks, then the new roots. -/
def replayPath (cfg : NodeConfig) (proof : LedgerInfoWithSignatures) (path : List BlockRef) :
    Sync Unit := do
  let s ← get
  let last ← check (match path.getLast?.bind (s.heap[·]?) with
    | some p => .ok p
    | none => .error "Block number not found for last recovery block")
  let number ← check (match last.block.blockNumber with
    | some number => .ok number
    | none => .error "Block number not found for last recovery block")
  if (s.db.ledgerInfos.get number).isNone then pure ()
  else
    path.forM (replayBlock cfg)
    commitCallback last.block.round proof
    let id := proof.ledgerInfo.commitInfo.id
    let s ← get
    check (ensure (s.blockExists id = true) "assertion failed: self.block_exists(&root_id)")
    modify fun s => { s with tree := { s.tree with orderedRootId := id } }

/-- `send_for_execution` (536) in recovery. -/
def sendForExecution (cfg : NodeConfig) (proof : LedgerInfoWithSignatures) (limit : Option Nat) :
    Sync Unit := do
  let s ← get
  let id := proof.ledgerInfo.commitInfo.id
  let block ← check (match s.getBlock id with
    | some block => .ok block
    | none => .error "Committed block id not found")
  let root ← check (rootBlock s s.tree.orderedRootId)
  let round := block.block.round
  let rootRound := root.block.round
  check (ensure (rootRound < round) (s!"Committed block round lower than root: " ++
    s!"block_to_commit_round={round}, ordered_root_round={rootRound}"))
  let path := (pathFromRoot s s.tree.orderedRootId root.block.round (s.tree.blocks.length + 1)
    id []).getD []
  if path = [] then pure ()
  else
    initBlockNumber path
    let s ← get
    let path := withinLimit s limit path
    if path = [] then pure () else replayPath cfg proof path

/-- The body of the loop of `recover_blocks_checked` over the certificates. -/
def recoverCert (cfg : NodeConfig) (latest : Option LedgerInfoWithSignatures) (qc : QuorumCert) :
    Sync Unit := do
  let s ← get
  let root ← check (rootBlock s s.tree.commitRootId)
  match latest with
  | none => pure ()
  | some li =>
    let committed := li.ledgerInfo.commitInfo
    if root.block.round < qc.commitInfo.round ∧ committed.epoch = qc.commitInfo.epoch ∧
        qc.commitInfo.round ≤ committed.round then
      sendForExecution cfg qc.ledgerInfo (committed.epochBlockInfo.map (·.blockNumber))
    else pure ()

/-- `recover_blocks_checked` (253). Certificates that commit the same round come in the order of the
table. -/
def recoverBlocksChecked (cfg : NodeConfig) : Sync Unit := do
  let s ← get
  let certs := (s.tree.quorumCerts.map (·.2)).filter fun qc => qc.commitInfo ≠ BlockInfo.empty
  (certs.insertionSort fun a b => a.commitInfo.round ≤ b.commitInfo.round).forM
    (recoverCert cfg s.db.latestLedgerInfo)

/-! ## Blocks from a sync and from storage -/

variable [LedgerApi]

/-- `append_blocks_for_sync` (863). -/
def appendBlocksForSync (cfg : NodeConfig) (blocks : List RetrievedBlock)
    (quorumCerts : List QuorumCert) : Sync Unit := do
  blocks.forM fun b => orSkip (insertBlock cfg b.numbered true)
  quorumCerts.forM fun qc => orSkip (insertSingleQuorumCert qc true)
  orSkip (recoverBlocksChecked cfg)

/-- `append_blocks_for_sync_checked` (886). -/
def appendBlocksForSyncChecked (cfg : NodeConfig) (blocks : List RetrievedBlock)
    (quorumCerts : List QuorumCert) : Sync Unit := do
  blocks.forM fun b => do
    let _ ← insertBlock cfg b.numbered true
  quorumCerts.forM fun qc => insertSingleQuorumCert qc true
  recoverBlocksChecked cfg

/-- `storage.start`: the root and what `get_data` returns (`persistent_liveness_storage.rs:65`). The
root is a stored block with its certificate, or the genesis block of a ledger info at the end of an
epoch. -/
def start (epoch : Nat) : Sync (RootInfo × List Block × List QuorumCert) := do
  let s ← get
  modify fun s => { s with env := { s.env with roots := s.env.roots.tail } }
  match s.env.roots.head? with
  | none => throw "unable to find root"
  | some (root, latest) =>
    let data ← check (s.db.getData latest epoch)
    check (ensure ((root.block ∈ data.1 ∧ root.quorumCert ∈ data.2) ∨
      root.block.isGenesisBlock = true) "unable to find root")
    pure (root, data)

/-- `BlockTree::new`. -/
def plantRoot (root : RootInfo) : Sync Unit := do
  check (ensure (root.block.id = root.orderedCert.ledgerInfo.commitInfo.id)
    "inconsistent root and ledger info")
  modify fun s => { s with
    heap := s.heap ++ [{ PipelinedBlock.newOrdered root.block with
      stateComputeResult := { rootHash := root.block.id, epochState := none } }]
    tree := {
      blocks := [(root.block.id, s.heap.length)]
      quorumCerts := [(root.quorumCert.certifiedBlock.id, root.quorumCert)]
      orderedRootId := root.block.id
      commitRootId := root.block.id
      highestCommitCert := root.commitCert } }

/-- `rebuild` (905). -/
def rebuild (cfg : NodeConfig) (root : RootInfo) (blocks : List Block)
    (quorumCerts : List QuorumCert) : Sync Unit := do
  plantRoot root
  ((blocks.insertionSort fun a b => a.round ≤ b.round).filter fun b =>
    root.block.round < b.round ∨ b.id = root.block.id).forM fun b => orSkip (insertBlock cfg b true)
  (quorumCerts.filter fun qc => root.block.round ≤ qc.certifiedBlock.round).forM fun qc =>
    orSkip (insertSingleQuorumCert qc true)
  orSkip (recoverBlocksChecked cfg)

/-! ## What recovery leaves alone -/

/-- The two states have stored the same ledger infos and certificates, and have the same peers to
ask. -/
structure SameCerts (s s' : NodeState) : Prop where
  ledgerInfos : s'.db.ledgerInfos = s.db.ledgerInfos
  latest : s'.db.latestLedgerInfo = s.db.latestLedgerInfo
  quorumCerts : s'.db.quorumCerts = s.db.quorumCerts
  retrieval : s'.env.retrieval = s.env.retrieval
  forward : s'.env.forward = s.env.forward

instance : IsPreorder NodeState SameCerts where
  refl _ := ⟨rfl, rfl, rfl, rfl, rfl⟩
  trans _ _ _ h h' :=
    ⟨h'.ledgerInfos.trans h.ledgerInfos, h'.latest.trans h.latest,
      h'.quorumCerts.trans h.quorumCerts, h'.retrieval.trans h.retrieval,
      h'.forward.trans h.forward⟩

section

omit [Crypto] [LedgerApi]

theorem updateBlock_sameCerts (ref : BlockRef) (f : PipelinedBlock → PipelinedBlock) :
    Moves SameCerts (modify (·.updateBlock ref f) : Sync Unit) :=
  moves_modify fun _ => ⟨rfl, rfl, rfl, rfl, rfl⟩

theorem pipelineAnswers_sameCerts : Moves SameCerts pipelineAnswers :=
  moves_get.bind fun _ => (moves_modify fun _ => ⟨rfl, rfl, rfl, rfl, rfl⟩).bind fun _ =>
    moves_pure _

theorem commitCallback_sameCerts (round : Nat) (proof : LedgerInfoWithSignatures) :
    Moves SameCerts (commitCallback round proof) := by
  refine moves_get.bind fun s => (moves_check _).bind fun root => ?_
  split
  · exact moves_pure _
  · exact moves_modify fun _ => ⟨rfl, rfl, rfl, rfl, rfl⟩

theorem commitBlocks_sameCerts (blocks : List PipelinedBlock) (proof : LedgerInfoWithSignatures) :
    Moves SameCerts (commitBlocks blocks proof) := by
  unfold commitBlocks
  cases blocks.getLast? with
  | none => exact moves_pure _
  | some last =>
    refine (moves_modify fun _ => ⟨rfl, rfl, rfl, rfl, rfl⟩).bind fun _ => ?_
    exact commitCallback_sameCerts _ proof

theorem await_sameCerts : Moves SameCerts await := by
  refine moves_get.bind fun s => (moves_modify fun _ => ⟨rfl, rfl, rfl, rfl, rfl⟩).bind fun _ => ?_
  exact moves_forM fun c => moves_orSkip (moves_get.bind fun _ => commitBlocks_sameCerts _ _)

theorem orPanic_sameCerts {α : Type} (r : Except String α) : Moves SameCerts (orPanic r) := by
  cases r with
  | ok a => exact moves_pure a
  | error e => exact (moves_modify fun _ => ⟨rfl, rfl, rfl, rfl, rfl⟩).bind fun _ => moves_throw e

end

section

omit [LedgerApi]

theorem numberBlock_sameCerts (ref : BlockRef) : Moves SameCerts (numberBlock ref) := by
  refine moves_get.bind fun s => (moves_check _).bind fun p =>
    (orPanic_sameCerts _).bind fun parent => ?_
  cases p.block.blockNumber with
  | some number => exact (orPanic_sameCerts _).bind fun _ => moves_pure _
  | none => exact (updateBlock_sameCerts ref _).bind fun _ => moves_pure _

theorem numberBlocks_sameCerts (path : List BlockRef) : Moves SameCerts (numberBlocks path) := by
  induction path with
  | nil => exact moves_pure _
  | cons ref rest ih =>
    exact (numberBlock_sameCerts ref).bind fun _ => ih.bind fun _ => moves_pure _

theorem initBlockNumber_sameCerts (path : List BlockRef) : Moves SameCerts (initBlockNumber path) :=
  (numberBlocks_sameCerts path).bind fun _ => moves_modify fun _ => ⟨rfl, rfl, rfl, rfl, rfl⟩

end

section

variable (cfg : NodeConfig)

include cfg

omit [LedgerApi]

theorem recoveryRandomness_sameCerts (ref : BlockRef) (number : Nat) :
    Moves SameCerts (recoveryRandomness cfg ref number) := by
  refine moves_get.bind fun s => (moves_check _).bind fun p => ?_
  split
  · refine (updateBlock_sameCerts ref _).bind fun _ => ?_
    split
    · exact moves_pure _
    · exact moves_throw _
  · exact moves_pure _

theorem replayBlock_sameCerts (ref : BlockRef) : Moves SameCerts (replayBlock cfg ref) := by
  refine moves_get.bind fun s => (moves_check _).bind fun p => (moves_check _).bind fun number => ?_
  refine (recoveryRandomness_sameCerts cfg ref _).bind fun _ => ?_
  refine (moves_modify fun _ => ⟨rfl, rfl, rfl, rfl, rfl⟩).bind fun _ => ?_
  exact pipelineAnswers_sameCerts.bind fun _ => moves_check _

theorem replayPath_sameCerts (proof : LedgerInfoWithSignatures)
    (path : List BlockRef) : Moves SameCerts (replayPath cfg proof path) := by
  refine moves_get.bind fun s => (moves_check _).bind fun last => (moves_check _).bind fun n => ?_
  split
  · exact moves_pure _
  · refine (moves_forM fun ref => replayBlock_sameCerts cfg ref).bind fun _ => ?_
    refine (commitCallback_sameCerts _ proof).bind fun _ => moves_get.bind fun _ => ?_
    exact (moves_check _).bind fun _ => moves_modify fun _ => ⟨rfl, rfl, rfl, rfl, rfl⟩

theorem sendForExecution_sameCerts (proof : LedgerInfoWithSignatures)
    (limit : Option Nat) : Moves SameCerts (sendForExecution cfg proof limit) := by
  refine moves_get.bind fun s => (moves_check _).bind fun block =>
    (moves_check _).bind fun root => ?_
  refine (moves_check _).bind fun _ => ?_
  dsimp only
  split
  · exact moves_pure _
  · refine (initBlockNumber_sameCerts _).bind fun _ => moves_get.bind fun _ => ?_
    split
    · exact moves_pure _
    · exact replayPath_sameCerts cfg proof _

theorem recoverBlocksChecked_sameCerts : Moves SameCerts (recoverBlocksChecked cfg) := by
  refine moves_get.bind fun s => moves_forM fun qc => ?_
  refine moves_get.bind fun _ => (moves_check _).bind fun root => ?_
  cases s.db.latestLedgerInfo with
  | none => exact moves_pure _
  | some li =>
    dsimp only
    split
    · exact sendForExecution_sameCerts cfg _ _
    · exact moves_pure _

theorem insertIntoTree_sameCerts (p : PipelinedBlock) : Moves SameCerts (insertIntoTree cfg p) :=
  moves_get.bind fun _ => (moves_check _).bind fun _ =>
    (moves_modify fun _ => ⟨rfl, rfl, rfl, rfl, rfl⟩).bind fun _ => moves_pure _

/-- Inserting a block stores the block, but no certificate. -/
theorem insertBlock_sameCerts (block : Block) (rebuild : Bool) :
    Moves SameCerts (insertBlock cfg block rebuild) := by
  refine moves_get.bind fun s => ?_
  cases s.tree.blocks.get block.id with
  | some ref => exact (updateBlock_sameCerts ref _).bind fun _ => moves_pure _
  | none =>
    cases rebuild with
    | true => exact insertIntoTree_sameCerts cfg _
    | false =>
      refine (moves_check _).bind fun root => (moves_check _).bind fun _ => ?_
      refine (moves_modify fun _ => ⟨rfl, rfl, rfl, rfl, rfl⟩).bind fun _ => ?_
      exact insertIntoTree_sameCerts cfg _

end

theorem insertSingleQuorumCert_sameCerts (qc : QuorumCert) :
    Moves SameCerts (insertSingleQuorumCert qc true) :=
  moves_get.bind fun _ => (moves_check _).bind fun _ => (moves_check _).bind fun _ =>
    (moves_pure ()).bind fun _ => moves_modify fun _ => ⟨rfl, rfl, rfl, rfl, rfl⟩

theorem appendBlocksForSync_sameCerts (cfg : NodeConfig) (blocks : List RetrievedBlock)
    (quorumCerts : List QuorumCert) :
    Moves SameCerts (appendBlocksForSync cfg blocks quorumCerts) := by
  refine (moves_forM fun b => moves_orSkip (insertBlock_sameCerts cfg _ true)).bind fun _ => ?_
  refine (moves_forM fun qc => moves_orSkip (insertSingleQuorumCert_sameCerts qc)).bind fun _ => ?_
  exact moves_orSkip (recoverBlocksChecked_sameCerts cfg)

theorem appendBlocksForSyncChecked_sameCerts (cfg : NodeConfig) (blocks : List RetrievedBlock)
    (quorumCerts : List QuorumCert) :
    Moves SameCerts (appendBlocksForSyncChecked cfg blocks quorumCerts) := by
  refine (moves_forM fun b => (insertBlock_sameCerts cfg _ true).bind fun _ =>
    moves_pure _).bind fun _ => ?_
  refine (moves_forM fun qc => insertSingleQuorumCert_sameCerts qc).bind fun _ => ?_
  exact recoverBlocksChecked_sameCerts cfg

omit [LedgerApi] in
theorem start_sameCerts (epoch : Nat) : Moves SameCerts (start epoch) := by
  refine moves_get.bind fun s => (moves_modify fun _ => ⟨rfl, rfl, rfl, rfl, rfl⟩).bind fun _ => ?_
  cases s.env.roots.head? with
  | none => exact moves_throw _
  | some root =>
    exact (moves_check _).bind fun _ => (moves_check _).bind fun _ => moves_pure _

theorem rebuild_sameCerts (cfg : NodeConfig) (root : RootInfo) (blocks : List Block)
    (quorumCerts : List QuorumCert) : Moves SameCerts (rebuild cfg root blocks quorumCerts) := by
  have hplant : Moves SameCerts (plantRoot root) :=
    (moves_check _).bind fun _ => moves_modify fun _ => ⟨rfl, rfl, rfl, rfl, rfl⟩
  refine hplant.bind fun _ => ?_
  refine (moves_forM fun b => moves_orSkip (insertBlock_sameCerts cfg b true)).bind fun _ => ?_
  refine (moves_forM fun qc => moves_orSkip (insertSingleQuorumCert_sameCerts qc)).bind fun _ => ?_
  exact moves_orSkip (recoverBlocksChecked_sameCerts cfg)

end BlockStore

end Liquent
