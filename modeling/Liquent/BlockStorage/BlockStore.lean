import Liquent.BlockStorage.ConsensusDb

/-!
# The block store

The tree of blocks that a node keeps in memory over its database (`block_store.rs`, which is cited
by line, and `block_tree.rs`).  The tree shares its pipelined blocks with those who have looked them
up, so they live in a heap, and their holders keep references to them.

Peers, the executor and the choice of a root at recovery are an `Environment`, from which a
synchronisation takes one answer after the other.  While it waits, blocks that are in the execution
pipeline may be committed.
-/

namespace Liquent

open Misc

/-- A reference to a pipelined block. -/
abbrev BlockRef := Nat

structure BlockTree where
  blocks : Table HashValue BlockRef
  quorumCerts : Table HashValue QuorumCert
  orderedRootId : HashValue
  commitRootId : HashValue
  highestCommitCert : LedgerInfoWithSignatures
deriving DecidableEq

namespace BlockTree

/-- `remove_block`, for several blocks. -/
def without (tree : BlockTree) (gone : List HashValue) : BlockTree :=
  { tree with
    blocks := tree.blocks.filter fun e => e.1 ∉ gone
    quorumCerts := tree.quorumCerts.filter fun e => e.1 ∉ gone }

/-- `update_highest_commit_cert`, which moves the commit root along. -/
def updateHighestCommitCert (tree : BlockTree) (proof : LedgerInfoWithSignatures) : BlockTree :=
  let commitInfo := proof.ledgerInfo.commitInfo
  if tree.highestCommitCert.ledgerInfo.commitInfo.round < commitInfo.round then
    { tree with highestCommitCert := proof, commitRootId := commitInfo.id }
  else tree

end BlockTree

/-- What does not change during an epoch. -/
structure NodeConfig where
  epoch : Nat
  /-- The validators of the epoch, held by the network sender. -/
  validators : ValidatorVerifier
  genesisBlockId : HashValue
  isValidator : Bool
  enableRandomness : Bool
  requireBlockRandomness : Bool
  forwardEpochSyncEnabled : Bool
  maxBlocksToRequest : Nat
  /-- `BATCH_COMMIT_SIZE`. -/
  batchCommitSize : Nat := 0
deriving DecidableEq

/-- The root of a tree that is rebuilt from storage, with its certificates. -/
structure RootInfo where
  block : Block
  quorumCert : QuorumCert
  orderedCert : LedgerInfoWithSignatures
  commitCert : LedgerInfoWithSignatures
deriving DecidableEq

/-- A commit by the execution pipeline: which of the blocks in it, and the proof. -/
structure Commit where
  indices : List Nat
  proof : LedgerInfoWithSignatures
deriving DecidableEq

/-- What the environment of a node will answer while it synchronises. -/
structure Environment where
  /-- Peers that will be asked for blocks, in order: what each answers to a request, with the time
  of arrival.  `none` is a failed call. -/
  retrieval : List (BlockRetrievalRequest → Option (Nat × BlockRetrievalResponse)) := []
  /-- Answers to forward-sync requests, likewise. -/
  forward : List (Option (Nat × ForwardEpochSyncResponse)) := []
  /-- Whether the execution pipeline has done what it was asked. -/
  progress : List Bool := []
  /-- The roots found when the tree is rebuilt, with the last block number of the executor. -/
  roots : List (RootInfo × Nat) := []
  /-- The blocks that leave memory when the commit root advances. -/
  pruned : List (List HashValue) := []
  /-- The commits that happen during each wait. -/
  commits : List (List Commit) := []

/-- A block handed to the executor by `set_ordered_blocks`. -/
structure ExternalBlock where
  block : Block
  blockNumber : Nat
  randomness : Option (List UInt8)
deriving DecidableEq

/-- The state of a node while it synchronises. -/
structure NodeState where
  db : ConsensusDb
  heap : List PipelinedBlock
  tree : BlockTree
  env : Environment
  /-- Batches sent to the pipeline that it has not taken yet. -/
  ordered : List OrderedBlocks := []
  /-- The blocks that have entered the execution pipeline. -/
  pipeline : List PipelinedBlock := []
  /-- The blocks handed to the executor so far. -/
  executed : List ExternalBlock := []
  /-- The panic of `init_block_number` that has ended the process, if there was one. -/
  panic : Option String := none

/-- A part of a synchronisation: it may write to the database and then still fail. -/
abbrev Sync := EStateM String NodeState

namespace NodeState

/-- `get_block` (1125). -/
def getBlock (s : NodeState) (id : HashValue) : Option PipelinedBlock :=
  (s.tree.blocks.get id).bind (s.heap[·]?)

/-- `block_exists` (1121). -/
def blockExists (s : NodeState) (id : HashValue) : Bool := (s.getBlock id).isSome

/-- Writes to the database. -/
def withDb (s : NodeState) (f : ConsensusDb → ConsensusDb) : NodeState := { s with db := f s.db }

/-- Changes one pipelined block. -/
def updateBlock (s : NodeState) (ref : BlockRef) (f : PipelinedBlock → PipelinedBlock) :
    NodeState :=
  { s with heap := s.heap.modify ref f }

end NodeState

namespace BlockStore

/-- A read of the tree that must succeed. -/
def rootBlock (s : NodeState) (id : HashValue) : Except String PipelinedBlock :=
  match s.getBlock id with
  | some block => .ok block
  | none => .error "Root must exist"

/-- `try_set_randomness_from_db` (951): the randomness stored under the block's number. -/
def trySetRandomnessFromDb (cfg : NodeConfig) (db : ConsensusDb) (block : Block)
    (p : PipelinedBlock) : PipelinedBlock :=
  if cfg.enableRandomness then
    match block.blockNumber with
    | none => p
    | some number =>
      if p.hasRandomness then p
      else
        match db.getRandomness number with
        | some randomness => p.setRandomness { metadata := block.metadata, randomness }
        | none => p
  else p

variable [Crypto]

/-- `BlockTree::insert_block` for a block that is not in the tree. -/
def insertIntoTree (cfg : NodeConfig) (p : PipelinedBlock) : Sync BlockRef := do
  let s ← get
  let parentId := p.block.parentId
  check (ensure (s.blockExists parentId = true ∨ parentId = cfg.genesisBlockId)
    s!"Parent block {parentId} not found")
  modify fun s =>
    { s with
      heap := s.heap ++ [p]
      tree := { s.tree with blocks := s.tree.blocks.put p.id s.heap.length } }
  pure s.heap.length

/-- `BlockStore::insert_block` (984); during a rebuild nothing is written to the database. -/
def insertBlock (cfg : NodeConfig) (block : Block) (rebuild : Bool) : Sync BlockRef := do
  let s ← get
  match s.tree.blocks.get block.id with
  | some ref =>
    modify (·.updateBlock ref (trySetRandomnessFromDb cfg s.db block))
    pure ref
  | none =>
    if rebuild then
      insertIntoTree cfg (trySetRandomnessFromDb cfg s.db block (PipelinedBlock.newOrdered block))
    else
      let root ← check (rootBlock s s.tree.orderedRootId)
      check (ensure (root.block.round < block.round) "Block with old round")
      modify (·.withDb (·.saveTree [block] [] []))
      insertIntoTree cfg (trySetRandomnessFromDb cfg s.db block (PipelinedBlock.newOrdered block))

/-- The write of a certificate, which a rebuild leaves out. -/
def storeCert (qc : QuorumCert) (rebuild : Bool) : Sync Unit :=
  if rebuild then pure () else modify (·.withDb (·.saveTree [] [qc] []))

variable [LedgerApi]

/-- `BlockStore::insert_single_quorum_cert` (1026). -/
def insertSingleQuorumCert (qc : QuorumCert) (rebuild : Bool) : Sync Unit := do
  let s ← get
  let block ← check (match s.getBlock qc.certifiedBlock.id with
    | some block => .ok block
    | none => .error "Insert without having the block in store first")
  check (ensure (LedgerApi.matchOrderedOnly block.blockInfo qc.certifiedBlock = true)
    "QC for block is different than local")
  storeCert qc rebuild
  modify fun s =>
    { s with tree := { s.tree with quorumCerts :=
        if (s.tree.quorumCerts.get qc.certifiedBlock.id).isSome then s.tree.quorumCerts
        else s.tree.quorumCerts.put qc.certifiedBlock.id qc } }

end BlockStore

end Liquent
