import Liquent.ConsensusTypes.Crypto

/-!
# Blocks in the pipeline

A block that has been ordered, with the result of its execution once there is one and its randomness
once it is known (`pipelined_block.rs`, cited by line).  The block number and the randomness are
cells that can be set once.  A block is cloned when it is sent to the pipeline, and its cells with
it.
-/

namespace Liquent

/-- An event that the execution of a block emits (`LiquentEvent`). -/
inductive LiquentEvent where
  | newEpoch (epoch : Nat) (validatorSet : List UInt8)
  | observedJWKsUpdated (number : Nat) (jwks : List UInt8)
  | other (bytes : List UInt8)
deriving DecidableEq

structure TxnStatus where
  txnHash : HashValue
  sender : Author
  nonce : Nat
  isDiscarded : Bool
deriving DecidableEq

/-- `StateComputeResult` with the fields of its `ComputeRes`; the root hash is the hash of the block
that execution returned. -/
structure StateComputeResult where
  rootHash : HashValue
  epochState : Option EpochState
  txnNum : Nat := 0
  txnStatus : Option (List TxnStatus) := none
  events : List LiquentEvent := []
deriving DecidableEq

/-- `has_reconfiguration` (`lib.rs:176`). -/
def StateComputeResult.hasReconfiguration (r : StateComputeResult) : Bool := r.epochState.isSome

structure RandMetadata where
  epoch : Nat
  round : Nat
deriving DecidableEq

structure Randomness where
  metadata : RandMetadata
  randomness : List UInt8
deriving DecidableEq

structure PipelinedBlock where
  block : Block
  stateComputeResult : StateComputeResult
  randomness : Option Randomness
deriving DecidableEq

/-- `OrderedBlocks`, without the callback that runs on commit. -/
structure OrderedBlocks where
  orderedBlocks : List PipelinedBlock
  orderedProof : LedgerInfoWithSignatures
deriving DecidableEq

/-- `Block::set_block_number` (`block.rs:496`): the cell keeps its first value. -/
def Block.setBlockNumber (b : Block) (number : Nat) : Block :=
  { b with blockNumber := b.blockNumber.or (some number) }

def Block.metadata (b : Block) : RandMetadata where
  epoch := b.epoch
  round := b.round

namespace PipelinedBlock

def metadata (p : PipelinedBlock) : RandMetadata := p.block.metadata

/-- `has_randomness` (367). -/
def hasRandomness (p : PipelinedBlock) : Bool := p.randomness.isSome

/-- `PipelinedBlock::set_randomness` (251): the cell keeps its first value. -/
def setRandomness (p : PipelinedBlock) (randomness : Randomness) : PipelinedBlock :=
  { p with randomness := p.randomness.or (some randomness) }

variable [Crypto]

/-- `PipelinedBlock::new_ordered` (315), with the dummy result of a block that has not been
executed. -/
def newOrdered (block : Block) : PipelinedBlock where
  block := block
  stateComputeResult := { rootHash := Crypto.accumulatorPlaceholderHash, epochState := none }
  randomness := none

/-- `id` (323). -/
def id (p : PipelinedBlock) : HashValue := p.block.id

/-- `PipelinedBlock::block_info` (371); the version is the block number. -/
def blockInfo (p : PipelinedBlock) : BlockInfo :=
  p.block.genBlockInfo p.stateComputeResult.rootHash (p.block.blockNumber.getD 0)
    p.stateComputeResult.epochState

end PipelinedBlock

end Liquent
