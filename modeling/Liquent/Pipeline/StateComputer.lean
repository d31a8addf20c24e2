import Liquent.ConsensusTypes.PipelinedBlock
import Liquent.Misc.StateExcept

/-!
# Committing a batch

The execution proxy commits a batch of executed blocks (`state_computer.rs`): it hands the blocks
and their randomness to the executor, and reports their transactions and events to state sync.

An error stands for a panic of the source.  The executor is a parameter.
-/

namespace Liquent

open Misc

/-- `BlockMetadata`; a bit vector is given by the positions of its set bits. -/
structure BlockMetadata where
  id : HashValue
  epoch : Nat
  round : Nat
  proposer : Author
  previousBlockVotesBitvec : List Nat
  failedProposerIndices : List Nat
  timestampUsecs : Nat
deriving DecidableEq

/-- The transactions that consensus reports; metadata with randomness is `BlockMetadataExt`. -/
inductive Transaction where
  | blockMetadata (metadata : BlockMetadata)
  | blockMetadataExt (metadata : BlockMetadata) (randomness : Option Randomness)
  | userTransaction (txn : SignedTransaction)
deriving DecidableEq

namespace Block

/-- `previous_bitvec` (`block.rs:435`). -/
def previousBitvec (b : Block) : List Nat :=
  match b.blockData.blockType with
  | .dagBlock _ _ _ _ _ _ parentsBitvec =>
    (List.range parentsBitvec.length).filter fun i => parentsBitvec.getD i false
  | _ => b.quorumCert.ledgerInfo.signatures.signers

/-- `failed_authors_to_indices` (`block.rs:478`). -/
def failedAuthorsToIndices (validators : List Author) (failedAuthors : List (Nat × Author)) :
    Except String (List Nat) :=
  failedAuthors.mapM fun (_, failedAuthor) =>
    match validators.idxOf? failedAuthor with
    | none => .error s!"Failed author {failedAuthor} not in validator list {validators}"
    | some index =>
      if index < 2 ^ 32 then .ok index else .error "Index is out of bounds for u32"

/-- `new_block_metadata` (`block.rs:443`); the author of a nil block is the zero address. -/
def newBlockMetadata [Crypto] (b : Block) (validators : List Author) :
    Except String BlockMetadata := do
  let failedProposerIndices ←
    failedAuthorsToIndices validators (b.blockData.failedAuthors.getD [])
  .ok
    { id := b.id
      epoch := b.epoch
      round := b.round
      proposer := b.author.getD 0
      previousBlockVotesBitvec := b.previousBitvec
      failedProposerIndices := failedProposerIndices
      timestampUsecs := b.timestampUsecs }

end Block

/-- A block with the transactions that were executed. -/
structure ExecutedBlock extends PipelinedBlock where
  inputTransactions : List SignedTransaction
deriving DecidableEq

/-- `is_reconfiguration_suffix` (`block_data.rs:353`). -/
def ExecutedBlock.isReconfigurationSuffix (b : ExecutedBlock) : Bool :=
  b.stateComputeResult.hasReconfiguration

namespace StateComputer

/-- The state of an epoch. -/
structure MutableState where
  validators : List Author
  isRandomnessEnabled : Bool
deriving DecidableEq

/-- `ExecutionProxy`, with the epoch and round of the last commit. -/
structure ExecutionProxy where
  state : Option MutableState
  latestLogicalTime : Nat × Nat
deriving DecidableEq

section

variable [Crypto]

/-- The metadata of a block and its transactions. -/
def blockTransactions (s : MutableState) (b : ExecutedBlock) :
    Except String (List Transaction) := do
  let metadata ← b.block.newBlockMetadata s.validators
  let first :=
    if s.isRandomnessEnabled then Transaction.blockMetadataExt metadata b.randomness
    else .blockMetadata metadata
  .ok (first :: b.inputTransactions.map .userTransaction)

/-- `transactions_to_commit` (`state_computer.rs:164`). -/
def transactionsToCommit (s : MutableState) (b : ExecutedBlock) :
    Except String (List Transaction) :=
  if b.isReconfigurationSuffix then .ok [] else blockTransactions s b

end

variable {ContractEvent : Type}

/-- What the loop over the blocks collects. -/
structure CommitBatch (ContractEvent : Type) where
  payloads : List Payload := []
  txns : List Transaction := []
  subscribableTxnEvents : List ContractEvent := []
  blockIds : List (HashValue × Nat) := []
  randomnessData : List (Nat × List UInt8) := []

/-- What is sent to state sync; payloads and time are for the payload manager. -/
structure Notification (ContractEvent : Type) where
  txns : List Transaction
  subscribableEvents : List ContractEvent
  blockNumber : Nat
  payloads : List Payload
  blockTimestamp : Nat

/-- What the executor is called with. -/
abbrev CommitLedger := List (HashValue × Nat) → LedgerInfoWithSignatures → List (Nat × List UInt8) →
  Except String Unit

/-- `subscribable_events` (`pipelined_block.rs:389`), with the conversion of events; an event that
cannot be converted is skipped. -/
def subscribableEvents (convert : LiquentEvent → Option ContractEvent) (b : ExecutedBlock) :
    List ContractEvent :=
  b.stateComputeResult.events.filterMap convert

/-- Whether a block comes after the block that changes the epoch. -/
def isSuffix (finalityProof : LedgerInfoWithSignatures) (b : ExecutedBlock) : Bool :=
  match finalityProof.ledgerInfo.commitInfo.epochBlockInfo with
  | some info => info.blockNumber < b.block.blockNumber.getD 0
  | none => false

section

variable [Crypto]

/-- The body of the loop over the blocks. -/
def collectBlock (convert : LiquentEvent → Option ContractEvent) (s : MutableState)
    (finalityProof : LedgerInfoWithSignatures) (batch : CommitBatch ContractEvent)
    (b : ExecutedBlock) : Except String (CommitBatch ContractEvent) := do
  let commitTransactions ← transactionsToCommit s b
  .ok
    { payloads := batch.payloads ++ b.block.payload.toList
      txns := batch.txns ++ commitTransactions
      subscribableTxnEvents :=
        if isSuffix finalityProof b then batch.subscribableTxnEvents
        else batch.subscribableTxnEvents ++ subscribableEvents convert b
      blockIds := batch.blockIds ++ [(b.id, b.block.blockNumber.getD 0)]
      randomnessData :=
        match b.randomness, b.block.blockNumber with
        | some randomness, some number => batch.randomnessData ++ [(number, randomness.randomness)]
        | _, _ => batch.randomnessData }

/-- `ExecutionProxy::commit` (`state_computer.rs:556`). -/
def ExecutionProxy.commit (convert : LiquentEvent → Option ContractEvent)
    (commitLedger : CommitLedger) (proxy : ExecutionProxy) (blocks : List ExecutedBlock)
    (finalityProof : LedgerInfoWithSignatures) :
    Except String (Notification ContractEvent × ExecutionProxy) :=
  match proxy.state with
  | none => .error "must be set within an epoch"
  | some s => do
    let batch ← blocks.foldlM (collectBlock convert s finalityProof) {}
    commitLedger batch.blockIds finalityProof batch.randomnessData
    match blocks.getLast? with
    | none => .error "called Option::unwrap() on a None value"
    | some last =>
      match last.block.blockNumber with
      | none => .error "No block number"
      | some number =>
        let commitInfo := finalityProof.ledgerInfo.commitInfo
        .ok
          ({ txns := batch.txns
             subscribableEvents := batch.subscribableTxnEvents
             blockNumber := (commitInfo.epochBlockInfo.map (·.blockNumber)).getD number
             payloads := batch.payloads
             blockTimestamp := commitInfo.timestampUsecs },
           { proxy with latestLogicalTime := (commitInfo.epoch, commitInfo.round) })

end

end StateComputer

end Liquent
