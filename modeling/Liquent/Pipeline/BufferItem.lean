import Liquent.ConsensusTypes.PipelinedBlock
import Liquent.ConsensusTypes.Verify
import Liquent.Misc.Table

/-!
# Items of the pipeline

A batch of ordered blocks on its way through the pipeline (`buffer_item.rs`, cited by line): it is
executed, a commit vote for it is signed, and the votes of the validators are aggregated to a commit
proof.

An error stands for a panic of the source.  Callbacks and the handles of broadcasts are left out.
-/

namespace Liquent

open Misc

/-- Shares of signatures, one for each author. -/
structure PartialSignatures where
  signatures : Table Author Signature := []
deriving DecidableEq

/-- `add_signature`. -/
def PartialSignatures.addSignature (s : PartialSignatures) (author : Author) (sig : Signature) :
    PartialSignatures :=
  { signatures := s.signatures.put author sig }

def PartialSignatures.authors (s : PartialSignatures) : List Author := s.signatures.keys

/-- A ledger info with the shares collected for it. -/
structure LedgerInfoWithVerifiedSignatures where
  ledgerInfo : LedgerInfo
  partialSigs : PartialSignatures
deriving DecidableEq

def LedgerInfoWithVerifiedSignatures.commitInfo (p : LedgerInfoWithVerifiedSignatures) :
    BlockInfo :=
  p.ledgerInfo.commitInfo

def LedgerInfoWithVerifiedSignatures.addSignature (p : LedgerInfoWithVerifiedSignatures)
    (author : Author) (sig : Signature) : LedgerInfoWithVerifiedSignatures :=
  { p with partialSigs := p.partialSigs.addSignature author sig }

structure CommitVote where
  author : Author
  ledgerInfo : LedgerInfo
  signature : Signature
deriving DecidableEq

/-- `commit_info` (`commit_vote.rs:89`). -/
def CommitVote.commitInfo (v : CommitVote) : BlockInfo := v.ledgerInfo.commitInfo

/-- Functions of the `laptos` crate that the pipeline calls. -/
class PipelineApi where
  /-- `check_voting_power`, with the check for a super-majority. -/
  checkVotingPower : ValidatorVerifier → List Author → Except String Unit
  aggregateSignatures : ValidatorVerifier → Table Author Signature →
    Except String AggregateSignature
  /-- Whether the fork `ConsensusAlpha` is active at a time. -/
  isConsensusForkActive : Nat → Bool

/-- `CommitVote::verify` (`commit_vote.rs:83`). -/
def CommitVote.verify [Crypto] (vote : CommitVote) (v : ValidatorVerifier) : Except String Unit :=
  (Crypto.verify v vote.author (.ledgerInfo vote.ledgerInfo) vote.signature).mapError
    fun _ => "Failed to verify Commit Vote"

/-- `CommitDecision::verify` (`commit_decision.rs:52`). -/
def verifyCommitDecision [Crypto] [LedgerApi] (decision : LedgerInfoWithSignatures)
    (v : ValidatorVerifier) : Except String Unit := do
  ensure (LedgerApi.isOrderedOnly decision.ledgerInfo.commitInfo = false)
    "Unexpected ordered only commit info"
  (decision.verifySignatures v).mapError fun _ => "Failed to verify Commit Decision"

namespace Pipeline

structure OrderedItem where
  unverifiedSignatures : PartialSignatures := {}
  /-- A commit proof that arrived before the execution. -/
  commitProof : Option LedgerInfoWithSignatures := none
  orderedBlocks : List PipelinedBlock
  orderedProof : LedgerInfoWithSignatures
deriving DecidableEq

structure ExecutedItem where
  executedBlocks : List PipelinedBlock
  partialCommitProof : LedgerInfoWithVerifiedSignatures
  commitInfo : BlockInfo
  orderedProof : LedgerInfoWithSignatures
deriving DecidableEq

structure SignedItem where
  executedBlocks : List PipelinedBlock
  partialCommitProof : LedgerInfoWithVerifiedSignatures
  commitVote : CommitVote
deriving DecidableEq

structure AggregatedItem where
  executedBlocks : List PipelinedBlock
  commitProof : LedgerInfoWithSignatures
deriving DecidableEq

inductive BufferItem where
  | ordered (item : OrderedItem)
  | executed (item : ExecutedItem)
  | signed (item : SignedItem)
  | aggregated (item : AggregatedItem)
deriving DecidableEq

/-- `generate_commit_ledger_info` (61). -/
def generateCommitLedgerInfo (commitInfo : BlockInfo) (orderedProof : LedgerInfoWithSignatures)
    (orderVoteEnabled : Bool) (blockHash : HashValue) (blockNumber : Nat) : LedgerInfo :=
  .newWithBlockInfo commitInfo
    (if orderVoteEnabled then HashValue.zero else orderedProof.ledgerInfo.consensusDataHash)
    blockHash blockNumber

/-- `executed_commit_timestamp_usecs` (176). -/
def executedCommitTimestampUsecs (corrected block : Nat) (useCorrected : Bool) : Nat :=
  if useCorrected then corrected else block

namespace BufferItem

/-- `get_blocks` (531). -/
def getBlocks : BufferItem → List PipelinedBlock
  | .ordered item => item.orderedBlocks
  | .executed item => item.executedBlocks
  | .signed item => item.executedBlocks
  | .aggregated item => item.executedBlocks

/-- `commit_info` (544). -/
def commitInfo : BufferItem → BlockInfo
  | .ordered item => item.orderedProof.ledgerInfo.commitInfo
  | .executed item => item.commitInfo
  | .signed item => item.partialCommitProof.commitInfo
  | .aggregated item => item.commitProof.ledgerInfo.commitInfo

/-- `is_ordered` (591). -/
def isOrdered : BufferItem → Bool
  | .ordered _ => true
  | _ => false

/-- `is_executed` (595). -/
def isExecuted : BufferItem → Bool
  | .executed _ => true
  | _ => false

/-- `is_aggregated` (603). -/
def isAggregated : BufferItem → Bool
  | .aggregated _ => true
  | _ => false

/-- `new_ordered` (249). -/
def newOrdered (orderedBlocks : List PipelinedBlock) (orderedProof : LedgerInfoWithSignatures) :
    BufferItem :=
  .ordered { orderedBlocks := orderedBlocks, orderedProof := orderedProof }

/-- `advance_to_signed` (376). -/
def advanceToSigned (author : Author) (signature : Signature) :
    BufferItem → Except String BufferItem
  | .executed item =>
    .ok (.signed
      { executedBlocks := item.executedBlocks
        partialCommitProof := item.partialCommitProof
        commitVote :=
          { author := author, ledgerInfo := item.partialCommitProof.ledgerInfo,
            signature := signature } })
  | _ => .error "Only executed buffer items can advance to signed blocks."

section Api

variable [Crypto]

/-- The identifier of the last block; a batch is never empty (540). -/
def blockId (item : BufferItem) : HashValue :=
  (item.getBlocks.getLast?.map PipelinedBlock.id).getD HashValue.zero

/-- `verify_signatures` (81): the shares that verify. -/
def verifySignatures (unverified : PartialSignatures) (v : ValidatorVerifier) (li : LedgerInfo) :
    PartialSignatures :=
  { signatures := unverified.signatures.filter fun (author, sig) =>
      (Crypto.verify v author (.ledgerInfo li) sig).isOk }

/-- The commit info of an executed batch whose last block is `block`.  After the end of the epoch it
carries the time of the end, which only a block that carries over the epoch state may be given. -/
def executedCommitInfo (block : PipelinedBlock) (epochEndTimestamp : Option Nat)
    (epochBlockInfo : Option EpochBlockInfo) : Except String BlockInfo :=
  let commitInfo := block.blockInfo
  let corrected : Except String BlockInfo :=
    match epochEndTimestamp with
    | some timestamp =>
      if commitInfo.timestampUsecs ≠ timestamp then
        if block.stateComputeResult.hasReconfiguration then
          .ok { commitInfo with timestampUsecs := timestamp }
        else .error "assertion failed: executed_blocks.last().is_reconfiguration_suffix()"
      else .ok commitInfo
    | none => .ok commitInfo
  corrected.map fun info => { info with epochBlockInfo := epochBlockInfo.or info.epochBlockInfo }

variable [PipelineApi]

/-- `aggregate_commit_proof` (188). -/
def aggregateCommitProof (li : LedgerInfo) (verified : PartialSignatures) (v : ValidatorVerifier) :
    Except String LedgerInfoWithSignatures :=
  ((PipelineApi.aggregateSignatures v verified.signatures).mapError
    fun e => s!"Failed to generate aggregated signature: {e}").map fun sig =>
      { ledgerInfo := li, signatures := sig }

/-- `generate_executed_item_from_ordered` (132). Before the fork the time of the block itself is
used. -/
def generateExecutedItemFromOrdered (commitInfo : BlockInfo) (executedBlocks : List PipelinedBlock)
    (block : PipelinedBlock) (number : Nat) (verified : PartialSignatures)
    (orderedProof : LedgerInfoWithSignatures) (orderVoteEnabled useCorrected : Bool) : BufferItem :=
  let newCommitInfo : BlockInfo :=
    { commitInfo with
      version := number
      timestampUsecs := executedCommitTimestampUsecs commitInfo.timestampUsecs
        block.block.timestampUsecs useCorrected }
  .executed
    { executedBlocks := executedBlocks
      partialCommitProof :=
        { ledgerInfo := generateCommitLedgerInfo newCommitInfo orderedProof orderVoteEnabled
            block.stateComputeResult.rootHash number
          partialSigs := verified }
      commitInfo := newCommitInfo
      orderedProof := orderedProof }

/-- The item of an executed batch for which no commit proof has arrived. -/
def advanceWithVotes (item : OrderedItem) (executedBlocks : List PipelinedBlock)
    (block : PipelinedBlock) (number : Nat) (commitInfo : BlockInfo) (v : ValidatorVerifier)
    (orderVoteEnabled : Bool) : Except String BufferItem :=
  let li := generateCommitLedgerInfo commitInfo item.orderedProof orderVoteEnabled
    block.stateComputeResult.rootHash number
  let verified := verifySignatures item.unverifiedSignatures v li
  match PipelineApi.checkVotingPower v verified.authors with
  | .ok () => (aggregateCommitProof li verified v).map fun proof =>
      .aggregated { executedBlocks := executedBlocks, commitProof := proof }
  | .error _ =>
    .ok (generateExecutedItemFromOrdered commitInfo executedBlocks block number verified
      item.orderedProof orderVoteEnabled
      (PipelineApi.isConsensusForkActive block.block.timestampUsecs))

/-- `advance_to_executed_or_aggregated` (264). -/
def advanceToExecutedOrAggregated (executedBlocks : List PipelinedBlock) (v : ValidatorVerifier)
    (epochEndTimestamp : Option Nat) (orderVoteEnabled : Bool)
    (epochBlockInfo : Option EpochBlockInfo) : BufferItem → Except String BufferItem
  | .ordered item => do
    ensure (item.orderedBlocks.map PipelinedBlock.id = executedBlocks.map PipelinedBlock.id)
      "assertion failed: b1.id() == b2.id()"
    let block ← expect executedBlocks.getLast? "execute_blocks should not be empty!"
    let commitInfo ← executedCommitInfo block epochEndTimestamp epochBlockInfo
    match item.commitProof with
    | some proof =>
      ensure (proof.ledgerInfo.commitInfo = commitInfo)
        "assertion failed: commit_proof.commit_info() == commit_info"
      pure (.aggregated { executedBlocks := executedBlocks, commitProof := proof })
    | none =>
      let number ← expect block.block.blockNumber "called unwrap() on a None value"
      advanceWithVotes item executedBlocks block number commitInfo v orderVoteEnabled
  | _ => .error "Only ordered blocks can advance to executed blocks."

/-- `try_advance_to_aggregated_with_ledger_info` (407). -/
def tryAdvanceToAggregatedWithLedgerInfo [LedgerApi] (proof : LedgerInfoWithSignatures) :
    BufferItem → Except String BufferItem
  | .signed item => do
    ensure (item.partialCommitProof.commitInfo = proof.ledgerInfo.commitInfo)
      "assertion failed: local_commit_proof.commit_info() == commit_proof.commit_info()"
    pure (.aggregated { executedBlocks := item.executedBlocks, commitProof := proof })
  | .executed item => do
    ensure (item.commitInfo = proof.ledgerInfo.commitInfo)
      "assertion failed: commit_info == commit_proof.commit_info()"
    pure (.aggregated { executedBlocks := item.executedBlocks, commitProof := proof })
  | .ordered item => do
    ensure (LedgerApi.matchOrderedOnly item.orderedProof.ledgerInfo.commitInfo
      proof.ledgerInfo.commitInfo = true)
      "assertion failed: ordered_proof.commit_info().match_ordered_only(commit_proof.commit_info())"
    -- it cannot be aggregated before it is executed
    pure (.ordered { item with commitProof := some proof })
  | .aggregated _ =>
    .error ("Found aggregated buffer item but any aggregated buffer item should get dequeued " ++
      "right away.")

/-- A batch whose shares carry enough voting power is aggregated. -/
def aggregateIfEnough (item : BufferItem) (executedBlocks : List PipelinedBlock)
    (collected : LedgerInfoWithVerifiedSignatures) (v : ValidatorVerifier) :
    Except String BufferItem :=
  match PipelineApi.checkVotingPower v collected.partialSigs.authors with
  | .ok () => (aggregateCommitProof collected.ledgerInfo collected.partialSigs v).map fun proof =>
      .aggregated { executedBlocks := executedBlocks, commitProof := proof }
  | .error _ => .ok item

/-- `try_advance_to_aggregated` (470). -/
def tryAdvanceToAggregated (v : ValidatorVerifier) : BufferItem → Except String BufferItem
  | .signed item =>
    aggregateIfEnough (.signed item) item.executedBlocks item.partialCommitProof v
  | .executed item =>
    aggregateIfEnough (.executed item) item.executedBlocks item.partialCommitProof v
  | item => .ok item

/-- `add_signature_if_matched` (553). -/
def addSignatureIfMatched [LedgerApi] (vote : CommitVote) : BufferItem → Except String BufferItem
  | .ordered item =>
    if LedgerApi.matchOrderedOnly item.orderedProof.ledgerInfo.commitInfo vote.commitInfo then
      -- the share is checked when the batch has been executed
      .ok (.ordered { item with
        unverifiedSignatures := item.unverifiedSignatures.addSignature vote.author vote.signature })
    else .error "Inconsistent commit info."
  | .executed item =>
    if item.commitInfo = vote.commitInfo then
      .ok (.executed { item with
        partialCommitProof := item.partialCommitProof.addSignature vote.author vote.signature })
    else .error "Inconsistent commit info."
  | .signed item =>
    if item.partialCommitProof.commitInfo = vote.commitInfo then
      .ok (.signed { item with
        partialCommitProof := item.partialCommitProof.addSignature vote.author vote.signature })
    else .error "Inconsistent commit info."
  | .aggregated item =>
    if item.commitProof.ledgerInfo.commitInfo = vote.commitInfo then .ok (.aggregated item)
    else .error "Inconsistent commit info."

end Api

end BufferItem

end Pipeline

end Liquent
