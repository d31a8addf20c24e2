import Liquent.ConsensusTypes.Verify
import Liquent.ConsensusTypes.PipelinedBlock

/-!
# Retrieved blocks

Requests for blocks and the answers of peers (`block_retrieval.rs`, `forward_epoch_sync.rs`), with
the checks that a node makes before it keeps an answer: `NetworkSender::request_block` for
block-retrieval responses and `verify_forward_epoch_sync_batch` for pages of a forward sync.
-/

namespace Liquent

open Misc

/-! ## Block retrieval -/

structure BlockRetrievalRequest where
  blockId : HashValue
  numBlocks : Nat
  targetBlockId : Option HashValue
  epoch : Option Nat
deriving DecidableEq

inductive BlockRetrievalStatus where
  | succeeded
  | idNotFound
  | notEnoughBlocks
  | succeededWithTarget
  | quorumCertNotFound
deriving DecidableEq

/-- A block in a response, with its number, which a block from the network does not carry, and its
randomness. -/
structure RetrievedBlock where
  block : Block
  blockNumber : Option Nat
  randomness : Option (List UInt8)
deriving DecidableEq

/-- The number that a sync sets on a block before it inserts it. -/
def RetrievedBlock.numbered (b : RetrievedBlock) : Block :=
  match b.blockNumber with
  | some number => b.block.setBlockNumber number
  | none => b.block

structure BlockRetrievalResponse where
  status : BlockRetrievalStatus
  blocks : List RetrievedBlock
  ledgerInfos : List LedgerInfoWithSignatures
  quorumCerts : List QuorumCert
deriving DecidableEq

/-! ## Forward epoch sync -/

structure ForwardEpochSyncManifest where
  epoch : Nat
  manifestId : HashValue
  firstBlockNumber : Nat
  targetBlockNumber : Nat
  targetBlockId : HashValue
  targetLedgerInfo : LedgerInfoWithSignatures
deriving DecidableEq

structure ForwardEpochSyncRecord where
  block : Block
  blockNumber : Option Nat
  randomness : Option (List UInt8)
  quorumCert : QuorumCert
deriving DecidableEq

structure ForwardEpochSyncFetchRequest where
  epoch : Nat
  manifestId : HashValue
  anchorBlockNumber : Nat
  anchorBlockId : HashValue
  batchSizeBlocks : Nat
deriving DecidableEq

structure ForwardEpochSyncBatch where
  epoch : Nat
  manifestId : HashValue
  anchorBlockNumber : Nat
  anchorBlockId : HashValue
  records : List ForwardEpochSyncRecord
  ledgerInfos : List LedgerInfoWithSignatures
  nextAnchorBlockNumber : Nat
  nextAnchorBlockId : HashValue
deriving DecidableEq

inductive ForwardEpochSyncError where
  | epochNotFound
  | anchorMismatch
  | manifestMismatch
  | invalidBatchSize
  | batchBoundaryNotFound
  | busy
  | internal
deriving DecidableEq

/-- The name that the debug format of an error shows. -/
def ForwardEpochSyncError.name : ForwardEpochSyncError → String
  | .epochNotFound => "EpochNotFound"
  | .anchorMismatch => "AnchorMismatch"
  | .manifestMismatch => "ManifestMismatch"
  | .invalidBatchSize => "InvalidBatchSize"
  | .batchBoundaryNotFound => "BatchBoundaryNotFound"
  | .busy => "Busy"
  | .internal => "Internal"

inductive ForwardEpochSyncResponse where
  | prepared (manifest : ForwardEpochSyncManifest)
  | batch (batch : ForwardEpochSyncBatch)
  | error (error : ForwardEpochSyncError)
deriving DecidableEq

/-- `LedgerInfo::consensus_block_id`. -/
def LedgerInfo.consensusBlockId (li : LedgerInfo) : HashValue := li.commitInfo.id

/-- The target of a ledger info at the end of an epoch: the block that ends it, or the committed
block itself. -/
def LedgerInfo.targetBlock [LedgerApi] (li : LedgerInfo) : HashValue × Nat :=
  match li.commitInfo.epochBlockInfo with
  | some info => (info.blockId, info.blockNumber)
  | none => (li.consensusBlockId, LedgerApi.blockNumber li)

variable [Crypto]

/-! ## Checks on responses -/

/-- The fold of `BlockRetrievalResponse::verify`: each block is the parent of the one before. -/
def verifyChain (v : ValidatorVerifier) (now : Nat) : HashValue → List RetrievedBlock →
    Except String Unit
  | _, [] => .ok ()
  | expectedId, b :: rest => do
    let id := b.block.id
    ensure (id = expectedId) s!"blocks doesn't form a chain: expect {expectedId}, get {id}"
    b.block.validateSignature v
    b.block.verifyWellFormed now
    verifyChain v now b.block.parentId rest

/-- `BlockRetrievalResponse::verify` (`block_retrieval.rs:174`). -/
def BlockRetrievalResponse.verify (r : BlockRetrievalResponse) (request : BlockRetrievalRequest)
    (v : ValidatorVerifier) (now : Nat) : Except String Unit := do
  let expected := request.numBlocks
  let returned := r.blocks.length
  ensure (r.status ≠ .succeeded ∨ returned = expected)
    s!"not enough blocks returned, expect {expected}, get {returned}"
  verifyChain v now request.blockId r.blocks

/-- `NetworkSender::request_block` (`network.rs:253`), after the answer has arrived. The check of
the ledger infos is disabled in the source, and an answer to a request from the zero identifier is
not checked. -/
def requestBlock (v : ValidatorVerifier) (request : BlockRetrievalRequest) (now : Nat)
    (r : BlockRetrievalResponse) : Except String BlockRetrievalResponse := do
  if request.blockId ≠ HashValue.zero then r.verify request v now
  pure r

/-- The loop of `verify_forward_epoch_sync_batch` over the records; returns the number reached. -/
def verifyRecords (v : ValidatorVerifier) (epoch now : Nat) : HashValue → Nat →
    List ForwardEpochSyncRecord → Except String Nat
  | _, anchorNumber, [] => .ok anchorNumber
  | expectedParent, anchorNumber, r :: rest => do
    ensure (r.block.epoch = epoch) "Forward block epoch mismatch"
    ensure (r.block.id = r.block.blockData.hash) "Forward block ID does not match its contents"
    ensure (r.block.parentId = expectedParent) "Forward blocks are not chained"
    match r.blockNumber with
    | some number => ensure (number = min (anchorNumber + 1) u64Max) "Forward block number gap"
    | none => ensure (r.randomness = none) "Unnumbered forward block carries randomness"
    ensure (∀ number, r.block.blockNumber = some number → r.blockNumber = some number)
      "Forward block carries conflicting block number"
    r.block.validateSignature v
    r.block.verifyWellFormed now
    ensure (r.quorumCert.certifiedBlock.id = r.block.id) "Forward QC certifies a different block"
    r.quorumCert.verify v
    verifyRecords v epoch now r.block.id (r.blockNumber.getD anchorNumber) rest

/-- The loop of `verify_forward_epoch_sync_batch` over the ledger infos. -/
def verifyLedgerInfos (v : ValidatorVerifier) (epoch : Nat)
    (records : List ForwardEpochSyncRecord) : List LedgerInfoWithSignatures → Except String Unit
  | [] => .ok ()
  | li :: rest => do
    ensure (li.ledgerInfo.commitInfo.epoch = epoch)
      "Forward ledger info belongs to a different epoch"
    li.verifySignatures v
    ensure (∃ r ∈ records, r.quorumCert.commitInfo.id = li.ledgerInfo.consensusBlockId)
      "Forward ledger info has no certifying QC in its batch"
    verifyLedgerInfos v epoch records rest

/-- `verify_forward_epoch_sync_batch` (`forward_epoch_sync.rs:964`). -/
def ForwardEpochSyncBatch.verify (batch : ForwardEpochSyncBatch)
    (request : ForwardEpochSyncFetchRequest) (v : ValidatorVerifier) (now : Nat) :
    Except String Unit := do
  ensure (batch.epoch = request.epoch) "Forward batch epoch mismatch"
  ensure (batch.manifestId = request.manifestId) "Forward batch manifest mismatch"
  ensure (batch.anchorBlockNumber = request.anchorBlockNumber ∧
    batch.anchorBlockId = request.anchorBlockId) "Forward batch anchor echo mismatch"
  ensure (batch.records ≠ []) "Forward batch is empty"
  ensure (batch.records.length ≤ request.batchSizeBlocks) "Forward batch exceeds requested size"
  let number ← verifyRecords v request.epoch now request.anchorBlockId request.anchorBlockNumber
    batch.records
  ensure (batch.records.getLast?.map (·.block.id) = some batch.nextAnchorBlockId ∧
    batch.nextAnchorBlockNumber = number) "Forward batch next anchor is not its tail"
  verifyLedgerInfos v request.epoch batch.records batch.ledgerInfos

/-- The checks of `try_prepare_forward_epoch_sync` on a manifest. -/
def ForwardEpochSyncManifest.verify [LedgerApi] (manifest : ForwardEpochSyncManifest) (epoch : Nat)
    (v : ValidatorVerifier) : Except String Unit := do
  let li := manifest.targetLedgerInfo.ledgerInfo
  ensure (manifest.epoch = epoch) "Forward manifest epoch mismatch"
  ensure (li.commitInfo.epoch = epoch) "Forward manifest target LI epoch mismatch"
  ensure (li.endsEpoch = true) "Forward manifest target does not end epoch"
  manifest.targetLedgerInfo.verifySignatures v
  ensure ((manifest.targetBlockId, manifest.targetBlockNumber) = li.targetBlock)
    "Forward manifest target mismatch"
  ensure (manifest.firstBlockNumber ≤ manifest.targetBlockNumber)
    "Forward manifest block range is invalid"

end Liquent
