import Liquent.BlockStorage.ConsensusDb
import Liquent.Misc.RoundRobin

/-!
# Forward epoch sync

How a node serves the blocks of an epoch that has ended, in pages and from the first block on
(`forward_epoch_sync.rs`, cited by line), and the loop in which another node asks for the pages.
The server walks back from the certificate that commits the end of the epoch and keeps an index of
the path; a page is a stretch of the index, and the ledger infos that its certificates commit.

A database error is not modelled: reads answer with what is stored.
-/

namespace Liquent

open Misc

structure ForwardEpochSyncIndexEntry where
  blockNumber : Option Nat
  /-- The highest block number reached at this block; a block without a number keeps the one
  before it. -/
  anchorBlockNumber : Nat
  blockId : HashValue
  parentId : HashValue
deriving DecidableEq

structure ForwardEpochSyncBoundary where
  certifyingPosition : Nat
  targetBlockNumber : Nat
  ledgerInfo : LedgerInfoWithSignatures
deriving DecidableEq

structure ForwardEpochSyncIndex where
  manifest : ForwardEpochSyncManifest
  entries : List ForwardEpochSyncIndexEntry
  boundaries : List ForwardEpochSyncBoundary
deriving DecidableEq

/-- The hash that identifies a manifest, over its serialised contents. -/
class ForwardSyncApi where
  manifestId : (epoch firstBlockNumber terminalNumber : Nat) → (terminalId : HashValue) →
    (targetBlockNumber : Nat) → (targetBlockId : HashValue) → LedgerInfoWithSignatures → HashValue

/-- `positions`: where a block is in the path.  The blocks of a path are different. -/
def positionOf (entries : List ForwardEpochSyncIndexEntry) (id : HashValue) : Option Nat :=
  entries.findIdx? (·.blockId = id)

/-! ## Building the index -/

namespace ConsensusDb

variable (db : ConsensusDb)

/-- The last block of the epoch. -/
def epochEndBlockNumber (epoch : Nat) : Option Nat :=
  ((db.epochByBlockNumber.filter (·.2 = epoch)).map (·.1)).max?

/-- `qcs_by_certified_id`, from the certificates stored for the epoch. -/
def qcsByCertifiedId (epoch : Nat) : Table HashValue QuorumCert :=
  Table.putAll [] ((db.quorumCerts.filter fun e => InEpoch epoch e.1).map fun e =>
    (e.2.certifiedBlock.id, e.2))

/-- The loop that follows the parents of a block for as long as they are stored, last block
first. -/
def collectPath [Crypto] (epoch : Nat) (qcs : Table HashValue QuorumCert) :
    Nat → List HashValue → HashValue →
    Except ForwardEpochSyncError (List ForwardEpochSyncIndexEntry)
  | 0, _, _ => .error .internal
  | fuel + 1, visited, cursor =>
    if cursor ∈ visited then .error .internal
    else
      match db.getBlock epoch cursor with
      | none => .ok []
      | some block => do
        let blockNumber := block.blockNumber.or (db.blockNumbers.get (epoch, block.id))
        ensure ((qcs.get block.id).isSome = true) .internal
        let rest ← collectPath epoch qcs fuel (cursor :: visited) block.parentId
        pure (⟨blockNumber, 0, block.id, block.parentId⟩ :: rest)

end ConsensusDb

/-- The loop that checks the numbers along the path and notes the number reached at each block. -/
def numberEntries : Nat → List ForwardEpochSyncIndexEntry →
    Except ForwardEpochSyncError (List ForwardEpochSyncIndexEntry)
  | _, [] => .ok []
  | anchor, entry :: rest =>
    match entry.blockNumber with
    | some number => do
      ensure (number = min (anchor + 1) u64Max) .internal
      let numbered ← numberEntries number rest
      pure ({ entry with anchorBlockNumber := number } :: numbered)
    | none => do
      let numbered ← numberEntries anchor rest
      pure ({ entry with anchorBlockNumber := anchor } :: numbered)

/-- The boundary for a stored ledger info: the first block on the path whose certificate commits it,
if its target is on the path and not after that block. -/
def boundaryOf (epoch : Nat) (qcs : List QuorumCert) (entries : List ForwardEpochSyncIndexEntry)
    (stored : Nat × LedgerInfoWithSignatures) : Option ForwardEpochSyncBoundary :=
  let li := stored.2.ledgerInfo
  if li.commitInfo.epoch ≠ epoch then none
  else
    let certifying := (qcs.filter (·.commitInfo.id = li.consensusBlockId)).filterMap fun qc =>
      (positionOf entries qc.certifiedBlock.id).map (qc, ·)
    match certifying.argmin (·.1.certifiedBlock.round) with
    | none => none
    | some (_, certifyingPosition) =>
      let epochInfo := li.commitInfo.epochBlockInfo
      let boundaryId := (epochInfo.map (·.blockId)).getD li.consensusBlockId
      match positionOf entries boundaryId with
      | none => none
      | some targetPosition =>
        if certifyingPosition < targetPosition then none
        else some ⟨certifyingPosition, (epochInfo.map (·.blockNumber)).getD stored.1, stored.2⟩

/-- `build_forward_epoch_sync_index` (100). The `shuffle` is the order in which the map of
certificates is gone through and the sort leaves equal keys. -/
def ConsensusDb.buildForwardEpochSyncIndex [Crypto] [ForwardSyncApi] (db : ConsensusDb)
    (shuffle : Shuffle QuorumCert) (shuffleBoundaries : Shuffle ForwardEpochSyncBoundary)
    (epoch : Nat) : Except ForwardEpochSyncError ForwardEpochSyncIndex := do
  let epochEnd ← expect (db.epochEndBlockNumber epoch) .epochNotFound
  let targetLedgerInfo ← expect (db.ledgerInfos.get epochEnd) .epochNotFound
  let target := targetLedgerInfo.ledgerInfo
  let qcs := db.qcsByCertifiedId epoch
  let committing := (shuffle.order 0 (qcs.map (·.2))).filter
    (·.commitInfo.id = target.consensusBlockId)
  let terminalQc ← expect (committing.argmax (·.certifiedBlock.round)) .internal
  let reversed ←
    db.collectPath epoch qcs (db.blocks.length + 1) [] terminalQc.certifiedBlock.id
  let path := reversed.reverse
  ensure (path ≠ []) .epochNotFound
  ensure (∀ pair ∈ path.zip path.tail, pair.2.parentId = pair.1.blockId) .internal
  let firstBlockNumber ← expect (path.findSome? (·.blockNumber)) .internal
  ensure (0 < firstBlockNumber) .internal
  let entries ← numberEntries (firstBlockNumber - 1) path
  let epochInfo := target.commitInfo.epochBlockInfo
  let targetBlockId := (epochInfo.map (·.blockId)).getD target.consensusBlockId
  let targetBlockNumber ← expect
    ((epochInfo.map (·.blockNumber)).or
      ((positionOf entries targetBlockId).bind fun p => (entries[p]?).bind (·.blockNumber)))
    .internal
  let boundaries := shuffleBoundaries.order 0
    (db.ledgerInfos.filterMap (boundaryOf epoch (shuffle.order 1 (qcs.map (·.2))) entries))
  let terminal ← expect entries.getLast? .internal
  pure {
    manifest :=
      { epoch
        manifestId := ForwardSyncApi.manifestId epoch firstBlockNumber terminal.anchorBlockNumber
          terminal.blockId targetBlockNumber targetBlockId targetLedgerInfo
        firstBlockNumber
        targetBlockNumber
        targetBlockId
        targetLedgerInfo }
    entries
    boundaries := boundaries.insertionSort fun a b =>
      a.certifyingPosition < b.certifyingPosition ∨
        (a.certifyingPosition = b.certifyingPosition ∧ a.targetBlockNumber ≤ b.targetBlockNumber) }

/-! ## Serving pages -/

/-- `first_follows_anchor`. -/
def ForwardEpochSyncIndexEntry.followsAnchor (first : ForwardEpochSyncIndexEntry)
    (blockNumber : Nat) : Bool :=
  match first.blockNumber with
  | some firstNumber => firstNumber = min (blockNumber + 1) u64Max
  | none => first.anchorBlockNumber = blockNumber

/-- `validate_forward_anchor` (336): the position after the anchor. -/
def ForwardEpochSyncIndex.validateForwardAnchor (index : ForwardEpochSyncIndex)
    (blockNumber : Nat) (blockId : HashValue) : Except ForwardEpochSyncError Nat :=
  match positionOf index.entries blockId with
  | some position =>
    if (index.entries[position]?).map (·.anchorBlockNumber) = some blockNumber then
      .ok (position + 1)
    else .error .anchorMismatch
  | none =>
    match index.entries.head? with
    | none => .error .epochNotFound
    | some first =>
      if first.parentId = blockId ∧ first.followsAnchor blockNumber = true then .ok 0
      else .error .anchorMismatch

/-- `select_forward_batch_end` (72). -/
def selectForwardBatchEnd (start requested total : Nat) : Option Nat :=
  let last := min (start + requested) total
  if start < last then some last else none

/-- `certifying_position_in_batch` (77). -/
def certifyingPositionInBatch (position start last : Nat) : Bool :=
  start ≤ position ∧ position < last

/-- A record of a page, read from the database. -/
def ConsensusDb.forwardRecord (db : ConsensusDb) (epoch : Nat)
    (entry : ForwardEpochSyncIndexEntry) : Except ForwardEpochSyncError ForwardEpochSyncRecord := do
  let block ← expect (db.getBlock epoch entry.blockId) .internal
  let quorumCert ← expect (db.quorumCerts.get (epoch, entry.blockId)) .internal
  pure ⟨block, entry.blockNumber, entry.blockNumber.bind db.getRandomness, quorumCert⟩

/-- `fetch_forward_epoch_sync` (376), with the index of the epoch. -/
def ConsensusDb.fetchForwardEpochSync (db : ConsensusDb) (index : ForwardEpochSyncIndex)
    (maxBlocksAllowed : Nat) (request : ForwardEpochSyncFetchRequest) :
    Except ForwardEpochSyncError ForwardEpochSyncBatch := do
  ensure (request.batchSizeBlocks ≠ 0 ∧ request.batchSizeBlocks ≤ maxBlocksAllowed)
    .invalidBatchSize
  ensure (request.manifestId = index.manifest.manifestId) .manifestMismatch
  let start ← index.validateForwardAnchor request.anchorBlockNumber request.anchorBlockId
  ensure (start < index.entries.length) .batchBoundaryNotFound
  let last ← expect (selectForwardBatchEnd start request.batchSizeBlocks index.entries.length)
    .batchBoundaryNotFound
  let page := (index.entries.take last).drop start
  let ledgerInfos := (index.boundaries.filter fun boundary =>
    certifyingPositionInBatch boundary.certifyingPosition start last).map (·.ledgerInfo)
  let records ← page.mapM (db.forwardRecord request.epoch)
  let tail ← expect index.entries[last - 1]? .internal
  pure {
    epoch := request.epoch
    manifestId := request.manifestId
    anchorBlockNumber := request.anchorBlockNumber
    anchorBlockId := request.anchorBlockId
    records
    ledgerInfos
    nextAnchorBlockNumber := tail.anchorBlockNumber
    nextAnchorBlockId := tail.blockId }

/-! ## Asking for pages -/

/-- Where a client is: the last record that it has received, or its first anchor. -/
structure ForwardCursor where
  blockNumber : Nat
  blockId : HashValue
deriving DecidableEq

/-- A page with the request that it answers. -/
abbrev ForwardPage := ForwardEpochSyncFetchRequest × ForwardEpochSyncBatch

/-- The request for the next page. -/
def ForwardCursor.request (cursor : ForwardCursor) (manifest : ForwardEpochSyncManifest)
    (batchSizeBlocks : Nat) : ForwardEpochSyncFetchRequest :=
  ⟨manifest.epoch, manifest.manifestId, cursor.blockNumber, cursor.blockId, batchSizeBlocks⟩

/-- The first `n` pages that a client receives, up to an answer that is not a page, and where it is
then. -/
def forwardPages
    (fetch : ForwardEpochSyncFetchRequest → Except ForwardEpochSyncError ForwardEpochSyncBatch)
    (manifest : ForwardEpochSyncManifest) (sizes : Nat → Nat) (anchor : ForwardCursor) :
    Nat → Except ForwardEpochSyncError (List ForwardPage × ForwardCursor)
  | 0 => .ok ([], anchor)
  | n + 1 => do
    let (received, cursor) ← forwardPages fetch manifest sizes anchor n
    let request := cursor.request manifest (sizes n)
    let batch ← fetch request
    pure (received ++ [(request, batch)], ⟨batch.nextAnchorBlockNumber, batch.nextAnchorBlockId⟩)

end Liquent
