import Liquent.BlockStorage.Recovery

/-!
# The sync manager

How a node that has fallen behind fetches what it misses (`sync_manager.rs`, and
`forward_epoch_sync.rs`, cited by line): the block retriever, `fetch_quorum_cert`,
`fast_forward_sync`, and `fast_forward_sync_by_epoch` with its forward path and its legacy fallback.

An assertion that fails and an `unwrap` that panics are errors here.  What was written to the
database before stays written.
-/

namespace Liquent

open Misc

namespace SyncManager

open BlockStore

variable [Crypto]

/-! ## The block retriever -/

/-- Blocks, certificates and ledger infos from one or several responses. -/
structure Retrieved where
  blocks : List RetrievedBlock
  quorumCerts : List QuorumCert
  ledgerInfos : List LedgerInfoWithSignatures
deriving DecidableEq

def Retrieved.append (a b : Retrieved) : Retrieved where
  blocks := a.blocks ++ b.blocks
  quorumCerts := a.quorumCerts ++ b.quorumCerts
  ledgerInfos := a.ledgerInfos ++ b.ledgerInfos

def Retrieved.ofResponse (r : BlockRetrievalResponse) : Retrieved where
  blocks := r.blocks
  quorumCerts := r.quorumCerts
  ledgerInfos := r.ledgerInfos

/-- `NUM_RETRIES`. -/
def numRetries : Nat := 5

/-- A peer that will be asked for blocks. -/
abbrev Peer := BlockRetrievalRequest → Option (Nat × BlockRetrievalResponse)

/-- The first answer of at most `attempts` peers that is accepted, with the peers left after it. -/
def firstAccepted (v : ValidatorVerifier) (request : BlockRetrievalRequest) :
    Nat → List Peer → Option BlockRetrievalResponse × List Peer
  | 0, peers => (none, peers)
  | _ + 1, [] => (none, [])
  | attempts + 1, peer :: rest =>
    match peer request with
    | none => firstAccepted v request attempts rest
    | some (now, response) =>
      match requestBlock v request now response with
      | .ok accepted => (some accepted, rest)
      | .error _ => firstAccepted v request attempts rest

/-- `retrieve_block_for_id_chunk` (`sync_manager.rs:1015`). -/
def retrieveChunk (cfg : NodeConfig) (request : BlockRetrievalRequest) :
    Sync BlockRetrievalResponse := do
  let s ← get
  modify fun s => { s with env := { s.env with
    retrieval := (firstAccepted cfg.validators request numRetries s.env.retrieval).2 } }
  match (firstAccepted cfg.validators request numRetries s.env.retrieval).1 with
  | some response => pure response
  | none => throw "Couldn't fetch block"

/-- Where the chain goes on after a batch. -/
def parentOfLast (blocks : List RetrievedBlock) : Except String HashValue :=
  match blocks.getLast? with
  | some last => .ok last.block.parentId
  | none => .error "Batch should not be empty"

/-- The loop of `retrieve_block_for_id`. Each round uses up an answer. -/
def retrieveLoop (cfg : NodeConfig) (start target : HashValue) (epoch : Option Nat) :
    Nat → Nat → HashValue → Nat → Sync Retrieved
  | 0, _, _, _ => throw "Couldn't fetch block"
  | fuel + 1, remaining, lastId, batchSize => do
    if remaining = 0 then pure { blocks := [], quorumCerts := [], ledgerInfos := [] }
    else
      let batchSize := min batchSize remaining
      let response ← retrieveChunk cfg
        { blockId := lastId, numBlocks := batchSize, targetBlockId := some target, epoch }
      match response.status with
      | .succeeded =>
        let next ← check (parentOfLast response.blocks)
        let others ← retrieveLoop cfg start target epoch fuel
          (remaining - response.blocks.length) next batchSize
        pure ((Retrieved.ofResponse response).append others)
      | .succeededWithTarget => pure (Retrieved.ofResponse response)
      | _ => throw s!"Failed to fetch block {lastId}, for original start {start}"

/-- `retrieve_block_for_id` (`sync_manager.rs:1114`), and `retrieve_blocks_in_range` when no epoch
is given. -/
def retrieveBlockForId (cfg : NodeConfig) (id target : HashValue) (numBlocks : Nat)
    (epoch : Option Nat) : Sync Retrieved := do
  let s ← get
  retrieveLoop cfg id target epoch (s.env.retrieval.length + 1) numBlocks id cfg.maxBlocksToRequest

/-- `retrieve_block_by_epoch` (`sync_manager.rs:1216`); the first request starts from the zero
identifier. -/
def retrieveBlockByEpoch (cfg : NodeConfig) (epoch : Nat) (target : HashValue) :
    Sync Retrieved := do
  let response ← retrieveChunk cfg
    { blockId := HashValue.zero, numBlocks := cfg.maxBlocksToRequest, targetBlockId := some target,
      epoch := some epoch }
  match response.status with
  | .succeeded =>
    let next ← check (parentOfLast response.blocks)
    let others ← retrieveBlockForId cfg next target u64Max (some epoch)
    pure ((Retrieved.ofResponse response).append others)
  | .succeededWithTarget => pure (Retrieved.ofResponse response)
  | _ => throw s!"Failed to fetch epoch {epoch}"

/-! ## What a sync stores -/

/-- The numbers of fetched blocks, as `save_tree` takes them. -/
def numbersOf (blocks : List RetrievedBlock) : List (Nat × Nat × HashValue) :=
  blocks.filterMap fun b => b.blockNumber.map fun number => (b.block.epoch, number, b.block.id)

/-- The randomness of fetched blocks; a value without a number is an `unwrap` of `None`. -/
def randomnessOf (blocks : List RetrievedBlock) : Except String (List (Nat × List UInt8)) :=
  (blocks.filter (·.randomness.isSome)).mapM fun b =>
    match b.blockNumber, b.randomness with
    | some number, some value => .ok (number, value)
    | _, _ => .error "called `Option::unwrap()` on a `None` value"

/-- The writes that both reverse paths make before they look at the ledger infos. -/
def saveBlocks (blocks : List RetrievedBlock) (quorumCerts : List QuorumCert) : Sync Unit := do
  check (ensure (blocks.map (·.block.id) = quorumCerts.map (·.certifiedBlock.id))
    "assertion failed: block.id() == quorum_certs[i].certified_block().id()")
  modify (·.withDb (·.saveTree (blocks.map (·.block)) quorumCerts (numbersOf blocks)))
  let values ← check (randomnessOf blocks)
  modify (·.withDb (·.putRandomness values))

variable [LedgerApi]

/-- The writes of ledger infos, without the latest one that is kept in memory. -/
def putLedgerInfos (ledgerInfos : List LedgerInfoWithSignatures) : Sync Unit :=
  modify (·.withDb (·.putLedgerInfos ledgerInfos))

def updateLatestLedgerInfo : Sync Unit := modify (·.withDb (·.updateLatestLedgerInfo))

/-! ## Fetching the blocks below a certificate -/

/-- The first loop of `fetch_quorum_cert`: the missing ancestors, oldest first. -/
def fetchMissing (cfg : NodeConfig) : Nat → QuorumCert → List RetrievedBlock →
    Sync (List RetrievedBlock)
  | 0, _, _ => throw "Couldn't fetch block"
  | fuel + 1, qc, pending => do
    let s ← get
    if s.blockExists qc.certifiedBlock.id = true then pure pending
    else
      let retrieved ← retrieveBlockForId cfg qc.certifiedBlock.id qc.certifiedBlock.id 1 none
      await
      match retrieved.blocks with
      | [] => pure pending
      | block :: _ => fetchMissing cfg fuel block.block.quorumCert (block :: pending)

/-- The randomness that comes with a fetched block, set on the block and stored. -/
def keepRandomness (ref : BlockRef) (b : RetrievedBlock) : Sync Unit :=
  match b.randomness with
  | none => pure ()
  | some randomness => do
    let id := b.block.id
    let number ← check (match b.blockNumber with
      | some number => .ok number
      | none => .error s!"randomness payload missing block number for block {id}")
    modify (·.updateBlock ref (·.setRandomness { metadata := b.block.metadata, randomness }))
    modify (·.withDb (·.putRandomness [(number, randomness)]))

/-- The body of the second loop of `fetch_quorum_cert`. -/
def insertFetched (cfg : NodeConfig) (b : RetrievedBlock) : Sync Unit := do
  insertSingleQuorumCert b.block.quorumCert false
  let ref ← insertBlock cfg b.block false
  keepRandomness ref b

/-- `fetch_quorum_cert` (`sync_manager.rs:301`). -/
def fetchQuorumCert (cfg : NodeConfig) (qc : QuorumCert) : Sync Unit := do
  let s ← get
  let pending ← fetchMissing cfg (s.env.retrieval.length + 1) qc []
  pending.forM (insertFetched cfg)
  insertSingleQuorumCert qc false

/-! ## Fast-forward sync -/

/-- The certificates that `fast_forward_sync` stores: its own, then those of the fetched blocks but
the last. -/
def certsFor (highest : QuorumCert) (blocks : List RetrievedBlock) : List QuorumCert :=
  highest :: (blocks.dropLast.map (·.block.quorumCert))

/-- The end of `fast_forward_sync`, for ledger infos in the order in which they are written. -/
def installLedgerInfos (cfg : NodeConfig) (blocks : List RetrievedBlock)
    (quorumCerts : List QuorumCert) (ledgerInfos : List LedgerInfoWithSignatures)
    (latest : LedgerInfoWithSignatures) : Sync Unit := do
  putLedgerInfos ledgerInfos
  updateLatestLedgerInfo
  if cfg.isValidator then
    let ok ← pipelineAnswers
    check (ensure (ok = true) "Failed to reset the execution client")
    let (root, blocks, quorumCerts) ← start latest.ledgerInfo.commitInfo.epoch
    updateLatestLedgerInfo
    rebuild cfg root blocks quorumCerts
  else appendBlocksForSync cfg blocks.reverse quorumCerts.reverse

/-- `fast_forward_sync` (`sync_manager.rs:497`). Arithmetic that leaves 64 bits panics. -/
def fastForwardSync (cfg : NodeConfig) (highest : QuorumCert)
    (commitCert : LedgerInfoWithSignatures) : Sync Unit := do
  let commitRound := commitCert.ledgerInfo.commitInfo.round
  check (ensure (commitRound ≤ highest.certifiedBlock.round) "attempt to subtract with overflow")
  let numBlocks := highest.certifiedBlock.round - commitRound + 1
  check (ensure (numBlocks < u64Max) "assertion failed: num_blocks < std::usize::MAX as u64")
  let retrieved ← retrieveBlockForId cfg highest.certifiedBlock.id
    commitCert.ledgerInfo.commitInfo.id numBlocks none
  await
  check (ensure (retrieved.blocks ≠ []) "blocks are empty")
  let quorumCerts := certsFor highest retrieved.blocks
  saveBlocks retrieved.blocks quorumCerts
  match retrieved.ledgerInfos with
  | [] => pure ()
  | latest :: _ =>
    installLedgerInfos cfg retrieved.blocks quorumCerts retrieved.ledgerInfos.reverse latest

/-! ## Sync of an epoch, backwards -/

/-- `is_epoch_change_li_boundary_locally_committed` (`sync_manager.rs:90`). -/
def boundaryCommitted (root : PipelinedBlock) (rootId : HashValue) (li : LedgerInfo) : Bool :=
  match li.commitInfo.epochBlockInfo with
  | some info =>
    match root.block.blockNumber with
    | some number => info.blockNumber < number ∨ (number = info.blockNumber ∧ rootId = info.blockId)
    | none => false
  | none => rootId = li.commitInfo.id

/-- `send_committed_epoch_change` (`sync_manager.rs:132`); the message goes to the node itself. -/
def sendCommittedEpochChange (li : LedgerInfoWithSignatures) : Sync Unit := do
  check (ensure (li.ledgerInfo.endsEpoch = true)
    "Cannot complete epoch sync with a non-epoch-ending ledger info")
  let s ← get
  let root ← check (rootBlock s s.tree.commitRootId)
  check (ensure (boundaryCommitted root s.tree.commitRootId li.ledgerInfo = true)
    "Epoch-change boundary is not locally committed")

/-- The ledger info of the highest version among those that end the epoch, the last one on a tie. -/
def latestEpochEnding (ledgerInfos : List LedgerInfoWithSignatures) :
    Option LedgerInfoWithSignatures :=
  (ledgerInfos.filter (·.ledgerInfo.endsEpoch)).foldl (fun best li =>
    match best with
    | some b =>
      if b.ledgerInfo.commitInfo.version ≤ li.ledgerInfo.commitInfo.version then some li else some b
    | none => some li) none

/-- The end of `fast_forward_sync_by_epoch_legacy`: the latest ledger info is installed only after
recovery data has been read. -/
def installEpoch (cfg : NodeConfig) (ledgerInfos : List LedgerInfoWithSignatures)
    (latest : LedgerInfoWithSignatures) : Sync Unit := do
  putLedgerInfos ledgerInfos
  let (root, blocks, quorumCerts) ← start latest.ledgerInfo.commitInfo.epoch
  updateLatestLedgerInfo
  rebuild cfg root blocks quorumCerts
  if latest.ledgerInfo.endsEpoch then sendCommittedEpochChange latest else pure ()

/-- `fast_forward_sync_by_epoch_legacy` (`sync_manager.rs:384`). -/
def fastForwardSyncByEpochLegacy (cfg : NodeConfig) (epoch : Nat) : Sync Unit := do
  let s ← get
  let commitInfo := s.tree.highestCommitCert.ledgerInfo.commitInfo
  let retrieved ← retrieveBlockByEpoch cfg epoch commitInfo.id
  await
  let kept := (retrieved.blocks.zip retrieved.quorumCerts).filter
    fun e => commitInfo.round < e.1.block.round
  if kept = [] then
    match latestEpochEnding retrieved.ledgerInfos with
    | some li => sendCommittedEpochChange li
    | none =>
      throw s!"No epoch-ending ledger info available to resume completed epoch {epoch}"
  else
    saveBlocks (kept.map (·.1)) (kept.map (·.2))
    match retrieved.ledgerInfos with
    | [] => pure ()
    | latest :: _ => installEpoch cfg retrieved.ledgerInfos.reverse latest

/-! ## Sync of an epoch, forwards -/

/-- The first of at most `attempts` answers that is neither a failed call nor `Busy`. -/
def firstForward : Nat → List (Option (Nat × ForwardEpochSyncResponse)) →
    Option (Nat × ForwardEpochSyncResponse) × List (Option (Nat × ForwardEpochSyncResponse))
  | 0, answers => (none, answers)
  | _ + 1, [] => (none, [])
  | attempts + 1, none :: rest => firstForward attempts rest
  | attempts + 1, some (_, .error .busy) :: rest => firstForward attempts rest
  | _ + 1, some answer :: rest => (some answer, rest)

/-- `request_forward_epoch_sync` (793) and `request_forward_epoch_sync_from_peer`. -/
def requestForward (attempts : Nat) : Sync (Option (Nat × ForwardEpochSyncResponse)) := do
  let s ← get
  modify fun s => { s with env := { s.env with
    forward := (firstForward attempts s.env.forward).2 } }
  await
  pure (firstForward attempts s.env.forward).1

/-- `try_prepare_forward_epoch_sync` (871). -/
def tryPrepare (cfg : NodeConfig) (epoch : Nat) : Sync (Option ForwardEpochSyncManifest) := do
  let answer ← requestForward 2
  match answer with
  | some (_, .prepared manifest) =>
    check (manifest.verify epoch cfg.validators)
    pure (some manifest)
  | some (_, .batch _) => throw "Forward epoch sync prepare returned a batch"
  | some (_, .error _) => pure none
  | none => pure none

/-- `fetch_forward_epoch_sync_batch` (943). -/
def fetchBatch (cfg : NodeConfig) (request : ForwardEpochSyncFetchRequest) :
    Sync (Option ForwardEpochSyncBatch) := do
  let answer ← requestForward numRetries
  match answer with
  | some (now, .batch batch) =>
    check (batch.verify request cfg.validators now)
    pure (some batch)
  | some (_, .error .batchBoundaryNotFound) => pure none
  | some (_, .error error) =>
    let error := error.name
    throw s!"Forward epoch sync fetch rejected: {error}"
  | some (_, .prepared _) => throw "Forward epoch sync fetch returned a manifest"
  | none => throw "Forward epoch sync peer unavailable"

/-- `persist_forward_epoch_sync_ledger_infos` (733). -/
def persistLedgerInfos (ledgerInfos : List LedgerInfoWithSignatures) : Sync Unit :=
  if ledgerInfos = [] then pure ()
  else do
    putLedgerInfos ledgerInfos
    updateLatestLedgerInfo

def ForwardEpochSyncRecord.retrieved (r : ForwardEpochSyncRecord) : RetrievedBlock where
  block := r.block
  blockNumber := r.blockNumber
  randomness := r.randomness

/-- The blocks, certificates and randomness of a page; numbers are stored under its epoch. -/
def saveBatch (batch : ForwardEpochSyncBatch) : Sync Unit := do
  let numbers := batch.records.filterMap fun r =>
    r.blockNumber.map fun number => (batch.epoch, number, r.block.id)
  modify (·.withDb (·.saveTree (batch.records.map (·.block)) (batch.records.map (·.quorumCert))
    numbers))
  modify (·.withDb (·.putRandomness (batch.records.filterMap fun r =>
    r.blockNumber.bind fun number => r.randomness.map fun value => (number, value))))

/-- `persist_and_process_forward_epoch_sync_batch` (751). -/
def persistBatch (cfg : NodeConfig) (batch : ForwardEpochSyncBatch) : Sync Unit := do
  saveBatch batch
  persistLedgerInfos batch.ledgerInfos
  appendBlocksForSyncChecked cfg (batch.records.map ForwardEpochSyncRecord.retrieved)
    (batch.records.map (·.quorumCert))

/-- The commit root with its number. -/
def numberedCommitRoot (missing : String) : Sync (PipelinedBlock × Nat) := do
  let s ← get
  let root ← check (rootBlock s s.tree.commitRootId)
  let number ← check (match root.block.blockNumber with
    | some number => .ok number
    | none => .error missing)
  pure (root, number)

/-- `forward_epoch_sync_target_committed` (679). -/
def targetCommitted (manifest : ForwardEpochSyncManifest) : Sync Bool := do
  let (root, number) ← numberedCommitRoot
    "Commit root has no block number during forward epoch sync"
  check (ensure (number = manifest.targetBlockNumber → root.id = manifest.targetBlockId)
    "Forward epoch sync target conflicts with local commit root")
  pure (manifest.targetBlockNumber ≤ number)

/-- `forward_epoch_sync_commit_proof_target_is_ordered` (697). -/
def proofTargetOrdered (s : NodeState) (root : PipelinedBlock)
    (manifest : ForwardEpochSyncManifest) : Bool :=
  match pathFromRoot s s.tree.commitRootId root.block.round (s.tree.blocks.length + 1)
    s.tree.orderedRootId [] with
  | some path => path.any fun ref =>
    s.tree.blocks.get manifest.targetLedgerInfo.ledgerInfo.commitInfo.id = some ref
  | none => false

/-- `ensure_forward_epoch_sync_target_fetched` (656). -/
def ensureTargetFetched (manifest : ForwardEpochSyncManifest) : Sync Unit := do
  let s ← get
  let targetId := manifest.targetBlockId
  let target ← check (match s.getBlock targetId with
    | some block => .ok block
    | none => .error
        s!"Forward epoch sync source exhausted before target block {targetId} was fetched")
  check (ensure (target.block.blockNumber = some manifest.targetBlockNumber)
    "Forward epoch sync target block number does not match manifest")
  let id := manifest.targetLedgerInfo.ledgerInfo.commitInfo.id
  check (ensure (s.blockExists id = true)
    s!"Forward epoch sync source exhausted before commit-proof target {id} was fetched")

/-- `wait_for_forward_epoch_sync_target` (711): whether the target is committed in time. -/
def waitForTarget (manifest : ForwardEpochSyncManifest) : Sync Bool := do
  await
  let inTime ← pipelineAnswers
  if inTime then targetCommitted manifest else pure false

/-- The decision of the manifest is stored and sent to the pipeline, which may commit it. -/
def commitTarget (manifest : ForwardEpochSyncManifest) : Sync Bool := do
  persistLedgerInfos [manifest.targetLedgerInfo]
  let committed ← waitForTarget manifest
  if committed then
    sendCommittedEpochChange manifest.targetLedgerInfo
    pure true
  else pure false

/-- The loop of `fast_forward_sync_by_epoch_forward`. Each page uses up an answer. -/
def forwardLoop (cfg : NodeConfig) (manifest : ForwardEpochSyncManifest) (epoch batchSize : Nat) :
    Nat → Nat → HashValue → Sync Bool
  | 0, _, _ => throw "Forward epoch sync peer unavailable"
  | fuel + 1, anchorNumber, anchorId => do
    let page ← fetchBatch cfg
      { epoch, manifestId := manifest.manifestId, anchorBlockNumber := anchorNumber,
        anchorBlockId := anchorId, batchSizeBlocks := batchSize }
    match page with
    | none =>
      let committed ← targetCommitted manifest
      if committed then
        sendCommittedEpochChange manifest.targetLedgerInfo
        pure true
      else
        ensureTargetFetched manifest
        commitTarget manifest
    | some batch =>
      persistBatch cfg batch
      let _ ← numberedCommitRoot "Commit root has no block number after forward replay"
      let committed ← targetCommitted manifest
      if committed then
        sendCommittedEpochChange manifest.targetLedgerInfo
        pure true
      else
        forwardLoop cfg manifest epoch batchSize fuel batch.nextAnchorBlockNumber
          batch.nextAnchorBlockId

/-- `fast_forward_sync_by_epoch_forward` (537); `false` asks for the legacy path. -/
def fastForwardSyncByEpochForward (cfg : NodeConfig) (epoch batchSize : Nat) : Sync Bool := do
  let s ← get
  let root ← check (rootBlock s s.tree.orderedRootId)
  let anchorNumber ← check (match root.block.blockNumber with
    | some number => .ok number
    | none => .error "Ordered root has no block number")
  let prepared ← tryPrepare cfg epoch
  match prepared with
  | none => pure false
  | some manifest =>
    let committed ← targetCommitted manifest
    if committed then
      sendCommittedEpochChange manifest.targetLedgerInfo
      pure true
    else
      let s ← get
      let commitRoot ← check (rootBlock s s.tree.commitRootId)
      if proofTargetOrdered s commitRoot manifest then commitTarget manifest
      else
        forwardLoop cfg manifest epoch batchSize (s.env.forward.length + 1) anchorNumber root.id

/-- `fast_forward_sync_by_epoch` (510). -/
def fastForwardSyncByEpoch (cfg : NodeConfig) (epoch batchSize : Nat) : Sync Unit :=
  if cfg.forwardEpochSyncEnabled then do
    check (ensure (0 < batchSize) "Forward epoch sync batch size must be positive")
    let done ← fastForwardSyncByEpochForward cfg epoch batchSize
    if done then pure () else fastForwardSyncByEpochLegacy cfg epoch
  else fastForwardSyncByEpochLegacy cfg epoch

end SyncManager

end Liquent
