import Liquent.Misc.RoundRobin
import Liquent.Misc.Run
import Liquent.QuorumStore.Types

/-!
# The proof manager

The part of the quorum store that fills proposals (`proof_manager.rs`, and `ProofQueue` in
`utils.rs`, cited by line).  Proofs of store wait in one queue; batches whose proof has not arrived
wait in another, from which they may be put into a proposal inline.  A commit notification removes
its batches from both.

Times of arrival and the occurrences of transactions that are only counted for back pressure are
left out.  The counters of what remains are kept, since `dec_remaining` panics when one would fall
below zero; they count in `Nat` on the way up.
-/

namespace Liquent

open Misc

namespace QuorumStore

/-! ## Keys -/

/-- `BatchKey` of `utils.rs`: what identifies a batch. -/
structure AuthorKey where
  author : Author
  batchId : BatchId
deriving DecidableEq

/-- `from_info` (137). -/
def AuthorKey.fromInfo (info : BatchInfo) : AuthorKey where
  author := info.author
  batchId := info.batchId

/-- `BatchSortKey`: the key with the gas bucket, by which the batches of an author are sorted. -/
structure BatchSortKey where
  batchKey : AuthorKey
  gasBucketStart : Nat
deriving DecidableEq

/-- `from_info` (149). -/
def BatchSortKey.fromInfo (info : BatchInfo) : BatchSortKey where
  batchKey := .fromInfo info
  gasBucketStart := info.gasBucketStart

/-- Gas buckets from the highest down, batches of one bucket from the oldest on. -/
def BatchSortKey.visitedBefore (a b : BatchSortKey) : Bool :=
  if a.gasBucketStart = b.gasBucketStart then
    if a.batchKey.batchId.nonce = b.batchKey.batchId.nonce then
      a.batchKey.batchId.id ≤ b.batchKey.batchId.id
    else a.batchKey.batchId.nonce < b.batchKey.batchId.nonce
  else b.gasBucketStart < a.gasBucketStart

/-- The batches of all authors; those of one author are a map of their own in the source. -/
abbrev AuthorBatches := Table BatchSortKey BatchInfo

/-- One iterator for each author. -/
def AuthorBatches.iterators (batches : AuthorBatches) : List (List (BatchSortKey × BatchInfo)) :=
  (batches.map (·.1.batchKey.author)).dedup.map fun author =>
    (batches.filter (·.1.batchKey.author = author)).insertionSort
      (fun a b => a.1.visitedBefore b.1)

structure TxnSummaryWithExpiration where
  sender : Author
  sequenceNumber : Nat
  expirationTimestampSecs : Nat
  hash : HashValue
deriving DecidableEq

/-- What is known of the transactions of a batch, its expiration, and whether its proof had been
received when its transactions were counted. -/
structure BatchSummary where
  txnSummaries : List TxnSummaryWithExpiration
  expiration : Nat
  added : Bool
deriving DecidableEq

/-! ## Proofs -/

/-- The proofs that remain in a queue and their transactions, of all authors and of its own peer. -/
structure Remaining where
  txnsWithDuplicates : Nat := 0
  proofs : Nat := 0
  localTxns : Nat := 0
  localProofs : Nat := 0
deriving DecidableEq

/-- `inc_remaining` (219). -/
def Remaining.inc (r : Remaining) (own : Bool) (numTxns : Nat) : Remaining where
  txnsWithDuplicates := r.txnsWithDuplicates + numTxns
  proofs := r.proofs + 1
  localTxns := if own then r.localTxns + numTxns else r.localTxns
  localProofs := if own then r.localProofs + 1 else r.localProofs

/-- `dec_remaining` (229), with overflow checks as in the release profile. -/
def Remaining.dec (r : Remaining) (own : Bool) (numTxns : Nat) : Except String Remaining := do
  ensure (numTxns ≤ r.txnsWithDuplicates ∧ 1 ≤ r.proofs ∧
    (own → numTxns ≤ r.localTxns ∧ 1 ≤ r.localProofs)) "attempt to subtract with overflow"
  pure
    { txnsWithDuplicates := r.txnsWithDuplicates - numTxns
      proofs := r.proofs - 1
      localTxns := if own then r.localTxns - numTxns else r.localTxns
      localProofs := if own then r.localProofs - 1 else r.localProofs }

structure ProofQueue where
  myPeerId : Author
  authorToBatches : AuthorBatches := []
  /-- Nothing under a key means that the batch is committed. -/
  batchToProof : Table AuthorKey (Option ProofOfStore) := []
  batchSummaries : Table AuthorKey BatchSummary := []
  expirations : List (Nat × BatchSortKey) := []
  latestBlockTimestamp : Nat := 0
  remaining : Remaining := {}
deriving DecidableEq

/-- The limits of a request for a payload, and the time of its block. -/
structure PullLimits where
  maxTxns : Nat
  maxTxnsAfterFiltering : Nat
  softMaxTxnsAfterFiltering : Nat
  maxBytes : Nat
  returnNonFull : Bool
  blockTimestampSecs : Nat
deriving DecidableEq

/-- The variables of `pull_proofs`. -/
structure PullState where
  ret : List ProofOfStore := []
  curBytes : Nat := 0
  curUniqueTxns : Nat := 0
  curAllTxns : Nat := 0
  full : Bool := false
  filteredTxns : List TxnSummaryWithExpiration := []

namespace ProofQueue

/-- `ProofQueue::push` (276). -/
def push (q : ProofQueue) (proof : ProofOfStore) : ProofQueue :=
  let key := AuthorKey.fromInfo proof.info
  let sortKey := BatchSortKey.fromInfo proof.info
  if proof.info.expiration ≤ q.latestBlockTimestamp then q
  else if (q.batchToProof.get key).isSome then q
  else
    { q with
      authorToBatches := q.authorToBatches.put sortKey proof.info
      expirations := q.expirations ++ [(proof.info.expiration, sortKey)]
      batchToProof := q.batchToProof.put key (some proof)
      batchSummaries := q.batchSummaries.mapValues fun k summary =>
        if k = key then { summary with added := true } else summary
      remaining := q.remaining.inc (proof.info.author = q.myPeerId) proof.info.numTxns }

/-- One batch of `add_batch_summaries` (320). -/
def addBatchSummary (q : ProofQueue) (info : BatchInfo)
    (txnSummaries : List TxnSummaryWithExpiration) : ProofQueue :=
  let sortKey := BatchSortKey.fromInfo info
  let proofExists := (q.authorToBatches.get sortKey).isSome &&
    ((q.batchToProof.get sortKey.batchKey).any (·.isSome))
  if (q.batchSummaries.get sortKey.batchKey).all (!·.added) then
    { q with
      batchSummaries := q.batchSummaries.put sortKey.batchKey
        { txnSummaries, expiration := info.expiration, added := proofExists } }
  else q

/-- `gc_expired_batch_summaries_without_proofs` (369), which runs from time to time. -/
def gcExpiredBatchSummaries (q : ProofQueue) (now : Nat) : ProofQueue :=
  { q with batchSummaries := q.batchSummaries.filter fun e => e.2.added || now < e.2.expiration }

/-- The transactions of a batch that are new to a proposal and not expired. -/
def uniqueTxns (txnSummaries filtered : List TxnSummaryWithExpiration)
    (timestampSecs : Nat) : Nat :=
  (txnSummaries.filter fun s => s ∉ filtered ∧ timestampSecs < s.expirationTimestampSecs).length

/-- Another batch is beyond the hard limits. -/
def exceeds (q : ProofQueue) (limits : PullLimits) (s : PullState) (sortKey : BatchSortKey)
    (batch : BatchInfo) : Bool :=
  let added := match q.batchSummaries.get sortKey.batchKey with
    | some summary => uniqueTxns summary.txnSummaries s.filteredTxns limits.blockTimestampSecs
    | none => batch.numTxns
  limits.maxBytes < s.curBytes + batch.numBytes ∨
    limits.maxTxnsAfterFiltering < s.curUniqueTxns + added ∨
    limits.maxTxns < s.curAllTxns + batch.numTxns

/-- The closure of `pull_proofs`, for one author. -/
def pullVisit (q : ProofQueue) (excluded : List BatchInfo) (limits : PullLimits) (s : PullState) :
    List (BatchSortKey × BatchInfo) → PullState × Option (List (BatchSortKey × BatchInfo))
  | [] => (s, none)
  | (sortKey, batch) :: rest =>
    if batch ∈ excluded then (s, some rest)
    else
      match q.batchToProof.get sortKey.batchKey with
      | some (some proof) =>
        if q.exceeds limits s sortKey batch then ({ s with full := true }, none)
        else
          let s : PullState :=
            { s with
              ret := s.ret ++ [proof]
              curBytes := s.curBytes + batch.numBytes
              curAllTxns := s.curAllTxns + batch.numTxns
              -- a transaction that is listed twice in a batch is counted once here
              curUniqueTxns := s.curUniqueTxns +
                match q.batchSummaries.get sortKey.batchKey with
                | some summary => uniqueTxns summary.txnSummaries.dedup s.filteredTxns
                    limits.blockTimestampSecs
                | none => batch.numTxns
              filteredTxns := s.filteredTxns ++
                ((q.batchSummaries.get sortKey.batchKey).map (·.txnSummaries)).getD [] }
          if s.curBytes = limits.maxBytes ∨ s.curAllTxns = limits.maxTxns ∨
              s.curUniqueTxns = limits.maxTxnsAfterFiltering ∨
              limits.softMaxTxnsAfterFiltering ≤ s.curUniqueTxns then
            ({ s with full := true }, none)
          else (s, some rest)
      | _ => (s, some rest)

/-- `pull_proofs` (430): the proofs, the number of unique transactions in them, and whether the
queue is fully utilized. -/
def pullProofs (q : ProofQueue) (shuffle : Shuffle (List (BatchSortKey × BatchInfo)))
    (excluded : List BatchInfo) (limits : PullLimits) : List ProofOfStore × Nat × Bool :=
  let filteredTxns := excluded.flatMap fun info =>
    ((q.batchSummaries.get (.fromInfo info)).map (·.txnSummaries)).getD []
  let iters := q.authorToBatches.iterators
  let s := roundRobin shuffle (q.pullVisit excluded limits) (roundFuel iters) 0 { filteredTxns }
    iters
  if s.full || limits.returnNonFull then
    (s.ret.insertionSort (fun a b => b.info.gasBucketStart ≤ a.info.gasBucketStart),
      s.curUniqueTxns, !s.full)
  else ([], 0, !s.full)

/-- What remains without a batch; a batch without a proof was not counted. -/
def remainingWithout (q : ProofQueue) (proof : Option ProofOfStore) (batch : BatchInfo) :
    Except String Remaining :=
  if proof.isSome then q.remaining.dec (batch.author = q.myPeerId) batch.numTxns
  else .ok q.remaining

/-- `mark_committed` (689), for one batch. -/
def markCommitted (q : ProofQueue) (batch : BatchInfo) : Except String ProofQueue := do
  let key := AuthorKey.fromInfo batch
  let remaining ← q.remainingWithout (q.batchToProof.get key).join batch
  pure { q with
    batchToProof := q.batchToProof.put key none
    batchSummaries := q.batchSummaries.retain (· ≠ key)
    remaining }

/-- The loop of `handle_updated_block_timestamp`, for one expired key. -/
def expireKey (q : ProofQueue) (sortKey : BatchSortKey) : Except String ProofQueue :=
  match q.authorToBatches.get sortKey with
  | none => .ok q
  | some batch => do
    let proof ← expect (q.batchToProof.get sortKey.batchKey) "Entry for unexpired batch must exist"
    let remaining ← q.remainingWithout proof batch
    pure { q with
      authorToBatches := q.authorToBatches.retain (· ≠ sortKey)
      batchToProof := q.batchToProof.retain (· ≠ sortKey.batchKey)
      batchSummaries :=
        if proof.isSome then q.batchSummaries.retain (· ≠ sortKey.batchKey) else q.batchSummaries
      remaining }

/-- `handle_updated_block_timestamp` (564). -/
def handleUpdatedBlockTimestamp (q : ProofQueue) (blockTimestamp : Nat) :
    Except String ProofQueue := do
  ensure (q.latestBlockTimestamp ≤ blockTimestamp) "Decreasing block timestamp"
  let expired := ((q.expirations.filter (·.1 ≤ blockTimestamp)).map (·.2)).dedup
  expired.foldlM expireKey
    { q with
      latestBlockTimestamp := blockTimestamp
      expirations := q.expirations.filter (blockTimestamp < ·.1) }

end ProofQueue

/-! ## Batches without proofs -/

/-- The variables of `pull_batches`. -/
structure InlineState where
  result : List (BatchInfo × List SignedTransaction) := []
  numTxns : Nat := 0
  numBytes : Nat := 0
  full : Bool := false

namespace BatchQueue

/-- `remove_batch` (`proof_manager.rs:59`). -/
def removeBatch (batches : AuthorBatches) (batch : BatchInfo) : AuthorBatches :=
  batches.retain (· ≠ BatchSortKey.fromInfo batch)

/-- `add_batches` (`proof_manager.rs:52`). -/
def addBatches (batches : AuthorBatches) (added : List BatchInfo) : AuthorBatches :=
  added.foldl (fun batches batch => batches.put (BatchSortKey.fromInfo batch) batch) batches

/-- `remove_expired_batches` (`proof_manager.rs:65`), at the given time. -/
def removeExpiredBatches (batches : AuthorBatches) (now : Nat) : AuthorBatches :=
  batches.filter fun e => !decide (e.2.expiration < now)

/-- The closure of `pull_batches`, for one author.  `localPayload` is what the batch store has. -/
def pullVisit (localPayload : BatchKey → Option (List SignedTransaction)) (maxTxns maxBytes : Nat)
    (excluded : List BatchInfo) (s : InlineState) :
    List (BatchSortKey × BatchInfo) → InlineState × Option (List (BatchSortKey × BatchInfo))
  | [] => (s, none)
  | (_, batch) :: rest =>
    if s.full then (s, none)
    else if batch ∈ excluded then (s, some rest)
    else if s.numTxns + batch.numTxns ≤ maxTxns ∧ s.numBytes + batch.numBytes ≤ maxBytes then
      match localPayload batch.key with
      | some txns =>
        ({ s with
          result := s.result ++ [(batch, txns)]
          numTxns := s.numTxns + batch.numTxns
          numBytes := s.numBytes + batch.numBytes }, some rest)
      | none => (s, some rest)
    else ({ s with full := true }, none)

/-- `pull_batches` (`proof_manager.rs:78`). -/
def pullBatches (batches : AuthorBatches) (shuffle : Shuffle (List (BatchSortKey × BatchInfo)))
    (localPayload : BatchKey → Option (List SignedTransaction)) (maxTxns maxBytes : Nat)
    (excluded : List BatchInfo) : List (BatchInfo × List SignedTransaction) :=
  (roundRobin shuffle (pullVisit localPayload maxTxns maxBytes excluded)
    (roundFuel batches.iterators) 0 {} batches.iterators).result

end BatchQueue

/-! ## The manager -/

inductive PayloadFilter where
  | empty
  | directMempool
  | inQuorumStore (batches : List BatchInfo)
deriving DecidableEq

/-- The batches that a filter excludes. -/
def PayloadFilter.excluded : PayloadFilter → List BatchInfo
  | .inQuorumStore batches => batches
  | _ => []

/-- A request for a payload; what the batch store has at that time, and the orders in which the
authors are visited. -/
structure PayloadRequest where
  limits : PullLimits
  maxInlineTxns : Nat
  maxInlineBytes : Nat
  filter : PayloadFilter
  localPayload : BatchKey → Option (List SignedTransaction)
  proofOrder : Shuffle (List (BatchSortKey × BatchInfo))
  batchOrder : Shuffle (List (BatchSortKey × BatchInfo))

structure ProofManager where
  proofsForConsensus : ProofQueue
  batchQueue : AuthorBatches := []
  allowBatchesWithoutPosInProposal : Bool

namespace ProofManager

def new (myPeerId : Author) (allowBatchesWithoutPosInProposal : Bool) : ProofManager where
  proofsForConsensus := { myPeerId }
  allowBatchesWithoutPosInProposal := allowBatchesWithoutPosInProposal

/-- `receive_proofs` (`proof_manager.rs:158`), for one proof. -/
def receiveProof (m : ProofManager) (proof : ProofOfStore) : ProofManager :=
  { m with
    batchQueue := BatchQueue.removeBatch m.batchQueue proof.info
    proofsForConsensus := m.proofsForConsensus.push proof }

/-- `receive_batches` (`proof_manager.rs:168`). -/
def receiveBatches (m : ProofManager)
    (batches : List (BatchInfo × List TxnSummaryWithExpiration)) : ProofManager :=
  { m with
    batchQueue :=
      if m.allowBatchesWithoutPosInProposal then
        BatchQueue.addBatches m.batchQueue (batches.map (·.1))
      else m.batchQueue
    proofsForConsensus :=
      batches.foldl (fun q batch => q.addBatchSummary batch.1 batch.2) m.proofsForConsensus }

/-- `handle_commit_notification` (`proof_manager.rs:182`), at the given time. -/
def handleCommitNotification (m : ProofManager) (now blockTimestamp : Nat)
    (batches : List BatchInfo) : Except String ProofManager := do
  let queue := batches.foldl BatchQueue.removeBatch
    (BatchQueue.removeExpiredBatches m.batchQueue now)
  let proofs ← batches.foldlM ProofQueue.markCommitted m.proofsForConsensus
  let proofs ← proofs.handleUpdatedBlockTimestamp blockTimestamp
  pure { m with batchQueue := queue, proofsForConsensus := proofs }

/-- `handle_proposal_request` (`proof_manager.rs:199`): the payload that is answered. -/
def handleProposalRequest (m : ProofManager) (r : PayloadRequest) : Except String Payload := do
  ensure (r.filter ≠ .directMempool) "internal error: entered unreachable code"
  let excluded := r.filter.excluded
  let (proofBlock, curUniqueTxns, fullyUtilized) :=
    m.proofsForConsensus.pullProofs r.proofOrder excluded r.limits
  let curAllTxns := (proofBlock.map (·.info.numTxns)).sum
  let curBytes := (proofBlock.map (·.info.numBytes)).sum
  let inlineBlock :=
    if m.allowBatchesWithoutPosInProposal && fullyUtilized then
      BatchQueue.pullBatches m.batchQueue r.batchOrder r.localPayload
        (min (min (r.limits.maxTxns - curAllTxns) (r.limits.maxTxnsAfterFiltering - curUniqueTxns))
          r.maxInlineTxns)
        (min (r.limits.maxBytes - curBytes) r.maxInlineBytes)
        (excluded ++ proofBlock.map (·.info))
    else []
  pure (
    if proofBlock = [] ∧ inlineBlock = [] then
      if m.allowBatchesWithoutPosInProposal then .quorumStoreInlineHybrid [] [] none
      else .inQuorumStore []
    else if inlineBlock = [] then .inQuorumStore proofBlock
    else .quorumStoreInlineHybrid inlineBlock proofBlock none)

end ProofManager

/-! ## Events in any order -/

/-- What can happen next at the manager. -/
inductive Event where
  | receiveProofs (proofs : List ProofOfStore)
  | receiveBatches (batches : List (BatchInfo × List TxnSummaryWithExpiration))
  | commitNotification (now blockTimestamp : Nat) (batches : List BatchInfo)
  | gcSummaries (now : Nat)
  | proposalRequest (request : PayloadRequest)

/-- The manager, the batches that have been committed so far, and whether a panic has ended it. -/
structure Node where
  manager : ProofManager
  committed : List AuthorKey := []
  stopped : Bool := false

/-- One event, with the payload that is answered to a request. -/
def Node.step (w : Node) (event : Event) : Option Payload × Node :=
  if w.stopped then (none, w)
  else
    match event with
    | .receiveProofs proofs =>
      (none, { w with manager := proofs.foldl ProofManager.receiveProof w.manager })
    | .receiveBatches batches => (none, { w with manager := w.manager.receiveBatches batches })
    | .commitNotification now blockTimestamp batches =>
      let committed := w.committed ++ batches.map AuthorKey.fromInfo
      match w.manager.handleCommitNotification now blockTimestamp batches with
      | .ok manager => (none, { w with manager, committed })
      | .error _ => (none, { w with committed, stopped := true })
    | .gcSummaries now =>
      let proofs := w.manager.proofsForConsensus.gcExpiredBatchSummaries now
      (none, { w with manager := { w.manager with proofsForConsensus := proofs } })
    | .proposalRequest request =>
      match w.manager.handleProposalRequest request with
      | .ok payload => (some payload, w)
      | .error _ => (none, { w with stopped := true })

end QuorumStore

/-- The batches that a payload of the quorum store proposes, by proof or inline. -/
def Payload.proposed : Payload → List BatchInfo
  | .inQuorumStore proofs => proofs.map (·.info)
  | .inQuorumStoreWithLimit proofs _ => proofs.map (·.info)
  | .quorumStoreInlineHybrid inlineBatches proofs _ =>
    proofs.map (·.info) ++ inlineBatches.map (·.1)
  | .optQuorumStore payload =>
    payload.proofs.map (·.info) ++ payload.optBatches ++ payload.inlineBatches.map (·.1)
  | .directMempool _ => []

end Liquent
