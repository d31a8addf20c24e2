import Liquent.Pipeline.Buffer
import Liquent.Pipeline.BufferItem

/-!
# The buffer manager

The main loop of the decoupled pipeline (`buffer_manager.rs`, cited by line).  An event is one
message on one of its channels; a step handles it to the end.  After a panic the manager handles
nothing; what it had sent before stays sent.

The phases themselves (execution, signing, persisting) are outside: their requests are recorded in
the order in which they are sent, their responses are events.  Timers may fire at any time, so
retries are events too.  Broadcasts are left out.
-/

namespace Liquent.Pipeline

open Misc

/-- `CommitMessage`, without the replies to a broadcast. -/
inductive CommitMessage where
  | vote (commitVote : CommitVote)
  | decision (proof : LedgerInfoWithSignatures)
deriving DecidableEq

/-- `verify` (`commit_reliable_broadcast.rs:39`). -/
def CommitMessage.verify [Crypto] [LedgerApi] (v : ValidatorVerifier) :
    CommitMessage → Except String Unit
  | .vote commitVote => commitVote.verify v
  | .decision proof => verifyCommitDecision proof v

structure PersistingRequest where
  blocks : List PipelinedBlock
  commitLedgerInfo : LedgerInfoWithSignatures
deriving DecidableEq

/-- What is sent to the phases. -/
inductive Request where
  | execution (orderedBlocks : List PipelinedBlock)
  | signing (orderedLedgerInfo : LedgerInfoWithSignatures) (commitLedgerInfo : LedgerInfo)
  | persisting (request : PersistingRequest)
deriving DecidableEq

def Request.persistingRequest : Request → Option PersistingRequest
  | .persisting request => some request
  | _ => none

structure ExecutionResponse where
  blockId : HashValue
  inner : Except String (List PipelinedBlock)

structure SigningResponse where
  signatureResult : Except String Signature
  commitLedgerInfo : LedgerInfo

inductive ResetSignal where
  | stop
  | targetRound (round : Nat)
deriving DecidableEq

/-- The votes kept for blocks that are not in the buffer yet, by round, block and author. -/
abbrev CommitVoteCache := Table Nat (Table HashValue (Table Author CommitVote))

structure BufferManager where
  author : Author
  buffer : Buffer BufferItem := {}
  executionRoot : Cursor := none
  signingRoot : Cursor := none
  stop : Bool := false
  epochState : EpochState
  endEpochTimestamp : Option Nat := none
  orderVoteEnabled : Bool
  highestCommittedRound : Nat
  latestRound : Nat
  commitVoteCache : CommitVoteCache := []
  maxPendingRoundsInCommitVoteCache : Nat
  pendingCommitProofs : Table Nat LedgerInfoWithSignatures := []
  /-- The requests sent so far. -/
  sent : List Request := []

/-- A panic, with the manager as it was then. -/
structure Panic where
  message : String
  manager : BufferManager

abbrev Outcome := Except Panic

/-- The text of `Option::unwrap` on nothing. -/
def unwrapNone : String := "called Option::unwrap() on a None value"

/-- Addition on `u64`, which is checked in every build profile. -/
def checkedAdd (a b : Nat) : Except String Nat :=
  if a + b ≤ u64Max then .ok (a + b) else .error "attempt to add with overflow"

inductive CommitVoteRoundClass where
  | alreadyCommitted
  | outsideWindow
  | inWindow
deriving DecidableEq

/-- `classify_commit_vote_round` (195). -/
def classifyCommitVoteRound (round highestCommittedRound maxCachedRound : Nat) :
    CommitVoteRoundClass :=
  if round ≤ highestCommittedRound then .alreadyCommitted
  else if maxCachedRound ≤ round then .outsideWindow
  else .inWindow

def maxCachedBlockIdsPerAuthorPerCommitVoteRound : Nat := 2

/-- `can_cache_commit_vote_for_block` (209). -/
def canCacheCommitVoteForBlock (roundCache : Table HashValue (Table Author CommitVote))
    (blockId : HashValue) (author : Author) : Bool :=
  (roundCache.get blockId).isSome ||
    (roundCache.filter fun entry => (entry.2.get author).isSome).length <
      maxCachedBlockIdsPerAuthorPerCommitVoteRound

namespace BufferManager

variable (m : BufferManager)

/-- The manager of an epoch before its first event (226). -/
def new (author : Author) (epochState : EpochState) (orderVoteEnabled : Bool)
    (highestCommittedRound maxPendingRounds : Nat) : BufferManager where
  author := author
  epochState := epochState
  orderVoteEnabled := orderVoteEnabled
  highestCommittedRound := highestCommittedRound
  latestRound := highestCommittedRound
  maxPendingRoundsInCommitVoteCache := maxPendingRounds

/-- Panics where a called function does. -/
def orPanic {α : Type} (x : Except String α) : Outcome α :=
  x.mapError fun message => { message := message, manager := m }

def send (request : Request) : BufferManager := { m with sent := m.sent ++ [request] }

def maxPendingCommitProofs : Nat := 100

/-- The pending commit proofs after room has been made for one of the given round, if it may be
kept. -/
def makeRoom (proofs : Table Nat LedgerInfoWithSignatures) (round : Nat) :
    Option (Table Nat LedgerInfoWithSignatures) :=
  if maxPendingCommitProofs ≤ proofs.length then
    match proofs.keys.min? with
    | some oldest => if round ≤ oldest then none else some (proofs.retain (· ≠ oldest))
    | none => some proofs
  else some proofs

/-- `try_add_pending_commit_proof` (317). -/
def tryAddPendingCommitProof (proof : LedgerInfoWithSignatures) : BufferManager :=
  let round := proof.ledgerInfo.commitInfo.round
  if m.highestCommittedRound < round then
    match makeRoom m.pendingCommitProofs round with
    | some proofs => { m with pendingCommitProofs := proofs.put round proof }
    | none => m
  else m

/-- `drain_pending_commit_proof_till` (365): the proof of the highest round that is not later. -/
def drainPendingCommitProofTill (round : Nat) :
    Outcome (Option LedgerInfoWithSignatures × BufferManager) := do
  let bound ← m.orPanic (checkedAdd round 1)
  pure (((m.pendingCommitProofs.retain (· < bound)).last).map (·.2),
    { m with pendingCommitProofs := m.pendingCommitProofs.retain (bound ≤ ·) })

/-- `cache_commit_vote` (410). -/
def cacheCommitVote (vote : CommitVote) : BufferManager :=
  let round := vote.commitInfo.round
  let blockId := vote.commitInfo.id
  let highest := m.highestCommittedRound
  let maxCached := min (highest + m.maxPendingRoundsInCommitVoteCache) u64Max
  let cache := m.commitVoteCache.retain fun cached => highest < cached && cached < maxCached
  match classifyCommitVoteRound round highest maxCached with
  | .inWindow =>
    let roundCache := (cache.get round).getD []
    if canCacheCommitVoteForBlock roundCache blockId vote.author then
      let votes := ((roundCache.get blockId).getD []).put vote.author vote
      { m with commitVoteCache := cache.put round (roundCache.put blockId votes) }
    else { m with commitVoteCache := cache.put round roundCache }
  | _ => { m with commitVoteCache := cache }

/-- `drain_cached_commit_votes` (464). -/
def drainCachedCommitVotes (round : Nat) (blockId : HashValue) : List CommitVote × BufferManager :=
  match m.commitVoteCache.get round with
  | some roundCache =>
    let votes := ((roundCache.get blockId).getD []).map (·.2)
    let rest := roundCache.retain (· ≠ blockId)
    (votes, { m with
      commitVoteCache := if rest = [] then m.commitVoteCache.retain (· ≠ round)
        else m.commitVoteCache.put round rest })
  | none => ([], m)

section Api

variable [Crypto] [LedgerApi] [PipelineApi]

/-- Adds the votes that match; the others are dropped. -/
def addSignatures (item : BufferItem) (votes : List CommitVote) : BufferItem :=
  votes.foldl (fun item vote => ((item.addSignatureIfMatched vote).toOption).getD item) item

/-- `process_ordered_blocks` (485). -/
def processOrderedBlocks (blocks : OrderedBlocks) : Outcome BufferManager := do
  let m := m.send (.execution blocks.orderedBlocks)
  let item := BufferItem.newOrdered blocks.orderedBlocks blocks.orderedProof
  let (votes, m) := m.drainCachedCommitVotes item.commitInfo.round item.blockId
  let buffer ← m.orPanic
    (expect (m.buffer.pushBack BufferItem.blockId (addSignatures item votes)) unwrapNone)
  pure { m with buffer := buffer }

/-- `advance_execution_root` (530). -/
def advanceExecutionRoot : Outcome BufferManager := do
  let root ← m.orPanic (expect
    (m.buffer.findElemFrom (m.executionRoot.or m.buffer.head) BufferItem.isOrdered) unwrapNone)
  pure { m with executionRoot := root }

/-- Sends the signing request for the item under the signing root. -/
def requestSigning : Outcome BufferManager :=
  match m.signingRoot with
  | none => .ok m
  | some root => do
    match ← m.orPanic (expect (m.buffer.get (some root)) unwrapNone) with
    | .executed item =>
      pure (m.send (.signing item.orderedProof item.partialCommitProof.ledgerInfo))
    | _ => m.orPanic (.error "Not executed item")

/-- `advance_signing_root` (550). -/
def advanceSigningRoot : Outcome BufferManager := do
  let root ← m.orPanic (expect
    (m.buffer.findElemFrom (m.signingRoot.or m.buffer.head) BufferItem.isExecuted) unwrapNone)
  requestSigning { m with signingRoot := root }

def advanceExecutionRootIfNone : Outcome BufferManager :=
  if m.executionRoot.isNone then m.advanceExecutionRoot else .ok m

def advanceSigningRootIfNone : Outcome BufferManager :=
  if m.signingRoot.isNone then m.advanceSigningRoot else .ok m

/-- The manager after an item has been popped: a root that pointed to it is gone. -/
def popped (item : BufferItem) (buffer : Buffer BufferItem) : BufferManager :=
  { m with
    buffer := buffer
    signingRoot := if m.signingRoot = some item.blockId then none else m.signingRoot
    executionRoot := if m.executionRoot = some item.blockId then none else m.executionRoot }

/-- The loop of `advance_head`, with the blocks popped so far. -/
def popUntil (targetBlockId : HashValue) :
    Nat → BufferManager → List PipelinedBlock → Outcome BufferManager
  | 0, m, _ => m.orPanic (.error "Aggregated item not found in the list")
  | fuel + 1, m, blocks => do
    match ← m.orPanic (expect m.buffer.popFront unwrapNone) with
    | (none, _) => m.orPanic (.error "Aggregated item not found in the list")
    | (some item, buffer) =>
      let m := m.popped item buffer
      let blocks := blocks ++ item.getBlocks
      if item.blockId = targetBlockId then
        match item with
        | .aggregated aggregated =>
          pure (m.send (.persisting
            { blocks := blocks, commitLedgerInfo := aggregated.commitProof }))
        | _ => m.orPanic (.error "Not aggregated item")
      else popUntil targetBlockId fuel m blocks

/-- `advance_head` (575). Every iteration removes an entry of the map. -/
def advanceHead (targetBlockId : HashValue) : Outcome BufferManager :=
  popUntil targetBlockId (m.buffer.map.length + 1) m []

/-- `resolve_epoch_block_info` (724), given what the block buffer manager answers for the last
block. -/
def resolveEpochBlockInfo (lastBlock : PipelinedBlock) (cached : Option EpochBlockInfo) :
    Option EpochBlockInfo :=
  match cached with
  | some info => some info
  | none =>
    if lastBlock.stateComputeResult.hasReconfiguration then
      some
        { blockId := lastBlock.id
          blockNumber := lastBlock.block.blockNumber.getD 0
          epochStartRound := lastBlock.block.round
          -- a block that carries over the epoch state gets the time of the end of the epoch
          epochStartTimestampUsecs := m.endEpochTimestamp.getD lastBlock.blockInfo.timestampUsecs
          blockHash := lastBlock.stateComputeResult.rootHash }
    else none

/-- The end of the epoch is set once, by the first response with a block that changes the epoch. -/
def noteEndOfEpoch (executedBlocks : List PipelinedBlock) : BufferManager :=
  { m with
    endEpochTimestamp := m.endEpochTimestamp.or
      ((executedBlocks.find? (·.blockInfo.hasReconfiguration)).map (·.block.timestampUsecs)) }

/-- A pending commit proof for the block completes the item. -/
def applyPendingCommitProof (item : BufferItem) (proof : Option LedgerInfoWithSignatures)
    (blockId : HashValue) : Except String BufferItem :=
  match proof with
  | some proof =>
    if !item.isAggregated && proof.ledgerInfo.commitInfo.id = blockId then
      item.tryAdvanceToAggregatedWithLedgerInfo proof
    else .ok item
  | none => .ok item

/-- Puts an item back into its place. -/
def putBack (buffer : Buffer BufferItem) (cursor : Cursor) (item : BufferItem) :
    Outcome BufferManager := do
  let buffer ← m.orPanic (expect (buffer.set cursor item) unwrapNone)
  pure { m with buffer := buffer }

/-- The part of `process_execution_response` that advances the item under `cursor`. -/
def advanceExecuted (cursor : Cursor) (blockId : HashValue) (executedBlocks : List PipelinedBlock)
    (epochBlockInfo : Option EpochBlockInfo) : Outcome BufferManager := do
  let (item, buffer) ← m.orPanic (expect (m.buffer.take cursor) unwrapNone)
  let executed ← m.orPanic (item.advanceToExecutedOrAggregated executedBlocks
    m.epochState.verifier m.endEpochTimestamp m.orderVoteEnabled epochBlockInfo)
  let (proof, m) ← m.drainPendingCommitProofTill item.commitInfo.round
  let newItem ← m.orPanic (applyPendingCommitProof executed proof blockId)
  let m ← m.putBack buffer cursor newItem
  if newItem.isAggregated then m.advanceHead blockId else pure m

/-- `process_execution_response` (776). -/
def processExecutionResponse (response : ExecutionResponse)
    (epochChangeBlockInfo : Option EpochBlockInfo) : Outcome BufferManager :=
  match m.buffer.findElemByKey m.executionRoot response.blockId with
  -- the item may be gone after a reset or when it has been aggregated
  | none => .ok m
  | some key =>
    match response.inner with
    | .error _ => .ok m
    | .ok executedBlocks => do
      let lastBlock ← m.orPanic (expect executedBlocks.getLast? unwrapNone)
      let item ← m.orPanic (expect (m.buffer.get (some key)) unwrapNone)
      if item.blockId ≠ response.blockId then pure m
      else
        let m := m.noteEndOfEpoch executedBlocks
        m.advanceExecuted (some key) response.blockId executedBlocks
          (m.resolveEpochBlockInfo lastBlock epochChangeBlockInfo)

/-- `process_signing_response` (852). -/
def processSigningResponse (response : SigningResponse) : Outcome BufferManager :=
  match response.signatureResult with
  | .error _ => .ok m
  | .ok signature =>
    match m.buffer.findElemByKey m.signingRoot response.commitLedgerInfo.commitInfo.id with
    | none => .ok m
    | some key => do
      let (item, buffer) ← m.orPanic (expect (m.buffer.take (some key)) unwrapNone)
      -- it is possible that the item has been signed already
      let newItem ← m.orPanic
        (if item.isExecuted then item.advanceToSigned m.author signature else .ok item)
      m.putBack buffer (some key) newItem

/-- The item after a vote and the cached votes for its block. -/
def countVotes (item : BufferItem) (votes : List CommitVote) (vote : CommitVote) :
    Except String BufferItem :=
  let item := addSignatures item votes
  match item.addSignatureIfMatched vote with
  | .ok item => item.tryAdvanceToAggregated m.epochState.verifier
  | .error _ => .ok item

/-- The handling of a vote in `process_commit_message`; returns the block that is aggregated now. -/
def processVote (vote : CommitVote) : Outcome (Option HashValue × BufferManager) :=
  let blockId := vote.commitInfo.id
  match m.buffer.findElemByKey m.buffer.head blockId with
  | none => .ok (none, m.cacheCommitVote vote)
  | some key => do
    let (item, buffer) ← m.orPanic (expect (m.buffer.take (some key)) unwrapNone)
    let (votes, m) := m.drainCachedCommitVotes vote.commitInfo.round blockId
    let newItem ← m.orPanic (m.countVotes item votes vote)
    let m ← m.putBack buffer (some key) newItem
    pure (if newItem.isAggregated then some blockId else none, m)

/-- The handling of a decision in `process_commit_message`. -/
def processDecision (proof : LedgerInfoWithSignatures) :
    Outcome (Option HashValue × BufferManager) :=
  let blockId := proof.ledgerInfo.commitInfo.id
  match m.buffer.findElemByKey m.buffer.head blockId with
  | none => .ok (none, m.tryAddPendingCommitProof proof)
  | some key => do
    let (item, buffer) ← m.orPanic (expect (m.buffer.take (some key)) unwrapNone)
    let newItem ← m.orPanic (item.tryAdvanceToAggregatedWithLedgerInfo proof)
    let m ← m.putBack buffer (some key) newItem
    pure (if newItem.isAggregated then some blockId else none, m)

/-- `process_commit_message` (906). -/
def processCommitMessage : CommitMessage → Outcome (Option HashValue × BufferManager)
  | .vote vote => m.processVote vote
  | .decision proof => m.processDecision proof

/-- The loop of `retry_schedule_phase` (691), over the items from the execution root on. -/
def retryFrom : Nat → Cursor → BufferManager → Outcome BufferManager
  | _, none, m => .ok m
  | 0, some _, m => m.orPanic (.error unwrapNone)
  | fuel + 1, some key, m => do
    let item ← m.orPanic (expect (m.buffer.map.get key) unwrapNone)
    let elem ← m.orPanic (expect item.elem unwrapNone)
    retryFrom fuel item.next (m.send (.execution elem.getBlocks))

/-- `reset` and `process_reset_request` (663). -/
def processResetRequest (signal : ResetSignal) : BufferManager :=
  let m := { m with
    buffer := {}, executionRoot := none, signingRoot := none, commitVoteCache := []
    pendingCommitProofs := [] }
  match signal with
  | .stop => { m with stop := true }
  | .targetRound round => { m with highestCommittedRound := round, latestRound := round }

/-- `need_backpressure` (1078). -/
def needBackpressure : Outcome Bool := do
  let bound ← m.orPanic (checkedAdd m.highestCommittedRound 20)
  pure (bound < m.latestRound)

end Api

end BufferManager

/-- A message on one of the channels of the manager. -/
inductive Event where
  | ordered (blocks : OrderedBlocks)
  | reset (signal : ResetSignal)
  /-- With what the block buffer manager answers to `get_epoch_change_block_info`. -/
  | executionResponse (response : ExecutionResponse) (epochChangeBlockInfo : Option EpochBlockInfo)
  | executionScheduleRetry
  | signingResponse (response : SigningResponse)
  | persistingResponse (result : Except String Nat)
  | commitMessage (message : CommitMessage)

namespace BufferManager

variable [Crypto] [LedgerApi] [PipelineApi]

def handleOrdered (m : BufferManager) (blocks : OrderedBlocks) : Outcome BufferManager := do
  let last ← m.orPanic (expect blocks.orderedBlocks.getLast? "OrderedBlocks empty.")
  let m ← processOrderedBlocks { m with latestRound := last.block.round } blocks
  m.advanceExecutionRootIfNone

def handleExecutionResponse (m : BufferManager) (response : ExecutionResponse)
    (epochChangeBlockInfo : Option EpochBlockInfo) : Outcome BufferManager := do
  let m ← m.processExecutionResponse response epochChangeBlockInfo
  let m ← m.advanceExecutionRoot
  m.advanceSigningRootIfNone

def handleSigningResponse (m : BufferManager) (response : SigningResponse) :
    Outcome BufferManager := do
  let m ← m.processSigningResponse response
  m.advanceSigningRoot

def handlePersistingResponse (m : BufferManager) : Except String Nat → BufferManager
  | .ok round => { m with
      commitVoteCache := m.commitVoteCache.retain (round < ·)
      highestCommittedRound := round }
  | .error _ => m

/-- Messages are verified before they reach the loop. -/
def handleCommitMessage (m : BufferManager) (message : CommitMessage) : Outcome BufferManager :=
  if (message.verify m.epochState.verifier).isOk then do
    match ← m.processCommitMessage message with
    | (some blockId, m) =>
      let m ← m.advanceHead blockId
      let m ← m.advanceExecutionRootIfNone
      m.advanceSigningRootIfNone
    | (none, m) => pure m
  else .ok m

/-- The branch of `select!` for an event; under backpressure ordered blocks stay in the channel. -/
def selectBranch (m : BufferManager) (full : Bool) : Event → Outcome BufferManager
  | .ordered blocks => if full then .ok m else m.handleOrdered blocks
  | .reset signal => .ok (m.processResetRequest signal)
  | .executionResponse response epochChangeBlockInfo =>
    m.handleExecutionResponse response epochChangeBlockInfo
  | .executionScheduleRetry => retryFrom (m.buffer.map.length + 1) m.executionRoot m
  | .signingResponse response => m.handleSigningResponse response
  | .persistingResponse result => .ok (m.handlePersistingResponse result)
  | .commitMessage message => m.handleCommitMessage message

/-- One iteration of the main loop. `select!` evaluates the guard for ordered blocks before it
waits, whatever event comes. -/
def handle (m : BufferManager) (event : Event) : Outcome BufferManager :=
  if m.stop then .ok m
  else do
    let full ← m.needBackpressure
    let m ← m.selectBranch full event
    if m.stop then pure m
    else
      let _ ← m.needBackpressure
      pure m

/-- A step of the manager, which does nothing once it has panicked. -/
def step (m : Outcome BufferManager) (event : Event) : Unit × Outcome BufferManager :=
  ((), m >>= (·.handle event))

/-- The manager, also where it has panicked. -/
def last : Outcome BufferManager → BufferManager
  | .ok m => m
  | .error panic => panic.manager

/-- The requests sent to the persisting phase, in order. -/
def persisted (m : BufferManager) : List PersistingRequest :=
  m.sent.filterMap Request.persistingRequest

omit [Crypto] [LedgerApi] [PipelineApi]

theorem persisted_send (m : BufferManager) (request : Request) :
    (m.send request).persisted = m.persisted ++ request.persistingRequest.toList := by
  unfold persisted send
  rw [List.filterMap_append]
  cases request with
  | persisting | execution | signing => rfl

/-! What the cache and the pending commit proofs do not touch. -/

theorem drainCachedCommitVotes_eq (m : BufferManager) (round : Nat) (blockId : HashValue) :
    ∃ cache, (m.drainCachedCommitVotes round blockId).2 = { m with commitVoteCache := cache } := by
  unfold drainCachedCommitVotes
  split
  · exact ⟨_, rfl⟩
  · exact ⟨m.commitVoteCache, rfl⟩

section

variable {m : BufferManager} {P : BufferManager → Prop}

theorem drainCachedCommitVotes_of {round : Nat} {blockId : HashValue}
    (h : ∀ cache, P { m with commitVoteCache := cache }) :
    P (m.drainCachedCommitVotes round blockId).2 := by
  obtain ⟨cache, heq⟩ := m.drainCachedCommitVotes_eq round blockId
  rw [heq]
  exact h cache

theorem cacheCommitVote_of {vote : CommitVote}
    (h : ∀ cache, P { m with commitVoteCache := cache }) :
    P (m.cacheCommitVote vote) := by
  unfold cacheCommitVote
  dsimp only
  split
  · split
    · exact h _
    · exact h _
  · exact h _

theorem tryAddPendingCommitProof_of {proof : LedgerInfoWithSignatures}
    (h : ∀ proofs, P { m with pendingCommitProofs := proofs }) :
    P (m.tryAddPendingCommitProof proof) := by
  unfold tryAddPendingCommitProof
  dsimp only
  split
  · split
    · exact h _
    · exact h m.pendingCommitProofs
  · exact h m.pendingCommitProofs

end

/-- Where a called function may panic, it is enough to look at the manager as it is. -/
theorem ensures_orPanic {α : Type} {m : BufferManager} {x : Except String α} {E : Panic → Prop}
    (hE : ∀ message, E ⟨message, m⟩) : Ensures (m.orPanic x) (fun a => x = .ok a) E := by
  cases x with
  | ok a => rfl
  | error e => exact hE e

/-- The same with the message of the panic. -/
theorem ensures_orPanic_message {α : Type} {m : BufferManager} {x : Except String α}
    {E : Panic → Prop} (hE : ∀ message, x = .error message → E ⟨message, m⟩) :
    Ensures (m.orPanic x) (fun a => x = .ok a) E := by
  cases x with
  | ok a => rfl
  | error e => exact hE e rfl

end BufferManager

end Liquent.Pipeline
