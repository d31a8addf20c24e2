import Liquent.ConsensusTypes.PipelinedBlock
import Liquent.Misc.Table
import Liquent.Misc.Run

/-!
# The block buffer manager

The buffer between consensus and the execution layer (`block_buffer_manager.rs`, cited by line).
Consensus puts ordered blocks in, the execution layer takes them out, puts their results in and
later takes the committed blocks out.  Every operation holds the lock of the state machine from its
first read to its last write, so an operation is one function on the state.  An operation that waits
for a change is modelled by one of its attempts: it answers `none` when it would drop the lock and
try again.

Operations wait until `init` has run, so they start from a state that `init` made.  Times, channels
and the transaction buffer are left out.
-/

namespace Liquent.BlockBuffer

open Misc

/-! ## Blocks -/

structure BlockKey where
  epoch : Nat
  blockNumber : Nat
deriving DecidableEq

structure VerifiedTxn where
  bytes : List UInt8
  sender : Author
  sequenceNumber : Nat
  chainId : Nat
deriving DecidableEq

structure ExternalBlockMeta where
  blockId : HashValue
  blockNumber : Nat
  usecs : Nat
  epoch : Nat
  randomness : Option (List UInt8)
deriving DecidableEq

structure ExternalBlock where
  blockMeta : ExternalBlockMeta
  txns : List VerifiedTxn
deriving DecidableEq

def ExternalBlock.key (b : ExternalBlock) : BlockKey := ⟨b.blockMeta.epoch, b.blockMeta.blockNumber⟩

/-- `BlockState`. The sender that announces a block's persistence is modelled by whether it is still
there. -/
inductive BlockState where
  | ordered (block : ExternalBlock) (parentId : HashValue) (round : Nat)
  | computed (id : HashValue) (computeResult : StateComputeResult)
  | committed (hash : Option HashValue) (computeResult : StateComputeResult) (id : HashValue)
      (persistNotifier : Bool)
  | historical (id : HashValue)
deriving DecidableEq

/-- `get_block_id` (150). -/
def BlockState.getBlockId : BlockState → HashValue
  | .ordered block _ _ => block.blockMeta.blockId
  | .computed id _ => id
  | .committed _ _ id _ => id
  | .historical id => id

/-- How the debug format shows an optional hash. -/
def showHash : Option HashValue → String
  | some hash => s!"Some({hash})"
  | none => "None"

structure BlockHashRef where
  blockId : HashValue
  num : Nat
  hash : Option HashValue
  persistNotifier : Bool := false
deriving DecidableEq

/-- The metadata of the block that changes the epoch, for the blocks ordered after it. -/
structure EpochChangeCache where
  epochBlockInfo : EpochBlockInfo
  epochState : EpochState
deriving DecidableEq

structure BlockStateMachine where
  blocks : Table BlockKey BlockState := []
  latestCommitBlockNumber : Nat := 0
  latestFinalizedBlockNumber : Nat := 0
  currentEpoch : Nat := 0
  nextEpoch : Option Nat := none
  /-- Also the flag of a change that has not been consumed; zero when there is none. -/
  latestEpochChangeBlockNumber : Nat := 0
  epochChangeBlockInfo : Option EpochChangeCache := none
  epochChangeReady : Bool := false
  maxBlockSize : Nat := 256
deriving DecidableEq

/-- Decodes the validator set of a new-epoch event, which other crates provide. -/
class OnChainConfig where
  ValidatorSet : Type
  fromBytes : List UInt8 → Except String ValidatorSet
  convertValidatorSet : ValidatorSet → Except String ValidatorVerifier

/-- The entry of the last committed block in the map that `init` is given. -/
def initCommitBlock (latestCommitBlockNumber : Nat)
    (blockNumberToBlockId : Table Nat (Nat × HashValue)) :
    Except String (Option (Nat × HashValue)) :=
  let text := s!"BlockBufferManager::init: latest_commit_block_number {latestCommitBlockNumber} "
  if blockNumberToBlockId = [] then
    if 0 < latestCommitBlockNumber then
      .error (text ++ "requires a non-empty block_number_to_block_id_with_epoch map")
    else .ok none
  else
    match blockNumberToBlockId.get latestCommitBlockNumber with
    | some entry => .ok (some entry)
    | none => .error (text ++ "not found in block_number_to_block_id_with_epoch map")

/-- `BlockBufferManager::init` (328) on the state of a new manager. -/
def init (latestCommitBlockNumber : Nat) (blockNumberToBlockId : Table Nat (Nat × HashValue))
    (initialEpoch : Nat) : Except String BlockStateMachine :=
  (initCommitBlock latestCommitBlockNumber blockNumberToBlockId).map fun commitBlock =>
    { latestCommitBlockNumber := latestCommitBlockNumber
      latestFinalizedBlockNumber := latestCommitBlockNumber
      currentEpoch := initialEpoch
      blocks := commitBlock.toList.map fun (epoch, id) =>
        (⟨epoch, latestCommitBlockNumber⟩, .historical id) }

namespace BlockStateMachine

variable (s : BlockStateMachine)

/-- Whether a block number lies after the block that changes the epoch (204). -/
def isSuffixBlock (blockNum : Nat) : Bool :=
  s.epochChangeBlockInfo.any fun cache => cache.epochBlockInfo.blockNumber < blockNum

/-- `is_stale_commit_after_epoch_change` (212). -/
def isStaleCommitAfterEpochChange (epoch blockNum : Nat) : Bool :=
  epoch < s.currentEpoch || (epoch = s.currentEpoch && s.isSuffixBlock blockNum)

/-- `StateComputeResult::new_dummy` (`lib.rs:138`). -/
def newDummy [Crypto] : StateComputeResult where
  rootHash := Crypto.accumulatorPlaceholderHash
  epochState := none

def newDummyWithEpochState [Crypto] (epochState : EpochState) : StateComputeResult :=
  { newDummy with epochState := some epochState }

/-! ## Consensus side -/

/-- The identifier of the block before, in the block's own epoch or the one before; else what the
caller gave. -/
def actualParentId (parentId : HashValue) (key : BlockKey) : HashValue :=
  if key.blockNumber = 0 then parentId
  else
    let current := s.blocks.get ⟨key.epoch, key.blockNumber - 1⟩
    let previous :=
      if 0 < key.epoch then s.blocks.get ⟨key.epoch - 1, key.blockNumber - 1⟩ else none
    ((current.or previous).map BlockState.getBlockId).getD parentId

/-- `set_ordered_blocks` (534). -/
def setOrderedBlocks (parentId : HashValue) (block : ExternalBlock) (round : Nat) :
    Except String Unit × BlockStateMachine :=
  let number := block.blockMeta.blockNumber
  let epoch := block.blockMeta.epoch
  let current := s.currentEpoch
  let pending := s.latestEpochChangeBlockNumber
  if s.epochChangeReady then
    (.error s!"set_ordered_blocks: epoch change is waiting to be consumed at block {pending}", s)
  else if epoch < current then (.ok (), s)
  else if current < epoch then
    (.error (s!"set_ordered_blocks: block {number} has future epoch {epoch} " ++
      s!"(current epoch: {current}). " ++
      "Metric: block_buffer_manager_dropped_blocks\x7breason=future_epoch\x7d"), s)
  else if (s.blocks.get block.key).isSome then (.ok (), s)
  else
    let parentId := s.actualParentId parentId block.key
    (.ok (), { s with blocks := s.blocks.put block.key (.ordered block parentId round) })

/-- One attempt of `get_executed_res` (726). -/
def getExecutedRes [Crypto] (blockId : HashValue) (blockNum epoch : Nat) :
    Except String (Option StateComputeResult) × BlockStateMachine :=
  let key : BlockKey := ⟨epoch, blockNum⟩
  match s.blocks.get key with
  | some (.computed id result) =>
    if id ≠ blockId then
      (.error (s!"get_executed_res: block id mismatch for Computed block: expected {blockId}, " ++
        s!"got {id}"), s)
    else (.ok (some result), s)
  | some (.ordered _ _ _) =>
    match s.epochChangeBlockInfo with
    | some cache =>
      if s.isSuffixBlock blockNum then
        -- the execution layer never computes a block after the one that changes the epoch
        let dummy := newDummyWithEpochState cache.epochState
        (.ok (some dummy), { s with blocks := s.blocks.put key (.computed blockId dummy) })
      else (.ok none, s)
    | none => (.ok none, s)
  | some (.committed _ result id _) =>
    if id ≠ blockId then
      (.error (s!"get_executed_res: block id mismatch for Committed block: expected {blockId}, " ++
        s!"got {id}"), s)
    else (.ok (some result), s)
  | some (.historical id) =>
    (.error s!"Cannot get executed result for historical block {id} num {blockNum}", s)
  | none =>
    if epoch < s.currentEpoch then (.ok (some newDummy), s)
    else
      let pending := s.latestEpochChangeBlockNumber
      (.error ("There is no Ordered Block but try to get executed result for block " ++
        s!"{blockId} and block num {blockNum}, latest epoch change block number {pending}"), s)

/-- One iteration of `set_commit_blocks`; returns the number of a block whose persistence is to be
announced. -/
def setCommitBlock (r : BlockHashRef) (epoch : Nat) :
    Except String (Option Nat) × BlockStateMachine :=
  let key : BlockKey := ⟨epoch, r.num⟩
  let blockId := r.blockId
  let num := r.num
  match s.blocks.get key with
  | some (.computed id result) =>
    if id = blockId then
      let notify := result.epochState.isSome && !s.isSuffixBlock num
      (.ok (if notify then some num else none),
        { s with blocks := s.blocks.put key (.committed r.hash result blockId notify) })
    else (.error s!"Computed Block id and number is not equal id: {blockId}={id} num: {num}", s)
  | some (.committed hash _ id _) =>
    if !s.isSuffixBlock num && id ≠ blockId then
      let old := showHash hash
      let new := showHash r.hash
      (.error s!"Committed Block id mismatch: {blockId}={id} hash: {new}={old}", s)
    else (.ok none, s)
  | some (.ordered _ _ _) =>
    (.error s!"Set commit block meet ordered block for block id {blockId} num {num}", s)
  | some (.historical id) =>
    if id ≠ blockId then (.error s!"Historical Block id mismatch: {blockId} != {id} num: {num}", s)
    else (.ok none, s)
  | none =>
    if s.isStaleCommitAfterEpochChange epoch num then (.ok none, s)
    else
      (.error ("There is no Block but try to push commit block for block " ++
        s!"{blockId} num {num}"), s)

/-- `set_commit_blocks` (1055): stops at the first error and keeps what it has written. -/
def setCommitBlocks (s : BlockStateMachine) : List BlockHashRef → Nat →
    Except String (List Nat) × BlockStateMachine
  | [], _ => (.ok [], s)
  | r :: rest, epoch =>
    match s.setCommitBlock r epoch with
    | (.error e, s') => (.error e, s')
    | (.ok notifier, s') =>
      ((setCommitBlocks s' rest epoch).1.map (notifier.toList ++ ·),
        (setCommitBlocks s' rest epoch).2)

def hasPendingEpochChange : Bool :=
  s.latestEpochChangeBlockNumber ≠ 0 || s.nextEpoch.isSome || s.epochChangeBlockInfo.isSome

/-- `release_inflight_blocks` (1296), which a reset of the pipeline calls. -/
def releaseInflightBlocks : BlockStateMachine :=
  if s.hasPendingEpochChange then
    { s with
      currentEpoch := s.nextEpoch.getD s.currentEpoch
      nextEpoch := none
      blocks := s.blocks.retain (·.blockNumber ≤ s.latestEpochChangeBlockNumber)
      epochChangeBlockInfo := none
      epochChangeReady := true }
  else s

/-- `init_epoch` (387), which the epoch manager calls once when it starts. -/
def initEpoch (epoch : Nat) : BlockStateMachine := { s with currentEpoch := epoch }

/-! ## Execution side -/

/-- What a loop over consecutive numbers collects before the first gap, at most `maxSize` elements.
-/
def collectFrom {α : Type} (f : Nat → Option α) (maxSize : Option Nat) :
    (fuel count num : Nat) → List α
  | 0, _, _ => []
  | fuel + 1, count, num =>
    match f num with
    | none => []
    | some a =>
      if maxSize.any (· ≤ count + 1) then [a]
      else a :: collectFrom f maxSize fuel (count + 1) (num + 1)

/-- The ordered block under a number of an epoch, with its parent. -/
def orderedAt (epoch num : Nat) : Option (ExternalBlock × HashValue) :=
  match s.blocks.get ⟨epoch, num⟩ with
  | some (.ordered block parentId _) => some (block, parentId)
  | _ => none

/-- One attempt of `get_ordered_blocks` (646). The loop visits a different key of the map in every
iteration. -/
def getOrderedBlocks (startNum : Nat) (maxSize : Option Nat) (expectedEpoch : Nat) :
    Except String (Option (List (ExternalBlock × HashValue))) :=
  if s.epochChangeReady || s.currentEpoch ≠ expectedEpoch then
    .error "Buffer is in epoch change"
  else
    let result := collectFrom (s.orderedAt expectedEpoch) maxSize s.blocks.length 0 startNum
    .ok (if result = [] then none else some result)

/-- The first new-epoch event of a block. -/
def findNewEpoch : List LiquentEvent → Option (Nat × List UInt8)
  | [] => none
  | .newEpoch epoch bytes :: _ => some (epoch, bytes)
  | _ :: rest => findNewEpoch rest

/-- `calculate_new_epoch_state` (852). -/
def calculateNewEpochState [OnChainConfig] (events : List LiquentEvent) (blockNum : Nat) :
    Except String (Option EpochState × BlockStateMachine) :=
  match findNewEpoch events with
  | none => .ok (none, s)
  | some (newEpoch, bytes) => do
    let validatorSet ← (OnChainConfig.fromBytes bytes).mapError
      fun e => s!"[on-chain config] Failed to deserialize into config: {e}"
    let verifier ← (OnChainConfig.convertValidatorSet validatorSet).mapError
      fun e => s!"[on-chain config] Failed to convert validator set: {e}"
    pure (some { epoch := newEpoch, verifier := verifier },
      { s with latestEpochChangeBlockNumber := blockNum, nextEpoch := some newEpoch })

/-- The dummy result that a block after the one that changes the epoch gets. -/
def computeSuffix [Crypto] (epoch epochChangeBlockNum : Nat) (epochState : EpochState)
    (key : BlockKey) : BlockState → BlockState
  | .ordered block parentId round =>
    if key.epoch = epoch ∧ epochChangeBlockNum < key.blockNumber then
      .computed block.blockMeta.blockId (newDummyWithEpochState epochState)
    else .ordered block parentId round
  | state => state

/-- `handle_epoch_change_suffix_blocks` (907). -/
def handleEpochChangeSuffixBlocks [Crypto] (info : EpochBlockInfo) (epoch : Nat)
    (epochState : EpochState) : BlockStateMachine :=
  { s with
    epochChangeBlockInfo := some { epochBlockInfo := info, epochState := epochState }
    blocks := s.blocks.mapValues (computeSuffix epoch info.blockNumber epochState) }

/-- Stores a result; one that changes the epoch also settles the blocks after it. -/
def recordResult [Crypto] (key : BlockKey) (info : EpochBlockInfo) (result : StateComputeResult) :
    BlockStateMachine :=
  let s := { s with blocks := s.blocks.put key (.computed info.blockId result) }
  match result.epochState with
  | none => s
  | some epochState => s.handleEpochChangeSuffixBlocks info key.epoch epochState

/-- `set_compute_res` (970). -/
def setComputeRes [Crypto] [OnChainConfig] (blockId blockHash : HashValue) (blockNum epoch : Nat)
    (txnStatus : Option (List TxnStatus)) (events : List LiquentEvent) :
    Except String Unit × BlockStateMachine :=
  match s.blocks.get ⟨epoch, blockNum⟩ with
  | some (.ordered block _ round) =>
    let id := block.blockMeta.blockId
    if id ≠ blockId then
      (.error s!"set_compute_res: block id mismatch: expected {blockId}, got {id}", s)
    else
      match s.calculateNewEpochState events blockNum with
      | .error e => (.error e, s)
      | .ok (newEpochState, s) =>
        let info : EpochBlockInfo :=
          { blockId := blockId, blockNumber := blockNum, epochStartRound := round,
            epochStartTimestampUsecs := block.blockMeta.usecs, blockHash := blockHash }
        let result : StateComputeResult :=
          { rootHash := blockHash, epochState := newEpochState, txnNum := block.txns.length,
            txnStatus := txnStatus, events := events }
        (.ok (), s.recordResult ⟨epoch, blockNum⟩ info result)
  | _ =>
    (.error s!"There is no Ordered Block but try to push compute result for block {blockId}", s)

/-- The committed block under a number of an epoch. -/
def committedAt (epoch num : Nat) : Option BlockHashRef :=
  if s.isSuffixBlock num then none
  else
    match s.blocks.get ⟨epoch, num⟩ with
    | some (.committed hash _ id notifier) =>
      some { blockId := id, num := num, hash := hash, persistNotifier := notifier }
    | _ => none

/-- The notifier of a block that is handed out is taken from the map. -/
def takeNotifier (epoch : Nat) (nums : List Nat) (key : BlockKey) : BlockState → BlockState
  | .committed hash result id notifier =>
    .committed hash result id (notifier && !(key.epoch = epoch && key.blockNumber ∈ nums))
  | state => state

/-- One attempt of `get_committed_blocks` (1161). -/
def getCommittedBlocks (startNum : Nat) (maxSize : Option Nat) (epoch : Nat) :
    Option (List BlockHashRef) × BlockStateMachine :=
  let result := collectFrom (s.committedAt epoch) maxSize s.blocks.length 0 startNum
  (if result = [] then none else some result,
    { s with blocks := s.blocks.mapValues (takeNotifier epoch (result.map (·.num))) })

/-- `set_state` (1239). -/
def setState (latestCommitBlockNumber latestFinalizedBlockNumber : Nat) : BlockStateMachine :=
  { s with
    latestCommitBlockNumber := latestCommitBlockNumber
    latestFinalizedBlockNumber := latestFinalizedBlockNumber }

/-- `remove_committed_blocks` (315), which the manager runs from time to time. -/
def removeCommittedBlocks : BlockStateMachine :=
  if s.blocks.length < s.maxBlockSize then s
  else { s with blocks := s.blocks.retain (s.latestFinalizedBlockNumber ≤ ·.blockNumber) }

/-- `consume_epoch_change` (451): the new epoch and the number of the block that changed it. -/
def consumeEpochChange : (Nat × Nat) × BlockStateMachine :=
  let number :=
    if s.latestEpochChangeBlockNumber = 0 then s.latestCommitBlockNumber
    else s.latestEpochChangeBlockNumber
  ((s.nextEpoch.getD s.currentEpoch, number),
    { s with latestEpochChangeBlockNumber := 0, epochChangeReady := false })

end BlockStateMachine

/-! ## Operations in any order -/

/-- A call of an operation, with its arguments. -/
inductive Operation where
  | setOrderedBlocks (parentId : HashValue) (block : ExternalBlock) (round : Nat)
  | getOrderedBlocks (startNum : Nat) (maxSize : Option Nat) (expectedEpoch : Nat)
  | setComputeRes (blockId blockHash : HashValue) (blockNum epoch : Nat)
      (txnStatus : Option (List TxnStatus)) (events : List LiquentEvent)
  | getExecutedRes (blockId : HashValue) (blockNum epoch : Nat)
  | setCommitBlocks (blockIds : List BlockHashRef) (epoch : Nat)
  | getCommittedBlocks (startNum : Nat) (maxSize : Option Nat) (epoch : Nat)
  | setState (latestCommitBlockNumber latestFinalizedBlockNumber : Nat)
  | removeCommittedBlocks
  | consumeEpochChange
  | releaseInflightBlocks
  | initEpoch (epoch : Nat)

/-- What an operation returns to its caller. -/
inductive Reply where
  | done (result : Except String Unit)
  | ordered (result : Except String (Option (List (ExternalBlock × HashValue))))
  | executed (result : Except String (Option StateComputeResult))
  | notifiers (result : Except String (List Nat))
  | committed (result : Option (List BlockHashRef))
  | epochChange (newEpoch epochChangeBlockNumber : Nat)

/-- One operation of the manager. -/
def step [Crypto] [OnChainConfig] (s : BlockStateMachine) : Operation → Reply × BlockStateMachine
  | .setOrderedBlocks parentId block round =>
    let (result, s) := s.setOrderedBlocks parentId block round
    (.done result, s)
  | .getOrderedBlocks startNum maxSize expectedEpoch =>
    (.ordered (s.getOrderedBlocks startNum maxSize expectedEpoch), s)
  | .setComputeRes blockId blockHash blockNum epoch txnStatus events =>
    let (result, s) := s.setComputeRes blockId blockHash blockNum epoch txnStatus events
    (.done result, s)
  | .getExecutedRes blockId blockNum epoch =>
    let (result, s) := s.getExecutedRes blockId blockNum epoch
    (.executed result, s)
  | .setCommitBlocks blockIds epoch =>
    let (result, s) := s.setCommitBlocks blockIds epoch
    (.notifiers result, s)
  | .getCommittedBlocks startNum maxSize epoch =>
    let (result, s) := s.getCommittedBlocks startNum maxSize epoch
    (.committed result, s)
  | .setState latestCommit latestFinalized =>
    (.done (.ok ()), s.setState latestCommit latestFinalized)
  | .removeCommittedBlocks => (.done (.ok ()), s.removeCommittedBlocks)
  | .consumeEpochChange =>
    let ((epoch, number), s) := s.consumeEpochChange
    (.epochChange epoch number, s)
  | .releaseInflightBlocks => (.done (.ok ()), s.releaseInflightBlocks)
  | .initEpoch epoch => (.done (.ok ()), s.initEpoch epoch)

/-- The state after a sequence of operations. -/
def after [Crypto] [OnChainConfig] (s : BlockStateMachine) (ops : List Operation) :
    BlockStateMachine := (run step s ops).2

end Liquent.BlockBuffer
