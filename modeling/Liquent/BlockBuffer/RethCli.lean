import Liquent.BlockBuffer.EpochChange

/-!
# The loops of the execution layer

The three loops of `reth_cli.rs` (cited by line) that connect reth to the block buffer:
`start_execution` pushes ordered blocks to reth, `start_commit_vote` stores the results that reth
returns and `start_commit` hands out committed blocks.  They run concurrently with consensus, and
all of them share the buffer; the loops also share the epoch that `start_execution` last saw.

A loop is a control point with its local variables.  A step of a loop is one call of the buffer or
one access to the shared epoch, so that anything can happen in between.  A loop that stops (on
shutdown, or because reth or the buffer failed) is one that takes no further step.

Reth returns the results of blocks in the order in which they were pushed.  Once it has returned a
result with a new-epoch event, it drops the other blocks of that epoch without a result.
-/

namespace Liquent.BlockBuffer

open Misc

/-- A control point of `start_execution`. -/
inductive ExecutionLoop where
  /-- Before the first call, `get_current_epoch`. -/
  | starting
  | storing (bufferEpoch : Nat)
  | top
  /-- In `get_ordered_blocks`, with the epoch that was loaded. -/
  | waiting (currentEpoch : Nat)
  | pushing (blocks : List ExternalBlock)
  /-- After a timeout, before the epoch is compared with that of the buffer. -/
  | comparing (currentEpoch : Nat)
  /-- Before `consume_epoch_change`. -/
  | consuming
  | resetting (newEpoch epochChangeBlockNumber : Nat)
deriving DecidableEq

/-- What reth returns for a block. -/
structure ExecutionResult where
  blockId : HashValue
  blockNumber : Nat
  blockHash : HashValue
  txsInfo : List TxnStatus
  liquentEvents : List LiquentEvent
deriving DecidableEq

/-- A control point of `start_commit_vote`. -/
inductive CommitVoteLoop where
  | receiving
  | received (result : ExecutionResult)
  /-- Before `set_compute_res`, with the epoch that was loaded. -/
  | setting (result : ExecutionResult) (epoch : Nat)
  | stopped
deriving DecidableEq

/-- A control point of `start_commit`. -/
inductive CommitLoop where
  | top
  | waiting (epoch : Nat)
  /-- Before `set_state`. -/
  | setting (latestCommitBlockNumber : Nat)
deriving DecidableEq

/-- The buffer, the loops and reth. -/
structure Node where
  buffer : BlockStateMachine
  /-- The epoch that the loops share. -/
  currentEpoch : Nat := 0
  execution : ExecutionLoop := .starting
  startOrderedBlock : Nat
  commitVote : CommitVoteLoop := .receiving
  commit : CommitLoop := .top
  startCommitNum : Nat
  /-- Every block passed to `push_ordered_block`, in order. -/
  pushed : List ExternalBlock := []
  /-- The pushed blocks for which reth has not returned a result. -/
  inflight : List ExternalBlock := []
  /-- The epochs for which reth has returned a new-epoch event. -/
  reconfigured : List Nat := []
  /-- The changes announced by results that the buffer has stored. -/
  announced : List Change := []
  /-- Whether `set_ordered_blocks` has been called. -/
  orderedSeen : Bool := false

/-- The loops before their first step: both numbers are recovered from storage. -/
def Node.start (buffer : BlockStateMachine) (recoverBlockNumber : Nat) : Node where
  buffer := buffer
  startOrderedBlock := recoverBlockNumber + 1
  startCommitNum := recoverBlockNumber + 1

/-- The operations that consensus and the cleanup task of the buffer call. -/
def Operation.consensusSide : Operation → Bool
  | .setOrderedBlocks _ _ _ | .getExecutedRes _ _ _ | .setCommitBlocks _ _
  | .removeCommittedBlocks | .releaseInflightBlocks | .initEpoch _ => true
  | _ => false

namespace Node

variable [Crypto] [OnChainConfig]

/-- A call of consensus. -/
def consensusStep (n : Node) (op : Operation) : Node :=
  if op.consensusSide then
    { n with
      buffer := (step n.buffer op).2
      orderedSeen := n.orderedSeen || op.setsOrdered }
  else n

/-- What `start_execution` does with an answer of `get_ordered_blocks`. -/
def handleOrdered (n : Node) (currentEpoch : Nat) :
    Except String (Option (List (ExternalBlock × HashValue))) → Node
  | .error e =>
    if e = "Buffer is in epoch change" then { n with execution := .consuming }
    else { n with execution := .comparing currentEpoch }
  | .ok none => n
  | .ok (some blocks) =>
    match blocks.getLast? with
    | none => { n with execution := .top }
    | some last => { n with
        execution := .pushing (blocks.map (·.1))
        startOrderedBlock := last.1.blockMeta.blockNumber + 1 }

/-- A step of `start_execution` (350); while it waits for blocks it may run into the timeout. -/
def executionStep (n : Node) (timeout : Bool) : Node :=
  match n.execution with
  | .starting => { n with execution := .storing n.buffer.currentEpoch }
  | .storing bufferEpoch => { n with currentEpoch := bufferEpoch, execution := .top }
  | .top => { n with execution := .waiting n.currentEpoch }
  | .waiting currentEpoch =>
    if timeout then { n with execution := .comparing currentEpoch }
    else n.handleOrdered currentEpoch
      (n.buffer.getOrderedBlocks n.startOrderedBlock none currentEpoch)
  | .pushing [] => { n with execution := .top }
  | .pushing (block :: blocks) => { n with
      execution := .pushing blocks
      pushed := n.pushed ++ [block]
      inflight := n.inflight ++ [block] }
  | .comparing currentEpoch =>
    if currentEpoch ≠ n.buffer.currentEpoch then { n with execution := .consuming }
    else { n with execution := .top }
  | .consuming =>
    let ((newEpoch, number), buffer) := n.buffer.consumeEpochChange
    { n with buffer := buffer, execution := .resetting newEpoch number }
  | .resetting newEpoch number => { n with
      currentEpoch := newEpoch
      startOrderedBlock := number + 1
      execution := .top }

/-- Reth returns the result of the next block, or drops it when its epoch is over. -/
def resultStep (n : Node) (blockHash : HashValue) (txsInfo : List TxnStatus)
    (events : List LiquentEvent) : Node :=
  match n.inflight with
  | [] => n
  | block :: rest =>
    if block.blockMeta.epoch ∈ n.reconfigured then { n with inflight := rest }
    else if n.commitVote = .receiving then
      { n with
        inflight := rest
        commitVote := .received
          { blockId := block.blockMeta.blockId, blockNumber := block.blockMeta.blockNumber,
            blockHash := blockHash, txsInfo := txsInfo, liquentEvents := events }
        reconfigured := if (BlockStateMachine.findNewEpoch events).isSome then
          block.blockMeta.epoch :: n.reconfigured else n.reconfigured }
    else n

/-- The call that stores a result. -/
def ExecutionResult.operation (r : ExecutionResult) (epoch : Nat) : Operation :=
  .setComputeRes r.blockId r.blockHash r.blockNumber epoch (some r.txsInfo) r.liquentEvents

/-- A step of `start_commit_vote` (414) with a result in hand; the loop ends when the buffer refuses
it. -/
def commitVoteStep (n : Node) : Node :=
  match n.commitVote with
  | .received result => { n with commitVote := .setting result n.currentEpoch }
  | .setting result epoch =>
    let op := ExecutionResult.operation result epoch
    let (reply, buffer) := step n.buffer op
    { n with
      buffer := buffer
      announced := n.announced ++ (announces n.buffer op).toList
      commitVote := match reply with
        | .done (.ok ()) => .receiving
        | _ => .stopped }
  | _ => n

/-- A step of `start_commit` (483); `persisted` is the last block that reth has persisted when the
loop asks. -/
def commitStep (n : Node) (persisted : Nat) : Node :=
  match n.commit with
  | .top => { n with commit := .waiting n.currentEpoch }
  | .waiting epoch =>
    let (refs, buffer) := n.buffer.getCommittedBlocks n.startCommitNum none epoch
    match refs.bind List.getLast? with
    | none => { n with buffer := buffer, commit := .top }
    | some last => { n with
        buffer := buffer
        startCommitNum := last.num + 1
        commit := .setting last.num }
  | .setting latestCommitBlockNumber => { n with
      buffer := n.buffer.setState latestCommitBlockNumber persisted
      commit := .top }

end Node

/-- A step of one of the parties. -/
inductive Action where
  | consensus (op : Operation)
  | execution (timeout : Bool)
  | result (blockHash : HashValue) (txsInfo : List TxnStatus) (events : List LiquentEvent)
  | commitVote
  | commit (persisted : Nat)

/-- The parties take steps in any order. -/
def Node.step [Crypto] [OnChainConfig] (n : Node) : Action → Unit × Node
  | .consensus op => ((), n.consensusStep op)
  | .execution timeout => ((), n.executionStep timeout)
  | .result blockHash txsInfo events => ((), n.resultStep blockHash txsInfo events)
  | .commitVote => ((), n.commitVoteStep)
  | .commit persisted => ((), n.commitStep persisted)

/-- `init_epoch` is only called before the first `set_ordered_blocks`, and a new-epoch event names
an epoch after the current one. -/
def Action.Allowed (n : Node) : Action → Prop
  | .consensus op => op.isInitEpoch = true → n.orderedSeen = false
  | .commitVote => ∀ result epoch, n.commitVote = .setting result epoch →
    (Node.ExecutionResult.operation result epoch).NamesLaterEpoch n.buffer
  | _ => True

end Liquent.BlockBuffer
