import Liquent.Rand.RandStore

/-!
# The randomness manager

The stage between ordering and execution at which blocks wait for their randomness
(`rand_manager.rs`, and `block_queue.rs`, cited by line).  Ordered blocks enter a queue; shares of
their rounds are collected in the store; a decision sets the randomness of its block, and the
longest prefix of the queue in which no randomness is missing leaves for execution.  A block that
comes with a randomness does not wait for a decision.

Augmented public keys are exchanged by other messages; of that exchange only the effect is here, a
certified key that is added to the configuration.
-/

namespace Liquent

open Misc

namespace RandGen

/-! ## The queue of blocks -/

/-- A batch of blocks that waits in the queue. -/
structure QueueItem where
  orderedBlocks : List PipelinedBlock
  orderedProof : LedgerInfoWithSignatures
  offsetsByRound : Table Nat Nat
  numUndecidedBlocks : Nat
  nonempty : orderedBlocks ≠ []

namespace QueueItem

/-- `QueueItem::new` (25): blocks that already have a randomness are decided. -/
def new (batch : OrderedBlocks) : Except Fault QueueItem :=
  if h : batch.orderedBlocks ≠ [] then
    .ok {
      orderedBlocks := batch.orderedBlocks
      orderedProof := batch.orderedProof
      offsetsByRound := Table.putAll []
        (batch.orderedBlocks.zipIdx.map fun e => (e.1.block.round, e.2))
      numUndecidedBlocks := (batch.orderedBlocks.filter fun b => !b.hasRandomness).length
      nonempty := h }
  else .error (.panic "assertion failed: len > 0")

/-- `first_round` (45). -/
def firstRound (item : QueueItem) : Nat := (item.orderedBlocks.head item.nonempty).block.round

/-- `last_round` (50). -/
def lastRound (item : QueueItem) : Nat := (item.orderedBlocks.getLast item.nonempty).block.round

/-- The item with the randomness of one block set. -/
def decide (item : QueueItem) (offset : Nat) (randomness : Randomness) : QueueItem where
  orderedBlocks := item.orderedBlocks.modify offset (·.setRandomness randomness)
  orderedProof := item.orderedProof
  offsetsByRound := item.offsetsByRound
  numUndecidedBlocks := item.numUndecidedBlocks - 1
  nonempty := by
    rw [← List.length_pos_iff, List.length_modify]
    exact List.length_pos_iff.mpr item.nonempty

/-- `QueueItem::set_randomness` (66). -/
def setRandomness (item : QueueItem) (round : Nat) (randomness : Randomness) :
    Except Fault QueueItem :=
  match item.offsetsByRound.get round with
  | none => .error (.panic "Round should be in the queue")
  | some offset =>
    match item.orderedBlocks[offset]? with
    | none => .error (.panic "index out of bounds")
    | some block =>
      match block.randomness with
      | none => do
        ensure (0 < item.numUndecidedBlocks) (.panic "attempt to subtract with overflow")
        pure (item.decide offset randomness)
      | some existing => do
        ensure (existing.randomness = randomness.randomness)
          (.panic "assertion `left == right` failed")
        pure item

end QueueItem

/-- The items of the queue, by first round in increasing order. -/
structure BlockQueue where
  queue : List (Nat × QueueItem) := []
  highestDequeuedRound : Option Nat := none

namespace BlockQueue

/-- `BlockQueue::push_back` (102); stale blocks are dropped. -/
def pushBack (q : BlockQueue) (item : QueueItem) : Except Fault BlockQueue := do
  if q.highestDequeuedRound.any (item.firstRound ≤ ·) then pure q
  else
    ensure (item.firstRound ∉ q.queue.map (·.1))
      (.panic "assertion failed: self.queue.insert(first_round, item).is_none()")
    pure { q with
      queue := q.queue.orderedInsert (fun a b => a.1 ≤ b.1) (item.firstRound, item) }

/-- The loop of `dequeue_rand_ready_prefix`. -/
def dequeueLoop : List (Nat × QueueItem) → Option Nat → List OrderedBlocks × BlockQueue
  | [], highest => ([], { queue := [], highestDequeuedRound := highest })
  | (round, item) :: rest, highest =>
    if item.numUndecidedBlocks = 0 then
      let (ready, left) := dequeueLoop rest
        (some (highest.elim item.lastRound (max · item.lastRound)))
      ({ orderedBlocks := item.orderedBlocks, orderedProof := item.orderedProof } :: ready, left)
    else ([], { queue := (round, item) :: rest, highestDequeuedRound := highest })

/-- `BlockQueue::dequeue_rand_ready_prefix` (127). -/
def dequeueRandReadyPrefix (q : BlockQueue) : List OrderedBlocks × BlockQueue :=
  dequeueLoop q.queue q.highestDequeuedRound

/-- `BlockQueue::item_mut` (153): the item that holds a round, with its key. -/
def itemMut (q : BlockQueue) (round : Nat) : Option (Nat × QueueItem) :=
  ((q.queue.filter (·.1 ≤ round)).getLast?).filter fun e => (e.2.offsetsByRound.get round).isSome

/-- The queue after the item under a key has been changed. -/
def replace (q : BlockQueue) (key : Nat) (item : QueueItem) : BlockQueue :=
  { q with queue := q.queue.map fun e => if e.1 = key then (key, item) else e }

end BlockQueue

/-! ## The manager -/

/-- `RandMessage`, without the exchange of augmented public keys. -/
inductive RandMessage (S : Type) where
  | requestShare (metadata : RandMetadata)
  | share (share : RandShare S)
  | fastShare (share : RandShare S)

inductive ResetSignal where
  | stop
  | targetRound (round : Nat)

structure RandManager (S : Type) where
  stop : Bool := false
  randStore : RandStore S
  blockQueue : BlockQueue := {}
  /-- Ordered blocks that have been sent to the manager. -/
  incoming : List OrderedBlocks := []
  /-- Decisions that the store has sent. -/
  decisions : List Randomness := []
  /-- The validators whose augmented data is certified. -/
  certifiedData : List Author := []

namespace RandManager

variable {S : Type} [TShare S]

/-- A share that the node makes itself is added, or else it panics. -/
def addSelfShare (store : RandStore S) (cfg : RandConfig) (metadata : RandMetadata)
    (path : PathType) (expectation : String) : Except Fault (RandStore S) := do
  let (_, store) ← (store.addShare (RandShare.generate cfg metadata) path).mapError fun _ =>
    Fault.panic expectation
  pure store

/-- The node's own share for the fast path, if it is enabled. -/
def addSelfFastShare (store : RandStore S) (metadata : RandMetadata) : Except Fault (RandStore S) :=
  match store.fastRandConfig with
  | some fastConfig =>
    addSelfShare store fastConfig metadata .fast "Add self share for fast path should succeed"
  | none => .ok store

/-- `process_incoming_metadata` (`rand_manager.rs:148`): the node's own shares, then the metadata of
the block. -/
def processIncomingMetadata (store : RandStore S) (metadata : RandMetadata) :
    Except Fault (RandStore S) := do
  let store ← addSelfShare (store.updateHighestKnownRound metadata.round) store.randConfig metadata
    .slow "Add self share should succeed"
  let store ← addSelfFastShare store metadata
  store.addRandMetadata metadata

/-- `process_incoming_blocks` (`rand_manager.rs:134`). -/
def processIncomingBlocks (m : RandManager S) (batch : OrderedBlocks) :
    Except Fault (RandManager S) := do
  let store ← batch.orderedBlocks.foldlM
    (fun store block => processIncomingMetadata store block.metadata) m.randStore
  let item ← QueueItem.new batch
  let queue ← m.blockQueue.pushBack item
  pure { m with randStore := store, blockQueue := queue }

/-- `process_reset` (`rand_manager.rs:187`), after the incoming channel has been drained. -/
def processReset (m : RandManager S) (signal : ResetSignal) : RandManager S :=
  { m with
    incoming := []
    blockQueue := {}
    randStore := m.randStore.resetToRound (match signal with
      | .stop => 0
      | .targetRound round => round)
    stop := match signal with
      | .stop => true
      | .targetRound _ => false }

/-- `process_randomness` (`rand_manager.rs:199`). -/
def processRandomness (m : RandManager S) (randomness : Randomness) :
    Except Fault (RandManager S) :=
  match m.blockQueue.itemMut randomness.metadata.round with
  | none => .ok m
  | some (key, item) => do
    let item ← item.setRandomness randomness.metadata.round randomness
    pure { m with blockQueue := m.blockQueue.replace key item }

/-- `RandMessage::verify` (`types.rs:403`). -/
def verifyMessage (store : RandStore S) : RandMessage S → Except String Unit
  | .requestShare metadata => checkEpoch metadata.epoch
  | .share share => do
    checkEpoch share.metadata.epoch
    share.verify store.randConfig
  | .fastShare share => do
    checkEpoch share.metadata.epoch
    match store.fastRandConfig with
    | some fastConfig => share.verify fastConfig
    | none => .error "[RandMessage] rand config for fast path not found"
where
  checkEpoch (epoch : Nat) : Except String Unit :=
    ensure (epoch = store.epoch) "Condition failed: `self.epoch() == epoch_state.epoch`"

/-- A share is offered to the store; one that it rejects is only logged. -/
def offerShare (store : RandStore S) (share : RandShare S) (path : PathType) :
    Except Fault (RandStore S) :=
  match store.addShare share path with
  | .ok (_, store) => .ok store
  | .error (.error _) => .ok store
  | .error fault => .error fault

/-- What the main loop does with a verified message. A share that is requested but not in the store
is generated again. -/
def processMessage (store : RandStore S) : RandMessage S → Except Fault (RandStore S)
  | .requestShare metadata =>
    match store.getSelfShare metadata with
    | .error _ => .ok store
    | .ok (some _) => .ok store
    | .ok none => addSelfShare store store.randConfig metadata .slow "Add self share should succeed"
  | .share share => offerShare store share .slow
  | .fastShare share => offerShare store share .fast

/-- `ShareAggregateState::add` (`reliable_broadcast_state.rs:50`): the answer of a peer that was
asked for its share. -/
def addShareResponse (store : RandStore S) (peer : Author) (metadata : RandMetadata)
    (share : RandShare S) : Except Fault (RandStore S) := do
  ensure (share.author = peer) (.error "Author does not match")
  ensure (share.metadata = metadata) (.error "Metadata does not match")
  (share.verify store.randConfig).mapError Fault.error
  let (_, store) ← store.addShare share .slow
  pure store

/-- An aggregation ends; its result is sent to the main loop if there is one. -/
def finishAggregation (m : RandManager S) (index : Nat) : RandManager S :=
  match m.randStore.aggregating[index]? with
  | none => m
  | some job =>
    let m := { m with randStore :=
      { m.randStore with aggregating := m.randStore.aggregating.eraseIdx index } }
    match m.randStore.config job.pathType with
    | none => m
    | some cfg =>
      match RandShare.aggregate job.shares cfg job.metadata with
      | .ok randomness => { m with decisions := m.decisions ++ [randomness] }
      | .error _ => m

/-- `RandConfig::add_certified_apk` (`types.rs:605`): the cell of a validator keeps its first key.
-/
def addCertifiedApk (cfg : RandConfig) (author : Author) (apk : Apk) : RandConfig :=
  if (cfg.certifiedApks.get author).isSome then cfg
  else { cfg with certifiedApks := cfg.certifiedApks.put author apk }

/-- The effect of certified augmented data on the configurations. -/
def addCertifiedData (m : RandManager S) (author : Author) (apk : Apk) (fastApk : Option Apk) :
    RandManager S :=
  if author ∈ m.certifiedData then m
  else
    { m with
      certifiedData := author :: m.certifiedData
      randStore :=
        { m.randStore with
          randConfig := addCertifiedApk m.randStore.randConfig author apk
          fastRandConfig :=
            match m.randStore.fastRandConfig, fastApk with
            | some cfg, some fastApk => some (addCertifiedApk cfg author fastApk)
            | cfg, _ => cfg } }

/-! ## The main loop -/

/-- What can happen next at the manager and at the tasks that share its store. -/
inductive Event (S : Type) where
  | incomingBlocks
  | reset (signal : ResetSignal)
  | decision
  | message (message : RandMessage S)
  | certifiedAugData (author : Author) (apk : Apk) (fastApk : Option Apk)
  | shareResponse (peer : Author) (metadata : RandMetadata) (share : RandShare S)
  | aggregated (index : Nat)
  /-- The task that was started for a block looks up whose shares are still missing. -/
  | shareTimer (round : Nat)

/-- One turn of the main loop, before ready blocks are taken from the queue.  Ordered blocks wait
until the node's own augmented data is certified. -/
def turn (m : RandManager S) : Event S → Except Fault (RandManager S)
  | .incomingBlocks =>
    match m.incoming with
    | batch :: rest =>
      if m.randStore.author ∈ m.certifiedData then
        { m with incoming := rest }.processIncomingBlocks batch
      else .ok m
    | [] => .ok m
  | .reset signal => .ok (m.processReset signal)
  | .decision =>
    match m.decisions with
    | randomness :: rest => { m with decisions := rest }.processRandomness randomness
    | [] => .ok m
  | .message message =>
    match verifyMessage m.randStore message with
    | .error _ => .ok m
    | .ok _ => do
      let store ← processMessage m.randStore message
      pure { m with randStore := store }
  | .certifiedAugData author apk fastApk => .ok (m.addCertifiedData author apk fastApk)
  | .shareResponse peer metadata share =>
    -- the answer is handled by a task of its own, whose failure does not reach the loop
    match addShareResponse m.randStore peer metadata share with
    | .ok store => .ok { m with randStore := store }
    | .error _ => .ok m
  | .aggregated index => .ok (m.finishAggregation index)
  | .shareTimer _ => .ok m

/-- The panic of a task that runs beside the main loop.  The task of a block is aborted when the
block leaves the queue, but a task that is past its sleep goes on to the lookup. -/
def taskPanic (m : RandManager S) : Event S → Option String
  | .shareResponse peer metadata share =>
    match addShareResponse m.randStore peer metadata share with
    | .error (.panic message) => some message
    | _ => none
  | .shareTimer round =>
    match m.randStore.getAllSharesAuthors round with
    | .error (.panic message) => some message
    | _ => none
  | _ => none

/-- The manager after an event, with the blocks that leave it.  A panic ends the main loop. -/
def handle (m : RandManager S) (event : Event S) : List OrderedBlocks × RandManager S :=
  if m.stop then ([], m)
  else
    match m.turn event with
    | .error _ => ([], { m with stop := true })
    | .ok m =>
      let (ready, queue) := m.blockQueue.dequeueRandReadyPrefix
      (ready, { m with blockQueue := queue })

end RandManager

end RandGen

end Liquent
