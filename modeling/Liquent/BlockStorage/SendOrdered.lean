import Liquent.BlockStorage.Recovery

/-!
# Sending ordered blocks to the pipeline

`send_for_execution` while consensus runs (`block_store.rs`).  The blocks on the path to the
committed block are numbered at once and then sent one by one, each with the certificate that
commits it; a block without one goes with the next block that has one.
-/

namespace Liquent

open Misc

namespace BlockStore

/-- `path_from_ordered_root` (`block_store.rs:1141`), empty if there is none. -/
def pathFromOrderedRoot (s : NodeState) (id : HashValue) : Except String (List BlockRef) := do
  let root ← rootBlock s s.tree.orderedRootId
  pure ((pathFromRoot s s.tree.orderedRootId root.block.round (s.tree.blocks.length + 1)
    id []).getD [])

/-- `update_ordered_root`. -/
def updateOrderedRoot (id : HashValue) : Sync Unit := do
  let s ← get
  check (ensure (s.blockExists id = true) "assertion failed: self.block_exists(&root_id)")
  modify fun s => { s with tree := { s.tree with orderedRootId := id } }

/-- The proof with which a block is sent: the finality proof for the block that it commits, for any
other the certificate of the next block, if that commits it. -/
def proofFor (s : NodeState) (finalityProof : LedgerInfoWithSignatures) (id : HashValue)
    (next : Option HashValue) : Option LedgerInfoWithSignatures :=
  if id = finalityProof.ledgerInfo.commitInfo.id then some finalityProof
  else
    match next.bind s.tree.quorumCerts.get with
    | some qc => if qc.commitInfo.id = id then some qc.ledgerInfo else none
    | none => none

/-- The body of the loop over the blocks, with the identifier of the next block. Blocks may be
committed while the pipeline takes the batch. -/
def sendBlock (finalityProof : LedgerInfoWithSignatures) (id : HashValue)
    (next : Option HashValue) : Sync Unit := do
  let s ← get
  match proofFor s finalityProof id next with
  | none => pure ()
  | some proof =>
    let path ← check (pathFromOrderedRoot s id)
    if path = [] then pure ()
    else
      modify fun s => { s with ordered := s.ordered ++
        [{ orderedBlocks := path.filterMap (s.heap[·]?), orderedProof := proof }] }
      let ok ← pipelineAnswers
      check (ensure (ok = true) "Failed to persist commit")
      await
      updateOrderedRoot id

def sendBlocks (finalityProof : LedgerInfoWithSignatures) : List HashValue → Sync Unit
  | [] => pure ()
  | id :: rest => do
    sendBlock finalityProof id rest.head?
    sendBlocks finalityProof rest

variable [Crypto]

/-- `send_for_execution` outside recovery. -/
def sendOrdered (cfg : NodeConfig) (finalityProof : LedgerInfoWithSignatures) : Sync Unit := do
  if cfg.isValidator = false then pure ()
  else
    let s ← get
    let id := finalityProof.ledgerInfo.commitInfo.id
    let block ← check (expect (s.getBlock id) "Committed block id not found")
    let root ← check (rootBlock s s.tree.orderedRootId)
    let round := block.block.round
    let rootRound := root.block.round
    check (ensure (rootRound < round) (s!"Committed block round lower than root: " ++
      s!"block_to_commit_round={round}, ordered_root_round={rootRound}"))
    let path ← check (pathFromOrderedRoot s id)
    if path = [] then pure ()
    else
      initBlockNumber path
      if 0 < cfg.batchCommitSize ∧ path.length ≤ cfg.batchCommitSize then pure ()
      else
        let s ← get
        sendBlocks finalityProof ((path.filterMap (s.heap[·]?)).map (·.id))

end BlockStore

end Liquent
