import Liquent.ConsensusTypes.PipelinedBlock
import Liquent.Misc.StateExcept
import Liquent.Misc.Table

/-!
# The block tree

The tree of blocks in memory with all its fields (`block_tree.rs`, cited by line): blocks with the
set of their children, the roots of ordering and committing, the blocks that the execution layer is
told about, and the highest certificates.  An operation may change some fields and then fail, with
an error for its caller or with a panic.

The children of a block are listed in the order in which the source goes through the set.
-/

namespace Liquent.BlockStorage

open Misc

/-- `WrappedLedgerInfo`. -/
structure WrappedLedgerInfo where
  voteData : VoteData
  signedLedgerInfo : LedgerInfoWithSignatures
deriving DecidableEq

/-- `commit_info` (`wrapped_ledger_info.rs:75`). -/
def WrappedLedgerInfo.commitInfo (w : WrappedLedgerInfo) : BlockInfo :=
  w.signedLedgerInfo.ledgerInfo.commitInfo

/-- `into_wrapped_ledger_info` (`quorum_cert.rs:166`). -/
def intoWrappedLedgerInfo (qc : QuorumCert) : WrappedLedgerInfo := ⟨qc.voteData, qc.ledgerInfo⟩

/-- `create_merged_with_executed_state` (`wrapped_ledger_info.rs:110`). -/
def WrappedLedgerInfo.createMergedWithExecutedState [LedgerApi] (w : WrappedLedgerInfo)
    (executed : LedgerInfoWithSignatures) : Except String WrappedLedgerInfo := do
  ensure (LedgerApi.matchOrderedOnly w.commitInfo executed.ledgerInfo.commitInfo = true)
    "Block info from QC and executed LI need to match"
  pure ⟨w.voteData, executed⟩

structure LinkableBlock where
  executedBlock : PipelinedBlock
  children : List HashValue := []
deriving DecidableEq

structure BlockTree where
  idToBlock : Table HashValue LinkableBlock
  orderedRootId : HashValue
  commitRootId : HashValue
  highestCertifiedBlockId : HashValue
  headBlockId : HashValue
  safeBlockId : HashValue
  finalizedBlockId : HashValue
  highestQuorumCert : QuorumCert
  highest2chainTimeoutCert : Option TwoChainTimeoutCertificate
  highestOrderedCert : WrappedLedgerInfo
  highestCommitCert : WrappedLedgerInfo
  idToQuorumCert : Table HashValue QuorumCert
  prunedBlockIds : List HashValue := []
  maxPrunedBlocksInMem : Nat
deriving DecidableEq

/-- How an operation on the tree fails. -/
inductive Failure where
  | error (message : String)
  | panic (message : String)
deriving DecidableEq

/-- An operation on the tree; what it has changed before it fails stays changed. -/
abbrev TreeM := EStateM Failure BlockTree

namespace BlockTree

variable (tree : BlockTree)

/-- `get_block` (277). -/
def getBlock (id : HashValue) : Option PipelinedBlock :=
  (tree.idToBlock.get id).map (·.executedBlock)

/-- `block_exists` (273). -/
def blockExists (id : HashValue) : Bool := (tree.idToBlock.get id).isSome

/-- `ordered_root` (281). -/
def orderedRoot : Except Failure PipelinedBlock :=
  expect (tree.getBlock tree.orderedRootId) (.panic "Root must exist")

/-- `commit_root` (285). -/
def commitRoot : Except Failure PipelinedBlock :=
  expect (tree.getBlock tree.commitRootId) (.panic "Commit root must exist")

/-- `linkable_root` (263). -/
def linkableRoot : Except Failure LinkableBlock :=
  expect (tree.idToBlock.get tree.commitRootId) (.panic "Root must exist")

/-- `highest_certified_block` (`block_store.rs:1150`). -/
def highestCertifiedBlock : Except Failure PipelinedBlock :=
  expect (tree.getBlock tree.highestCertifiedBlockId) (.panic "Highest cerfified block must exist")

/-- `remove_block` (267). -/
def removeBlock (id : HashValue) : BlockTree :=
  { tree with
    idToBlock := tree.idToBlock.retain (· ≠ id)
    idToQuorumCert := tree.idToQuorumCert.retain (· ≠ id) }

/-! ## Insertion -/

section

variable [Crypto] (genesisBlockId : HashValue)

/-- `add_child` (55) on the parent of a new block, if the parent is in the tree; only the genesis
block may be missing. -/
def linkToParent (parentId blockId : HashValue) : TreeM Unit := do
  let tree ← get
  match tree.idToBlock.get parentId with
  | some parent =>
    check (ensure (blockId ∉ parent.children) (.panic s!"Block {blockId} already existed."))
    modify fun tree => { tree with
      idToBlock := tree.idToBlock.put parentId
        { parent with children := parent.children ++ [blockId] } }
  | none =>
    check (ensure (parentId = genesisBlockId) (.error s!"Parent block {parentId} not found"))

/-- A block that is not a nil block becomes the head. -/
def updateHead (block : PipelinedBlock) : BlockTree :=
  if block.block.isNilBlock then tree else { tree with headBlockId := block.id }

/-- `insert_block` (322). -/
def insertBlock (block : PipelinedBlock) : TreeM PipelinedBlock := do
  modify (·.updateHead block)
  let tree ← get
  match tree.getBlock block.id with
  | some existing =>
    check (ensure (existing.stateComputeResult = block.stateComputeResult)
      (.panic "assertion `left == right` failed"))
    pure existing
  | none =>
    linkToParent genesisBlockId block.block.parentId block.id
    modify fun tree => { tree with idToBlock := tree.idToBlock.put block.id ⟨block, []⟩ }
    pure block

/-- The highest certified block, and the safe block along with it. -/
def updateHighestCertified (block : PipelinedBlock) (qc : QuorumCert) : TreeM Unit := do
  let tree ← get
  let highest ← check tree.highestCertifiedBlock
  if highest.block.round < block.block.round then
    modify fun tree => { tree with
      highestCertifiedBlockId := block.id
      safeBlockId := if block.block.isNilBlock then tree.safeBlockId else block.id
      highestQuorumCert := qc }
  else pure ()

/-- `insert_quorum_cert` (361). -/
def insertQuorumCert (qc : QuorumCert) : TreeM Unit := do
  let blockId := qc.certifiedBlock.id
  let tree ← get
  let block ← check (expect (tree.getBlock blockId) (.error s!"Block {blockId} not found"))
  updateHighestCertified block qc
  modify fun tree => { tree with
    idToQuorumCert :=
      if (tree.idToQuorumCert.get blockId).isSome then tree.idToQuorumCert
      else tree.idToQuorumCert.put blockId qc
    highestOrderedCert :=
      if tree.highestOrderedCert.commitInfo.round < qc.commitInfo.round then
        intoWrappedLedgerInfo qc
      else tree.highestOrderedCert }

end

/-- `insert_ordered_cert` (402). -/
def insertOrderedCert (orderedCert : WrappedLedgerInfo) : BlockTree :=
  if tree.highestOrderedCert.commitInfo.round < orderedCert.commitInfo.round then
    { tree with highestOrderedCert := orderedCert }
  else tree

/-! ## Roots -/

/-- `update_ordered_root` (463). -/
def updateOrderedRoot (rootId : HashValue) : TreeM Unit := do
  let tree ← get
  check (ensure (tree.blockExists rootId = true)
    (.panic "assertion failed: self.block_exists(&root_id)"))
  modify fun tree => { tree with orderedRootId := rootId }

/-- `update_commit_and_finalized_root` (468). -/
def updateCommitAndFinalizedRoot (rootId : HashValue) : TreeM Unit := do
  let tree ← get
  let block ← check (expect (tree.getBlock rootId)
    (.panic "assertion failed: self.block_exists(&root_id)"))
  modify fun tree => { tree with
    finalizedBlockId := if block.block.isNilBlock then tree.finalizedBlockId else rootId
    commitRootId := rootId }

/-- `update_highest_commit_cert` (354). -/
def updateHighestCommitCert (newCommitCert : WrappedLedgerInfo) : TreeM Unit := do
  let tree ← get
  if tree.highestCommitCert.commitInfo.round < newCommitCert.commitInfo.round then
    modify fun tree => { tree with highestCommitCert := newCommitCert }
    updateCommitAndFinalizedRoot newCommitCert.commitInfo.id
  else pure ()

/-- The loop of `path_from_root_to_block` (510), oldest block first; the outer `none` is for too few
iterations. -/
def pathFromRootToBlock (rootId : HashValue) (rootRound : Nat) :
    Nat → HashValue → List PipelinedBlock → Option (Option (List PipelinedBlock))
  | 0, _, _ => none
  | fuel + 1, id, path =>
    match tree.getBlock id with
    | none => some none
    | some block =>
      if block.block.round ≤ rootRound then some (if id = rootId then some path else none)
      else pathFromRootToBlock rootId rootRound fuel block.block.parentId (block :: path)

/-- `path_from_ordered_root` (539). The walk visits a block of the tree once. -/
def pathFromOrderedRoot (id : HashValue) : Except Failure (Option (List PipelinedBlock)) := do
  let root ← tree.orderedRoot
  pure (tree.pathFromRootToBlock tree.orderedRootId root.block.round (tree.idToBlock.length + 1)
    id []).join

/-! ## Pruning -/

section

variable [Crypto]

/-- The children of a block that is removed are removed too, but for the new root. -/
def pushChildren (nextRootId : HashValue) :
    List HashValue → List LinkableBlock → Except Failure (List LinkableBlock)
  | [], stack => .ok stack
  | childId :: rest, stack =>
    if nextRootId = childId then pushChildren nextRootId rest stack
    else do
      let child ← expect (tree.idToBlock.get childId) (.panic "Child must exist in the tree")
      pushChildren nextRootId rest (child :: stack)

/-- The loop of `find_blocks_to_prune`; `none` when the iterations are not enough. -/
def pruneLoop (nextRootId : HashValue) : Nat → List LinkableBlock → List (Nat × HashValue) →
      Except Failure (Option (List (Nat × HashValue)))
  | _, [], pruned => .ok (some pruned)
  | 0, _ :: _, _ => .ok none
  | fuel + 1, block :: stack, pruned => do
    let stack ← tree.pushChildren nextRootId block.children stack
    pruneLoop nextRootId fuel stack
      (pruned ++ [(block.executedBlock.block.epoch, block.executedBlock.id)])

/-- `find_blocks_to_prune` (419), within a number of iterations. -/
def findBlocksToPrune (fuel : Nat) (nextRootId : HashValue) :
    Except Failure (Option (List (Nat × HashValue))) :=
  if nextRootId = tree.commitRootId then .ok (some [])
  else
    match tree.getBlock nextRootId with
    | none => .ok (some [])
    | some nextRoot => do
      let root ← tree.commitRoot
      if nextRoot.block.round ≤ root.block.round then pure (some [])
      else
        let linkable ← tree.linkableRoot
        tree.pruneLoop nextRootId fuel [linkable] []

end

/-- The loop of `process_pruned_blocks`. -/
def removeOldest : Nat → BlockTree → BlockTree
  | 0, tree => tree
  | n + 1, tree =>
    match tree.prunedBlockIds with
    | [] => removeOldest n tree
    | id :: rest => removeOldest n ({ tree with prunedBlockIds := rest }.removeBlock id)

/-- `process_pruned_blocks` (482). -/
def processPrunedBlocks (newlyPruned : List (Nat × HashValue)) : BlockTree :=
  let tree := { tree with prunedBlockIds := tree.prunedBlockIds ++ newlyPruned.map (·.2) }
  removeOldest (tree.prunedBlockIds.length - tree.maxPrunedBlocksInMem) tree

/-- `commit_callback` (559), which a commit of the pipeline runs. The search visits a block of the
tree once. -/
def commitCallback [Crypto] [LedgerApi] (blocksToCommit : List PipelinedBlock)
    (finalityProof : WrappedLedgerInfo) (commitDecision : LedgerInfoWithSignatures) :
    TreeM Unit := do
  let last ← check (expect blocksToCommit.getLast? (.panic "pipeline is empty"))
  let tree ← get
  let root ← check tree.commitRoot
  -- a stale commit
  if last.block.round ≤ root.block.round then pure ()
  else
    let commitProof ← check ((finalityProof.createMergedWithExecutedState commitDecision).mapError
      fun _ => .panic "Inconsistent commit proof and evaluation decision, cannot commit block")
    let idsToRemove ← check (tree.findBlocksToPrune tree.idToBlock.length last.id)
    modify fun tree => tree.processPrunedBlocks (idsToRemove.getD [])
    updateHighestCommitCert commitProof

/-! ## Failed insertions -/

section

variable {tree : BlockTree} [Crypto] {genesisBlockId : HashValue}

@[simp] theorem updateHead_idToBlock (block : PipelinedBlock) :
    (tree.updateHead block).idToBlock = tree.idToBlock := by
  unfold updateHead
  split <;> rfl

variable {block : PipelinedBlock}

theorem updateHead_eq_iff :
    tree.updateHead block = tree ↔ block.block.isNilBlock = true ∨ tree.headBlockId = block.id := by
  unfold updateHead
  by_cases hnil : block.block.isNilBlock = true
  · simp [hnil]
  · rw [if_neg hnil]
    constructor
    · intro heq
      right
      rw [← heq]
    · rintro (h | h)
      · exact absurd h hnil
      · rw [← h]

variable {tree' : BlockTree} {message : String}

omit [Crypto] in
theorem linkToParent_error_iff {parentId blockId : HashValue} :
    linkToParent genesisBlockId parentId blockId tree = .error (.error message) tree' ↔
      tree.blockExists parentId = false ∧ parentId ≠ genesisBlockId ∧
        message = s!"Parent block {parentId} not found" ∧ tree' = tree := by
  unfold linkToParent blockExists
  rw [bind_of_ok (get_eq_ok _)]
  cases hparent : tree.idToBlock.get parentId with
  | some parent => simp [bind_error_iff, check_error_iff, modify_eq_ok]
  | none =>
    simp only [check_error_iff, ensure_error_iff, Failure.error.injEq, Option.isSome_none, true_and]
    tauto

/-- An insertion fails when neither the block nor its parent is in the tree; the head has been set
by then. -/
theorem insertBlock_error_iff :
    insertBlock genesisBlockId block tree = .error (.error message) tree' ↔
      tree.blockExists block.id = false ∧ tree.blockExists block.block.parentId = false ∧
        block.block.parentId ≠ genesisBlockId ∧
        message = s!"Parent block {block.block.parentId} not found" ∧
        tree' = tree.updateHead block := by
  have hget : (tree.updateHead block).getBlock block.id = tree.getBlock block.id := by
    simp [getBlock]
  have hexists : ∀ id, (tree.updateHead block).blockExists id = tree.blockExists id := by
    simp [blockExists]
  unfold insertBlock
  rw [bind_of_ok (modify_eq_ok _ _), bind_of_ok (get_eq_ok _), hget]
  cases hblock : tree.idToBlock.get block.id with
  | some existing =>
    simp [getBlock, hblock, blockExists, bind_error_iff, check_error_iff, pure, EStateM.pure]
  | none =>
    simp only [getBlock, hblock, Option.map_none, bind_error_iff, linkToParent_error_iff, hexists]
    simp [blockExists, hblock, modify_eq_ok, pure, EStateM.pure]

/-- Once the certified block has been found, the operation can only panic. -/
theorem updateHighestCertified_error {qc : QuorumCert} {e : Failure}
    (h : updateHighestCertified block qc tree = .error e tree') :
    e = .panic "Highest cerfified block must exist" := by
  unfold updateHighestCertified at h
  rw [bind_of_ok (get_eq_ok _), bind_error_iff] at h
  rcases h with h | ⟨highest, tree₁, -, h⟩
  · obtain ⟨herror, -⟩ := check_error_iff.mp h
    unfold highestCertifiedBlock expect at herror
    split at herror
    · cases herror
    · exact (Except.error.inj herror).symm
  · split at h
    · cases h
    · cases h

theorem insertQuorumCert_error {qc : QuorumCert}
    (h : insertQuorumCert qc tree = .error (.error message) tree') : tree' = tree := by
  unfold insertQuorumCert at h
  rw [bind_of_ok (get_eq_ok _), bind_error_iff] at h
  rcases h with h | ⟨block, tree₁, hblock, h⟩
  · exact (check_error_iff.mp h).2.symm
  · rw [bind_error_iff] at h
    rcases h with h | ⟨-, tree₂, -, h⟩
    · cases updateHighestCertified_error h
    · cases h

/-- An error leaves the tree as it was, for certificates always and for a block exactly when it
cannot become the head or can be inserted. -/
theorem insertion_error_frame : (∀ block : PipelinedBlock,
      (∀ message tree', insertBlock genesisBlockId block tree = .error (.error message) tree' →
        tree' = tree) ↔
      block.block.isNilBlock = true ∨ tree.headBlockId = block.id ∨
        tree.blockExists block.id = true ∨ tree.blockExists block.block.parentId = true ∨
        block.block.parentId = genesisBlockId) ∧
    ∀ (qc : QuorumCert) (message : String) (tree' : BlockTree),
      insertQuorumCert qc tree = .error (.error message) tree' → tree' = tree := by
  refine ⟨?_, fun qc message tree' => insertQuorumCert_error⟩
  intro block
  simp only [insertBlock_error_iff]
  constructor
  · intro h
    by_contra hcond
    simp only [not_or, Bool.not_eq_true] at hcond
    obtain ⟨hnil, hhead, hblock, hparent, hgenesis⟩ := hcond
    have hframe := h _ _ ⟨hblock, hparent, hgenesis, rfl, rfl⟩
    rcases updateHead_eq_iff.mp hframe with hnil' | hhead'
    · simp [hnil] at hnil'
    · exact hhead hhead'
  · rintro hcond message tree' ⟨hblock, hparent, hgenesis, -, rfl⟩
    apply updateHead_eq_iff.mpr
    simp only [hblock, hparent, hgenesis, Bool.false_eq_true, or_false] at hcond
    exact hcond

end

end BlockTree

/-! ## A small tree -/

namespace SmallTree

/-- The identifier of a block is its round. -/
@[reducible] def crypto : Crypto := Permissive.crypto (·.proposed.round) (·.round)

local instance : Crypto := crypto

def info (round : Nat) : BlockInfo := { BlockInfo.empty with epoch := 1, round, id := round }

def signed (round : Nat) : LedgerInfoWithSignatures := ⟨.new (info round) 0, ⟨[], none⟩⟩

/-- A certificate for the block of a round, which commits nothing new. -/
def certificate (round : Nat) : QuorumCert := ⟨⟨info round, info 0⟩, signed 0⟩

/-- The block of a round, over the block of an earlier one. -/
def proposal (round parent : Nat) : PipelinedBlock where
  block := ⟨⟨1, round, 0, certificate parent, .proposal (.directMempool []) 0 []⟩, none, none⟩
  stateComputeResult := ⟨0, none, 0, none, []⟩
  randomness := none

/-- A tree that has the block of the first round only. -/
def rooted : BlockTree where
  idToBlock := [(1, ⟨proposal 1 0, []⟩)]
  orderedRootId := 1
  commitRootId := 1
  highestCertifiedBlockId := 1
  headBlockId := 1
  safeBlockId := 1
  finalizedBlockId := 1
  highestQuorumCert := certificate 1
  highest2chainTimeoutCert := none
  highestOrderedCert := ⟨⟨info 1, info 0⟩, signed 1⟩
  highestCommitCert := ⟨⟨info 1, info 0⟩, signed 1⟩
  idToQuorumCert := [(1, certificate 1)]
  maxPrunedBlocksInMem := 1

/-- A block whose parent is missing is refused, and has become the head. -/
theorem orphan_becomes_head : BlockTree.insertBlock 0 (proposal 5 4) rooted =
        .error (.error "Parent block 4 not found") { rooted with headBlockId := 5 } ∧
      { rooted with headBlockId := 5 } ≠ rooted :=
  ⟨rfl, by decide⟩

end SmallTree

end Liquent.BlockStorage
