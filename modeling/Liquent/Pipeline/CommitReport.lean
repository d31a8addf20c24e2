import Liquent.BlockStorage.BlockTree
import Liquent.Misc.Lists
import Liquent.Pipeline.StateComputer

/-!
# What is reported of a batch

The events of a batch are selected by block number, and its transactions by the execution result.
The block that changes the epoch has a result with the next epoch state like the blocks after it, so
its own transactions are not reported.
-/

namespace Liquent.StateComputer

open Misc

section Reports

variable [Crypto] {ContractEvent : Type} {convert : LiquentEvent → Option ContractEvent}
  {commitLedger : CommitLedger} {s : MutableState} {proxy : ExecutionProxy}
  {blocks : List ExecutedBlock} {finalityProof : LedgerInfoWithSignatures}

/-- The blocks up to the one that changes the epoch, or all blocks. -/
def countedBlocks (finalityProof : LedgerInfoWithSignatures) (blocks : List ExecutedBlock) :
    List ExecutedBlock :=
  blocks.filter fun b =>
    match finalityProof.ledgerInfo.commitInfo.epochBlockInfo with
    | some info => b.block.blockNumber.getD 0 ≤ info.blockNumber
    | none => true

/-- State sync is told of exactly the blocks up to the one that changes the epoch. -/
structure ReportsExactly (convert : LiquentEvent → Option ContractEvent) (s : MutableState)
    (finalityProof : LedgerInfoWithSignatures) (blocks : List ExecutedBlock)
    (sent : Notification ContractEvent) : Prop where
  transactions : ∃ lists,
    (countedBlocks finalityProof blocks).mapM (blockTransactions s) = .ok lists ∧
      sent.txns = lists.flatten
  events : sent.subscribableEvents =
    (countedBlocks finalityProof blocks).flatMap (subscribableEvents convert)
  number : ((countedBlocks finalityProof blocks).getLast?.bind (·.block.blockNumber)) =
    some sent.blockNumber

/-- The blocks whose result has an epoch state are those after the block that changes the epoch, and
the last block before them is that block. -/
structure ReconfiguresAfter (finalityProof : LedgerInfoWithSignatures)
    (blocks : List ExecutedBlock) : Prop where
  suffix : ∀ b ∈ blocks, b.isReconfigurationSuffix = isSuffix finalityProof b
  last : ∀ info, finalityProof.ledgerInfo.commitInfo.epochBlockInfo = some info →
    ((countedBlocks finalityProof blocks).getLast?.bind (·.block.blockNumber)) =
      some info.blockNumber

omit [Crypto] in
theorem countedBlocks_eq (finalityProof : LedgerInfoWithSignatures) (blocks : List ExecutedBlock) :
    countedBlocks finalityProof blocks = blocks.filter fun b => !isSuffix finalityProof b := by
  unfold countedBlocks isSuffix
  congr 1
  funext b
  cases finalityProof.ledgerInfo.commitInfo.epochBlockInfo with
  | none => rfl
  | some info => exact (Bool.eq_iff_iff.mpr (by simp))

/-! ## The loop -/

/-- What the loop over the blocks has collected. -/
structure LoopSpec (convert : LiquentEvent → Option ContractEvent) (s : MutableState)
    (finalityProof : LedgerInfoWithSignatures) (blocks : List ExecutedBlock)
    (before after : CommitBatch ContractEvent) : Prop where
  txns : ∃ lists,
    (blocks.filter fun b => !b.isReconfigurationSuffix).mapM (blockTransactions s) = .ok lists ∧
      after.txns = before.txns ++ lists.flatten
  events : after.subscribableTxnEvents = before.subscribableTxnEvents ++
    (blocks.filter fun b => !isSuffix finalityProof b).flatMap (subscribableEvents convert)

theorem loopSpec_of_foldlM {before after : CommitBatch ContractEvent}
    (h : blocks.foldlM (collectBlock convert s finalityProof) before = .ok after) :
    LoopSpec convert s finalityProof blocks before after := by
  induction blocks generalizing before with
  | nil =>
    obtain rfl := Except.ok.inj h
    exact ⟨⟨[], rfl, by simp⟩, by simp⟩
  | cons b rest ih =>
    rw [List.foldlM_cons, except_bind_ok_iff] at h
    obtain ⟨next, hnext, hrest⟩ := h
    obtain ⟨⟨lists, hlists, htxns⟩, hevents⟩ := ih hrest
    simp only [collectBlock, except_bind_ok_iff] at hnext
    obtain ⟨transactions, htransactions, hnext⟩ := hnext
    obtain rfl := Except.ok.inj hnext
    constructor
    · unfold transactionsToCommit at htransactions
      by_cases hreconf : b.isReconfigurationSuffix = true
      · rw [if_pos hreconf] at htransactions
        obtain rfl := Except.ok.inj htransactions
        refine ⟨lists, ?_, ?_⟩
        · rw [List.filter_cons_of_neg (by simp [hreconf])]
          exact hlists
        · rw [htxns, List.append_nil]
      · rw [if_neg hreconf] at htransactions
        refine ⟨transactions :: lists, ?_, ?_⟩
        · rw [List.filter_cons_of_pos (by simp [hreconf]), List.mapM_cons, htransactions]
          change (List.mapM _ _ >>= fun lists => Except.ok (transactions :: lists)) = _
          rw [hlists]
          rfl
        · rw [htxns, List.flatten_cons, List.append_assoc]
    · rw [hevents]
      by_cases hsuffix : isSuffix finalityProof b = true
      · rw [if_pos hsuffix, List.filter_cons_of_neg (by simp [hsuffix])]
      · rw [if_neg hsuffix, List.filter_cons_of_pos (by simp [hsuffix]), List.flatMap_cons,
          List.append_assoc]

/-! ## The blocks that are reported -/

/-- The block that a transaction is the metadata of. -/
def metadataId : Transaction → Option HashValue
  | .blockMetadata metadata | .blockMetadataExt metadata _ => some metadata.id
  | .userTransaction _ => none

theorem metadataIds_blockTransactions {b : ExecutedBlock} {transactions : List Transaction}
    (h : blockTransactions s b = .ok transactions) :
    transactions.filterMap metadataId = [b.id] := by
  simp only [blockTransactions, Block.newBlockMetadata, except_bind_ok_iff] at h
  obtain ⟨metadata, ⟨_, -, hmetadata⟩, h⟩ := h
  obtain rfl := Except.ok.inj hmetadata
  obtain rfl := Except.ok.inj h
  have huser (l : List SignedTransaction) :
      (l.map Transaction.userTransaction).filterMap metadataId = [] := by
    rw [List.filterMap_map, List.filterMap_eq_nil_iff]
    exact fun _ _ => rfl
  cases s.isRandomnessEnabled with
  | true | false => exact congrArg (List.cons b.id) (huser _)

/-- The transactions of some blocks name these blocks, in order. -/
theorem metadataIds_mapM {lists : List (List Transaction)}
    (h : blocks.mapM (blockTransactions s) = .ok lists) :
    lists.flatten.filterMap metadataId = blocks.map (·.id) := by
  induction blocks generalizing lists with
  | nil =>
    obtain rfl := Except.ok.inj h
    rfl
  | cons b rest ih =>
    simp only [List.mapM_cons, except_bind_ok_iff, except_pure_ok_iff] at h
    obtain ⟨transactions, htransactions, lists, hlists, rfl⟩ := h
    rw [List.flatten_cons, List.filterMap_append, metadataIds_blockTransactions htransactions,
      ih hlists]
    rfl

/-- A commit that returns has run its loop and reported the epoch change block or the last one. -/
theorem ExecutionProxy.commit_ok {sent : Notification ContractEvent} {proxy' : ExecutionProxy}
    (hstate : proxy.state = some s)
    (h : proxy.commit convert commitLedger blocks finalityProof = .ok (sent, proxy')) :
    (∃ lists, (blocks.filter fun b => !b.isReconfigurationSuffix).mapM (blockTransactions s) =
        .ok lists ∧ sent.txns = lists.flatten) ∧
      sent.subscribableEvents =
        (countedBlocks finalityProof blocks).flatMap (subscribableEvents convert) ∧
      ∃ number, blocks.getLast?.bind (·.block.blockNumber) = some number ∧ sent.blockNumber =
          (finalityProof.ledgerInfo.commitInfo.epochBlockInfo.map (·.blockNumber)).getD number := by
  simp only [ExecutionProxy.commit, hstate, except_bind_ok_iff] at h
  obtain ⟨batch, hbatch, _, -, h⟩ := h
  obtain ⟨⟨lists, hlists, htxns⟩, hevents⟩ := loopSpec_of_foldlM hbatch
  cases hlast : blocks.getLast? with
  | none => simp [hlast] at h
  | some last =>
    rw [hlast] at h
    cases hnumber : last.block.blockNumber with
    | none =>
      simp only [hnumber] at h
      cases h
    | some number =>
      simp only [hnumber] at h
      obtain ⟨rfl, -⟩ := Prod.mk.inj (Except.ok.inj h)
      refine ⟨⟨lists, hlists, by simpa using htxns⟩, ?_, number, hnumber, rfl⟩
      rw [countedBlocks_eq]
      simpa using hevents

omit [Crypto] in
theorem ReconfiguresAfter.filter_eq (h : ReconfiguresAfter finalityProof blocks) :
    (blocks.filter fun b => !b.isReconfigurationSuffix) = countedBlocks finalityProof blocks := by
  rw [countedBlocks_eq]
  apply List.filter_congr
  intro b hb
  rw [h.suffix b hb]

omit [Crypto] in
theorem countedBlocks_eq_self (h : finalityProof.ledgerInfo.commitInfo.epochBlockInfo = none) :
    countedBlocks finalityProof blocks = blocks := by
  simp [countedBlocks, h]

/-- A commit reports exactly the blocks up to the one that changes the epoch when only the blocks
after it have a result with an epoch state; when the blocks are distinct, only then. -/
theorem reportsExactly_iff {sent : Notification ContractEvent} {proxy' : ExecutionProxy}
    (hstate : proxy.state = some s)
    (h : proxy.commit convert commitLedger blocks finalityProof = .ok (sent, proxy')) :
    (ReconfiguresAfter finalityProof blocks → ReportsExactly convert s finalityProof blocks sent) ∧
      ((blocks.map (·.id)).Nodup → ReportsExactly convert s finalityProof blocks sent →
        ReconfiguresAfter finalityProof blocks) := by
  obtain ⟨⟨lists, hlists, htxns⟩, hevents, number, hlast, hnumber⟩ :=
    ExecutionProxy.commit_ok hstate h
  constructor
  · intro hafter
    rw [hafter.filter_eq] at hlists
    refine ⟨⟨lists, hlists, htxns⟩, hevents, ?_⟩
    rw [hnumber]
    cases hinfo : finalityProof.ledgerInfo.commitInfo.epochBlockInfo with
    | none => rw [countedBlocks_eq_self hinfo, hlast]; rfl
    | some info => exact hafter.last info hinfo
  · intro hdistinct hreports
    constructor
    · -- both selections report the same metadata, hence the same blocks
      obtain ⟨lists', hlists', htxns'⟩ := hreports.transactions
      have hids : (blocks.filter fun b => !b.isReconfigurationSuffix).map (·.id) =
          (blocks.filter fun b => !isSuffix finalityProof b).map (·.id) := by
        rw [← metadataIds_mapM hlists, ← htxns, htxns', metadataIds_mapM hlists', countedBlocks_eq]
      intro b hb
      have hsame := filter_agree_of_map_eq hdistinct hids b hb
      simpa using hsame
    · intro info hinfo
      have hreported := hreports.number
      rw [hnumber, hinfo] at hreported
      exact hreported

end Reports

/-! ## The end of an epoch -/

namespace EpochEnd

open BlockStorage

attribute [local instance] SmallTree.crypto

/-- The block of a number, with or without an epoch state in its result. -/
def executedBlock (number : Nat) (reconfigures : Bool) : ExecutedBlock where
  block := { (SmallTree.proposal number (number - 1)).block with blockNumber := some number }
  stateComputeResult :=
    { rootHash := number
      epochState := if reconfigures then some ⟨2, ⟨[]⟩⟩ else none
      events := [.other [number.toUInt8]] }
  randomness := none
  inputTransactions := []

/-- Block 5 changes the epoch, and block 6 comes after it. -/
def finalityProof : LedgerInfoWithSignatures :=
  let info := SmallTree.info 6
  ⟨.new { info with epochBlockInfo := some ⟨5, 5, 5, 0, 5⟩ } 0, ⟨[], none⟩⟩

def state : MutableState := ⟨[], false⟩

def metadata (number : Nat) : Transaction :=
  .blockMetadata ⟨number, 1, number, 0, [], [], 0⟩

/-- The commit of a batch that ends with a suffix block; block 5 has an epoch state or not. -/
def committed (reconfigures : Bool) : Except String (Notification LiquentEvent × ExecutionProxy) :=
  ExecutionProxy.commit some (fun _ _ _ => .ok ()) ⟨some state, (0, 0)⟩
    [executedBlock 4 false, executedBlock 5 reconfigures, executedBlock 6 true] finalityProof

def sent (numbers : List Nat) : Notification LiquentEvent where
  txns := numbers.map metadata
  subscribableEvents := [.other [4], .other [5]]
  blockNumber := 5
  payloads := [.directMempool [], .directMempool [], .directMempool []]
  blockTimestamp := 0

end EpochEnd

open EpochEnd BlockStorage

attribute [local instance] SmallTree.crypto

/-- The block that changes the epoch has an epoch state: its events and number are reported, its
transactions are not. -/
theorem epochChange_transactions_missing : committed true = .ok (sent [4], ⟨some state, (1, 6)⟩) ∧
      (countedBlocks finalityProof
        [executedBlock 4 false, executedBlock 5 true, executedBlock 6 true]).map (·.id) = [4, 5] ∧
      blockTransactions state (executedBlock 5 true) = .ok [metadata 5] ∧
      metadata 5 ∉ (sent [4]).txns := by
  exact ⟨rfl, rfl, rfl, by decide⟩

theorem reportsExactly_iff_epochEnd :
    let blocks := [executedBlock 4 false, executedBlock 5 false, executedBlock 6 true]
    committed false = .ok (sent [4, 5], ⟨some state, (1, 6)⟩) ∧
      ReportsExactly some state finalityProof blocks (sent [4, 5]) := by
  have hcommitted : committed false = .ok (sent [4, 5], ⟨some state, (1, 6)⟩) := rfl
  refine ⟨hcommitted, (reportsExactly_iff rfl hcommitted).1 ⟨by decide, ?_⟩⟩
  intro info hinfo
  obtain rfl := Option.some.inj hinfo
  rfl

end Liquent.StateComputer
