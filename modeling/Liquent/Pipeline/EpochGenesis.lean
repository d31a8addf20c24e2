import Liquent.ConsensusTypes.Genesis
import Liquent.BlockBuffer.BlockBufferManager
import Liquent.Pipeline.CommitProof

/-!
# The genesis block and the batch that ended the epoch

An epoch may end with the block that changes it or with any suffix block after it, whichever batch a
node commits last.  The ledger infos of these batches name the same block as the end of the epoch;
the genesis block of the next epoch is nevertheless built from the block hash of the ledger info
itself, and its certificate also from the time and the waypoint version.
-/

namespace Liquent.Pipeline

open Misc

section Genesis

variable [Crypto] [LedgerApi] [GenesisApi]

/-- Two ledger infos give the same genesis block and the same certificate for it. -/
def SameGenesis (li li' : LedgerInfo) : Prop :=
  ∃ genesis genesis' certificate, Block.makeGenesisBlockFromLedgerInfo li = .ok genesis ∧
    Block.makeGenesisBlockFromLedgerInfo li' = .ok genesis' ∧
    genesis.id = genesis'.id ∧ genesis.blockNumber = genesis'.blockNumber ∧
    QuorumCert.certificateForGenesisFromLedgerInfo li genesis.id = .ok certificate ∧
    QuorumCert.certificateForGenesisFromLedgerInfo li' genesis'.id = .ok certificate

/-- The fields of two ledger infos, beyond the block that ended the epoch, that enter the genesis
block. -/
structure GenesisAgrees (li li' : LedgerInfo) : Prop where
  epoch : li.commitInfo.epoch < u64Max
  blockHash : GenesisApi.blockHash li = GenesisApi.blockHash li'
  waypointVersion : GenesisApi.waypointVersion li = GenesisApi.waypointVersion li'
  timestamp : li.commitInfo.timestampUsecs = li'.commitInfo.timestampUsecs
  /-- Without an `epoch_block_info` the committed block itself is the one that ended the epoch. -/
  unnamed : li.commitInfo.epochBlockInfo = none →
    li.commitInfo.version = li'.commitInfo.version ∧
      LedgerApi.blockNumber li = LedgerApi.blockNumber li'

variable {li li' : LedgerInfo}

section

variable (hinfo : li.commitInfo.epochBlockInfo = li'.commitInfo.epochBlockInfo)

include hinfo

omit [Crypto] [LedgerApi] [GenesisApi] in
/-- When the ledger infos name the block that ended the epoch, its version and time are the same. -/
theorem endOfEpoch_eq_iff : li.endOfEpoch = li'.endOfEpoch ↔
      (li.commitInfo.epochBlockInfo = none → li.commitInfo.version = li'.commitInfo.version ∧
        li.commitInfo.timestampUsecs = li'.commitInfo.timestampUsecs) := by
  unfold LedgerInfo.endOfEpoch
  rw [hinfo]
  cases li'.commitInfo.epochBlockInfo with
  | none | some info => simp

omit [Crypto] [GenesisApi] in
theorem genesisNumber_eq_iff : li.genesisNumber = li'.genesisNumber ↔
      (li.commitInfo.epochBlockInfo = none →
        LedgerApi.blockNumber li = LedgerApi.blockNumber li') := by
  unfold LedgerInfo.genesisNumber
  rw [hinfo]
  cases li'.commitInfo.epochBlockInfo with
  | none | some info => simp

end

/-- Two ledger infos that end the same epoch with the same block and the same next epoch state give
the same genesis block and certificate if and only if their block hashes, waypoint versions and
times agree. -/
theorem sameGenesis_iff (hcollision : CollisionFree) (li li' : LedgerInfo)
    (hends : li.endsEpoch = true) (hepoch : li.commitInfo.epoch = li'.commitInfo.epoch)
    (hinfo : li.commitInfo.epochBlockInfo = li'.commitInfo.epochBlockInfo)
    (hnext : li.nextEpochState = li'.nextEpochState) :
    SameGenesis li li' ↔ GenesisAgrees li li' := by
  constructor
  · rintro ⟨genesis, genesis', certificate, hgenesis, hgenesis', hid, hnumber, hcert, hcert'⟩
    obtain ⟨-, hlt, rfl⟩ := makeGenesisBlock_ok_iff.mp hgenesis
    obtain ⟨-, -, rfl⟩ := makeGenesisBlock_ok_iff.mp hgenesis'
    obtain ⟨-, next, -, rfl⟩ := certificateForGenesis_ok_iff.mp hcert
    obtain ⟨-, next', -, heq⟩ := certificateForGenesis_ok_iff.mp hcert'
    obtain ⟨hcertEq, -⟩ := Prod.mk.inj heq
    rw [genesisCert_eq_iff, genesisCertified_eq_iff] at hcertEq
    obtain ⟨-, -, hhash, hwaypoint, htime⟩ := hcertEq
    have hdata := hcollision.blockData hid
    have hend := (genesisData_eq_iff.mp hdata).2.2
    have hnumber' : li.genesisNumber = li'.genesisNumber := Option.some.inj hnumber
    refine ⟨hlt, hhash.symm, hwaypoint.symm, htime.symm, ?_⟩
    intro hnone
    exact ⟨((endOfEpoch_eq_iff hinfo).mp hend hnone).1,
      (genesisNumber_eq_iff hinfo).mp hnumber' hnone⟩
  · intro h
    obtain ⟨next, hsome⟩ : ∃ next, li.nextEpochState = some next :=
      Option.isSome_iff_exists.mp hends
    have hends' : li'.endsEpoch = true := by
      unfold LedgerInfo.endsEpoch
      rw [← hnext, hsome]
      rfl
    have hend : li.endOfEpoch = li'.endOfEpoch := by
      rw [endOfEpoch_eq_iff hinfo]
      intro hnone
      exact ⟨(h.unnamed hnone).1, h.timestamp⟩
    have hdata : li.genesisData = li'.genesisData := by
      rw [genesisData_eq_iff]
      exact ⟨hepoch, h.blockHash, hend⟩
    have hnumber : li.genesisNumber = li'.genesisNumber := by
      rw [genesisNumber_eq_iff hinfo]
      intro hnone
      exact (h.unnamed hnone).2
    have hid : Block.id ⟨li.genesisData, none, some li.genesisNumber⟩ =
        Block.id ⟨li'.genesisData, none, some li'.genesisNumber⟩ := congrArg BlockData.hash hdata
    have hcert : li.genesisCert (Block.id ⟨li.genesisData, none, some li.genesisNumber⟩) =
        li'.genesisCert (Block.id ⟨li'.genesisData, none, some li'.genesisNumber⟩) := by
      rw [genesisCert_eq_iff, genesisCertified_eq_iff]
      exact ⟨hepoch, hid, h.blockHash, h.waypointVersion, h.timestamp⟩
    have hlt' : li'.commitInfo.epoch < u64Max := hepoch ▸ h.epoch
    refine ⟨_, _, _, makeGenesisBlock_ok_iff.mpr ⟨hends, h.epoch, rfl⟩,
      makeGenesisBlock_ok_iff.mpr ⟨hends', hlt', rfl⟩, hid, congrArg some hnumber,
      certificateForGenesis_ok_iff.mpr ⟨h.epoch, next, hsome, rfl⟩,
      certificateForGenesis_ok_iff.mpr ⟨hlt', next, hnext ▸ hsome, ?_⟩⟩
    rw [hcert]

end Genesis

/-! ## The end of an epoch -/

namespace EpochEnd

open FourValidators (validators qc)

/-- The block of a round; the one of round 1 changes the epoch. -/
def blockAt (round : Nat) : Block where
  blockData :=
    { epoch := 1, round := round, timestampUsecs := 4 + round, quorumCert := qc
      blockType := .nilBlock [] }
  signature := none
  blockNumber := some round

/-- The hash of a block is its round for the three blocks here. -/
@[reducible] def crypto : Crypto :=
  { FourValidators.crypto with
    hashVoteData := Permissive.hashOf []
    hashBlockData := Permissive.hashOf ([1, 2, 3].map fun round => (blockAt round).blockData) }

/-- The accessors return what the ledger info was built with. -/
@[reducible] def genesisApi : GenesisApi where
  blockHash li := (li.blockHashAndNumber.map (·.1)).getD 0
  waypointVersion li := li.endOfEpoch.1

attribute [local instance] crypto FourValidators.ledgerApi FourValidators.pipelineApi genesisApi

theorem collisionFree : CollisionFree where
  voteData := Permissive.hashOf_injective _
  voteData_ne_zero := Permissive.hashOf_ne_zero _
  blockData := Permissive.hashOf_injective _

def nextEpochState : EpochState where
  epoch := 2
  verifier := validators

/-- The executed block of a round: the first with its result, the others with a dummy result. -/
def executedAt (round : Nat) : PipelinedBlock where
  block := blockAt round
  stateComputeResult :=
    if round = 1 then { rootHash := 77, epochState := some nextEpochState }
    else BlockBuffer.BlockStateMachine.newDummyWithEpochState nextEpochState
  randomness := none

/-- The block of round 1, as the end of the epoch. -/
def epochBlockInfo : EpochBlockInfo where
  blockId := 1
  blockNumber := 1
  epochStartRound := 1
  epochStartTimestampUsecs := 5
  blockHash := 77

/-- The batch of the blocks up to a round. -/
def batch (round : Nat) : BufferItem :=
  .newOrdered ((List.range round).map fun i => .newOrdered (blockAt (i + 1)))
    { ledgerInfo := .new (PipelinedBlock.newOrdered (blockAt round)).blockInfo 0
      signatures := { signers := [0, 1, 2], sig := some 1 } }

/-- The item of the executed batch. -/
def executedBatch (round : Nat) : Except String BufferItem :=
  (batch round).advanceToExecutedOrAggregated ((List.range round).map fun i => executedAt (i + 1))
    validators (some 5) true (some epochBlockInfo)

/-- The ledger info that commits the batch of the blocks up to a round. -/
def ledgerInfo (round : Nat) : LedgerInfo :=
  .newWithBlockInfo
    { (executedAt round).blockInfo with
      timestampUsecs := 5, epochBlockInfo := some epochBlockInfo }
    0 (executedAt round).stateComputeResult.rootHash round

end EpochEnd

open EpochEnd

attribute [local instance] EpochEnd.crypto FourValidators.ledgerApi genesisApi
  FourValidators.pipelineApi

/-- Batches that end with different suffix blocks give the same genesis block. -/
theorem sameGenesis_of_suffixes :
    ledgerInfo 2 ≠ ledgerInfo 3 ∧ SameGenesis (ledgerInfo 2) (ledgerInfo 3) := by
  refine ⟨by decide, ?_⟩
  rw [sameGenesis_iff collisionFree (ledgerInfo 2) (ledgerInfo 3) (by decide) (by decide)
    (by decide) (by decide)]
  exact ⟨by decide, by decide, by decide, by decide, by decide⟩

/-- The pipeline builds both ledger infos: one node commits the batch of the block that changes the
epoch, the other a batch with a suffix block. The identifiers and the certificates differ. -/
theorem genesis_differs_of_suffix : CollisionFree ∧
      (∀ round ∈ [1, 2], ∃ item, executedBatch round = .ok (.executed item) ∧
        item.partialCommitProof.ledgerInfo = ledgerInfo round) ∧
      (ledgerInfo 1).endsEpoch = true ∧
      (ledgerInfo 1).commitInfo.epoch = (ledgerInfo 2).commitInfo.epoch ∧
      (ledgerInfo 1).commitInfo.epochBlockInfo = (ledgerInfo 2).commitInfo.epochBlockInfo ∧
      (ledgerInfo 1).nextEpochState = (ledgerInfo 2).nextEpochState ∧
      ∃ genesis genesis' certificate certificate',
        Block.makeGenesisBlockFromLedgerInfo (ledgerInfo 1) = .ok genesis ∧
        Block.makeGenesisBlockFromLedgerInfo (ledgerInfo 2) = .ok genesis' ∧
        QuorumCert.certificateForGenesisFromLedgerInfo (ledgerInfo 1) genesis.id = .ok certificate ∧
        QuorumCert.certificateForGenesisFromLedgerInfo (ledgerInfo 2) genesis'.id =
          .ok certificate' ∧
        genesis.id ≠ genesis'.id ∧ certificate ≠ certificate' := by
  have hdata : (ledgerInfo 1).genesisData ≠ (ledgerInfo 2).genesisData := by decide
  have hid : (ledgerInfo 1).genesisData.hash ≠ (ledgerInfo 2).genesisData.hash :=
    fun h => hdata (collisionFree.blockData h)
  refine ⟨collisionFree, ?_, by decide, by decide, by decide, by decide, ?_⟩
  · exact List.forall_mem_cons.mpr
      ⟨⟨_, rfl, by decide⟩, List.forall_mem_singleton.mpr ⟨_, rfl, by decide⟩⟩
  · refine ⟨_, _, _, _, makeGenesisBlock_ok_iff.mpr ⟨by decide, by decide, rfl⟩,
      makeGenesisBlock_ok_iff.mpr ⟨by decide, by decide, rfl⟩,
      certificateForGenesis_ok_iff.mpr ⟨by decide, nextEpochState, by decide, rfl⟩,
      certificateForGenesis_ok_iff.mpr ⟨by decide, nextEpochState, by decide, rfl⟩, hid, ?_⟩
    intro heq
    have hcert := (Prod.mk.inj heq).1
    rw [genesisCert_eq_iff, genesisCertified_eq_iff] at hcert
    exact hid hcert.2.1

end Liquent.Pipeline
