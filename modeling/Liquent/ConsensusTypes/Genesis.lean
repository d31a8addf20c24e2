import Liquent.ConsensusTypes.Crypto
import Liquent.Misc.StateExcept

/-!
# The genesis block of an epoch

A ledger info that ends an epoch determines the genesis block of the next one and its certificate
(`BlockData::new_genesis_from_ledger_info`, `Block::make_genesis_block_from_ledger_info`,
`QuorumCert::certificate_for_genesis_from_ledger_info`).  An error stands for a panic.
-/

namespace Liquent

open Misc

/-- Accessors of ledger infos in the `laptos` crate. -/
class GenesisApi where
  /-- `LedgerInfo::block_hash`. -/
  blockHash : LedgerInfo → HashValue
  /-- `LedgerInfo::waypoint_version`. -/
  waypointVersion : LedgerInfo → Nat

/-- `BlockInfo::new`. -/
def BlockInfo.new (epoch round : Nat) (id executedStateId : HashValue)
    (version timestampUsecs : Nat) (nextEpochState : Option EpochState) : BlockInfo where
  epoch := epoch
  round := round
  id := id
  executedStateId := executedStateId
  version := version
  timestampUsecs := timestampUsecs
  nextEpochState := nextEpochState

/-- `AggregateSignature::empty`. -/
def AggregateSignature.empty : AggregateSignature where
  signers := []
  sig := none

/-- `BlockData::new_genesis` (`block_data.rs:246`). -/
def BlockData.newGenesis (timestampUsecs : Nat) (quorumCert : QuorumCert) :
    Except String BlockData := do
  let epoch := quorumCert.certifiedBlock.epoch
  ensure (epoch < u64Max) "attempt to add with overflow"
  pure
    { epoch := epoch + 1, round := 0, timestampUsecs := timestampUsecs, quorumCert := quorumCert
      blockType := .genesis }

/-- The version and the time of the block that ended the epoch. -/
def LedgerInfo.endOfEpoch (li : LedgerInfo) : Nat × Nat :=
  match li.commitInfo.epochBlockInfo with
  | some info => (info.blockNumber, info.epochStartTimestampUsecs)
  | none => (li.commitInfo.version, li.commitInfo.timestampUsecs)

section Ancestor

variable [GenesisApi]

/-- The ancestor of the genesis block. -/
def LedgerInfo.genesisAncestor (li : LedgerInfo) : BlockInfo :=
  .new li.commitInfo.epoch 0 HashValue.zero (GenesisApi.blockHash li) li.endOfEpoch.1
    li.endOfEpoch.2 none

/-- `BlockData::new_genesis_from_ledger_info` (`block_data.rs:187`). -/
def BlockData.newGenesisFromLedgerInfo (li : LedgerInfo) : Except String BlockData := do
  ensure (li.endsEpoch = true) "assertion failed: ledger_info.ends_epoch()"
  let ancestor := li.genesisAncestor
  let genesisQuorumCert : QuorumCert :=
    { voteData := { proposed := ancestor, parent := ancestor }
      signedLedgerInfo :=
        { ledgerInfo := .new ancestor HashValue.zero, signatures := .empty } }
  BlockData.newGenesis li.endOfEpoch.2 genesisQuorumCert

/-- `Block::make_genesis_block_from_ledger_info` (`block.rs:196`). -/
def Block.makeGenesisBlockFromLedgerInfo [LedgerApi] (li : LedgerInfo) : Except String Block := do
  let blockData ← BlockData.newGenesisFromLedgerInfo li
  let number :=
    match li.commitInfo.epochBlockInfo with
    | some info => info.blockNumber
    | none => LedgerApi.blockNumber li
  pure { blockData := blockData, signature := none, blockNumber := some number }

/-- The certified block of the certificate of a genesis block. -/
def LedgerInfo.genesisCertified (li : LedgerInfo) (genesisId : HashValue) : BlockInfo :=
  .new (li.commitInfo.epoch + 1) 0 genesisId (GenesisApi.blockHash li)
    (GenesisApi.waypointVersion li) li.commitInfo.timestampUsecs none

/-- `QuorumCert::certificate_for_genesis_from_ledger_info` (`quorum_cert.rs:80`), with the number of
bits of the mask, none of which is set. -/
def QuorumCert.certificateForGenesisFromLedgerInfo [Crypto] (li : LedgerInfo)
    (genesisId : HashValue) : Except String (QuorumCert × Nat) := do
  ensure (li.commitInfo.epoch < u64Max)
    "Integer overflow when creating cert for genesis from ledger info"
  let ancestor := li.genesisCertified genesisId
  let voteData : VoteData := { proposed := ancestor, parent := ancestor }
  let next ← expect li.nextEpochState "Next epoch state not found in ledger info"
  pure
    ({ voteData := voteData
       signedLedgerInfo := { ledgerInfo := .new ancestor voteData.hash, signatures := .empty } },
      next.verifier.validatorInfos.length % 2 ^ 16)

/-! ## What the genesis block depends on -/

variable {li li' : LedgerInfo}

/-- The data of the genesis block that a ledger info determines. -/
def LedgerInfo.genesisData (li : LedgerInfo) : BlockData where
  epoch := li.commitInfo.epoch + 1
  round := 0
  timestampUsecs := li.endOfEpoch.2
  quorumCert :=
    { voteData := { proposed := li.genesisAncestor, parent := li.genesisAncestor }
      signedLedgerInfo :=
        { ledgerInfo := .new li.genesisAncestor HashValue.zero, signatures := .empty } }
  blockType := .genesis

theorem newGenesisFromLedgerInfo_ok_iff {data : BlockData} :
    BlockData.newGenesisFromLedgerInfo li = .ok data ↔
      li.endsEpoch = true ∧ li.commitInfo.epoch < u64Max ∧ li.genesisData = data := by
  simp only [BlockData.newGenesisFromLedgerInfo, BlockData.newGenesis, except_seq_ok_iff,
    ensure_ok_iff, except_pure_ok_iff]
  rfl

/-- Two genesis blocks have the same data when they end the same epoch with the same block. -/
theorem genesisData_eq_iff :
    li.genesisData = li'.genesisData ↔
      li.commitInfo.epoch = li'.commitInfo.epoch ∧
        GenesisApi.blockHash li = GenesisApi.blockHash li' ∧ li.endOfEpoch = li'.endOfEpoch := by
  constructor
  · intro h
    have hancestor : li.genesisAncestor = li'.genesisAncestor :=
      congrArg (fun data : BlockData => data.quorumCert.voteData.proposed) h
    simpa [LedgerInfo.genesisAncestor, BlockInfo.new, Prod.ext_iff] using hancestor
  · rintro ⟨hepoch, hhash, hend⟩
    have hancestor : li.genesisAncestor = li'.genesisAncestor := by
      unfold LedgerInfo.genesisAncestor
      rw [hepoch, hhash, hend]
    unfold LedgerInfo.genesisData
    rw [hepoch, hancestor, hend]

theorem genesisCertified_eq_iff {id id' : HashValue} :
    li.genesisCertified id = li'.genesisCertified id' ↔
      li.commitInfo.epoch = li'.commitInfo.epoch ∧ id = id' ∧
        GenesisApi.blockHash li = GenesisApi.blockHash li' ∧
        GenesisApi.waypointVersion li = GenesisApi.waypointVersion li' ∧
        li.commitInfo.timestampUsecs = li'.commitInfo.timestampUsecs := by
  simp [LedgerInfo.genesisCertified, BlockInfo.new]

section Certificate

variable [Crypto]

/-- The certificate of a genesis block. -/
def LedgerInfo.genesisCert (li : LedgerInfo) (genesisId : HashValue) : QuorumCert :=
  let ancestor := li.genesisCertified genesisId
  let voteData : VoteData := { proposed := ancestor, parent := ancestor }
  { voteData := voteData
    signedLedgerInfo := { ledgerInfo := .new ancestor voteData.hash, signatures := .empty } }

theorem certificateForGenesis_ok_iff {id : HashValue} {certificate : QuorumCert × Nat} :
    QuorumCert.certificateForGenesisFromLedgerInfo li id = .ok certificate ↔
      li.commitInfo.epoch < u64Max ∧ ∃ next, li.nextEpochState = some next ∧
        (li.genesisCert id, next.verifier.validatorInfos.length % 2 ^ 16) = certificate := by
  unfold QuorumCert.certificateForGenesisFromLedgerInfo
  rw [except_seq_ok_iff, ensure_ok_iff, except_bind_ok_iff]
  simp only [expect_ok_iff, except_pure_ok_iff]
  rfl

theorem genesisCert_eq_iff {id id' : HashValue} :
    li.genesisCert id = li'.genesisCert id' ↔
      li.genesisCertified id = li'.genesisCertified id' := by
  constructor
  · intro h
    exact congrArg (fun qc : QuorumCert => qc.voteData.proposed) h
  · intro h
    unfold LedgerInfo.genesisCert
    rw [h]

end Certificate

/-- The number of the genesis block. -/
def LedgerInfo.genesisNumber [LedgerApi] (li : LedgerInfo) : Nat :=
  match li.commitInfo.epochBlockInfo with
  | some info => info.blockNumber
  | none => LedgerApi.blockNumber li

theorem makeGenesisBlock_ok_iff [LedgerApi] {genesis : Block} :
    Block.makeGenesisBlockFromLedgerInfo li = .ok genesis ↔
      li.endsEpoch = true ∧ li.commitInfo.epoch < u64Max ∧
        ⟨li.genesisData, none, some li.genesisNumber⟩ = genesis := by
  simp only [Block.makeGenesisBlockFromLedgerInfo, except_bind_ok_iff,
    newGenesisFromLedgerInfo_ok_iff, except_pure_ok_iff]
  constructor
  · rintro ⟨data, ⟨hends, hepoch, rfl⟩, rfl⟩
    exact ⟨hends, hepoch, rfl⟩
  · rintro ⟨hends, hepoch, rfl⟩
    exact ⟨_, ⟨hends, hepoch, rfl⟩, rfl⟩

end Ancestor

end Liquent
