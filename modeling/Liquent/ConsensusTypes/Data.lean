import Mathlib.Algebra.GroupWithZero.Nat
import Mathlib.Logic.Equiv.List
import Mathlib.Tactic.DeriveEncodable

/-!
# Consensus data

The values the consensus components exchange: block and ledger infos, certificates, payloads and
blocks.  Field names are those of `consensus-types` (`block.rs` is cited by line); the types that
live in the `laptos` crate (`BlockInfo`, `LedgerInfo`, `AggregateSignature`, `ValidatorVerifier`,
...) carry the fields the consensus sources read or supply.

Unsigned machine integers are natural numbers.  Where the sources use checked arithmetic the bound
`u64Max` appears explicitly.  Hashes, keys and signatures are opaque tokens: everything that is
known about them is stated in `Liquent.ConsensusTypes.Crypto`.
-/

namespace Liquent

abbrev HashValue := Nat

/-- `AccountAddress`, also called `Author` and `PeerId` in the sources. -/
abbrev Author := Nat

abbrev PublicKey := Nat
abbrev PrivateKey := Nat
abbrev Signature := Nat

/-- `u64::MAX`. -/
def u64Max : Nat := 2 ^ 64 - 1

/-- `HashValue::zero()`. -/
def HashValue.zero : HashValue := 0

/-! ## Validators and ledger infos -/

structure ValidatorConsensusInfo where
  address : Author
  publicKey : PublicKey
  votingPower : Nat
deriving DecidableEq, Encodable

/-- The validators of an epoch, in the order that bit masks refer to. -/
structure ValidatorVerifier where
  validatorInfos : List ValidatorConsensusInfo
deriving DecidableEq, Encodable

namespace ValidatorVerifier

def getOrderedAccountAddresses (v : ValidatorVerifier) : List Author :=
  v.validatorInfos.map (·.address)

def getPublicKey (v : ValidatorVerifier) (author : Author) : Option PublicKey :=
  (v.validatorInfos.find? (·.address == author)).map (·.publicKey)

end ValidatorVerifier

structure EpochState where
  epoch : Nat
  verifier : ValidatorVerifier
deriving DecidableEq, Encodable

/-- Names the block that ends an epoch inside the commit info of a later suffix block. -/
structure EpochBlockInfo where
  blockId : HashValue
  blockNumber : Nat
  epochStartRound : Nat
  epochStartTimestampUsecs : Nat
  blockHash : HashValue
deriving DecidableEq, Encodable

structure BlockInfo where
  epoch : Nat
  round : Nat
  id : HashValue
  executedStateId : HashValue
  version : Nat
  timestampUsecs : Nat
  nextEpochState : Option EpochState
  epochBlockInfo : Option EpochBlockInfo := none
deriving DecidableEq, Encodable

namespace BlockInfo

/-- `BlockInfo::empty()`, the commit info of a vote that commits nothing. -/
def empty : BlockInfo where
  epoch := 0
  round := 0
  id := HashValue.zero
  executedStateId := HashValue.zero
  version := 0
  timestampUsecs := 0
  nextEpochState := none

def hasReconfiguration (info : BlockInfo) : Bool :=
  info.nextEpochState.isSome

end BlockInfo

/-- `blockHashAndNumber` is what `LedgerInfo::new_with_block_info` adds to `LedgerInfo::new`. -/
structure LedgerInfo where
  commitInfo : BlockInfo
  consensusDataHash : HashValue
  blockHashAndNumber : Option (HashValue × Nat) := none
deriving DecidableEq, Encodable

namespace LedgerInfo

/-- `LedgerInfo::new`. -/
def new (commitInfo : BlockInfo) (consensusDataHash : HashValue) : LedgerInfo :=
  { commitInfo, consensusDataHash }

/-- `LedgerInfo::new_with_block_info`. -/
def newWithBlockInfo (commitInfo : BlockInfo) (consensusDataHash blockHash : HashValue)
    (blockNumber : Nat) : LedgerInfo :=
  { commitInfo, consensusDataHash, blockHashAndNumber := some (blockHash, blockNumber) }

def nextEpochState (li : LedgerInfo) : Option EpochState :=
  li.commitInfo.nextEpochState

def endsEpoch (li : LedgerInfo) : Bool :=
  li.nextEpochState.isSome

end LedgerInfo

/-- A bit mask of signers, given by the positions of its set bits, and the aggregated signature. -/
structure AggregateSignature where
  signers : List Nat
  sig : Option Signature
deriving DecidableEq, Encodable

namespace AggregateSignature

def getNumVoters (s : AggregateSignature) : Nat :=
  s.signers.length

/-- The addresses that the mask selects among `addresses`. -/
def getSignersAddresses (s : AggregateSignature) (addresses : List Author) : List Author :=
  s.signers.filterMap (addresses[·]?)

end AggregateSignature

structure LedgerInfoWithSignatures where
  ledgerInfo : LedgerInfo
  signatures : AggregateSignature
deriving DecidableEq, Encodable

structure Waypoint where
  version : Nat
  value : HashValue
deriving DecidableEq

/-- Proof of a sequence of epoch changes. -/
structure EpochChangeProof where
  ledgerInfoWithSigs : List LedgerInfoWithSignatures
  more : Bool
deriving DecidableEq

/-! ## Certificates -/

structure VoteData where
  proposed : BlockInfo
  parent : BlockInfo
deriving DecidableEq, Encodable

structure QuorumCert where
  voteData : VoteData
  signedLedgerInfo : LedgerInfoWithSignatures
deriving DecidableEq, Encodable

namespace QuorumCert

/-- `certified_block` (`quorum_cert.rs:54`). -/
def certifiedBlock (qc : QuorumCert) : BlockInfo := qc.voteData.proposed

/-- `parent_block` (`quorum_cert.rs:58`). -/
def parentBlock (qc : QuorumCert) : BlockInfo := qc.voteData.parent

/-- `ledger_info` (`quorum_cert.rs:62`). -/
def ledgerInfo (qc : QuorumCert) : LedgerInfoWithSignatures := qc.signedLedgerInfo

/-- `commit_info` (`quorum_cert.rs:66`). -/
def commitInfo (qc : QuorumCert) : BlockInfo := qc.ledgerInfo.ledgerInfo.commitInfo

/-- Whether the certificate commits a reconfiguration and starts a new epoch (`quorum_cert.rs:71`).
-/
def endsEpoch (qc : QuorumCert) : Bool := qc.signedLedgerInfo.ledgerInfo.endsEpoch

end QuorumCert

structure TwoChainTimeout where
  epoch : Nat
  round : Nat
  quorumCert : QuorumCert
deriving DecidableEq, Encodable

/-- What a validator signs when it times out. -/
structure TimeoutSigningRepr where
  epoch : Nat
  round : Nat
  hqcRound : Nat
deriving DecidableEq, Encodable

namespace TwoChainTimeout

/-- `hqc_round` (`timeout_2chain.rs:52`). -/
def hqcRound (t : TwoChainTimeout) : Nat := t.quorumCert.certifiedBlock.round

/-- `signing_format` (`timeout_2chain.rs:67`). -/
def signingFormat (t : TwoChainTimeout) : TimeoutSigningRepr :=
  { epoch := t.epoch, round := t.round, hqcRound := t.hqcRound }

end TwoChainTimeout

structure AggregateSignatureWithRounds where
  sig : AggregateSignature
  rounds : List Nat
deriving DecidableEq, Encodable

namespace AggregateSignatureWithRounds

/-- `get_voters_and_rounds` (`timeout_2chain.rs:357`): the iterator zip stops at the shorter of the
two lists. -/
def getVotersAndRounds (s : AggregateSignatureWithRounds) (addresses : List Author) :
    List (Author × Nat) :=
  (s.sig.getSignersAddresses addresses).zip s.rounds

end AggregateSignatureWithRounds

structure TwoChainTimeoutCertificate where
  timeout : TwoChainTimeout
  signaturesWithRounds : AggregateSignatureWithRounds
deriving DecidableEq, Encodable

namespace TwoChainTimeoutCertificate

/-- `epoch` (`timeout_2chain.rs:171`). -/
def epoch (tc : TwoChainTimeoutCertificate) : Nat := tc.timeout.epoch

/-- `round` (`timeout_2chain.rs:176`). -/
def round (tc : TwoChainTimeoutCertificate) : Nat := tc.timeout.round

/-- `highest_hqc_round` (`timeout_2chain.rs:181`). -/
def highestHqcRound (tc : TwoChainTimeoutCertificate) : Nat := tc.timeout.hqcRound

end TwoChainTimeoutCertificate

/-! ## Payloads -/

inductive TransactionPayload where
  | gTxnBytes (bytes : List Nat)
  | script (code : List Nat)
  | moduleBundle (code : List Nat)
  | entryFunction (code : List Nat)
  | multisig (code : List Nat)
deriving DecidableEq, Encodable

structure SignedTransaction where
  sender : Author
  sequenceNumber : Nat
  gasUnitPrice : Nat
  payload : TransactionPayload
deriving DecidableEq, Encodable

structure BatchId where
  id : Nat
  nonce : Nat
deriving DecidableEq, Encodable

structure BatchInfo where
  author : Author
  batchId : BatchId
  epoch : Nat
  expiration : Nat
  digest : HashValue
  numTxns : Nat
  numBytes : Nat
  gasBucketStart : Nat
deriving DecidableEq, Encodable

structure ProofOfStore where
  info : BatchInfo
  multiSignature : AggregateSignature
deriving DecidableEq, Encodable

/-- `OptQuorumStorePayloadV1`, the only version. -/
structure OptQuorumStorePayload where
  inlineBatches : List (BatchInfo × List SignedTransaction)
  optBatches : List BatchInfo
  proofs : List ProofOfStore
  maxTxnsToExecute : Option Nat
deriving DecidableEq, Encodable

/-- The payload of a block as serialised: without the status cell of `ProofWithData`, which is part
of the payload manager's state. -/
inductive Payload where
  | directMempool (txns : List SignedTransaction)
  | inQuorumStore (proofs : List ProofOfStore)
  | inQuorumStoreWithLimit (proofs : List ProofOfStore) (maxTxnsToExecute : Option Nat)
  | quorumStoreInlineHybrid (inlineBatches : List (BatchInfo × List SignedTransaction))
      (proofs : List ProofOfStore) (maxTxnsToExecute : Option Nat)
  | optQuorumStore (payload : OptQuorumStorePayload)
deriving DecidableEq, Encodable

/-- `is_empty` (`common.rs:297`). -/
def Payload.isEmpty : Payload → Bool
  | .directMempool txns => txns.isEmpty
  | .inQuorumStore proofs => proofs.isEmpty
  | .inQuorumStoreWithLimit proofs _ => proofs.isEmpty
  | .quorumStoreInlineHybrid inlineBatches proofs _ => proofs.isEmpty && inlineBatches.isEmpty
  | .optQuorumStore p => p.optBatches.isEmpty && p.proofs.isEmpty && p.inlineBatches.isEmpty

/-! ## Blocks -/

/-- A validator transaction; consensus only passes it on. -/
abbrev ValidatorTransaction := List Nat

inductive BlockType where
  | proposal (payload : Payload) (author : Author) (failedAuthors : List (Nat × Author))
  | nilBlock (failedAuthors : List (Nat × Author))
  | genesis
  | proposalExt (validatorTxns : List ValidatorTransaction) (payload : Payload) (author : Author)
      (failedAuthors : List (Nat × Author))
  | dagBlock (author : Author) (failedAuthors : List (Nat × Author))
      (validatorTxns : List ValidatorTransaction) (payload : Payload)
      (nodeDigests : List HashValue) (parentBlockId : HashValue) (parentsBitvec : List Bool)
deriving DecidableEq, Encodable

structure BlockData where
  epoch : Nat
  round : Nat
  timestampUsecs : Nat
  quorumCert : QuorumCert
  blockType : BlockType
deriving DecidableEq, Encodable

namespace BlockData

/-- `author` (`block_data.rs:103`). -/
def author (d : BlockData) : Option Author :=
  match d.blockType with
  | .proposal _ author _ => some author
  | .dagBlock author _ _ _ _ _ _ => some author
  | .proposalExt _ _ author _ => some author
  | _ => none

/-- `parent_id` (`block_data.rs:121`). -/
def parentId (d : BlockData) : HashValue :=
  match d.blockType with
  | .dagBlock _ _ _ _ _ parentBlockId _ => parentBlockId
  | _ => d.quorumCert.certifiedBlock.id

/-- `payload` (`block_data.rs:129`). -/
def payload (d : BlockData) : Option Payload :=
  match d.blockType with
  | .proposal payload _ _ => some payload
  | .dagBlock _ _ _ payload _ _ _ => some payload
  | .proposalExt _ payload _ _ => some payload
  | _ => none

/-- `is_genesis_block` (`block_data.rs:167`). -/
def isGenesisBlock (d : BlockData) : Bool :=
  match d.blockType with
  | .genesis => true
  | _ => false

/-- `is_nil_block` (`block_data.rs:171`). -/
def isNilBlock (d : BlockData) : Bool :=
  match d.blockType with
  | .nilBlock _ => true
  | _ => false

/-- `failed_authors` (`block_data.rs:177`). -/
def failedAuthors (d : BlockData) : Option (List (Nat × Author)) :=
  match d.blockType with
  | .proposal _ _ failedAuthors => some failedAuthors
  | .nilBlock failedAuthors => some failedAuthors
  | .dagBlock _ failedAuthors _ _ _ _ _ => some failedAuthors
  | .proposalExt _ _ _ failedAuthors => some failedAuthors
  | .genesis => none

end BlockData

/-- A block. Its identifier is always recomputed as the hash of the block data, so it is a function
here (`Block.id`). -/
structure Block where
  blockData : BlockData
  signature : Option Signature
  blockNumber : Option Nat := none
deriving DecidableEq, Encodable

namespace Block

/-- `epoch` (97). -/
def epoch (b : Block) : Nat := b.blockData.epoch

/-- `round` (144). -/
def round (b : Block) : Nat := b.blockData.round

/-- `timestamp_usecs` (152). -/
def timestampUsecs (b : Block) : Nat := b.blockData.timestampUsecs

/-- `quorum_cert` (140). -/
def quorumCert (b : Block) : QuorumCert := b.blockData.quorumCert

/-- `parent_id` (111). -/
def parentId (b : Block) : HashValue := b.blockData.parentId

/-- `payload` (115). -/
def payload (b : Block) : Option Payload := b.blockData.payload

/-- `author` (93). -/
def author (b : Block) : Option Author := b.blockData.author

/-- `is_genesis_block` (177). -/
def isGenesisBlock (b : Block) : Bool := b.blockData.isGenesisBlock

/-- `is_nil_block` (181). -/
def isNilBlock (b : Block) : Bool := b.blockData.isNilBlock

end Block

end Liquent
