import Liquent.ConsensusTypes.Data
import Liquent.Misc.WeightedQuorum

/-!
# Hashes and signatures

Hashing and signing are done by the `laptos` crate, whose sources are not part of the repository.
`Crypto` collects the functions that consensus calls there; nothing is assumed about them until a
theorem asks for one of the properties below, each of which is a documented behaviour of the crate:
hashes do not collide (`CollisionFree`), and a verified multi-signature carries more than two thirds
of the voting power (`QuorumSignatures`).
-/

namespace Liquent

/-- What validators sign. Each type is hashed with its own seed, so signatures over different types
are never confused. -/
inductive Message where
  | ledgerInfo (li : LedgerInfo)
  | timeout (t : TimeoutSigningRepr)
  | blockData (d : BlockData)
  | batchInfo (b : BatchInfo)
deriving DecidableEq

structure ValidatorSigner where
  author : Author
  privateKey : PrivateKey
deriving DecidableEq

/-- The functions of the `laptos` crate on which consensus relies for hashing and signing. -/
class Crypto where
  hashVoteData : VoteData → HashValue
  hashBlockData : BlockData → HashValue
  /-- `BatchPayload::hash`, over the author and the transactions. -/
  hashBatchPayload : Author → List SignedTransaction → HashValue
  /-- `ACCUMULATOR_PLACEHOLDER_HASH`. -/
  accumulatorPlaceholderHash : HashValue
  publicKey : PrivateKey → PublicKey
  sign : ValidatorSigner → Message → Except String Signature
  verify : ValidatorVerifier → Author → Message → Signature → Except String Unit
  verifyMultiSignatures : ValidatorVerifier → Message → AggregateSignature → Except String Unit
  verifyAggregateSignatures :
    ValidatorVerifier → List Message → AggregateSignature → Except String Unit

/-! ## Voting power -/

namespace ValidatorVerifier

def getVotingPower (v : ValidatorVerifier) (author : Author) : Option Nat :=
  (v.validatorInfos.find? (·.address == author)).map (·.votingPower)

/-- The validators as a set of addresses. -/
def members (v : ValidatorVerifier) : Finset Author :=
  v.getOrderedAccountAddresses.toFinset

/-- The voting power of an address; addresses outside the set have none. -/
def power (v : ValidatorVerifier) (author : Author) : Nat :=
  (v.getVotingPower author).getD 0

/-- The voting power held together by a set of addresses. -/
def powerOf (v : ValidatorVerifier) (authors : Finset Author) : Nat :=
  Misc.weightOf v.power authors

def totalVotingPower (v : ValidatorVerifier) : Nat :=
  v.powerOf v.members

/-- The addresses selected by the mask of a signature. -/
def signersOf (v : ValidatorVerifier) (s : AggregateSignature) : List Author :=
  s.getSignersAddresses v.getOrderedAccountAddresses

/-- More than two thirds of the voting power. -/
def IsQuorum (v : ValidatorVerifier) (authors : Finset Author) : Prop :=
  Misc.IsQuorum v.power v.members authors

instance (v : ValidatorVerifier) (authors : Finset Author) : Decidable (v.IsQuorum authors) :=
  inferInstanceAs (Decidable (Misc.IsQuorum _ _ _))

theorem signersOf_subset_members (v : ValidatorVerifier) (s : AggregateSignature) :
    (v.signersOf s).toFinset ⊆ v.members := by
  intro a ha
  obtain ⟨i, -, hi⟩ := List.mem_filterMap.mp (List.mem_toFinset.mp ha)
  exact List.mem_toFinset.mpr (List.mem_of_getElem? hi)

end ValidatorVerifier

/-! ## What is assumed of the crate -/

section Assumptions

variable [Crypto]

/-- Two different values never have the same hash, and no value hashes to zero. -/
structure CollisionFree : Prop where
  voteData : Function.Injective Crypto.hashVoteData
  voteData_ne_zero : ∀ d, Crypto.hashVoteData d ≠ HashValue.zero
  blockData : Function.Injective Crypto.hashBlockData

/-- Multi-signatures are only accepted from a quorum, one over several messages with one message for
each signer. -/
structure QuorumSignatures (v : ValidatorVerifier) : Prop where
  multi : ∀ {m s}, Crypto.verifyMultiSignatures v m s = .ok () →
    v.IsQuorum (v.signersOf s).toFinset
  aggregate : ∀ {ms s}, Crypto.verifyAggregateSignatures v ms s = .ok () →
    v.IsQuorum (v.signersOf s).toFinset ∧ ms.length = (v.signersOf s).length

end Assumptions

/-! ## Block identifiers -/

section Block

variable [Crypto]

def BlockData.hash (d : BlockData) : HashValue := Crypto.hashBlockData d

def VoteData.hash (d : VoteData) : HashValue := Crypto.hashVoteData d

/-- `id` (`block.rs:101`). -/
def Block.id (b : Block) : HashValue := b.blockData.hash

/-- `Block::gen_block_info` (`block.rs:156`). -/
def Block.genBlockInfo (b : Block) (executedStateId : HashValue) (version : Nat)
    (nextEpochState : Option EpochState) : BlockInfo where
  epoch := b.epoch
  round := b.round
  id := b.id
  executedStateId := executedStateId
  version := version
  timestampUsecs := b.timestampUsecs
  nextEpochState := nextEpochState

end Block

/-- Functions of the `laptos` crate on epoch-change proofs, waypoints and block infos. -/
class LedgerApi where
  verifyEpochChangeProof : EpochChangeProof → Waypoint → Except String LedgerInfoWithSignatures
  newEpochBoundary : LedgerInfo → Except String Waypoint
  isOrderedOnly : BlockInfo → Bool
  matchOrderedOnly : BlockInfo → BlockInfo → Bool
  /-- `LedgerInfo::block_number`. -/
  blockNumber : LedgerInfo → Nat

/-! ## A crate for the runs

The runs that show a theorem's hypotheses to be satisfiable use these functions of the crate. -/

namespace Permissive

def accept (condition : Prop) [Decidable condition] : Except String Unit :=
  if condition then .ok () else .error "rejected"

theorem accept_ok_iff {condition : Prop} [Decidable condition] :
    accept condition = .ok () ↔ condition := by
  unfold accept
  split <;> simp [*]

section

variable {α : Type} [DecidableEq α] [Encodable α]

/-- A hash without collisions, which can be evaluated on the known values: they hash to their
places. -/
def hashOf (known : List α) (a : α) : Nat :=
  if a ∈ known then known.idxOf a + 1 else known.length + 1 + Encodable.encode a

theorem hashOf_ne_zero (known : List α) (a : α) : hashOf known a ≠ 0 := by
  unfold hashOf
  split <;> omega

theorem hashOf_injective (known : List α) : Function.Injective (hashOf known) := by
  intro a b h
  unfold hashOf at h
  by_cases ha : a ∈ known <;> by_cases hb : b ∈ known <;> simp only [ha, hb, if_true, if_false] at h
  · exact (List.idxOf_inj ha).mp (Nat.add_right_cancel h)
  · have hlt := List.idxOf_lt_length_iff.mpr ha
    omega
  · have hlt := List.idxOf_lt_length_iff.mpr hb
    omega
  · exact Encodable.encode_injective (Nat.add_left_cancel h)

end

/-- Every signature is accepted. -/
@[reducible] def crypto (hashVoteData : VoteData → HashValue)
    (hashBlockData : BlockData → HashValue) : Crypto where
  hashVoteData := hashVoteData
  hashBlockData := hashBlockData
  hashBatchPayload _ _ := 0
  accumulatorPlaceholderHash := 0
  publicKey key := key
  sign _ _ := .ok 0
  verify _ _ _ _ := .ok ()
  verifyMultiSignatures _ _ _ := .ok ()
  verifyAggregateSignatures _ _ _ := .ok ()

/-- A multi-signature is accepted from any quorum, one over several messages with a message for each
signer. -/
@[reducible] def quorumCrypto (hashVoteData : VoteData → HashValue)
    (hashBlockData : BlockData → HashValue) : Crypto :=
  { crypto hashVoteData hashBlockData with
    verifyMultiSignatures := fun v _ s => accept (v.IsQuorum (v.signersOf s).toFinset)
    verifyAggregateSignatures := fun v messages s =>
      accept (v.IsQuorum (v.signersOf s).toFinset ∧ messages.length = (v.signersOf s).length) }

@[reducible] def ledger : LedgerApi where
  verifyEpochChangeProof _ _ := .error "no proof"
  newEpochBoundary _ := .error "no boundary"
  isOrderedOnly _ := true
  matchOrderedOnly _ _ := true
  blockNumber li := (li.blockHashAndNumber.map (·.2)).getD 0

end Permissive

end Liquent
