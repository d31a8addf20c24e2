import Liquent.ConsensusTypes.Crypto
import Liquent.Misc.StateExcept

/-!
# Nodes of the DAG

The values that DAG consensus exchanges (`dag/types.rs`, cited by line): nodes, their certificates
and the votes for them.  A node of a round lists certificates of nodes of the round before as its
parents.

`DagApi` collects the functions of the `laptos` crate that the DAG calls.  `Extensions` has a single
value and is left out.
-/

namespace Liquent

/-! ## Lengths of payloads -/

/-- The two kinds of validator transactions. -/
inductive ValidatorTransactionKind where
  | dkgResult
  | observedJwkUpdate
deriving DecidableEq

namespace Payload

/-- `Payload::len` (`common.rs:256`). -/
def len : Payload → Nat
  | .directMempool txns => txns.length
  | .inQuorumStore proofs => (proofs.map (·.info.numTxns)).sum
  | .inQuorumStoreWithLimit proofs _ => (proofs.map (·.info.numTxns)).sum
  | .quorumStoreInlineHybrid inlineBatches proofs _ =>
    (proofs.map (·.info.numTxns)).sum + (inlineBatches.map (·.2.length)).sum
  | .optQuorumStore p =>
    (p.optBatches.map (·.numTxns)).sum + (p.proofs.map (·.info.numTxns)).sum
      + (p.inlineBatches.map (·.1.numTxns)).sum

/-- `Payload::size` (`common.rs:382`), from the size of a raw transaction. -/
def size (rawTxnBytesLen : SignedTransaction → Nat) : Payload → Nat
  | .directMempool txns => (txns.map rawTxnBytesLen).sum
  | .inQuorumStore proofs => (proofs.map (·.info.numBytes)).sum
  | .inQuorumStoreWithLimit proofs _ => (proofs.map (·.info.numBytes)).sum
  | .quorumStoreInlineHybrid inlineBatches proofs _ =>
    (proofs.map (·.info.numBytes)).sum + (inlineBatches.map (·.1.numBytes)).sum
  | .optQuorumStore p =>
    (p.optBatches.map (·.numBytes)).sum + (p.proofs.map (·.info.numBytes)).sum
      + (p.inlineBatches.map (·.1.numBytes)).sum

end Payload

namespace Dag

open Misc

/-! ## Nodes -/

/-- The slot of a node: an author has one node in a round. -/
structure NodeId where
  epoch : Nat
  round : Nat
  author : Author
deriving DecidableEq

structure NodeMetadata where
  nodeId : NodeId
  timestamp : Nat
  digest : HashValue
deriving DecidableEq

namespace NodeMetadata

/-- `epoch` (129). -/
def epoch (m : NodeMetadata) : Nat := m.nodeId.epoch

/-- `round` (121). -/
def round (m : NodeMetadata) : Nat := m.nodeId.round

/-- `author` (125). -/
def author (m : NodeMetadata) : Author := m.nodeId.author

end NodeMetadata

/-- Signatures of a quorum over the metadata of a node. -/
structure NodeCertificate where
  metadata : NodeMetadata
  signatures : AggregateSignature
deriving DecidableEq

structure Node where
  metadata : NodeMetadata
  validatorTxns : List ValidatorTransaction
  payload : Payload
  parents : List NodeCertificate
deriving DecidableEq

structure CertifiedNode where
  node : Node
  signatures : AggregateSignature
deriving DecidableEq

structure Vote where
  metadata : NodeMetadata
  signature : Signature
deriving DecidableEq

/-- The functions of the `laptos` crate that the DAG relies on. -/
class DagApi where
  /-- The hash of a `NodeWithoutDigest`. -/
  hashNode : NodeId → (timestamp : Nat) → List ValidatorTransaction → Payload →
    List NodeCertificate → HashValue
  sign : ValidatorSigner → NodeMetadata → Except String Signature
  verifyMultiSignatures : ValidatorVerifier → NodeMetadata → AggregateSignature → Except String Unit
  /-- `ValidatorVerifier::check_voting_power`; the flag asks for a super majority. -/
  checkVotingPower : ValidatorVerifier → List Author → Bool → Except String Unit
  validatorTransactionKind : ValidatorTransaction → ValidatorTransactionKind
  validatorTransactionSize : ValidatorTransaction → Nat
  rawTxnBytesLen : SignedTransaction → Nat

namespace Node

/-- `epoch` (258). -/
def epoch (n : Node) : Nat := n.metadata.epoch

/-- `round` (270). -/
def round (n : Node) : Nat := n.metadata.round

/-- `author` (254). -/
def author (n : Node) : Author := n.metadata.author

/-- `digest` (234). -/
def digest (n : Node) : HashValue := n.metadata.digest

/-- `id` (262). -/
def id (n : Node) : NodeId := ⟨n.epoch, n.round, n.author⟩

/-- `parents_metadata` (250). -/
def parentsMetadata (n : Node) : List NodeMetadata := n.parents.map (·.metadata)

section

variable [DagApi]

/-- `calculate_digest` (221). -/
def calculateDigest (n : Node) : HashValue :=
  DagApi.hashNode n.metadata.nodeId n.metadata.timestamp n.validatorTxns n.payload n.parents

/-- `sign_vote` (266). -/
def signVote (n : Node) (signer : ValidatorSigner) : Except String Signature :=
  DagApi.sign signer n.metadata

/-- `Node::verify` (282), on receipt from the network. The certificates of the parents are not
looked at. -/
def verify (n : Node) (sender : Author) (v : ValidatorVerifier) : Except String Unit := do
  ensure (sender = n.author) "Author doesn't match sender"
  ensure (n.digest = n.calculateDigest) "invalid digest"
  ensure (0 < n.round) "current round cannot be zero"
  if n.round = 1 then
    ensure n.parents.isEmpty "invalid parents for round 1"
  else do
    ensure (∀ parent ∈ n.parents, parent.metadata.round = n.round - 1) "invalid parent round"
    (DagApi.checkVotingPower v (n.parents.map (·.metadata.author)) true).mapError
      fun _ => "not enough parents to satisfy voting power"

end

@[simp] theorem id_epoch (n : Node) : n.id.epoch = n.epoch := rfl

@[simp] theorem id_round (n : Node) : n.id.round = n.round := rfl

@[simp] theorem id_author (n : Node) : n.id.author = n.author := rfl

end Node

section

variable [DagApi]

/-- `verify` (381). -/
def NodeCertificate.verify (c : NodeCertificate) (v : ValidatorVerifier) : Except String Unit :=
  DagApi.verifyMultiSignatures v c.metadata c.signatures

end

end Dag

end Liquent
