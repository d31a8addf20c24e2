import Liquent.Misc.Run
import Liquent.Pipeline.BufferItem
import Liquent.SafetyRules.State

/-!
# Votes of one round

The votes that a node collects for a round, until they make a quorum certificate or a timeout
certificate (`pending_votes.rs`, `vote.rs`, `qc_aggregator.rs`, and `timeout_2chain.rs`, cited by
line).

An error stands for a panic of the source: an assertion that fails or a subtraction below zero.
Counters and the index of a ledger info that labels them are left out, and so are the debug
assertions.
-/

namespace Liquent

open Misc

/-! ## Functions of the crate -/

/-- `VerifyError`; consensus looks at two of its cases. -/
inductive VerifyError where
  | tooLittleVotingPower (votingPower expectedVotingPower : Nat)
  | emptySignature
  | other (text : String)
deriving DecidableEq

/-- Functions of the `laptos` crate that the collection of votes calls. -/
class VotingApi where
  hashLedgerInfo : LedgerInfo → HashValue
  /-- `check_voting_power`, with the check for a super-majority. -/
  checkVotingPower : ValidatorVerifier → List Author → Except VerifyError Nat
  aggregateSignatures :
    ValidatorVerifier → Table Author Signature → Except VerifyError AggregateSignature
  quorumVotingPower : ValidatorVerifier → Nat

/-- `address_to_validator_index`. -/
def ValidatorVerifier.addressToValidatorIndex (v : ValidatorVerifier) (author : Author) :
    Option Nat :=
  v.getOrderedAccountAddresses.idxOf? author

namespace Vote

/-- `is_timeout` (`vote.rs:127`). -/
def isTimeout (vote : Vote) : Bool := vote.twoChainTimeout.isSome

/-- The part of `Vote::verify` about the timeout. -/
def verifyTimeout [Crypto] (vote : Vote) (v : ValidatorVerifier) : Except String Unit :=
  match vote.twoChainTimeout with
  | none => .ok ()
  | some (timeout, signature) => do
    ensure ((timeout.epoch, timeout.round) = (vote.epoch, vote.round))
      "2-chain timeout has different (epoch, round) than Vote"
    timeout.verify v
    (Crypto.verify v vote.author (.timeout timeout.signingFormat) signature).mapError
      fun _ => "Failed to verify 2-chain timeout signature"

/-- `Vote::verify` (`vote.rs:133`). -/
def verify [Crypto] (vote : Vote) (v : ValidatorVerifier) : Except String Unit := do
  ensure (vote.ledgerInfo.consensusDataHash = vote.voteData.hash)
    "Vote's hash mismatch with LedgerInfo"
  (Crypto.verify v vote.author (.ledgerInfo vote.ledgerInfo) vote.signature).mapError
    fun _ => "Failed to verify Vote"
  vote.verifyTimeout v
  vote.voteData.verify

end Vote

/-! ## Timeouts -/

/-- The shares for a timeout, each with the highest certified round of its signer. -/
structure PartialSignaturesWithRound where
  signatures : Table Author (Nat × Signature) := []
deriving DecidableEq

namespace PartialSignaturesWithRound

/-- `add_signature` (302): the first share of a validator is kept. -/
def addSignature (s : PartialSignaturesWithRound) (validator : Author) (round : Nat)
    (signature : Signature) : PartialSignaturesWithRound :=
  if (s.signatures.get validator).isSome then s
  else { signatures := s.signatures.put validator (round, signature) }

/-- The values of a map, in the order of its keys. -/
def valuesInOrder (t : Table Nat Nat) : List Nat :=
  (t.insertionSort fun a b => a.1 ≤ b.1).map (·.2)

/-- `get_partial_sig_with_rounds` (313): the shares and their rounds in the order of the validators.
-/
def getPartialSigWithRounds (s : PartialSignaturesWithRound) (v : ValidatorVerifier) :
    PartialSignatures × List Nat :=
  let known := s.signatures.filter fun e => (v.addressToValidatorIndex e.1).isSome
  let partialSig := known.foldl (fun p e => p.addSignature e.1 e.2.2) ({} : PartialSignatures)
  let indexToRounds := known.foldl
    (fun (t : Table Nat Nat) e => t.put ((v.addressToValidatorIndex e.1).getD 0) e.2.1) []
  (partialSig, valuesInOrder indexToRounds)

end PartialSignaturesWithRound

structure TwoChainTimeoutWithPartialSignatures where
  timeout : TwoChainTimeout
  signatures : PartialSignaturesWithRound
deriving DecidableEq

namespace TwoChainTimeoutWithPartialSignatures

/-- `new` (199). -/
def new (timeout : TwoChainTimeout) : TwoChainTimeoutWithPartialSignatures :=
  { timeout := timeout, signatures := {} }

/-- `signers` (219). -/
def signers (t : TwoChainTimeoutWithPartialSignatures) : List Author := t.signatures.signatures.keys

/-- `add` (225): keeps the timeout with the highest certified round. -/
def add (t : TwoChainTimeoutWithPartialSignatures) (author : Author) (timeout : TwoChainTimeout)
    (signature : Signature) : TwoChainTimeoutWithPartialSignatures where
  timeout := if t.timeout.hqcRound < timeout.hqcRound then timeout else t.timeout
  signatures := t.signatures.addSignature author timeout.hqcRound signature

/-- `aggregate_signatures` (250); the outer error is the assertion in
`AggregateSignatureWithRounds::new`. -/
def aggregateSignatures [VotingApi] (t : TwoChainTimeoutWithPartialSignatures)
    (v : ValidatorVerifier) : Except String (Except VerifyError TwoChainTimeoutCertificate) :=
  let (partialSig, orderedRounds) := t.signatures.getPartialSigWithRounds v
  match VotingApi.aggregateSignatures v partialSig.signatures with
  | .error e => .ok (.error e)
  | .ok aggregatedSig =>
    if aggregatedSig.getNumVoters = orderedRounds.length then
      .ok (.ok
        { timeout := t.timeout
          signaturesWithRounds := { sig := aggregatedSig, rounds := orderedRounds } })
    else .error "assertion failed: sig.get_num_voters() == rounds.len()"

end TwoChainTimeoutWithPartialSignatures

/-! ## The collection -/

/-- What the collection answers to a vote. -/
inductive VoteReceptionResult where
  | voteAdded (votingPower : Nat)
  | voteAddedQcDelayed (votingPower : Nat)
  | duplicateVote
  | equivocateVote
  | newQuorumCertificate (qc : QuorumCert)
  | new2ChainTimeoutCertificate (tc : TwoChainTimeoutCertificate)
  | errorAddingVote (e : VerifyError)
  | errorAggregatingSignature (e : VerifyError)
  | errorAggregatingTimeoutCertificate (e : VerifyError)
  | unexpectedRound (round current : Nat)
  | echoTimeout (votingPower : Nat)
deriving DecidableEq

/-- Votes for one epoch and round. -/
structure PendingVotes where
  liDigestToVotes : Table HashValue LedgerInfoWithVerifiedSignatures := []
  maybePartial2chainTc : Option TwoChainTimeoutWithPartialSignatures := none
  authorToVote : Table Author (Vote × HashValue) := []
  echoTimeout : Bool := false
deriving DecidableEq

namespace PendingVotes

section

variable [VotingApi]

/-- `aggregate_qc_now` (`pending_votes.rs:274`). -/
def aggregateQcNow (v : ValidatorVerifier) (liWithSig : LedgerInfoWithVerifiedSignatures)
    (voteData : VoteData) : VoteReceptionResult :=
  match VotingApi.aggregateSignatures v liWithSig.partialSigs.signatures with
  | .ok signatures => .newQuorumCertificate
      { voteData := voteData
        signedLedgerInfo := { ledgerInfo := liWithSig.ledgerInfo, signatures := signatures } }
  | .error e => .errorAggregatingSignature e

/-- `handle_aggregated_qc` (`qc_aggregator.rs:23`) of the only aggregator. -/
def handleAggregatedQc (v : ValidatorVerifier) (aggregatedVotingPower : Nat) (vote : Vote)
    (liWithSig : LedgerInfoWithVerifiedSignatures) : Except String VoteReceptionResult :=
  if VotingApi.quorumVotingPower v ≤ aggregatedVotingPower then
    .ok (aggregateQcNow v liWithSig vote.voteData)
  else
    .error "QC aggregation should not be triggered if we don't have enough votes to form a QC"

/-- The echo of a timeout, once more than a third of the voting power has timed out. -/
def echo (p : PendingVotes) (v : ValidatorVerifier) (votingPower tcVotingPower : Nat) :
    Except String VoteReceptionResult × PendingVotes :=
  if p.echoTimeout then (.ok (.voteAdded votingPower), p)
  else if v.totalVotingPower < VotingApi.quorumVotingPower v then
    (.error "attempt to subtract with overflow", p)
  else
    let fPlusOne := v.totalVotingPower - VotingApi.quorumVotingPower v + 1
    if fPlusOne ≤ tcVotingPower then
      (.ok (.echoTimeout tcVotingPower), { p with echoTimeout := true })
    else (.ok (.voteAdded votingPower), p)

/-- The part of `insert_vote` about the timeout. -/
def insertTimeout (p : PendingVotes) (vote : Vote) (v : ValidatorVerifier) (votingPower : Nat) :
    Except String VoteReceptionResult × PendingVotes :=
  match vote.twoChainTimeout with
  | none => (.ok (.voteAdded votingPower), p)
  | some (timeout, signature) =>
    let partialTc := (p.maybePartial2chainTc.getD (.new timeout)).add vote.author timeout signature
    let p := { p with maybePartial2chainTc := some partialTc }
    match VotingApi.checkVotingPower v partialTc.signers with
    | .ok _ =>
      (match partialTc.aggregateSignatures v with
        | .ok (.ok tc) => .ok (.new2ChainTimeoutCertificate tc)
        | .ok (.error e) => .ok (.errorAggregatingTimeoutCertificate e)
        | .error panic => .error panic, p)
    | .error (.tooLittleVotingPower tcVotingPower _) => p.echo v votingPower tcVotingPower
    | .error e => (.ok (.errorAddingVote e), p)

/-- The shares for the ledger info of a vote, with its own. -/
def sharesWith (p : PendingVotes) (vote : Vote) : LedgerInfoWithVerifiedSignatures :=
  let stored := p.liDigestToVotes.get (VotingApi.hashLedgerInfo vote.ledgerInfo)
  (stored.getD { ledgerInfo := vote.ledgerInfo, partialSigs := {} }).addSignature vote.author
    vote.signature

/-- The tables with a new vote. -/
def store (p : PendingVotes) (vote : Vote) : PendingVotes :=
  let liDigest := VotingApi.hashLedgerInfo vote.ledgerInfo
  { p with
    authorToVote := p.authorToVote.put vote.author (vote, liDigest)
    liDigestToVotes := p.liDigestToVotes.put liDigest (p.sharesWith vote) }

/-- The part of `insert_vote` after the check for earlier votes of the author. -/
def storeVote (p : PendingVotes) (vote : Vote) (v : ValidatorVerifier) :
    Except String VoteReceptionResult × PendingVotes :=
  let liWithSig := p.sharesWith vote
  let p := p.store vote
  match VotingApi.checkVotingPower v liWithSig.partialSigs.authors with
  | .ok power => (handleAggregatedQc v power vote liWithSig, p)
  | .error (.tooLittleVotingPower votingPower _) => p.insertTimeout vote v votingPower
  | .error e => (.ok (.errorAddingVote e), p)

/-- `insert_vote` (`pending_votes.rs:108`). -/
def insertVote (p : PendingVotes) (vote : Vote) (v : ValidatorVerifier) :
    Except String VoteReceptionResult × PendingVotes :=
  match p.authorToVote.get vote.author with
  | none => p.storeVote vote v
  | some (previouslySeenVote, previousLiDigest) =>
    if VotingApi.hashLedgerInfo vote.ledgerInfo = previousLiDigest then
      if vote.isTimeout && !previouslySeenVote.isTimeout then p.storeVote vote v
      else (.ok .duplicateVote, p)
    else (.ok .equivocateVote, p)

/-- `process_delayed_qc` (`pending_votes.rs:287`). -/
def processDelayedQc (p : PendingVotes) (v : ValidatorVerifier) (vote : Vote) :
    VoteReceptionResult :=
  match p.liDigestToVotes.get (VotingApi.hashLedgerInfo vote.ledgerInfo) with
  | none => .errorAddingVote .emptySignature
  | some liWithSig =>
    match VotingApi.checkVotingPower v liWithSig.partialSigs.authors with
    | .ok _ => aggregateQcNow v liWithSig vote.voteData
    | .error (.tooLittleVotingPower _ _) => .errorAddingVote .emptySignature
    | .error e => .errorAddingVote e

/-- A vote that is handed to the collection. -/
inductive Event where
  | insertVote (vote : Vote)
  | processDelayedQc (vote : Vote)
deriving DecidableEq

def Event.vote : Event → Vote
  | .insertVote vote => vote
  | .processDelayedQc vote => vote

/-- One call, with the validators of the epoch. -/
def step (v : ValidatorVerifier) (p : PendingVotes) :
    Event → Except String VoteReceptionResult × PendingVotes
  | .insertVote vote => p.insertVote vote v
  | .processDelayedQc vote => (.ok (p.processDelayedQc v vote), p)

end

end PendingVotes

end Liquent
