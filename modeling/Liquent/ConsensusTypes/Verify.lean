import Liquent.ConsensusTypes.Crypto
import Liquent.Misc.StateExcept

/-!
# Verification of certificates and blocks

The checks that a node makes on a quorum certificate, a timeout certificate and a block, in the
order of the sources and with their error texts (`quorum_cert.rs`, `vote_data.rs`,
`timeout_2chain.rs`, `block.rs`).  Each check has one lemma that says what acceptance means; later
modules use these and never look inside a check.

A certificate of round zero stands for the genesis of an epoch and is accepted without signatures,
whatever block identifier it names.
-/

namespace Liquent

open Misc

/-! ## Quorum certificates -/

/-- `VoteData::verify` (`vote_data.rs:61`). -/
def VoteData.verify (d : VoteData) : Except String Unit := do
  ensure (d.parent.epoch = d.proposed.epoch) "Parent and proposed epochs do not match"
  ensure (d.parent.round < d.proposed.round) "Proposed round is less than parent round"
  ensure (d.parent.timestampUsecs ≤ d.proposed.timestampUsecs) "Proposed happened before parent"
  ensure (d.proposed.version = 0 ∨ d.parent.version ≤ d.proposed.version)
    "Proposed version is less than parent version"

/-- What `VoteData::verify` guarantees. -/
structure VoteData.WellFormed (d : VoteData) : Prop where
  epoch_eq : d.parent.epoch = d.proposed.epoch
  round_lt : d.parent.round < d.proposed.round
  timestamp_le : d.parent.timestampUsecs ≤ d.proposed.timestampUsecs
  version_le : d.proposed.version = 0 ∨ d.parent.version ≤ d.proposed.version

theorem VoteData.verify_ok_iff {d : VoteData} : d.verify = .ok () ↔ d.WellFormed := by
  simp only [VoteData.verify, except_seq_ok_iff, ensure_ok_iff]
  constructor
  · rintro ⟨h₁, h₂, h₃, h₄⟩
    exact ⟨h₁, h₂, h₃, h₄⟩
  · rintro ⟨h₁, h₂, h₃, h₄⟩
    exact ⟨h₁, h₂, h₃, h₄⟩

variable [Crypto]

/-- `LedgerInfoWithSignatures::verify_signatures`. -/
def LedgerInfoWithSignatures.verifySignatures (li : LedgerInfoWithSignatures)
    (v : ValidatorVerifier) : Except String Unit :=
  Crypto.verifyMultiSignatures v (.ledgerInfo li.ledgerInfo) li.signatures

/-- `QuorumCert::verify` (`quorum_cert.rs:115`). -/
def QuorumCert.verify (qc : QuorumCert) (v : ValidatorVerifier) : Except String Unit := do
  ensure (qc.ledgerInfo.ledgerInfo.consensusDataHash = qc.voteData.hash)
    "Quorum Cert's hash mismatch LedgerInfo"
  -- the genesis of an epoch is agreed upon implicitly and has no signatures
  if qc.certifiedBlock.round = 0 then
    ensure (qc.parentBlock = qc.certifiedBlock)
      "Genesis QC has inconsistent parent block with certified block"
    ensure (qc.certifiedBlock = qc.commitInfo)
      "Genesis QC has inconsistent commit block with certified block"
    ensure (qc.ledgerInfo.signatures.getNumVoters = 0) "Genesis QC should not carry signatures"
  else
    (qc.ledgerInfo.verifySignatures v).mapError (fun _ => "Fail to verify QuorumCert")
    qc.voteData.verify

/-- What an accepted certificate above round zero guarantees. -/
structure QuorumCert.Signed (qc : QuorumCert) (v : ValidatorVerifier) : Prop where
  hash_eq : qc.ledgerInfo.ledgerInfo.consensusDataHash = qc.voteData.hash
  signatures : qc.ledgerInfo.verifySignatures v = .ok ()
  wellFormed : qc.voteData.WellFormed

/-- What an accepted certificate of round zero guarantees. -/
structure QuorumCert.Unsigned (qc : QuorumCert) : Prop where
  hash_eq : qc.ledgerInfo.ledgerInfo.consensusDataHash = qc.voteData.hash
  parent_eq : qc.parentBlock = qc.certifiedBlock
  commit_eq : qc.certifiedBlock = qc.commitInfo
  no_voters : qc.ledgerInfo.signatures.getNumVoters = 0

variable {v : ValidatorVerifier} {qc : QuorumCert}

theorem QuorumCert.verify_ok_iff : qc.verify v = .ok () ↔
      (qc.certifiedBlock.round = 0 ∧ qc.Unsigned) ∨
        (qc.certifiedBlock.round ≠ 0 ∧ qc.Signed v) := by
  by_cases hround : qc.certifiedBlock.round = 0
  · simp only [QuorumCert.verify, hround, if_true, except_seq_ok_iff, ensure_ok_iff,
      true_and, ne_eq, not_true, false_and, or_false]
    constructor
    · rintro ⟨h₁, h₂, h₃, h₄⟩
      exact ⟨h₁, h₂, h₃, h₄⟩
    · rintro ⟨h₁, h₂, h₃, h₄⟩
      exact ⟨h₁, h₂, h₃, h₄⟩
  · simp only [QuorumCert.verify, hround, if_false, except_seq_ok_iff, ensure_ok_iff,
      except_mapError_ok_iff, VoteData.verify_ok_iff, false_and, ne_eq, not_false_eq_true,
      true_and, false_or]
    constructor
    · rintro ⟨h₁, h₂, h₃⟩
      exact ⟨h₁, h₂, h₃⟩
    · rintro ⟨h₁, h₂, h₃⟩
      exact ⟨h₁, h₂, h₃⟩

theorem QuorumCert.signed_of_verify
    (h : qc.verify v = .ok ()) (hround : qc.certifiedBlock.round ≠ 0) : qc.Signed v := by
  rcases QuorumCert.verify_ok_iff.mp h with ⟨hzero, -⟩ | ⟨-, hsigned⟩
  · exact absurd hzero hround
  · exact hsigned

/-! ## Timeouts and timeout certificates -/

/-- `TwoChainTimeout::verify` (`timeout_2chain.rs:71`). -/
def TwoChainTimeout.verify (t : TwoChainTimeout) (v : ValidatorVerifier) : Except String Unit := do
  ensure (t.hqcRound < t.round) "Timeout round should be larger than the QC round"
  t.quorumCert.verify v

theorem TwoChainTimeout.verify_ok_iff {t : TwoChainTimeout} :
    t.verify v = .ok () ↔ t.hqcRound < t.round ∧ t.quorumCert.verify v = .ok () := by
  simp only [TwoChainTimeout.verify, except_seq_ok_iff, ensure_ok_iff]

/-- What the signers of a timeout certificate must have signed: each its own highest certified
round. -/
def TwoChainTimeoutCertificate.timeoutMessages (tc : TwoChainTimeoutCertificate)
    (v : ValidatorVerifier) : List TimeoutSigningRepr :=
  (tc.signaturesWithRounds.getVotersAndRounds v.getOrderedAccountAddresses).map fun (_, round) =>
    { epoch := tc.timeout.epoch, round := tc.timeout.round, hqcRound := round }

/-- `TwoChainTimeoutCertificate::verify` (`timeout_2chain.rs:136`). -/
def TwoChainTimeoutCertificate.verify (tc : TwoChainTimeoutCertificate) (v : ValidatorVerifier) :
    Except String Unit := do
  tc.timeout.verify v
  Crypto.verifyAggregateSignatures v ((tc.timeoutMessages v).map .timeout)
    tc.signaturesWithRounds.sig
  let hqcRound := tc.timeout.hqcRound
  match tc.signaturesWithRounds.rounds.max? with
  | none => .error "Empty rounds"
  | some signedHqc =>
    ensure (hqcRound = signedHqc) (s!"Inconsistent hqc round, qc has round {hqcRound}, " ++
      s!"highest signed round {signedHqc}")

/-- What an accepted timeout certificate guarantees. -/
structure TwoChainTimeoutCertificate.Signed (tc : TwoChainTimeoutCertificate)
    (v : ValidatorVerifier) : Prop where
  hqc_lt : tc.highestHqcRound < tc.round
  quorumCert : tc.timeout.quorumCert.verify v = .ok ()
  signatures : Crypto.verifyAggregateSignatures v ((tc.timeoutMessages v).map .timeout)
    tc.signaturesWithRounds.sig = .ok ()
  max_rounds : tc.signaturesWithRounds.rounds.max? = some tc.highestHqcRound

theorem TwoChainTimeoutCertificate.signed_of_verify {tc : TwoChainTimeoutCertificate}
    (h : tc.verify v = .ok ()) : tc.Signed v := by
  simp only [TwoChainTimeoutCertificate.verify, except_seq_ok_iff] at h
  obtain ⟨htimeout, hsig, hmax⟩ := h
  obtain ⟨hlt, hqc⟩ := TwoChainTimeout.verify_ok_iff.mp htimeout
  refine ⟨hlt, hqc, hsig, ?_⟩
  cases hrounds : tc.signaturesWithRounds.rounds.max? with
  | none => simp [hrounds] at hmax
  | some signedHqc =>
    rw [hrounds] at hmax
    exact congrArg some (ensure_ok_iff.mp hmax).symm

/-! ## Blocks -/

/-- `Block::validate_signature` (`block.rs:332`). -/
def Block.validateSignature (b : Block) (v : ValidatorVerifier) : Except String Unit :=
  match b.blockData.blockType with
  | .genesis => .error "We should not accept genesis from others"
  | .nilBlock _ => b.quorumCert.verify v
  | .proposal _ author _ | .proposalExt _ _ author _ =>
    match b.signature with
    | none => .error "Missing signature in Proposal"
    | some signature => do
      Crypto.verify v author (.blockData b.blockData) signature
      b.quorumCert.verify v
  | .dagBlock .. => .error "We should not accept DAG block from others"

/-- The loop over the failed authors: rounds increase strictly between the parent's and `succRound`.
-/
def failedAuthorRoundsOk (succRound : Nat) : Nat → List (Nat × Author) → Bool
  | _, [] => true
  | bound, (round, _) :: rest =>
    decide (bound < round ∧ round < succRound) && failedAuthorRoundsOk succRound round rest

/-- The part of `Block::verify_well_formed` about the failed authors. -/
def Block.verifyFailedAuthors (b : Block) : Except String Unit :=
  match b.blockData.failedAuthors with
  | none => .ok ()
  | some failedAuthors => do
    let parent := b.quorumCert.certifiedBlock
    let succRound := b.round + if b.isNilBlock then 1 else 0
    ensure (succRound ≤ u64Max) "Block round overflow"
    ensure (parent.round + 1 ≤ succRound) "Block round is smaller than block's parent round"
    ensure (failedAuthors.length ≤ succRound - (parent.round + 1))
      "Block has more failed authors than missed rounds"
    ensure (failedAuthorRoundsOk succRound parent.round failedAuthors = true)
      "Incorrect round in failed authors"

/-- How far in the future, in microseconds, the timestamp of a block may lie. -/
def timebound : Nat := 300000000

/-- `Block::verify_well_formed` (`block.rs:358`); `now` is `duration_since_epoch` in
microseconds. -/
def Block.verifyWellFormed (b : Block) (now : Nat) : Except String Unit := do
  ensure (b.isGenesisBlock = false) "We must not accept genesis from others"
  let parent := b.quorumCert.certifiedBlock
  ensure (parent.round < b.round) "Block must have a greater round than parent's block"
  ensure (parent.epoch = b.epoch) "block's parent should be in the same epoch"
  ensure (parent.hasReconfiguration = true → b.payload.all Payload.isEmpty = true)
    "Reconfiguration suffix should not carry payload"
  b.verifyFailedAuthors
  if b.isNilBlock = true ∨ parent.hasReconfiguration = true then
    ensure (b.timestampUsecs = parent.timestampUsecs)
      "Nil/reconfig suffix block must have same timestamp as parent"
  else
    ensure (b.timestampUsecs > parent.timestampUsecs)
      "Blocks must have strictly increasing timestamps"
    ensure (b.timestampUsecs ≤ min (now + timebound) u64Max)
      "Blocks must not be too far in the future"
  ensure (b.quorumCert.endsEpoch = false) "Block cannot be proposed in an epoch that has ended"

/-- What the other components rely on once a block has passed both checks. -/
structure Block.Accepted (b : Block) (v : ValidatorVerifier) : Prop where
  quorumCert : b.quorumCert.verify v = .ok ()
  not_genesis : b.isGenesisBlock = false
  parentId_eq : b.parentId = b.quorumCert.certifiedBlock.id
  parent_round_lt : b.quorumCert.certifiedBlock.round < b.round
  parent_epoch_eq : b.quorumCert.certifiedBlock.epoch = b.epoch

theorem Block.validateSignature_quorumCert {b : Block} (h : b.validateSignature v = .ok ()) :
    b.quorumCert.verify v = .ok () ∧ b.parentId = b.quorumCert.certifiedBlock.id := by
  unfold Block.validateSignature at h
  unfold Block.parentId BlockData.parentId
  cases htype : b.blockData.blockType with
  | genesis | dagBlock => simp [htype] at h
  | nilBlock => exact ⟨by simpa [htype] using h, rfl⟩
  | proposal payload author failed | proposalExt txns payload author failed =>
    refine ⟨?_, rfl⟩
    cases hsig : b.signature with
    | none => simp [htype, hsig] at h
    | some signature =>
      simp only [htype, hsig, except_seq_ok_iff] at h
      exact h.2

theorem Block.accepted_of_verify {b : Block} {now : Nat}
    (hsig : b.validateSignature v = .ok ()) (hform : b.verifyWellFormed now = .ok ()) :
    b.Accepted v := by
  obtain ⟨hqc, hparent⟩ := Block.validateSignature_quorumCert hsig
  simp only [Block.verifyWellFormed, except_seq_ok_iff, ensure_ok_iff] at hform
  obtain ⟨hgenesis, hround, hepoch, -⟩ := hform
  exact ⟨hqc, hgenesis, hparent, hround, hepoch⟩

end Liquent
