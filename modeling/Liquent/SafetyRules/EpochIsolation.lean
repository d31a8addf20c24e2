import Liquent.SafetyRules.Spec

/-!
# Which certificates carry the epoch of the safety data

A vote or a timeout is decided by the rounds of certificates.  The block's own quorum certificate is
compared with the epoch of the block (`Block::verify_well_formed`), and the epoch of the block or of
the timeout with the stored safety data (`verify_epoch`).  The quorum certificate inside a timeout
and the timeout certificate argument are only checked for their signatures, and signatures of an
earlier epoch verify when the validator set has not changed.  This module states exactly when the
deciding certificates belong to the stored epoch.
-/

namespace Liquent.SafetyRules

open Misc

/-! ## The deciding certificates -/

/-- A vote is decided by the timeout certificate: it is not a repetition, and the block does not
directly follow its own quorum certificate, so the second branch of `safe_to_vote` holds. -/
def TcDecidesVote (s : SafetyRules) (proposal : VoteProposal) : Prop :=
  lastVoteFor s.stored proposal.block.round = none ∧
    proposal.block.round ≠ proposal.block.quorumCert.certifiedBlock.round + 1

/-- A timeout is decided by the timeout certificate: the second branch of `safe_to_timeout` holds.
-/
def TcDecidesTimeout (timeout : TwoChainTimeout) : Prop :=
  timeout.round ≠ timeout.hqcRound + 1

/-- The certificates that decide a vote belong to the epoch of the stored safety data. -/
def VoteIsolated (s : SafetyRules) (proposal : VoteProposal)
    (maybeTc : Option TwoChainTimeoutCertificate) : Prop :=
  proposal.block.quorumCert.certifiedBlock.epoch = s.stored.epoch ∧
    ∀ tc, maybeTc = some tc → TcDecidesVote s proposal → tc.epoch = s.stored.epoch

/-- The certificates that decide a timeout belong to the epoch of the stored safety data. -/
def TimeoutIsolated (s : SafetyRules) (timeout : TwoChainTimeout)
    (maybeTc : Option TwoChainTimeoutCertificate) : Prop :=
  timeout.quorumCert.certifiedBlock.epoch = s.stored.epoch ∧
    ∀ tc, maybeTc = some tc → TcDecidesTimeout timeout → tc.epoch = s.stored.epoch

/-- The caller passes a timeout certificate of the block's epoch whenever the vote needs it. -/
def VoteArgumentsOfOneEpoch (s : SafetyRules) (proposal : VoteProposal)
    (maybeTc : Option TwoChainTimeoutCertificate) : Prop :=
  ∀ tc, maybeTc = some tc → TcDecidesVote s proposal → tc.epoch = proposal.block.epoch

/-- The caller passes a timeout with a quorum certificate of its epoch, and a timeout certificate of
that epoch whenever the timeout needs it. -/
def TimeoutArgumentsOfOneEpoch (timeout : TwoChainTimeout)
    (maybeTc : Option TwoChainTimeoutCertificate) : Prop :=
  timeout.quorumCert.certifiedBlock.epoch = timeout.epoch ∧
    ∀ tc, maybeTc = some tc → TcDecidesTimeout timeout → tc.epoch = timeout.epoch

section Isolation

variable [Crypto] {maybeTc : Option TwoChainTimeoutCertificate} {faults : StorageFaults}

/-- The checks on a proposal are made before the decision, so they hold for a repeated vote too. -/
theorem block_epoch_of_vote_ok {now : Nat} {proposal : VoteProposal}
    {s s' : SafetyRules} {vote : Vote} (hcache : s.CacheOk)
    (h : guardedConstructAndSignVoteTwoChain faults now proposal maybeTc s = .ok vote s') :
    proposal.block.epoch = s.stored.epoch ∧
      proposal.block.quorumCert.certifiedBlock.epoch = proposal.block.epoch := by
  obtain ⟨prepared, s₁, hprep, -⟩ := bind_ok_iff.mp h
  simp only [prepareVoteTwoChain, bind_ok_iff, get_ok_iff, check_ok_iff] at hprep
  obtain ⟨_, _, ⟨rfl, rfl⟩, _, _, ⟨-, rfl⟩, voteData, s₂, hproposal, -⟩ := hprep
  obtain ⟨es, -, hepoch, haccepted, -⟩ := verifyProposal_ok hcache hproposal
  exact ⟨hepoch, haccepted.parent_epoch_eq⟩

theorem timeout_epoch_of_ok {timeout : TwoChainTimeout} {s s' : SafetyRules} {signature : Signature}
    (hcache : s.CacheOk)
    (h : guardedSignTimeoutWithQc faults timeout maybeTc s = .ok signature s') :
    timeout.epoch = s.stored.epoch := by
  have hcall := timeoutCall hcache faults timeout maybeTc
  rw [h] at hcall
  cases hcall with
  | issued reads fresh => exact fresh.epoch_eq

/-- A successful call is isolated in its epoch exactly when the caller passes certificates of one
epoch. -/
theorem epoch_isolation_iff (s : SafetyRules) (hcache : s.CacheOk) :
    (∀ faults now proposal maybeTc vote s',
      guardedConstructAndSignVoteTwoChain faults now proposal maybeTc s = .ok vote s' →
        (VoteIsolated s proposal maybeTc ↔ VoteArgumentsOfOneEpoch s proposal maybeTc)) ∧
    (∀ faults timeout maybeTc signature s',
      guardedSignTimeoutWithQc faults timeout maybeTc s = .ok signature s' →
        (TimeoutIsolated s timeout maybeTc ↔ TimeoutArgumentsOfOneEpoch timeout maybeTc)) := by
  constructor
  · intro faults now proposal maybeTc vote s' h
    obtain ⟨hepoch, hqc⟩ := block_epoch_of_vote_ok hcache h
    unfold VoteIsolated VoteArgumentsOfOneEpoch
    rw [← hepoch]
    exact and_iff_right hqc
  · intro faults timeout maybeTc signature s' h
    have hepoch := timeout_epoch_of_ok hcache h
    unfold TimeoutIsolated TimeoutArgumentsOfOneEpoch
    rw [← hepoch]

end Isolation

/-! ## Certificates of an earlier epoch -/

namespace EarlierEpoch

/-- A quorum certificate verifies when its signature token is the one of the message and its signers
are a quorum. -/
def token : Message → Signature
  | .ledgerInfo li => li.consensusDataHash
  | .timeout t => 1000 * t.epoch + 10 * t.round + t.hqcRound
  | .blockData d => d.round
  | .batchInfo b => b.digest

open Permissive (accept)

@[reducible] def crypto : Crypto :=
  { Permissive.crypto
      (fun d => 1000 * d.proposed.epoch + 10 * d.proposed.round + d.parent.round)
      (fun d => 1000 * d.epoch + d.round) with
    sign := fun _ message => .ok (token message)
    verify := fun _ _ message signature => accept (signature = token message)
    verifyMultiSignatures := fun v message s =>
      accept (v.IsQuorum (v.signersOf s).toFinset ∧ s.sig = some (token message))
    verifyAggregateSignatures := fun v messages s =>
      accept (v.IsQuorum (v.signersOf s).toFinset ∧ s.sig = (messages.head?.map token)) }

/-- The validator set of both epochs. -/
def validators : ValidatorVerifier where
  validatorInfos := [{ address := 1, publicKey := 7, votingPower := 1 }]

/-- The component at the start of epoch 2. -/
def state : SafetyRules where
  persistentStorage :=
    { enableCachedSafetyData := true
      cachedSafetyData := none
      internalStore :=
        { safetyData := SafetyData.start 2, waypoint := ⟨0, 0⟩, ownerAccount := some 1
          consensusKey := some 7, explicitKeys := [] } }
  validatorSigner := some { author := 1, privateKey := 7 }
  epochState := some { epoch := 2, verifier := validators }

def info (epoch round : Nat) : BlockInfo :=
  { BlockInfo.empty with epoch, round, id := 1000 * epoch + round, timestampUsecs := round }

/-- A certificate for round `round + 1`, signed by the validator of the epoch. -/
def signedQc (epoch round : Nat) : QuorumCert where
  voteData := { proposed := info epoch (round + 1), parent := info epoch round }
  signedLedgerInfo :=
    { ledgerInfo := LedgerInfo.new (info epoch round) (1000 * epoch + 10 * (round + 1) + round)
      signatures := { signers := [0], sig := some (1000 * epoch + 10 * (round + 1) + round) } }

/-- The certificate of the genesis of an epoch. -/
def genesisQc (epoch : Nat) : QuorumCert where
  voteData := { proposed := info epoch 0, parent := info epoch 0 }
  signedLedgerInfo :=
    { ledgerInfo := LedgerInfo.new (info epoch 0) (1000 * epoch)
      signatures := { signers := [], sig := none } }

/-- A timeout of epoch 2 that carries a quorum certificate for round 5 of the given epoch. -/
def timeout (qcEpoch : Nat) : TwoChainTimeout where
  epoch := 2
  round := 6
  quorumCert := signedQc qcEpoch 4

/-- A timeout certificate for round 6 of an epoch in which nothing was certified. -/
def timeoutCert (epoch : Nat) : TwoChainTimeoutCertificate where
  timeout := { epoch := epoch, round := 6, quorumCert := genesisQc epoch }
  signaturesWithRounds :=
    { sig := { signers := [0], sig := some (1000 * epoch + 60) }, rounds := [0] }

/-- A proposal for round 7 of epoch 2 on top of the genesis of that epoch. -/
def proposal : VoteProposal where
  block :=
    { blockData :=
        { epoch := 2, round := 7, timestampUsecs := 7, quorumCert := genesisQc 2
          blockType := .proposal (.directMempool []) 1 [] }
      signature := some 7 }
  nextEpochState := none
  decoupledExecution := true

end EarlierEpoch

open EarlierEpoch

attribute [local instance] crypto

/-- At the start of epoch 2, with the validators of epoch 1, the component signs a timeout for round
6 on a quorum certificate of epoch 1, and votes in round 7 on a timeout certificate of epoch 1. -/
theorem certificates_of_earlier_epoch_accepted :
    (∃ signature s', guardedSignTimeoutWithQc {} (timeout 1) none state = .ok signature s' ∧
      ¬ TimeoutIsolated state (timeout 1) none) ∧
    (∃ vote s', guardedConstructAndSignVoteTwoChain {} 0 proposal (some (timeoutCert 1)) state =
        .ok vote s' ∧
      ¬ VoteIsolated state proposal (some (timeoutCert 1))) := by
  refine ⟨⟨_, _, rfl, ?_⟩, ⟨_, _, rfl, ?_⟩⟩
  · intro h
    exact absurd h.1 (by decide)
  · intro h
    exact absurd (h.2 _ rfl ⟨rfl, by decide⟩) (by decide)

/-- With certificates of epoch 2 the same calls are isolated. -/
theorem epoch_isolation_of_current_certificates : TimeoutIsolated state (timeout 2) none ∧
      VoteIsolated state proposal (some (timeoutCert 2)) := by
  have hcache : state.CacheOk := by
    intro data h
    cases h
  have hiff := epoch_isolation_iff state hcache
  refine ⟨?_, ?_⟩
  · refine (hiff.2 {} (timeout 2) none _ _ rfl).mpr ⟨rfl, ?_⟩
    intro tc h
    cases h
  · refine (hiff.1 {} 0 proposal (some (timeoutCert 2)) _ _ rfl).mpr ?_
    intro tc h _
    cases h
    rfl

end Liquent.SafetyRules
