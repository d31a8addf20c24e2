import Liquent.SafetyRules.Rules

/-!
# What each call of SafetyRules establishes

One specification per call: what has been checked and which safety data are written when the call
goes through, and that nothing but the cache has changed when it stops before its write.  The runs
of the component, and the agreement proof above them, rest on these and do not unfold the calls.
-/

namespace Liquent.SafetyRules

open Misc

/-! ## Reading -/

/-- The state is unchanged, up to the stored safety data having been read into the cache. -/
def Reads (s s' : SafetyRules) : Prop := s' = s ∨ s' = s.loaded

instance : IsPreorder SafetyRules Reads where
  refl s := .inl rfl
  trans := by
    rintro s₁ s₂ s₃ (rfl | rfl) (rfl | rfl)
    · exact .inl rfl
    · exact .inr rfl
    · exact .inr rfl
    · exact .inr (loaded_loaded s₁)

variable {s s' : SafetyRules}

section

variable (h : Reads s s')

include h

theorem Reads.stored : s'.stored = s.stored := by
  rcases h with rfl | rfl <;> rfl

theorem Reads.waypoint : s'.waypoint = s.waypoint := by
  rcases h with rfl | rfl <;> rfl

theorem Reads.validatorSigner : s'.validatorSigner = s.validatorSigner := by
  rcases h with rfl | rfl <;> rfl

theorem Reads.epochState : s'.epochState = s.epochState := by
  rcases h with rfl | rfl <;> rfl

theorem Reads.cacheOk (hcache : s.CacheOk) : s'.CacheOk := by
  rcases h with rfl | rfl
  · exact hcache
  · exact cacheOk_loaded s

end

theorem moves_safetyData (faults : StorageFaults) : Moves Reads (safetyData faults) := by
  intro s
  unfold safetyData
  split
  · split
    · exact .inl rfl
    · split
      · exact .inl rfl
      · exact .inr rfl
  · exact .inl rfl

variable {data : SafetyData} {faults : StorageFaults} {s₁ : SafetyRules}

/-- A read in the middle of a call still sees the data stored before the call. -/
theorem safetyData_ok_of_reads {s₂ : SafetyRules}
    (hcache : s.CacheOk) (hreads : Reads s s₁) (h : safetyData faults s₁ = .ok data s₂) :
    data = s.stored ∧ Reads s s₂ := by
  obtain ⟨hdata, -⟩ := safetyData_ok (hreads.cacheOk hcache) h
  exact ⟨hdata.trans hreads.stored, trans_of Reads hreads ((moves_safetyData faults).of_ok h)⟩

/-! ## Checks without state -/

theorem verifyEpoch_ok_iff {epoch : Nat} {u : Unit} :
    verifyEpoch epoch data = .ok u ↔ epoch = data.epoch := by
  simp [verifyEpoch]

theorem isNextRound_true_iff {round previous : Nat} :
    isNextRound round previous = .ok true ↔ previous < u64Max ∧ round = previous + 1 := by
  unfold isNextRound nextRound
  split <;> simp [Except.map, *]

theorem orCheck_true {a b : Except Error Bool} (h : orCheck a b = .ok true) :
    a = .ok true ∨ b = .ok true := by
  unfold orCheck at h
  split at h
  · exact .inl rfl
  · exact .inr h
  · cases h

/-- The two-chain voting rule, as a proposition. -/
def VoteRule (block : Block) (maybeTc : Option TwoChainTimeoutCertificate) : Prop :=
  block.round = block.quorumCert.certifiedBlock.round + 1 ∨ (block.round = tcRound maybeTc + 1 ∧
      tcHqcRound maybeTc ≤ block.quorumCert.certifiedBlock.round)

variable {maybeTc : Option TwoChainTimeoutCertificate} {block : Block}

theorem safeToVote_ok (h : safeToVote block maybeTc = .ok ()) : VoteRule block maybeTc := by
  simp only [safeToVote, except_bind_ok_iff, ensure_ok_iff] at h
  obtain ⟨inTurn, hturn, rfl⟩ := h
  rcases orCheck_true hturn with hqc | htc
  · exact .inl (isNextRound_true_iff.mp hqc).2
  · cases hnext : isNextRound block.round (tcRound maybeTc) with
    | error e => simp [hnext, Except.map] at htc
    | ok next =>
      simp only [hnext, Except.map, Except.ok.injEq, Bool.and_eq_true, decide_eq_true_eq] at htc
      obtain ⟨rfl, hle⟩ := htc
      exact .inr ⟨(isNextRound_true_iff.mp hnext).2, hle⟩

/-- The two-chain timeout rule, as a proposition. -/
def TimeoutRule (timeout : TwoChainTimeout) (maybeTc : Option TwoChainTimeoutCertificate)
    (data : SafetyData) : Prop :=
  (timeout.round = timeout.hqcRound + 1 ∨ timeout.round = tcRound maybeTc + 1) ∧
    data.oneChainRound ≤ timeout.hqcRound

variable {timeout : TwoChainTimeout}

theorem safeToTimeout_ok
    (h : safeToTimeout timeout maybeTc data = .ok ()) : TimeoutRule timeout maybeTc data := by
  simp only [safeToTimeout, except_bind_ok_iff, ensure_ok_iff] at h
  obtain ⟨inTurn, hturn, rfl, hone⟩ := h
  refine ⟨?_, hone⟩
  rcases orCheck_true hturn with hqc | htc
  · exact .inl (isNextRound_true_iff.mp hqc).2
  · exact .inr (isNextRound_true_iff.mp htc).2

/-- The block info that a vote for the block commits. -/
def commitInfoOf (block : Block) : BlockInfo :=
  if block.quorumCert.certifiedBlock.round + 1 = block.round then
    block.quorumCert.certifiedBlock
  else BlockInfo.empty

theorem constructLedgerInfo2chain_ok {hash : HashValue} {li : LedgerInfo}
    (h : constructLedgerInfo2chain block hash = .ok li) :
    li = LedgerInfo.new (commitInfoOf block) hash := by
  simp only [constructLedgerInfo2chain, except_bind_ok_iff, nextRound_ok_iff,
    except_pure_ok_iff] at h
  obtain ⟨afterParent, ⟨-, rfl⟩, hli⟩ := h
  exact hli.symm

variable {data' : SafetyData}

theorem verifyAndUpdateLastVoteRound_ok_iff {round : Nat} :
    verifyAndUpdateLastVoteRound round data = .ok data' ↔
      data.lastVotedRound < round ∧ { data with lastVotedRound := round } = data' := by
  simp only [verifyAndUpdateLastVoteRound, except_seq_ok_iff, ensure_ok_iff, except_pure_ok_iff]

theorem lastVoteFor_eq_some {round : Nat} {vote : Vote}
    (h : lastVoteFor data round = some vote) : data.lastVote = some vote ∧ vote.round = round := by
  simpa [lastVoteFor, Option.filter_eq_some_iff] using h

variable [Crypto]

theorem verifyQc_ok_iff {qc : QuorumCert} : s.verifyQc qc = .ok () ↔
      ∃ es, s.epochState = some es ∧ qc.verify es.verifier = .ok () := by
  simp only [verifyQc, except_bind_ok_iff, currentEpochState_ok_iff, except_mapError_ok_iff]

variable {es : EpochState}

theorem verifyMaybeTc_ok (hes : s.epochState = some es) (h : s.verifyMaybeTc maybeTc = .ok ())
    (tc : TwoChainTimeoutCertificate) (htc : maybeTc = some tc) :
    tc.verify es.verifier = .ok () := by
  subst htc
  simp only [verifyMaybeTc, verifyTc, except_bind_ok_iff, currentEpochState_ok_iff,
    except_mapError_ok_iff] at h
  obtain ⟨es', hes', hverify⟩ := h
  cases hes.symm.trans hes'
  exact hverify

/-! ## Voting -/

/-- The vote data that an honest validator signs for a proposal. -/
def voteDataOf (proposal : VoteProposal) : VoteData where
  proposed := proposal.block.genBlockInfo Crypto.accumulatorPlaceholderHash 0
    proposal.nextEpochState
  parent := proposal.block.quorumCert.certifiedBlock

/-- What has been established when a fresh vote is issued: the checks, the two voting rules, the
contents of the vote, and the safety data about to be written. -/
structure FreshVote (s : SafetyRules) (es : EpochState) (signer : ValidatorSigner)
    (proposal : VoteProposal) (maybeTc : Option TwoChainTimeoutCertificate) (vote : Vote)
    (data : SafetyData) : Prop where
  signer_eq : s.validatorSigner = some signer
  epochState_eq : s.epochState = some es
  epoch_eq : proposal.block.epoch = s.stored.epoch
  accepted : proposal.block.Accepted es.verifier
  tc_verify : ∀ tc, maybeTc = some tc → tc.verify es.verifier = .ok ()
  round_gt : s.stored.lastVotedRound < proposal.block.round
  rule : VoteRule proposal.block maybeTc
  voteData_eq : vote.voteData = voteDataOf proposal
  author_eq : vote.author = signer.author
  ledgerInfo_eq : vote.ledgerInfo =
    LedgerInfo.new (commitInfoOf proposal.block) (voteDataOf proposal).hash
  signature_eq : Crypto.sign signer (.ledgerInfo vote.ledgerInfo) = .ok vote.signature
  data_eq : data = recordVote vote (observeQc proposal.block.quorumCert
    { s.stored with lastVotedRound := proposal.block.round })

theorem moves_verifyProposal (faults : StorageFaults) (now : Nat) (proposal : VoteProposal) :
    Moves Reads (verifyProposal faults now proposal) := by
  refine (moves_safetyData faults).bind fun data => ?_
  refine (moves_check _).bind fun _ => moves_get.bind fun s => ?_
  refine (moves_check _).bind fun _ => (moves_check _).bind fun es => ?_
  exact (moves_check _).bind fun _ => (moves_check _).bind fun _ => moves_check _

theorem moves_prepareVoteTwoChain (faults : StorageFaults) (now : Nat) (proposal : VoteProposal)
    (maybeTc : Option TwoChainTimeoutCertificate) :
    Moves Reads (prepareVoteTwoChain faults now proposal maybeTc) := by
  refine moves_get.bind fun s => (moves_check _).bind fun _ => ?_
  refine (moves_verifyProposal faults now proposal).bind fun voteData => ?_
  refine moves_get.bind fun s => (moves_check _).bind fun _ => ?_
  refine (moves_safetyData faults).bind fun data => ?_
  cases lastVoteFor data proposal.block.round with
  | some vote => exact moves_pure _
  | none => exact moves_get.bind fun s => (moves_check _).bind fun _ => moves_pure _

variable {proposal : VoteProposal} {voteData : VoteData} {now : Nat}

theorem verifyProposal_ok (hcache : s.CacheOk)
    (h : verifyProposal faults now proposal s = .ok voteData s₁) :
    ∃ es, s.epochState = some es ∧ proposal.block.epoch = s.stored.epoch ∧
      proposal.block.Accepted es.verifier ∧ voteData = voteDataOf proposal := by
  simp only [verifyProposal, bind_ok_iff, check_ok_iff, get_ok_iff, verifyEpoch_ok_iff,
    except_mapError_ok_iff, currentEpochState_ok_iff] at h
  obtain ⟨data, s₂, hread, _, _, ⟨hepoch, rfl⟩, _, _, ⟨rfl, rfl⟩, _, _, ⟨-, rfl⟩, es, _,
    ⟨hes, rfl⟩, _, _, ⟨hsig, rfl⟩, _, _, ⟨hform, rfl⟩, hdata, -⟩ := h
  obtain ⟨rfl, rfl⟩ := safetyData_ok hcache hread
  refine ⟨es, hes, hepoch, Block.accepted_of_verify hsig hform, ?_⟩
  unfold genVoteData at hdata
  split at hdata
  · exact (Except.ok.inj hdata).symm
  · cases hdata

theorem signVote_ok {vote : Vote} (h : s.signVote block voteData maybeTc data = .ok (vote, data')) :
    ∃ signer, s.validatorSigner = some signer ∧ data.lastVotedRound < block.round ∧
      VoteRule block maybeTc ∧ vote.voteData = voteData ∧ vote.author = signer.author ∧
      vote.ledgerInfo = LedgerInfo.new (commitInfoOf block) voteData.hash ∧
      Crypto.sign signer (.ledgerInfo vote.ledgerInfo) = .ok vote.signature ∧
      data' = recordVote vote
        (observeQc block.quorumCert { data with lastVotedRound := block.round }) := by
  simp only [signVote, sign, except_bind_ok_iff, verifyAndUpdateLastVoteRound_ok_iff, signer_ok_iff,
    except_mapError_ok_iff, except_pure_ok_iff, Prod.mk.injEq] at h
  obtain ⟨data₁, ⟨hround, rfl⟩, _, hrule, signer, hsigner, li, hli, signature,
    ⟨signer', hsigner', hsign⟩, rfl, rfl⟩ := h
  cases hsigner.symm.trans hsigner'
  have hli' := constructLedgerInfo2chain_ok hli
  exact ⟨signer, hsigner, hround, safeToVote_ok hrule, rfl, rfl, hli', hsign, rfl⟩

/-- A voting call that does not stop repeats the vote given in this round, or issues a fresh one. -/
theorem prepareVoteTwoChain_ok {prepared : PreparedVote}
    (hcache : s.CacheOk) (h : prepareVoteTwoChain faults now proposal maybeTc s = .ok prepared s₁) :
    (∃ vote, prepared = .previous vote ∧ s.stored.lastVote = some vote ∧
      vote.round = proposal.block.round ∧ proposal.block.epoch = s.stored.epoch) ∨
    (∃ es signer vote data, prepared = .fresh vote data ∧
      FreshVote s es signer proposal maybeTc vote data) := by
  simp only [prepareVoteTwoChain, bind_ok_iff, get_ok_iff, check_ok_iff] at h
  obtain ⟨_, _, ⟨rfl, rfl⟩, _, _, ⟨-, rfl⟩, voteData, s₂, hproposal, _, _, ⟨rfl, rfl⟩, _, _,
    ⟨htc, rfl⟩, data, s₃, hread, h⟩ := h
  have hreads := (moves_verifyProposal faults now proposal).of_ok hproposal
  obtain ⟨es, hes, hepoch, haccepted, rfl⟩ := verifyProposal_ok hcache hproposal
  obtain ⟨rfl, hreads'⟩ := safetyData_ok_of_reads hcache hreads hread
  cases hlast : lastVoteFor s.stored proposal.block.round with
  | some vote =>
    simp only [hlast, pure_ok_iff] at h
    obtain ⟨hvote, hround⟩ := lastVoteFor_eq_some hlast
    exact .inl ⟨vote, h.1.symm, hvote, hround, hepoch⟩
  | none =>
    simp only [hlast, bind_ok_iff, get_ok_iff, check_ok_iff, pure_ok_iff] at h
    obtain ⟨_, _, ⟨rfl, rfl⟩, ⟨vote, data⟩, _, ⟨hsign, rfl⟩, rfl, rfl⟩ := h
    obtain ⟨signer, hsigner, hround, hrule, hdata, hauthor, hli, hsig, rfl⟩ := signVote_ok hsign
    rw [hreads'.validatorSigner] at hsigner
    exact .inr ⟨es, signer, vote, _, rfl,
      { signer_eq := hsigner, epochState_eq := hes, epoch_eq := hepoch, accepted := haccepted
        tc_verify := verifyMaybeTc_ok (hreads.epochState.trans hes) htc
        round_gt := hround, rule := hrule, voteData_eq := hdata, author_eq := hauthor
        ledgerInfo_eq := hli, signature_eq := hsig, data_eq := rfl }⟩

/-- The ways in which a voting call can end. -/
inductive VoteCall (s : SafetyRules) (proposal : VoteProposal)
    (maybeTc : Option TwoChainTimeoutCertificate) : EStateM.Result Error SafetyRules Vote → Prop
  /-- It stopped before its write. -/
  | stopped {e s₁} (reads : Reads s s₁) : VoteCall s proposal maybeTc (.error e s₁)
  /-- The validator had voted in this round; the vote is sent back. -/
  | repeated {vote s₁} (reads : Reads s s₁) (last : s.stored.lastVote = some vote)
      (round_eq : vote.round = proposal.block.round)
      (epoch_eq : proposal.block.epoch = s.stored.epoch) :
      VoteCall s proposal maybeTc (.ok vote s₁)
  /-- The write failed; the vote is not handed out. -/
  | writeFailed {e s₁} (reads : Reads s s₁) :
      VoteCall s proposal maybeTc (.error e (s₁.setCached none))
  /-- A fresh vote was recorded and handed out. -/
  | issued {es signer vote data s₁} (reads : Reads s s₁)
      (fresh : FreshVote s es signer proposal maybeTc vote data) :
      VoteCall s proposal maybeTc (.ok vote (s₁.setStored data))

theorem voteCall (hcache : s.CacheOk) (faults : StorageFaults) (now : Nat)
    (proposal : VoteProposal) (maybeTc : Option TwoChainTimeoutCertificate) :
    VoteCall s proposal maybeTc
      (guardedConstructAndSignVoteTwoChain faults now proposal maybeTc s) := by
  have hmoves := moves_prepareVoteTwoChain faults now proposal maybeTc
  unfold guardedConstructAndSignVoteTwoChain
  cases hprep : prepareVoteTwoChain faults now proposal maybeTc s with
  | error e s₁ =>
    rw [bind_error_of hprep]
    exact .stopped (hmoves.of_error hprep)
  | ok prepared s₁ =>
    rw [bind_of_ok hprep]
    have hreads := hmoves.of_ok hprep
    rcases prepareVoteTwoChain_ok hcache hprep with
      ⟨vote, rfl, hlast, hround, hepoch⟩ | ⟨es, signer, vote, data, rfl, hfresh⟩
    · exact .repeated hreads hlast hround hepoch
    · simp only [setSafetyData, bind, EStateM.bind]
      cases faults.writeSafetyData with
      | none => exact .issued hreads hfresh
      | some e => exact .writeFailed hreads

/-! ## Timeouts -/

/-- What has been established when the safety data of a timeout are written. -/
structure FreshTimeout (s : SafetyRules) (es : EpochState) (timeout : TwoChainTimeout)
    (maybeTc : Option TwoChainTimeoutCertificate) (data : SafetyData) : Prop where
  epochState_eq : s.epochState = some es
  epoch_eq : timeout.epoch = s.stored.epoch
  hqc_lt : timeout.hqcRound < timeout.round
  qc_verify : timeout.quorumCert.verify es.verifier = .ok ()
  tc_verify : ∀ tc, maybeTc = some tc → tc.verify es.verifier = .ok ()
  rule : TimeoutRule timeout maybeTc s.stored
  round_ge : s.stored.lastVotedRound ≤ timeout.round
  data_eq : data =
    updateHighestTimeoutRound timeout { s.stored with lastVotedRound := timeout.round }

omit [Crypto] in
theorem timeoutData_ok (h : timeoutData timeout maybeTc data = .ok data') :
    TimeoutRule timeout maybeTc data ∧ data.lastVotedRound ≤ timeout.round ∧
      data' = updateHighestTimeoutRound timeout { data with lastVotedRound := timeout.round } := by
  simp only [timeoutData, except_seq_ok_iff, ensure_ok_iff] at h
  obtain ⟨hrule, hle, h⟩ := h
  refine ⟨safeToTimeout_ok hrule, hle, ?_⟩
  by_cases hlt : data.lastVotedRound < timeout.round
  · simp only [hlt, if_true, except_bind_ok_iff, verifyAndUpdateLastVoteRound_ok_iff, true_and,
      except_pure_ok_iff] at h
    obtain ⟨_, rfl, rfl⟩ := h
    rfl
  · -- the validator had voted in this very round, so the last voted round stays
    have heq : timeout.round = data.lastVotedRound := by omega
    simp only [hlt, if_false, except_bind_ok_iff, except_pure_ok_iff] at h
    obtain ⟨_, rfl, rfl⟩ := h
    rw [heq]

theorem moves_prepareTimeout (faults : StorageFaults) (timeout : TwoChainTimeout)
    (maybeTc : Option TwoChainTimeoutCertificate) :
    Moves Reads (prepareTimeout faults timeout maybeTc) := by
  refine moves_get.bind fun s => (moves_check _).bind fun _ => ?_
  refine (moves_safetyData faults).bind fun data => (moves_check _).bind fun _ => ?_
  refine moves_get.bind fun s => (moves_check _).bind fun es => ?_
  exact (moves_check _).bind fun _ => (moves_check _).bind fun _ => moves_check _

theorem prepareTimeout_ok
    (hcache : s.CacheOk) (h : prepareTimeout faults timeout maybeTc s = .ok data s₁) :
    ∃ es, FreshTimeout s es timeout maybeTc data := by
  simp only [prepareTimeout, bind_ok_iff, get_ok_iff, check_ok_iff, verifyEpoch_ok_iff,
    except_mapError_ok_iff, currentEpochState_ok_iff] at h
  obtain ⟨_, _, ⟨rfl, rfl⟩, _, _, ⟨-, rfl⟩, data₀, s₂, hread, _, _, ⟨hepoch, rfl⟩, _, _,
    ⟨rfl, rfl⟩, es, _, ⟨hes, rfl⟩, _, _, ⟨htimeout, rfl⟩, _, _, ⟨htc, rfl⟩, hdata, -⟩ := h
  obtain ⟨rfl, rfl⟩ := safetyData_ok hcache hread
  obtain ⟨hlt, hqc⟩ := TwoChainTimeout.verify_ok_iff.mp htimeout
  obtain ⟨hrule, hle, hdata⟩ := timeoutData_ok hdata
  exact ⟨es, { epochState_eq := hes, epoch_eq := hepoch, hqc_lt := hlt, qc_verify := hqc
               tc_verify := verifyMaybeTc_ok hes htc
               rule := hrule, round_ge := hle, data_eq := hdata }⟩

/-- The ways in which a timeout call can end. -/
inductive TimeoutCall (s : SafetyRules) (timeout : TwoChainTimeout)
    (maybeTc : Option TwoChainTimeoutCertificate) :
    EStateM.Result Error SafetyRules Signature → Prop
  | stopped {e s₁} (reads : Reads s s₁) : TimeoutCall s timeout maybeTc (.error e s₁)
  | writeFailed {e s₁} (reads : Reads s s₁) :
      TimeoutCall s timeout maybeTc (.error e (s₁.setCached none))
  /-- The data were written, but signing failed. -/
  | signFailed {es data e s₁} (reads : Reads s s₁)
      (fresh : FreshTimeout s es timeout maybeTc data) :
      TimeoutCall s timeout maybeTc (.error e (s₁.setStored data))
  | issued {es data signature s₁} (reads : Reads s s₁)
      (fresh : FreshTimeout s es timeout maybeTc data) :
      TimeoutCall s timeout maybeTc (.ok signature (s₁.setStored data))

theorem timeoutCall (hcache : s.CacheOk) (faults : StorageFaults)
    (timeout : TwoChainTimeout) (maybeTc : Option TwoChainTimeoutCertificate) :
    TimeoutCall s timeout maybeTc (guardedSignTimeoutWithQc faults timeout maybeTc s) := by
  have hmoves := moves_prepareTimeout faults timeout maybeTc
  unfold guardedSignTimeoutWithQc
  cases hprep : prepareTimeout faults timeout maybeTc s with
  | error e s₁ =>
    rw [bind_error_of hprep]
    exact .stopped (hmoves.of_error hprep)
  | ok data s₁ =>
    rw [bind_of_ok hprep]
    have hreads := hmoves.of_ok hprep
    obtain ⟨es, hfresh⟩ := prepareTimeout_ok hcache hprep
    simp only [setSafetyData, bind, EStateM.bind]
    cases faults.writeSafetyData with
    | some e => exact .writeFailed hreads
    | none =>
      simp only [get_eq, check]
      split
      · exact .issued hreads hfresh
      · exact .signFailed hreads hfresh

/-! ## Order votes -/

/-- What has been established when the safety data of an order vote are written. -/
structure FreshOrderVote (s : SafetyRules) (es : EpochState) (signer : ValidatorSigner)
    (proposal : OrderVoteProposal) (orderVote : OrderVote) (data : SafetyData) : Prop where
  signer_eq : s.validatorSigner = some signer
  epochState_eq : s.epochState = some es
  epoch_eq : proposal.block.epoch = s.stored.epoch
  certified_eq : proposal.quorumCert.certifiedBlock = proposal.blockInfo
  id_eq : proposal.quorumCert.certifiedBlock.id = proposal.block.id
  qc_verify : proposal.quorumCert.verify es.verifier = .ok ()
  round_gt : s.stored.highestTimeoutRound < proposal.block.round
  author_eq : orderVote.author = signer.author
  ledgerInfo_eq : orderVote.ledgerInfo = LedgerInfo.new proposal.blockInfo HashValue.zero
  data_eq : data = observeQc proposal.quorumCert s.stored

theorem moves_verifyOrderVoteProposal (faults : StorageFaults) (proposal : OrderVoteProposal) :
    Moves Reads (verifyOrderVoteProposal faults proposal) := by
  refine (moves_safetyData faults).bind fun data => (moves_check _).bind fun _ => ?_
  refine (moves_check _).bind fun _ => (moves_check _).bind fun _ => ?_
  exact moves_get.bind fun s => moves_check _

variable {proposal : OrderVoteProposal}

theorem verifyOrderVoteProposal_ok {u : Unit} (hcache : s.CacheOk)
    (h : verifyOrderVoteProposal faults proposal s = .ok u s₁) :
    proposal.block.epoch = s.stored.epoch ∧
      proposal.quorumCert.certifiedBlock = proposal.blockInfo ∧
      proposal.quorumCert.certifiedBlock.id = proposal.block.id ∧
      ∃ es, s.epochState = some es ∧ proposal.quorumCert.verify es.verifier = .ok () := by
  simp only [verifyOrderVoteProposal, bind_ok_iff, check_ok_iff, get_ok_iff, verifyEpoch_ok_iff,
    ensure_ok_iff] at h
  obtain ⟨data, s₂, hread, _, _, ⟨hepoch, rfl⟩, _, _, ⟨hinfo, rfl⟩, _, _, ⟨hid, rfl⟩, _, _,
    ⟨rfl, rfl⟩, hqc, -⟩ := h
  obtain ⟨rfl, rfl⟩ := safetyData_ok hcache hread
  exact ⟨hepoch, hinfo, hid, verifyQc_ok_iff.mp hqc⟩

theorem moves_prepareOrderVote (faults : StorageFaults) (proposal : OrderVoteProposal) :
    Moves Reads (prepareOrderVote faults proposal) := by
  refine moves_get.bind fun s => (moves_check _).bind fun _ => ?_
  refine (moves_verifyOrderVoteProposal faults proposal).bind fun _ => ?_
  refine (moves_safetyData faults).bind fun data => (moves_check _).bind fun _ => ?_
  exact moves_get.bind fun s => (moves_check _).bind fun _ => (moves_check _).bind fun _ =>
    moves_pure _

theorem prepareOrderVote_ok {orderVote : OrderVote} (hcache : s.CacheOk)
    (h : prepareOrderVote faults proposal s = .ok (orderVote, data) s₁) :
    ∃ es signer, FreshOrderVote s es signer proposal orderVote data := by
  simp only [prepareOrderVote, bind_ok_iff, get_ok_iff, check_ok_iff, pure_ok_iff, signer_ok_iff,
    safeForOrderVote, ensure_ok_iff, Prod.mk.injEq] at h
  obtain ⟨_, _, ⟨rfl, rfl⟩, _, _, ⟨-, rfl⟩, _, s₂, hproposal, data₀, s₃, hread, _, _,
    ⟨hround, rfl⟩, _, _, ⟨rfl, rfl⟩, signer, _, ⟨hsigner, rfl⟩, signature, _, ⟨-, rfl⟩,
    ⟨rfl, rfl⟩, -⟩ := h
  have hreads := (moves_verifyOrderVoteProposal faults proposal).of_ok hproposal
  obtain ⟨hepoch, hinfo, hid, es, hes, hqc⟩ := verifyOrderVoteProposal_ok hcache hproposal
  obtain ⟨rfl, hreads'⟩ := safetyData_ok_of_reads hcache hreads hread
  rw [hreads'.validatorSigner] at hsigner
  exact ⟨es, signer,
    { signer_eq := hsigner, epochState_eq := hes, epoch_eq := hepoch, certified_eq := hinfo
      id_eq := hid, qc_verify := hqc, round_gt := hround, author_eq := rfl
      ledgerInfo_eq := rfl, data_eq := rfl }⟩

/-- The ways in which an order-vote call can end. -/
inductive OrderVoteCall (s : SafetyRules) (proposal : OrderVoteProposal) :
    EStateM.Result Error SafetyRules OrderVote → Prop
  | stopped {e s₁} (reads : Reads s s₁) : OrderVoteCall s proposal (.error e s₁)
  | writeFailed {e s₁} (reads : Reads s s₁) :
      OrderVoteCall s proposal (.error e (s₁.setCached none))
  | issued {es signer orderVote data s₁} (reads : Reads s s₁)
      (fresh : FreshOrderVote s es signer proposal orderVote data) :
      OrderVoteCall s proposal (.ok orderVote (s₁.setStored data))

theorem orderVoteCall (hcache : s.CacheOk) (faults : StorageFaults) (proposal : OrderVoteProposal) :
    OrderVoteCall s proposal (guardedConstructAndSignOrderVote faults proposal s) := by
  have hmoves := moves_prepareOrderVote faults proposal
  unfold guardedConstructAndSignOrderVote
  cases hprep : prepareOrderVote faults proposal s with
  | error e s₁ =>
    rw [bind_error_of hprep]
    exact .stopped (hmoves.of_error hprep)
  | ok prepared s₁ =>
    rw [bind_of_ok hprep]
    obtain ⟨orderVote, data⟩ := prepared
    have hreads := hmoves.of_ok hprep
    obtain ⟨es, signer, hfresh⟩ := prepareOrderVote_ok hcache hprep
    simp only [setSafetyData, bind, EStateM.bind]
    cases faults.writeSafetyData with
    | none => exact .issued hreads hfresh
    | some e => exact .writeFailed hreads

/-! ## Proposals, commit votes and initialisation -/

theorem moves_guardedSignProposal (faults : StorageFaults) (blockData : BlockData) :
    Moves Reads (guardedSignProposal faults blockData) := by
  refine moves_get.bind fun s => (moves_check _).bind fun _ => (moves_check _).bind fun _ => ?_
  refine (moves_safetyData faults).bind fun data => (moves_check _).bind fun _ => ?_
  refine (moves_check _).bind fun _ => moves_get.bind fun s => ?_
  exact (moves_check _).bind fun _ => (moves_check _).bind fun _ => moves_check _

omit [Crypto] in
theorem moves_guardedConsensusState (faults : StorageFaults) (traced : Bool) :
    Moves Reads (guardedConsensusState faults traced) := by
  refine moves_get.bind fun s => (moves_check _).bind fun _ =>
    (moves_safetyData faults).bind fun _ => ?_
  refine (moves_check _).bind fun _ => (moves_safetyData faults).bind fun _ => ?_
  exact (moves_check _).bind fun _ => moves_pure _

variable [LedgerApi]

theorem moves_guardedSignCommitVote (ledgerInfo : LedgerInfoWithSignatures)
    (newLedgerInfo : LedgerInfo) :
    Moves Reads (guardedSignCommitVote ledgerInfo newLedgerInfo) := by
  refine moves_get.bind fun s => (moves_check _).bind fun _ => (moves_check _).bind fun _ => ?_
  refine (moves_check _).bind fun _ => (moves_check _).bind fun _ => ?_
  exact (moves_check _).bind fun _ => moves_check _

end Liquent.SafetyRules
