import Liquent.SafetyRules.State

/-!
# The calls of SafetyRules

Translation of `safety_rules_2chain.rs` and of `safety_rules.rs` (cited by line).  Every function
that may write the safety data is cut in two: a first part that makes all the checks and computes
the new safety data (`prepare..`), and the write with what follows it.  The first part touches
nothing but the cache.
-/

namespace Liquent

namespace SafetyRules

open Misc

/-! ## Reading the component -/

/-- `next_round` (39). -/
def nextRound (round : Nat) : Except Error Nat :=
  if round < u64Max then .ok (round + 1) else .error (.incorrectRound round)

theorem nextRound_ok_iff {round next : Nat} :
    nextRound round = .ok next ↔ round < u64Max ∧ next = round + 1 := by
  unfold nextRound
  split <;> simp [*, eq_comm]

/-- `signer` (114). -/
def signer (s : SafetyRules) : Except Error ValidatorSigner :=
  match s.validatorSigner with
  | some signer => .ok signer
  | none => .error (.notInitialized "validator_signer")

/-- `epoch_state` (120). -/
def currentEpochState (s : SafetyRules) : Except Error EpochState :=
  match s.epochState with
  | some epochState => .ok epochState
  | none => .error (.notInitialized "epoch_state")

theorem signer_ok_iff {s : SafetyRules} {signer : ValidatorSigner} :
    s.signer = .ok signer ↔ s.validatorSigner = some signer := by
  unfold SafetyRules.signer
  split <;> simp [*]

theorem currentEpochState_ok_iff {s : SafetyRules} {epochState : EpochState} :
    s.currentEpochState = .ok epochState ↔ s.epochState = some epochState := by
  unfold currentEpochState
  split <;> simp [*]

variable [Crypto]

/-- `SafetyRules::sign` (`timeout_2chain.rs:60`). -/
def sign (s : SafetyRules) (message : Message) : Except Error Signature := do
  let signer ← s.signer
  (Crypto.sign signer message).mapError .serializationError

/-! ## Checks -/

/-- `verify_epoch` (182). -/
def verifyEpoch (epoch : Nat) (data : SafetyData) : Except Error Unit :=
  ensure (epoch = data.epoch) (.incorrectEpoch epoch data.epoch)

/-- `verify_qc` (208). -/
def verifyQc (s : SafetyRules) (qc : QuorumCert) : Except Error Unit := do
  let epochState ← s.currentEpochState
  (qc.verify epochState.verifier).mapError .invalidQuorumCertificate

/-- `verify_tc` (`safety_rules_2chain.rs:173`). -/
def verifyTc (s : SafetyRules) (tc : TwoChainTimeoutCertificate) : Except Error Unit := do
  let epochState ← s.currentEpochState
  (tc.verify epochState.verifier).mapError .invalidTimeoutCertificate

/-- The timeout certificate is an optional argument; it is checked when given. -/
def verifyMaybeTc (s : SafetyRules) (maybeTc : Option TwoChainTimeoutCertificate) :
    Except Error Unit :=
  match maybeTc with
  | some tc => s.verifyTc tc
  | none => .ok ()

/-- `VoteProposal::gen_vote_data` (`vote_proposal.rs:74`), which panics unless execution is
decoupled. -/
def genVoteData (proposal : VoteProposal) : Except Error VoteData :=
  if proposal.decoupledExecution then
    .ok { proposed := proposal.block.genBlockInfo Crypto.accumulatorPlaceholderHash 0
            proposal.nextEpochState
          parent := proposal.block.quorumCert.certifiedBlock }
  else .error (.panicked "decoupled_execution must be true")

/-- First voting rule: the round must be above the last one voted in (191). -/
def verifyAndUpdateLastVoteRound (round : Nat) (data : SafetyData) : Except Error SafetyData := do
  ensure (data.lastVotedRound < round) (.incorrectLastVotedRound round data.lastVotedRound)
  pure { data with lastVotedRound := round }

/-- `observe_qc` (124). -/
def observeQc (qc : QuorumCert) (data : SafetyData) : SafetyData :=
  { data with
    oneChainRound := max data.oneChainRound qc.certifiedBlock.round
    preferredRound := max data.preferredRound qc.parentBlock.round }

/-- `update_highest_timeout_round` (143). -/
def updateHighestTimeoutRound (timeout : TwoChainTimeout) (data : SafetyData) : SafetyData :=
  { data with highestTimeoutRound := max data.highestTimeoutRound timeout.round }

/-- Second voting rule of the proposer; the updated copy is not persisted (156). -/
def verifyAndUpdatePreferredRound (qc : QuorumCert) (data : SafetyData) :
    Except Error SafetyData := do
  ensure (data.preferredRound ≤ qc.certifiedBlock.round)
    (.incorrectPreferredRound qc.certifiedBlock.round data.preferredRound)
  pure (observeQc qc data)

def tcRound (maybeTc : Option TwoChainTimeoutCertificate) : Nat :=
  (maybeTc.map (·.round)).getD 0

def tcHqcRound (maybeTc : Option TwoChainTimeoutCertificate) : Nat :=
  (maybeTc.map (·.highestHqcRound)).getD 0

/-- Whether the round is the successor of another one, which must not wrap around. -/
def isNextRound (round previous : Nat) : Except Error Bool :=
  (nextRound previous).map (fun next => decide (round = next))

/-- Disjunction of two checks; the second one is only made when the first one is false. -/
def orCheck (a b : Except Error Bool) : Except Error Bool :=
  match a with
  | .ok true => .ok true
  | .ok false => b
  | .error e => .error e

/-- `safe_to_timeout` (`safety_rules_2chain.rs:125`). -/
def safeToTimeout (timeout : TwoChainTimeout) (maybeTc : Option TwoChainTimeoutCertificate)
    (data : SafetyData) : Except Error Unit := do
  let round := timeout.round
  let qcRound := timeout.hqcRound
  let inTurn ← orCheck (isNextRound round qcRound) (isNextRound round (tcRound maybeTc))
  ensure (inTurn = true ∧ data.oneChainRound ≤ qcRound)
    (.notSafeToTimeout round qcRound (tcRound maybeTc) data.oneChainRound)

/-- `safe_to_vote` (`safety_rules_2chain.rs:146`). -/
def safeToVote (block : Block) (maybeTc : Option TwoChainTimeoutCertificate) :
    Except Error Unit := do
  let round := block.round
  let qcRound := block.quorumCert.certifiedBlock.round
  let inTurn ← orCheck (isNextRound round qcRound)
    ((isNextRound round (tcRound maybeTc)).map (· && decide (tcHqcRound maybeTc ≤ qcRound)))
  ensure (inTurn = true) (.notSafeToVote round qcRound (tcRound maybeTc) (tcHqcRound maybeTc))

/-- `safe_for_order_vote` (`safety_rules_2chain.rs:164`). -/
def safeForOrderVote (block : Block) (data : SafetyData) : Except Error Unit :=
  ensure (data.highestTimeoutRound < block.round)
    (.notSafeForOrderVote block.round data.highestTimeoutRound)

/-- `construct_ledger_info_2chain` (`safety_rules_2chain.rs:186`): the vote commits the parent when
the rounds are contiguous. -/
def constructLedgerInfo2chain (block : Block) (consensusDataHash : HashValue) :
    Except Error LedgerInfo := do
  let afterParent ← nextRound block.quorumCert.certifiedBlock.round
  let commitInfo :=
    if afterParent = block.round then block.quorumCert.certifiedBlock else BlockInfo.empty
  pure (LedgerInfo.new commitInfo consensusDataHash)

/-- The last vote, if it was for the given round. -/
def lastVoteFor (data : SafetyData) (round : Nat) : Option Vote :=
  data.lastVote.filter (fun vote => vote.round = round)

def recordVote (vote : Vote) (data : SafetyData) : SafetyData :=
  { data with lastVote := some vote }

/-! ## Voting -/

/-- `verify_proposal` (58). -/
def verifyProposal (faults : StorageFaults) (now : Nat) (proposal : VoteProposal) :
    Rules VoteData := do
  let data ← safetyData faults
  check (verifyEpoch proposal.block.epoch data)
  let s ← get
  check (s.verifyQc proposal.block.quorumCert)
  let epochState ← check s.currentEpochState
  check ((proposal.block.validateSignature epochState.verifier).mapError .invalidProposal)
  check ((proposal.block.verifyWellFormed now).mapError .invalidProposal)
  check (genVoteData proposal)

/-- A voting call sends back the vote of this round, or issues a fresh vote with the safety data
that record it. -/
inductive PreparedVote where
  | previous (vote : Vote)
  | fresh (vote : Vote) (data : SafetyData)

/-- The part of a voting call that computes a fresh vote from the safety data read. -/
def signVote (s : SafetyRules) (block : Block) (voteData : VoteData)
    (maybeTc : Option TwoChainTimeoutCertificate) (data : SafetyData) :
    Except Error (Vote × SafetyData) := do
  let data ← verifyAndUpdateLastVoteRound block.round data
  safeToVote block maybeTc
  let data := observeQc block.quorumCert data
  let signer ← s.signer
  let ledgerInfo ← constructLedgerInfo2chain block voteData.hash
  let signature ← s.sign (.ledgerInfo ledgerInfo)
  let vote := Vote.newWithSignature voteData signer.author ledgerInfo signature
  pure (vote, recordVote vote data)

def prepareVoteTwoChain (faults : StorageFaults) (now : Nat) (proposal : VoteProposal)
    (maybeTc : Option TwoChainTimeoutCertificate) : Rules PreparedVote := do
  let s ← get
  let _ ← check s.signer
  let voteData ← verifyProposal faults now proposal
  let s ← get
  check (s.verifyMaybeTc maybeTc)
  let data ← safetyData faults
  match lastVoteFor data proposal.block.round with
  -- already voted in this round: the previous vote is sent back
  | some vote => pure (.previous vote)
  | none =>
    let s ← get
    let (vote, data) ← check (s.signVote proposal.block voteData maybeTc data)
    pure (.fresh vote data)

/-- `guarded_construct_and_sign_vote_two_chain` (`safety_rules_2chain.rs:54`). -/
def guardedConstructAndSignVoteTwoChain (faults : StorageFaults) (now : Nat)
    (proposal : VoteProposal) (maybeTc : Option TwoChainTimeoutCertificate) : Rules Vote := do
  match ← prepareVoteTwoChain faults now proposal maybeTc with
  | .previous vote => pure vote
  | .fresh vote data =>
    setSafetyData faults data
    pure vote

/-! ## Timeouts -/

/-- The part of a timeout call that computes the new safety data. -/
def timeoutData (timeout : TwoChainTimeout) (maybeTc : Option TwoChainTimeoutCertificate)
    (data : SafetyData) : Except Error SafetyData := do
  safeToTimeout timeout maybeTc data
  ensure (data.lastVotedRound ≤ timeout.round)
    (.incorrectLastVotedRound timeout.round data.lastVotedRound)
  let data ←
    if data.lastVotedRound < timeout.round then verifyAndUpdateLastVoteRound timeout.round data
    else pure data
  pure (updateHighestTimeoutRound timeout data)

def prepareTimeout (faults : StorageFaults) (timeout : TwoChainTimeout)
    (maybeTc : Option TwoChainTimeoutCertificate) : Rules SafetyData := do
  let s ← get
  let _ ← check s.signer
  let data ← safetyData faults
  check (verifyEpoch timeout.epoch data)
  let s ← get
  let epochState ← check s.currentEpochState
  check ((timeout.verify epochState.verifier).mapError .invalidTimeout)
  check (s.verifyMaybeTc maybeTc)
  check (timeoutData timeout maybeTc data)

/-- `guarded_sign_timeout_with_qc` (`safety_rules_2chain.rs:22`). -/
def guardedSignTimeoutWithQc (faults : StorageFaults) (timeout : TwoChainTimeout)
    (maybeTc : Option TwoChainTimeoutCertificate) : Rules Signature := do
  let data ← prepareTimeout faults timeout maybeTc
  setSafetyData faults data
  let s ← get
  check (s.sign (.timeout timeout.signingFormat))

/-! ## Order votes -/

/-- `verify_order_vote_proposal` (80). -/
def verifyOrderVoteProposal (faults : StorageFaults) (proposal : OrderVoteProposal) :
    Rules Unit := do
  let data ← safetyData faults
  check (verifyEpoch proposal.block.epoch data)
  let certified := proposal.quorumCert.certifiedBlock
  check (ensure (certified = proposal.blockInfo)
    (.invalidOneChainQuorumCertificate certified.id proposal.blockInfo.id))
  check (ensure (certified.id = proposal.block.id)
    (.invalidOneChainQuorumCertificate certified.id proposal.block.id))
  let s ← get
  check (s.verifyQc proposal.quorumCert)

def prepareOrderVote (faults : StorageFaults) (proposal : OrderVoteProposal) :
    Rules (OrderVote × SafetyData) := do
  let s ← get
  let _ ← check s.signer
  verifyOrderVoteProposal faults proposal
  let data ← safetyData faults
  let data := observeQc proposal.quorumCert data
  check (safeForOrderVote proposal.block data)
  let s ← get
  let signer ← check s.signer
  let ledgerInfo := LedgerInfo.new proposal.blockInfo HashValue.zero
  let signature ← check (s.sign (.ledgerInfo ledgerInfo))
  pure ({ author := signer.author, ledgerInfo, signature }, data)

/-- `guarded_construct_and_sign_order_vote` (`safety_rules_2chain.rs:98`). -/
def guardedConstructAndSignOrderVote (faults : StorageFaults) (proposal : OrderVoteProposal) :
    Rules OrderVote := do
  let (orderVote, data) ← prepareOrderVote faults proposal
  setSafetyData faults data
  pure orderVote

/-! ## Proposals and commit votes -/

/-- `verify_author` (171). -/
def verifyAuthor (s : SafetyRules) (author : Option Author) : Except Error Unit := do
  let signer ← s.signer
  match author with
  | none => .error (.invalidProposal "No author found in the proposal")
  | some author =>
    ensure (signer.author = author) (.invalidProposal "Proposal author is not validator signer!")

/-- `guarded_sign_proposal` (318). -/
def guardedSignProposal (faults : StorageFaults) (blockData : BlockData) : Rules Signature := do
  let s ← get
  let _ ← check s.signer
  check (s.verifyAuthor blockData.author)
  let data ← safetyData faults
  check (verifyEpoch blockData.epoch data)
  check (ensure (data.lastVotedRound < blockData.round)
    (.invalidProposal (s!"Proposed round {blockData.round} is not higher than " ++
      s!"last voted round {data.lastVotedRound}")))
  let s ← get
  check (s.verifyQc blockData.quorumCert)
  let _ ← check (verifyAndUpdatePreferredRound blockData.quorumCert data)
  check (s.sign (.blockData blockData))

variable [LedgerApi]

/-- `guarded_sign_commit_vote` (350). -/
def guardedSignCommitVote (ledgerInfo : LedgerInfoWithSignatures) (newLedgerInfo : LedgerInfo) :
    Rules Signature := do
  let s ← get
  let _ ← check s.signer
  let old := ledgerInfo.ledgerInfo
  check (ensure (LedgerApi.isOrderedOnly old.commitInfo = true ∨
      old.commitInfo = newLedgerInfo.commitInfo) (.invalidOrderedLedgerInfo old))
  check (ensure (LedgerApi.matchOrderedOnly old.commitInfo newLedgerInfo.commitInfo = true)
    (.inconsistentExecutionResult old.commitInfo newLedgerInfo.commitInfo))
  let epochState ← check s.currentEpochState
  check ((ledgerInfo.verifySignatures epochState.verifier).mapError .invalidQuorumCertificate)
  check (s.sign (.ledgerInfo newLedgerInfo))

/-! ## Initialisation -/

/-- The signer that key reconciliation settles on for the new validator set. -/
def reconcileKey (s : SafetyRules) (author : Author) (epochState : EpochState) :
    Except Error ValidatorSigner :=
  match epochState.verifier.getPublicKey author with
  | none => .error (.validatorNotInSet author)
  | some expectedKey =>
    match s.validatorSigner with
    | some current =>
      if Crypto.publicKey current.privateKey = expectedKey then .ok current
      else newSigner expectedKey
    | none => newSigner expectedKey
where
  newSigner (expectedKey : PublicKey) : Except Error ValidatorSigner :=
    match s.consensusSkByPk expectedKey with
    | .ok privateKey => .ok { author, privateKey }
    | .error (.secureStorageMissingDataError e) => .error (.validatorKeyNotFound e)
    | .error e => .error e

/-- The epoch of the stored safety data is advanced to the one the proof leads to. -/
def advanceEpoch (faults : StorageFaults) (waypoint newWaypoint : Waypoint)
    (epochState : EpochState) : Rules Unit := do
  let data ← safetyData faults
  if epochState.epoch < data.epoch then
    check (.error (.waypointOutOfDate waypoint.version newWaypoint.version data.epoch
      epochState.epoch))
  else if data.epoch < epochState.epoch then
    setSafetyData faults (SafetyData.start epochState.epoch)
  else pure ()

/-- The epoch that an epoch-ending ledger info starts. -/
def startedEpoch (li : LedgerInfo) : Except Error EpochState :=
  match li.nextEpochState with
  | some epochState => .ok epochState
  | none => .error .invalidLedgerInfo

/-- The checks at the start of `guarded_initialize`: the waypoint read, the one the proof leads to,
and the epoch it starts. -/
def verifyEpochChange (s : SafetyRules) (faults : StorageFaults) (proof : EpochChangeProof) :
    Except Error (Waypoint × Waypoint × EpochState) := do
  let waypoint ← s.readWaypoint faults
  let lastLi ←
    (LedgerApi.verifyEpochChangeProof proof waypoint).mapError .invalidEpochChangeProof
  let epochState ← startedEpoch lastLi.ledgerInfo
  let newWaypoint ← (LedgerApi.newEpochBoundary lastLi.ledgerInfo).mapError .internalError
  pure (waypoint, newWaypoint, epochState)

/-- The end of `guarded_initialize`: the signer is set up for the validator set of the epoch. -/
def setUpSigner (faults : StorageFaults) (epochState : EpochState) : Rules Unit := do
  modify fun s => { s with epochState := some epochState }
  let s ← get
  let author ← check (s.readAuthor faults)
  match s.reconcileKey author epochState with
  | .ok signer => modify fun s => { s with validatorSigner := some signer }
  | .error e =>
    modify fun s => { s with validatorSigner := none }
    throw e

/-- `guarded_initialize` (236). -/
def guardedInitialize (faults : StorageFaults) (proof : EpochChangeProof) : Rules Unit := do
  let s ← get
  let (waypoint, newWaypoint, epochState) ← check (s.verifyEpochChange faults proof)
  if waypoint.version < newWaypoint.version then setWaypoint faults newWaypoint
  advanceEpoch faults waypoint newWaypoint epochState
  setUpSigner faults epochState

structure ConsensusState where
  safetyData : SafetyData
  waypoint : Waypoint
  inValidatorSet : Bool

/-- `guarded_consensus_state` (218); the author is read for the trace, where that is enabled. -/
def guardedConsensusState (faults : StorageFaults) (traced : Bool) : Rules ConsensusState := do
  let s ← get
  let _ ← check (s.readWaypoint faults)
  let _ ← safetyData faults
  let _ ← check (if traced then (s.readAuthor faults).map fun _ => () else .ok ())
  let safetyData ← safetyData faults
  let waypoint ← check (s.readWaypoint faults)
  pure { safetyData, waypoint, inValidatorSet := s.signer.isOk }

/-! ## Runs -/

/-- A call, or a restart, which keeps only the secure storage. Calls that check the time of a block
carry the reading of the clock. -/
inductive Call where
  | initializeFrom (proof : EpochChangeProof)
  | signProposal (blockData : BlockData)
  | constructAndSignVoteTwoChain (now : Nat) (proposal : VoteProposal)
      (maybeTc : Option TwoChainTimeoutCertificate)
  | signTimeoutWithQc (timeout : TwoChainTimeout) (maybeTc : Option TwoChainTimeoutCertificate)
  | constructAndSignOrderVote (proposal : OrderVoteProposal)
  | signCommitVote (ledgerInfo : LedgerInfoWithSignatures) (newLedgerInfo : LedgerInfo)
  | consensusState (traced : Bool)
  | restart

/-- What a call returns. -/
inductive Response where
  | done
  | error (e : Error)
  | signature (signature : Signature)
  | vote (vote : Vote)
  | orderVote (orderVote : OrderVote)
  | state (state : ConsensusState)

/-- `PersistentSafetyStorage::new` (`persistent_safety_storage.rs:86`) over the same secure storage,
and `SafetyRules::new`. -/
def restarted (s : SafetyRules) : SafetyRules where
  persistentStorage := { s.persistentStorage with cachedSafetyData := none }
  validatorSigner := none
  epochState := none

/-- The response of a call together with the state it leaves. -/
def respond {α : Type} (wrap : α → Response) (r : EStateM.Result Error SafetyRules α) :
    Response × SafetyRules :=
  match r with
  | .ok a s => (wrap a, s)
  | .error e s => (.error e, s)

def step (s : SafetyRules) : StorageFaults × Call → Response × SafetyRules
  | (faults, .initializeFrom proof) => respond (fun _ => .done) (guardedInitialize faults proof s)
  | (faults, .signProposal blockData) =>
    respond .signature (guardedSignProposal faults blockData s)
  | (faults, .constructAndSignVoteTwoChain now proposal maybeTc) =>
    respond .vote (guardedConstructAndSignVoteTwoChain faults now proposal maybeTc s)
  | (faults, .signTimeoutWithQc timeout maybeTc) =>
    respond .signature (guardedSignTimeoutWithQc faults timeout maybeTc s)
  | (faults, .constructAndSignOrderVote proposal) =>
    respond .orderVote (guardedConstructAndSignOrderVote faults proposal s)
  | (_, .signCommitVote ledgerInfo newLedgerInfo) =>
    respond .signature (guardedSignCommitVote ledgerInfo newLedgerInfo s)
  | (faults, .consensusState traced) => respond .state (guardedConsensusState faults traced s)
  | (_, .restart) => (.done, s.restarted)

/-- The component before its first call. The cache is warm after
`PersistentSafetyStorage::initialize` and cold after `PersistentSafetyStorage::new`. -/
def opened (enableCachedSafetyData : Bool) (store : InternalStore) (warm : Bool) : SafetyRules where
  persistentStorage :=
    { enableCachedSafetyData
      cachedSafetyData := if warm then some store.safetyData else none
      internalStore := store }
  validatorSigner := none
  epochState := none

/-- The secure storage that `PersistentSafetyStorage::initialize`
(`persistent_safety_storage.rs:36`) sets up. -/
def InternalStore.new (author : Author) (consensusKey : PrivateKey)
    (explicitKeys : List (PublicKey × PrivateKey)) (waypoint : Waypoint) : InternalStore where
  safetyData := SafetyData.start 1
  waypoint := waypoint
  ownerAccount := some author
  consensusKey := some consensusKey
  explicitKeys := explicitKeys

end SafetyRules

end Liquent
