import Mathlib.Data.Prod.Lex
import Liquent.Misc.Run
import Liquent.SafetyRules.Spec

/-!
# Runs of SafetyRules

A run is any sequence of calls with any arguments, with failing accesses to the secure storage and
with restarts.  Every step moves the stored safety data forward (`Advances`), and so does every run.
-/

namespace Liquent

open Misc

/-! ## Moving forward -/

/-- Safety data may be replaced by those of a later epoch, or of the same epoch with no round going
back. -/
def SafetyData.Le (d d' : SafetyData) : Prop :=
  d.epoch < d'.epoch ∨ (d.epoch = d'.epoch ∧ d.lastVotedRound ≤ d'.lastVotedRound ∧
      d.oneChainRound ≤ d'.oneChainRound ∧ d.preferredRound ≤ d'.preferredRound ∧
      d.highestTimeoutRound ≤ d'.highestTimeoutRound)

theorem SafetyData.Le.refl (d : SafetyData) : d.Le d := by
  unfold SafetyData.Le
  omega

theorem SafetyData.Le.trans {d₁ d₂ d₃ : SafetyData} (h : d₁.Le d₂) (h' : d₂.Le d₃) : d₁.Le d₃ := by
  unfold SafetyData.Le at *
  omega

namespace SafetyRules

/-- A step keeps a sound cache and moves the stored safety data and the waypoint forward. -/
def Advances (s s' : SafetyRules) : Prop :=
  s.CacheOk → s'.CacheOk ∧ s.stored.Le s'.stored ∧ s.waypoint.version ≤ s'.waypoint.version

instance : IsPreorder SafetyRules Advances where
  refl s hcache := ⟨hcache, SafetyData.Le.refl _, Nat.le_refl _⟩
  trans := by
    intro s₁ s₂ s₃ h h' hcache
    obtain ⟨hcache₂, hle, hway⟩ := h hcache
    obtain ⟨hcache₃, hle', hway'⟩ := h' hcache₂
    exact ⟨hcache₃, hle.trans hle', Nat.le_trans hway hway'⟩

variable {s s' : SafetyRules}

theorem Reads.advances (h : Reads s s') : Advances s s' := by
  intro hcache
  refine ⟨h.cacheOk hcache, ?_, ?_⟩
  · rw [h.stored]
    exact SafetyData.Le.refl _
  · rw [h.waypoint]

theorem advances_setCached_none {s₁ : SafetyRules} (h : Reads s s₁) :
    Advances s (s₁.setCached none) := by
  intro hcache
  refine ⟨cacheOk_setCached_none s₁, ?_, ?_⟩
  · rw [setCached_stored, h.stored]
    exact SafetyData.Le.refl _
  · rw [setCached_waypoint, h.waypoint]

variable {data : SafetyData}

theorem advances_setStored {s₁ : SafetyRules} (h : Reads s s₁)
    (hle : s.stored.Le data) : Advances s (s₁.setStored data) := by
  intro hcache
  refine ⟨cacheOk_setStored s₁ data, hle, ?_⟩
  rw [setStored_waypoint, h.waypoint]

variable [Crypto] {maybeTc : Option TwoChainTimeoutCertificate} {signer : ValidatorSigner}
  {es : EpochState}

theorem FreshVote.le
    {proposal : VoteProposal} {vote : Vote} (h : FreshVote s es signer proposal maybeTc vote data) :
    s.stored.Le data := by
  rw [h.data_eq]
  refine .inr ⟨rfl, Nat.le_of_lt h.round_gt, ?_, ?_, Nat.le_refl _⟩
  · exact Nat.le_max_left _ _
  · exact Nat.le_max_left _ _

variable {timeout : TwoChainTimeout}

theorem FreshTimeout.le (h : FreshTimeout s es timeout maybeTc data) : s.stored.Le data := by
  rw [h.data_eq]
  exact .inr ⟨rfl, h.round_ge, Nat.le_refl _, Nat.le_refl _, Nat.le_max_left _ _⟩

variable {proposal : OrderVoteProposal}

theorem FreshOrderVote.le {orderVote : OrderVote}
    (h : FreshOrderVote s es signer proposal orderVote data) : s.stored.Le data := by
  rw [h.data_eq]
  exact .inr ⟨rfl, Nat.le_refl _, Nat.le_max_left _ _, Nat.le_max_left _ _, Nat.le_refl _⟩

theorem VoteCall.advances {proposal : VoteProposal} {r : EStateM.Result Error SafetyRules Vote}
    (h : VoteCall s proposal maybeTc r) : Advances s (finalState r) := by
  cases h with
  | stopped reads | repeated reads => exact reads.advances
  | writeFailed reads => exact advances_setCached_none reads
  | issued reads fresh => exact advances_setStored reads fresh.le

theorem TimeoutCall.advances {r : EStateM.Result Error SafetyRules Signature}
    (h : TimeoutCall s timeout maybeTc r) : Advances s (finalState r) := by
  cases h with
  | stopped reads => exact reads.advances
  | writeFailed reads => exact advances_setCached_none reads
  | signFailed reads fresh | issued reads fresh => exact advances_setStored reads fresh.le

theorem OrderVoteCall.advances
    {r : EStateM.Result Error SafetyRules OrderVote} (h : OrderVoteCall s proposal r) :
    Advances s (finalState r) := by
  cases h with
  | stopped reads => exact reads.advances
  | writeFailed reads => exact advances_setCached_none reads
  | issued reads fresh => exact advances_setStored reads fresh.le

/-! ## Initialisation and restarts -/

/-- The stored safety data stay, or are replaced by those of the start of a later epoch. -/
def Restarts (s s' : SafetyRules) : Prop :=
  s.CacheOk → s'.CacheOk ∧
    (s'.stored = s.stored ∨ ∃ e, s.stored.epoch < e ∧ s'.stored = SafetyData.start e) ∧
    s.waypoint.version ≤ s'.waypoint.version

instance : IsPreorder SafetyRules Restarts where
  refl s hcache := ⟨hcache, .inl rfl, Nat.le_refl _⟩
  trans := by
    intro s₁ s₂ s₃ h h' hcache
    obtain ⟨hcache₂, hstored, hway⟩ := h hcache
    obtain ⟨hcache₃, hstored', hway'⟩ := h' hcache₂
    refine ⟨hcache₃, ?_, Nat.le_trans hway hway'⟩
    rcases hstored' with hsame | ⟨e', he', hstart'⟩
    · rw [hsame]
      exact hstored
    · right
      refine ⟨e', ?_, hstart'⟩
      rcases hstored with hsame | ⟨e, he, hstart⟩
      · rwa [hsame] at he'
      · rw [hstart] at he'
        exact Nat.lt_trans he he'

section

omit [Crypto]

theorem Restarts.advances (h : Restarts s s') : Advances s s' := by
  intro hcache
  obtain ⟨hcache', hstored, hway⟩ := h hcache
  refine ⟨hcache', ?_, hway⟩
  rcases hstored with hsame | ⟨e, he, hstart⟩
  · rw [hsame]
    exact SafetyData.Le.refl _
  · rw [hstart]
    exact .inl he

theorem Reads.restarts (h : Reads s s') : Restarts s s' := by
  intro hcache
  exact ⟨h.cacheOk hcache, .inl h.stored, Nat.le_of_eq (congrArg _ h.waypoint.symm)⟩

theorem restarts_restarted (s : SafetyRules) : Restarts s s.restarted := by
  intro _
  refine ⟨?_, .inl rfl, Nat.le_refl _⟩
  intro data h
  cases h

theorem moves_advanceEpoch (faults : StorageFaults) (waypoint newWaypoint : Waypoint)
    (epochState : EpochState) :
    Moves Restarts (advanceEpoch faults waypoint newWaypoint epochState) := by
  intro s hcache
  unfold advanceEpoch
  cases hread : safetyData faults s with
  | error e s₁ =>
    rw [bind_error_of hread, safetyData_error hread]
    exact refl_of Restarts s hcache
  | ok data s₁ =>
    rw [bind_of_ok hread]
    obtain ⟨rfl, rfl⟩ := safetyData_ok hcache hread
    have hloaded : Restarts s s.loaded := Reads.restarts (.inr rfl)
    split
    · exact hloaded hcache
    · split
      · next hlt =>
        unfold setSafetyData
        split
        · exact ⟨cacheOk_setStored _ _, .inr ⟨_, hlt, rfl⟩, Nat.le_refl _⟩
        · exact ⟨cacheOk_setCached_none _, .inl rfl, Nat.le_refl _⟩
      · exact hloaded hcache

end

theorem moves_setUpSigner (faults : StorageFaults) (epochState : EpochState) :
    Moves Restarts (setUpSigner faults epochState) := by
  have hmodify (f : SafetyRules → SafetyRules)
      (hf : ∀ s, (f s).persistentStorage = s.persistentStorage) :
      Moves Restarts (modify f : Rules PUnit) := by
    refine moves_modify fun s hcache => ?_
    have hstored : (f s).stored = s.stored := congrArg (·.internalStore.safetyData) (hf s)
    have hcached : (f s).cached = s.cached := congrArg (·.cachedSafetyData) (hf s)
    have hway : (f s).waypoint = s.waypoint := congrArg (·.internalStore.waypoint) (hf s)
    refine ⟨?_, .inl hstored, Nat.le_of_eq (congrArg _ hway.symm)⟩
    intro data h
    rw [hstored]
    exact hcache data (hcached ▸ h)
  refine (hmodify (fun s => { s with epochState := some epochState }) fun _ => rfl).bind fun _ => ?_
  refine moves_get.bind fun s => (moves_check _).bind fun author => ?_
  split
  · next signer _ => exact hmodify (fun s => { s with validatorSigner := some signer }) fun _ => rfl
  · refine (hmodify (fun s => { s with validatorSigner := none }) fun _ => rfl).bind fun _ => ?_
    exact moves_throw _

variable [LedgerApi] {faults : StorageFaults} {waypoint newWaypoint : Waypoint}
  {proof : EpochChangeProof} {epochState : EpochState}

omit [Crypto] in
theorem verifyEpochChange_waypoint
    (h : s.verifyEpochChange faults proof = .ok (waypoint, newWaypoint, epochState)) :
    waypoint = s.waypoint := by
  simp only [verifyEpochChange, except_bind_ok_iff, except_pure_ok_iff, Prod.mk.injEq] at h
  obtain ⟨read, hread, _, -, _, -, _, -, rfl, -, -⟩ := h
  unfold readWaypoint at hread
  split at hread
  · exact (Except.ok.inj hread).symm
  · cases hread

omit [Crypto] [LedgerApi] in
theorem restarts_setWaypoint (hle : s.waypoint.version ≤ waypoint.version) :
    Restarts s (finalState (setWaypoint faults waypoint s)) := by
  intro hcache
  unfold setWaypoint
  split
  · exact ⟨hcache, .inl rfl, hle⟩
  · exact ⟨hcache, .inl rfl, Nat.le_refl _⟩

/-- The calls of `guarded_initialize` after its checks. -/
theorem guardedInitialize_eq
    (h : s.verifyEpochChange faults proof = .ok (waypoint, newWaypoint, epochState)) :
    guardedInitialize faults proof s =
      ((if waypoint.version < newWaypoint.version then setWaypoint faults newWaypoint
        else pure ()) >>= fun _ => do
          advanceEpoch faults waypoint newWaypoint epochState
          setUpSigner faults epochState) s := by
  simp only [guardedInitialize, bind, EStateM.bind, get_eq, check, h]
  split <;> rfl

theorem restarts_guardedInitialize (faults : StorageFaults) (proof : EpochChangeProof)
    (s : SafetyRules) : Restarts s (finalState (guardedInitialize faults proof s)) := by
  cases hverify : s.verifyEpochChange faults proof with
  | error e =>
    have hrun : guardedInitialize faults proof s = .error e s := by
      simp [guardedInitialize, bind, EStateM.bind, get_eq, check, hverify]
    rw [hrun]
    exact refl_of Restarts s
  | ok checked =>
    obtain ⟨waypoint, newWaypoint, epochState⟩ := checked
    rw [guardedInitialize_eq hverify]
    have hrest := (moves_advanceEpoch faults waypoint newWaypoint epochState).bind
      fun _ => moves_setUpSigner faults epochState
    split
    · next hlt =>
      rw [verifyEpochChange_waypoint hverify] at hlt
      have hset : Restarts s (finalState (setWaypoint faults newWaypoint s)) :=
        restarts_setWaypoint (Nat.le_of_lt hlt)
      cases hwrite : setWaypoint faults newWaypoint s with
      | error e s₁ =>
        rw [bind_error_of hwrite]
        rwa [hwrite] at hset
      | ok u s₁ =>
        rw [bind_of_ok hwrite]
        rw [hwrite] at hset
        exact trans_of Restarts hset (hrest s₁)
    · exact hrest s

/-! ## Every step moves forward -/

omit [Crypto] [LedgerApi] in
theorem respond_snd {α : Type} (wrap : α → Response) (r : EStateM.Result Error SafetyRules α) :
    (respond wrap r).2 = finalState r := by
  cases r <;> rfl

theorem step_advances (s : SafetyRules) (input : StorageFaults × Call) :
    Advances s (s.step input).2 := by
  intro hcache
  obtain ⟨faults, call⟩ := input
  cases call with
  | initializeFrom proof =>
    rw [step, respond_snd]
    exact (restarts_guardedInitialize faults proof s).advances hcache
  | signProposal blockData =>
    rw [step, respond_snd]
    exact Reads.advances (moves_guardedSignProposal faults blockData s) hcache
  | constructAndSignVoteTwoChain now proposal maybeTc =>
    rw [step, respond_snd]
    exact (voteCall hcache faults now proposal maybeTc).advances hcache
  | signTimeoutWithQc timeout maybeTc =>
    rw [step, respond_snd]
    exact (timeoutCall hcache faults timeout maybeTc).advances hcache
  | constructAndSignOrderVote proposal =>
    rw [step, respond_snd]
    exact (orderVoteCall hcache faults proposal).advances hcache
  | signCommitVote ledgerInfo newLedgerInfo =>
    rw [step, respond_snd]
    exact Reads.advances (moves_guardedSignCommitVote ledgerInfo newLedgerInfo s) hcache
  | consensusState traced =>
    rw [step, respond_snd]
    exact Reads.advances (moves_guardedConsensusState faults traced s) hcache
  | restart => exact (restarts_restarted s).advances hcache

omit [Crypto] [LedgerApi] in
theorem cacheOk_opened (enable : Bool) (store : InternalStore) (warm : Bool) :
    (opened enable store warm).CacheOk := by
  intro data h
  cases warm with
  | true => exact (Option.some.inj h).symm
  | false => cases h

/-- Whatever the calls, the component moves forward from any reachable state to any later one. -/
theorem run_advances (inputs : List (StorageFaults × Call)) (s : SafetyRules) :
    Advances s (run step s inputs).2 :=
  run_invariant (fun s' input h => trans_of Advances h (step_advances s' input)) inputs
    (refl_of Advances s)

omit [LedgerApi] in
/-- A voting call that fails leaves the stored safety data unchanged, even if its write failed. -/
theorem VoteCall.stored_of_error {proposal : VoteProposal} {e : Error}
    (h : VoteCall s proposal maybeTc (.error e s')) : s'.stored = s.stored := by
  cases h with
  | stopped reads | writeFailed reads => exact reads.stored

omit [LedgerApi] in
theorem OrderVoteCall.stored_of_error
    {e : Error} (h : OrderVoteCall s proposal (.error e s')) : s'.stored = s.stored := by
  cases h with
  | stopped reads | writeFailed reads => exact reads.stored

/-- The stored rounds compared epoch first, each on its own. -/
structure NoStepBack (d d' : SafetyData) : Prop where
  lastVotedRound : toLex (d.epoch, d.lastVotedRound) ≤ toLex (d'.epoch, d'.lastVotedRound)
  oneChainRound : toLex (d.epoch, d.oneChainRound) ≤ toLex (d'.epoch, d'.oneChainRound)
  preferredRound : toLex (d.epoch, d.preferredRound) ≤ toLex (d'.epoch, d'.preferredRound)
  highestTimeoutRound :
    toLex (d.epoch, d.highestTimeoutRound) ≤ toLex (d'.epoch, d'.highestTimeoutRound)

omit [Crypto] [LedgerApi] in
theorem noStepBack_of_le {d d' : SafetyData} (h : d.Le d') : NoStepBack d d' := by
  unfold SafetyData.Le at h
  constructor <;> rw [Prod.Lex.toLex_le_toLex] <;> omega

/-- What a failing vote, order-vote or timeout call leaves in the storage.  A timeout call writes
before it signs, so its failures count up to the write. -/
structure FailuresKeepStored (s : SafetyRules) : Prop where
  vote : ∀ faults now proposal maybeTc e s',
    guardedConstructAndSignVoteTwoChain faults now proposal maybeTc s = .error e s' →
      s'.stored = s.stored
  orderVote : ∀ faults proposal e s',
    guardedConstructAndSignOrderVote faults proposal s = .error e s' → s'.stored = s.stored
  timeout : ∀ faults timeout maybeTc e s',
    prepareTimeout faults timeout maybeTc s = .error e s' →
      guardedSignTimeoutWithQc faults timeout maybeTc s = .error e s' ∧ s'.stored = s.stored
  timeoutWrite : ∀ faults timeout maybeTc e, faults.writeSafetyData = some e →
    (finalState (guardedSignTimeoutWithQc faults timeout maybeTc s)).stored = s.stored

omit [LedgerApi] in
theorem failuresKeepStored (hcache : s.CacheOk) : FailuresKeepStored s where
  vote := by
    intro faults now proposal maybeTc e s' h
    have hcall := voteCall hcache faults now proposal maybeTc
    rw [h] at hcall
    exact hcall.stored_of_error
  orderVote := by
    intro faults proposal e s' h
    have hcall := orderVoteCall hcache faults proposal
    rw [h] at hcall
    exact hcall.stored_of_error
  timeout := by
    intro faults timeout maybeTc e s' h
    refine ⟨?_, ((moves_prepareTimeout faults timeout maybeTc).of_error h).stored⟩
    rw [guardedSignTimeoutWithQc, bind_error_of h]
  timeoutWrite := by
    intro faults timeout maybeTc e hwrite
    have hmoves := moves_prepareTimeout faults timeout maybeTc
    cases hprep : prepareTimeout faults timeout maybeTc s with
    | error e' s₁ =>
      rw [guardedSignTimeoutWithQc, bind_error_of hprep]
      exact (hmoves.of_error hprep).stored
    | ok data s₁ =>
      rw [guardedSignTimeoutWithQc, bind_of_ok hprep]
      simp only [setSafetyData, hwrite, bind, EStateM.bind, finalState_error, setCached_stored]
      exact (hmoves.of_ok hprep).stored

/-- In every run over any secure storage no stored round goes back, epoch first; nor does the
waypoint; a call that fails before its write changes nothing that is stored; and a cached copy of
the safety data equals the stored one. -/
theorem safetyData_only_moves_forward (enable : Bool) (store : InternalStore) (warm : Bool)
    (before after : List (StorageFaults × Call)) :
    let s := (run step (opened enable store warm) before).2
    let s' := (run step (opened enable store warm) (before ++ after)).2
    NoStepBack s.stored s'.stored ∧ s.waypoint.version ≤ s'.waypoint.version ∧
      FailuresKeepStored s ∧ s.CacheOk := by
  intro s s'
  have hcache : s.CacheOk :=
    (run_advances before _ (cacheOk_opened enable store warm)).1
  have hlater : s' = (run step s after).2 := by
    simp only [s', s, run_append]
  obtain ⟨-, hle, hway⟩ := run_advances after s hcache
  rw [hlater]
  exact ⟨noStepBack_of_le hle, hway, failuresKeepStored hcache, hcache⟩

end SafetyRules

end Liquent
