import Liquent.ConsensusTypes.Verify

/-!
# The state of SafetyRules

The safety data that a validator keeps, the persistent storage in front of which an in-memory copy
is cached (`persistent_safety_storage.rs`, cited by line), and the `SafetyRules` component itself.

A call may find the secure storage failing: `StorageFaults` says which accesses fail and with what
error.  A failed write leaves the stored value as it was.
-/

namespace Liquent

open Misc

/-! ## Votes -/

structure Vote where
  voteData : VoteData
  author : Author
  ledgerInfo : LedgerInfo
  signature : Signature
  twoChainTimeout : Option (TwoChainTimeout × Signature)
deriving DecidableEq

namespace Vote

/-- `Vote::new_with_signature` (`vote.rs:73`). -/
def newWithSignature (voteData : VoteData) (author : Author) (ledgerInfo : LedgerInfo)
    (signature : Signature) : Vote :=
  { voteData, author, ledgerInfo, signature, twoChainTimeout := none }

/-- `epoch` (`vote.rs:116`). -/
def epoch (v : Vote) : Nat := v.voteData.proposed.epoch

/-- The round of the block that is voted for. -/
def round (v : Vote) : Nat := v.voteData.proposed.round

end Vote

structure OrderVote where
  author : Author
  ledgerInfo : LedgerInfo
  signature : Signature
deriving DecidableEq

structure VoteProposal where
  block : Block
  nextEpochState : Option EpochState
  decoupledExecution : Bool
deriving DecidableEq

structure OrderVoteProposal where
  block : Block
  blockInfo : BlockInfo
  quorumCert : QuorumCert
deriving DecidableEq

/-! ## Safety data -/

structure SafetyData where
  epoch : Nat
  lastVotedRound : Nat
  preferredRound : Nat
  oneChainRound : Nat
  lastVote : Option Vote
  highestTimeoutRound : Nat
deriving DecidableEq

/-- The safety data at the start of an epoch. -/
def SafetyData.start (epoch : Nat) : SafetyData where
  epoch := epoch
  lastVotedRound := 0
  preferredRound := 0
  oneChainRound := 0
  lastVote := none
  highestTimeoutRound := 0

namespace SafetyRules

/-- `Error` of the safety rules; `panicked` stands for a call that panics and is not a value of the
source's. -/
inductive Error where
  | incorrectEpoch (provided expected : Nat)
  | incorrectRound (round : Nat)
  | incorrectLastVotedRound (provided lastVotedRound : Nat)
  | incorrectPreferredRound (provided preferredRound : Nat)
  | invalidAccumulatorExtension (reason : String)
  | invalidEpochChangeProof (reason : String)
  | internalError (reason : String)
  | invalidLedgerInfo
  | invalidProposal (reason : String)
  | invalidQuorumCertificate (reason : String)
  | notInitialized (field : String)
  | notSafeForOrderVote (round highestTimeoutRound : Nat)
  | secureStorageMissingDataError (reason : String)
  | secureStorageUnexpectedError (reason : String)
  | serializationError (reason : String)
  | validatorKeyNotFound (reason : String)
  | validatorNotInSet (author : Author)
  | notSafeToVote (round qcRound tcRound hqcRound : Nat)
  | notSafeToTimeout (round qcRound tcRound oneChainRound : Nat)
  | invalidTimeoutCertificate (reason : String)
  | inconsistentExecutionResult (ordered executed : BlockInfo)
  | invalidOrderedLedgerInfo (li : LedgerInfo)
  | waypointOutOfDate (previous updated : Nat) (currentEpoch providedEpoch : Nat)
  | invalidTimeout (reason : String)
  | invalidOneChainQuorumCertificate (certified block : HashValue)
  | panicked (message : String)
deriving DecidableEq

/-! ## Persistent storage -/

/-- The secure storage: the values under `SAFETY_DATA`, `WAYPOINT`, `OWNER_ACCOUNT` and
`CONSENSUS_KEY`, and the keys stored under an explicit public key. -/
structure InternalStore where
  safetyData : SafetyData
  waypoint : Waypoint
  ownerAccount : Option Author
  consensusKey : Option PrivateKey
  explicitKeys : List (PublicKey × PrivateKey)
deriving DecidableEq

structure PersistentSafetyStorage where
  enableCachedSafetyData : Bool
  cachedSafetyData : Option SafetyData
  internalStore : InternalStore
deriving DecidableEq

/-- The accesses to the secure storage that fail during one call, each with the error it causes. -/
structure StorageFaults where
  readSafetyData : Option Error := none
  writeSafetyData : Option String := none
  readWaypoint : Option Error := none
  writeWaypoint : Option Error := none
  readAuthor : Option Error := none
deriving DecidableEq

end SafetyRules

structure SafetyRules where
  persistentStorage : SafetyRules.PersistentSafetyStorage
  validatorSigner : Option ValidatorSigner
  epochState : Option EpochState
deriving DecidableEq

namespace SafetyRules

/-- A call of the safety rules: it may change the state and then still fail. -/
abbrev Rules := EStateM Error SafetyRules

/-- The safety data in the secure storage. -/
def stored (s : SafetyRules) : SafetyData := s.persistentStorage.internalStore.safetyData

/-- The in-memory copy of the safety data. -/
def cached (s : SafetyRules) : Option SafetyData := s.persistentStorage.cachedSafetyData

/-- The waypoint in the secure storage. -/
def waypoint (s : SafetyRules) : Waypoint := s.persistentStorage.internalStore.waypoint

def setCached (s : SafetyRules) (data : Option SafetyData) : SafetyRules :=
  { s with persistentStorage := { s.persistentStorage with cachedSafetyData := data } }

def setStored (s : SafetyRules) (data : SafetyData) : SafetyRules :=
  { s with persistentStorage := { s.persistentStorage with
      cachedSafetyData := some data
      internalStore := { s.persistentStorage.internalStore with safetyData := data } } }

@[simp] theorem setCached_stored (s : SafetyRules) (d : Option SafetyData) :
    (s.setCached d).stored = s.stored := rfl

@[simp] theorem setCached_waypoint (s : SafetyRules) (d : Option SafetyData) :
    (s.setCached d).waypoint = s.waypoint := rfl

@[simp] theorem setStored_stored (s : SafetyRules) (d : SafetyData) :
    (s.setStored d).stored = d := rfl

@[simp] theorem setStored_waypoint (s : SafetyRules) (d : SafetyData) :
    (s.setStored d).waypoint = s.waypoint := rfl

/-- `PersistentSafetyStorage::safety_data` (129). With the cache disabled the source decodes the
stored bytes as a `Result` instead of as `SafetyData`, which never succeeds. -/
def safetyData (faults : StorageFaults) : Rules SafetyData := fun s =>
  if s.persistentStorage.enableCachedSafetyData then
    match s.cached with
    | some data => .ok data s
    | none =>
      match faults.readSafetyData with
      | some e => .error e s
      | none => .ok s.stored (s.setCached (some s.stored))
  else
    .error (faults.readSafetyData.getD (.secureStorageUnexpectedError "serialization error")) s

/-- `PersistentSafetyStorage::set_safety_data` (145): a failed write drops the cached copy. -/
def setSafetyData (faults : StorageFaults) (data : SafetyData) : Rules Unit := fun s =>
  match faults.writeSafetyData with
  | none => .ok () (s.setStored data)
  | some e => .error (.secureStorageUnexpectedError e) (s.setCached none)

/-- `PersistentSafetyStorage::waypoint` (164). -/
def readWaypoint (faults : StorageFaults) (s : SafetyRules) : Except Error Waypoint :=
  match faults.readWaypoint with
  | none => .ok s.waypoint
  | some e => .error e

/-- `PersistentSafetyStorage::set_waypoint` (169). -/
def setWaypoint (faults : StorageFaults) (waypoint : Waypoint) : Rules Unit := fun s =>
  match faults.writeWaypoint with
  | none => .ok () { s with persistentStorage := { s.persistentStorage with
      internalStore := { s.persistentStorage.internalStore with waypoint := waypoint } } }
  | some e => .error e s

/-- `PersistentSafetyStorage::author` (90). -/
def readAuthor (faults : StorageFaults) (s : SafetyRules) : Except Error Author :=
  match faults.readAuthor with
  | some e => .error e
  | none =>
    match s.persistentStorage.internalStore.ownerAccount with
    | some author => .ok author
    | none => .error (.secureStorageMissingDataError "Key not set: owner_account")

/-- `PersistentSafetyStorage::consensus_sk_by_pk` (101). -/
def consensusSkByPk [Crypto] (s : SafetyRules) (pk : PublicKey) : Except Error PrivateKey :=
  let store := s.persistentStorage.internalStore
  match (store.explicitKeys.lookup pk).or store.consensusKey with
  | none => .error (.validatorKeyNotFound "not found!")
  | some key =>
    if Crypto.publicKey key = pk then .ok key
    else .error (.secureStorageMissingDataError s!"Incorrect sk saved for {pk} the expected pk")

/-! ## The cache agrees with the storage -/

/-- Whenever the in-memory copy is present it equals the stored safety data. -/
def CacheOk (s : SafetyRules) : Prop := ∀ data, s.cached = some data → data = s.stored

/-- The state after the safety data have been read. -/
def loaded (s : SafetyRules) : SafetyRules := s.setCached (some s.stored)

@[simp] theorem loaded_loaded (s : SafetyRules) : s.loaded.loaded = s.loaded := rfl

theorem cacheOk_loaded (s : SafetyRules) : s.loaded.CacheOk := by
  intro data h
  exact (Option.some.inj h).symm

theorem cacheOk_setStored (s : SafetyRules) (data : SafetyData) : (s.setStored data).CacheOk := by
  intro data' h
  exact (Option.some.inj h).symm

theorem cacheOk_setCached_none (s : SafetyRules) : (s.setCached none).CacheOk := by
  intro data h
  cases h

theorem loaded_eq_of_cached {s : SafetyRules} {data : SafetyData} (hcache : s.CacheOk)
    (h : s.cached = some data) : s.loaded = s := by
  have hdata : data = s.stored := hcache data h
  rw [hdata] at h
  obtain ⟨⟨enable, cachedData, store⟩, signer, epoch⟩ := s
  have hcached : cachedData = some store.safetyData := h
  subst hcached
  rfl

/-- A successful read returns the stored data and leaves them in the cache. -/
theorem safetyData_ok {faults : StorageFaults} {s s' : SafetyRules} {data : SafetyData}
    (hcache : s.CacheOk) (h : safetyData faults s = .ok data s') :
    data = s.stored ∧ s' = s.loaded := by
  unfold safetyData at h
  split at h
  · split at h
    · next hcached =>
      cases h
      exact ⟨hcache _ hcached, (loaded_eq_of_cached hcache hcached).symm⟩
    · split at h
      · cases h
      · cases h
        exact ⟨rfl, rfl⟩
  · cases h

theorem safetyData_error {faults : StorageFaults} {s s' : SafetyRules} {e : Error}
    (h : safetyData faults s = .error e s') : s' = s := by
  unfold safetyData at h
  split at h
  · split at h
    · cases h
    · split at h
      · cases h
        rfl
      · cases h
  · cases h
    rfl

end SafetyRules

end Liquent
