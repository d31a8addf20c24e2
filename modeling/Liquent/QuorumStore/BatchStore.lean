import Liquent.QuorumStore.Types
import Liquent.Misc.Run

/-!
# The batch store

`BatchStore` of `batch_store.rs` (cited by line): a cache of batches by digest in front of the
quorum store database, which is keyed by epoch and digest.  The cache keeps the payload of a batch
as long as the quota of its author lasts, and drops an entry when it expires; nothing is deleted
from the database.

Calls run concurrently.  A section is what a call does under one lock of the cache, of the quotas or
of the expirations, or one access to the database; a call keeps its place between its sections.  The
requests of one call of `persist` are handled in parallel, so each of them is a call of its own
here.  Subscribers are left out: nothing that is read here depends on them.
-/

namespace Liquent

open Misc

/-! ## Quotas -/

/-- How an operation on the store fails: with an error for its caller, or with a panic. -/
inductive StoreFault where
  | error (message : String)
  | panic (message : String)
deriving DecidableEq

structure QuotaManager where
  memoryBalance : Nat
  dbBalance : Nat
  batchBalance : Nat
  memoryQuota : Nat
  dbQuota : Nat
  batchQuota : Nat
deriving DecidableEq

namespace QuotaManager

/-- `new` (50). -/
def new (dbQuota memoryQuota batchQuota : Nat) : Except StoreFault QuotaManager := do
  ensure (memoryQuota ≤ dbQuota) (.panic "assertion failed: db_quota >= memory_quota")
  pure ⟨memoryQuota, dbQuota, batchQuota, memoryQuota, dbQuota, batchQuota⟩

/-- `update_quota` (62): whether the payload may stay in memory. -/
def updateQuota (q : QuotaManager) (numBytes : Nat) :
    Except StoreFault StorageMode × QuotaManager :=
  if q.batchBalance = 0 then (.error (.error "Batch quota exceeded "), q)
  else if numBytes ≤ q.dbBalance then
    let charged := { q with
      batchBalance := q.batchBalance - 1
      dbBalance := q.dbBalance - numBytes }
    if numBytes ≤ q.memoryBalance then
      (.ok .memoryAndPersisted, { charged with memoryBalance := q.memoryBalance - numBytes })
    else (.ok .persistedOnly, charged)
  else (.error (.error "Storage quota exceeded "), q)

/-- `free_quota` (95); what was given back before an assertion fails stays given back. -/
def freeQuota (q : QuotaManager) (numBytes : Nat) (storageMode : StorageMode) :
    Except StoreFault Unit × QuotaManager :=
  if q.batchQuota < q.batchBalance + 1 then
    (.error (.panic "Balance + to_free more than Batch quota"), q)
  else
    let q := { q with batchBalance := q.batchBalance + 1 }
    if q.dbQuota < q.dbBalance + numBytes then
      (.error (.panic "Balance + to_free more than DB quota"), q)
    else
      let q := { q with dbBalance := q.dbBalance + numBytes }
      match storageMode with
      | .persistedOnly => (.ok (), q)
      | .memoryAndPersisted =>
        if q.memoryQuota < q.memoryBalance + numBytes then
          (.error (.panic "Balance + to_free more than Memory quota"), q)
        else (.ok (), { q with memoryBalance := q.memoryBalance + numBytes })

end QuotaManager

/-! ## Sections -/

/-- `value_to_be_stored` of `insert_to_cache`. -/
def PersistedValue.toBeStored (value : PersistedValue) : StorageMode → PersistedValue
  | .persistedOnly => value.removePayload
  | .memoryAndPersisted => value

/-- A batch that has passed `Batch::verify`. -/
structure VerifiedBatch [Crypto] [BatchApi] where
  batch : Batch
  verified : batch.verify = .ok ()

structure BatchStore where
  lastCertifiedTime : Nat
  dbCache : Table HashValue PersistedValue
  peerQuota : Table Author QuotaManager
  /-- `TimeExpirations`, as a bag. -/
  expirations : List (Nat × HashValue)
  db : QuorumStoreDb
  memoryQuota : Nat
  dbQuota : Nat
  batchQuota : Nat
  validatorSigner : ValidatorSigner

namespace BatchStore

variable (s : BatchStore)

/-- `new` (126). -/
def new (lastCertifiedTime : Nat) (db : QuorumStoreDb) (memoryQuota dbQuota batchQuota : Nat)
    (validatorSigner : ValidatorSigner) : BatchStore :=
  ⟨lastCertifiedTime, [], [], [], db, memoryQuota, dbQuota, batchQuota, validatorSigner⟩

/-- `free_quota` (193). -/
def freeQuota (value : PersistedValue) : Except StoreFault Unit × BatchStore :=
  match s.peerQuota.get value.info.author with
  | none => (.error (.panic "No QuotaManager for batch author"), s)
  | some quotaManager =>
    let (result, freed) := quotaManager.freeQuota value.info.numBytes value.payloadStorageMode
    (result, { s with peerQuota := s.peerQuota.put value.info.author freed })

/-- The value goes into the cache, without its payload when the memory quota is used up, and what it
replaces is given back. When a quota is exceeded, a record of the author has been made. -/
def replaceEntry (value : PersistedValue) : Except StoreFault Unit × BatchStore :=
  match QuotaManager.new s.dbQuota s.memoryQuota s.batchQuota with
  | .error fault => (.error fault, s)
  | .ok fresh =>
    match ((s.peerQuota.get value.info.author).getD fresh).updateQuota value.info.numBytes with
    | (.error fault, quotaManager) =>
      (.error fault, { s with peerQuota := s.peerQuota.put value.info.author quotaManager })
    | (.ok mode, charged) =>
      let stored := { s with
        peerQuota := s.peerQuota.put value.info.author charged
        dbCache := s.dbCache.put value.info.digest (value.toBeStored mode) }
      match s.dbCache.get value.info.digest with
      | some prevValue => stored.freeQuota prevValue
      | none => (.ok (), stored)

/-- The section of `insert_to_cache` (207) under the lock of the cache entry: whether the value is
new. -/
def insertToCache (value : PersistedValue) : Except StoreFault Bool × BatchStore :=
  match s.dbCache.get value.info.digest with
  | some entry =>
    if value.info.expiration ≤ entry.info.expiration then (.ok false, s)
    else (s.replaceEntry value).map (·.map fun _ => true) id
  | none => (s.replaceEntry value).map (·.map fun _ => true) id

/-- The section of `clear_expired_payload` for one digest. -/
def clearExpired (certifiedTime : Nat) (digest : HashValue) : Except StoreFault Unit × BatchStore :=
  match s.dbCache.get digest with
  | none => (.error (.panic "Expired entry not in cache"), s)
  | some entry =>
    if entry.info.expiration ≤ certifiedTime then
      { s with dbCache := s.dbCache.retain (· ≠ digest) }.freeQuota entry
    else (.ok (), s)

end BatchStore

/-- How far a request has come in `persist_inner`. -/
inductive PersistStage where
  /-- It has not expired when `save` reads the certified time. -/
  | unexpired
  /-- It is in the cache. -/
  | cached
  /-- Its expiration is noted. -/
  | noted
deriving DecidableEq

/-- A call under way. -/
inductive StoreCall where
  | persist (value : PersistedValue) (stage : PersistStage)
  /-- `get_batch_from_local` has not found the payload in the cache; `signed` says whether a signed
  info had been returned for the key when it started. -/
  | getBatch (key : BatchKey) (signed : Bool)
  /-- `update_certified_timestamp` has moved the time. -/
  | expire (certifiedTime : Nat)
  /-- The digests that `clear_expired_payload` has still to look at, in any order. -/
  | clear (certifiedTime : Nat) (digests : List HashValue)
deriving DecidableEq

/-- What a call of `get_batch_from_local` returned, and whether a signed info had been returned for
its key before. -/
structure LocalAnswer where
  key : BatchKey
  signed : Bool
  value : Option PersistedValue
deriving DecidableEq

/-- The store with the calls under way, the infos that have been returned signed and the answers of
`get_batch_from_local`; a panic stops everything. -/
structure BatchStoreRun where
  store : BatchStore
  calls : Table Nat StoreCall := []
  signedInfos : List BatchInfo := []
  answers : List LocalAnswer := []
  stopped : Bool := false

inductive StoreSection [Crypto] [BatchApi] where
  | persist (call : Nat) (batch : VerifiedBatch)
  | getBatch (call : Nat) (key : BatchKey)
  | updateCertifiedTimestamp (call : Nat) (certifiedTime : Nat)
  | resume (call : Nat)
  | clearDigest (call : Nat) (digest : HashValue)

namespace BatchStoreRun

section

variable (r : BatchStoreRun)

def finish (call : Nat) : BatchStoreRun := { r with calls := r.calls.retain (· ≠ call) }

def setCall (call : Nat) (c : StoreCall) : BatchStoreRun := { r with calls := r.calls.put call c }

/-- A call of `get_batch_from_local` returns. -/
def answer (key : BatchKey) (signed : Bool) (value : Option PersistedValue) : BatchStoreRun :=
  { r with answers := r.answers ++ [⟨key, signed, value⟩] }

/-- Whether a signed info has been returned for the key. -/
def isSigned (key : BatchKey) : Bool := r.signedInfos.any (·.key = key)

/-- The first section of `get_batch_from_local` (386): the cache. -/
def lookUp (call : Nat) (key : BatchKey) : BatchStoreRun :=
  match r.store.dbCache.get key.digest with
  | some value =>
    match value.payloadStorageMode with
    | .persistedOnly => r.setCall call (.getBatch key (r.isSigned key))
    | .memoryAndPersisted => r.answer key (r.isSigned key) (some value)
  | none => r.setCall call (.getBatch key (r.isSigned key))

/-- `update_certified_timestamp` (348) up to the assertion. -/
def moveTime (call certifiedTime : Nat) : BatchStoreRun :=
  if r.store.lastCertifiedTime ≤ certifiedTime then
    { r with store := { r.store with lastCertifiedTime := certifiedTime } }.setCall call
      (.expire certifiedTime)
  else { r with stopped := true }

/-- The section for one of the digests that have expired. -/
def clearDigest (call certifiedTime : Nat) (digests : List HashValue) (digest : HashValue) :
    BatchStoreRun :=
  if digest ∈ digests then
    match r.store.clearExpired certifiedTime digest with
    | (.ok _, store) =>
      match digests.erase digest with
      | [] => { r with store }.finish call
      | rest => { r with store }.setCall call (.clear certifiedTime rest)
    | (.error _, _) => { r with stopped := true }
  else r

end

section

variable [Crypto] (r : BatchStoreRun)

/-- `SignedBatchInfo::new(..).ok()`, which ends the handling of a request. -/
def sign (call : Nat) (info : BatchInfo) : BatchStoreRun :=
  match Crypto.sign r.store.validatorSigner (.batchInfo info) with
  | .ok _ => { r with signedInfos := r.signedInfos ++ [info] }.finish call
  | .error _ => r.finish call

/-- The next section of a request. -/
def continuePersist (call : Nat) (value : PersistedValue) : PersistStage → BatchStoreRun
  | .unexpired =>
    match r.store.insertToCache value with
    | (.ok true, store) => { r with store }.setCall call (.persist value .cached)
    | (.ok false, store) => { r with store }.sign call value.info
    | (.error (.error _), store) => { r with store }.finish call
    | (.error (.panic _), _) => { r with stopped := true }
  | .cached =>
    let expirations := (value.info.expiration, value.info.digest) :: r.store.expirations
    { r with store := { r.store with expirations } }.setCall call (.persist value .noted)
  | .noted =>
    { r with store := { r.store with db := r.store.db.saveBatch value } }.sign call value.info

/-- The next section of a call. -/
def resume (call : Nat) : StoreCall → BatchStoreRun
  | .persist value stage => r.continuePersist call value stage
  | .getBatch key signed => (r.answer key signed (r.store.db.getBatch key)).finish call
  | .expire certifiedTime =>
    let expired := r.store.expirations.filter fun e => e.1 ≤ certifiedTime
    let expirations := r.store.expirations.filter fun e => certifiedTime < e.1
    { r with store := { r.store with expirations } }.setCall call
      (.clear certifiedTime (expired.map Prod.snd).dedup)
  | .clear _ [] => r.finish call
  | .clear _ (_ :: _) => r

end

section

variable [Crypto] [BatchApi] (r : BatchStoreRun)

/-- One section.  A call number that is in use, or is not, is passed over. -/
def step (s : StoreSection) : Unit × BatchStoreRun :=
  if r.stopped then ((), r)
  else
    match s with
    | .persist call batch =>
      let value := batch.batch.toPersistedValue
      if (r.calls.get call).isSome then ((), r)
      else if r.store.lastCertifiedTime < value.info.expiration then
        ((), r.setCall call (.persist value .unexpired))
      else ((), r)
    | .getBatch call key =>
      if (r.calls.get call).isSome then ((), r) else ((), r.lookUp call key)
    | .updateCertifiedTimestamp call certifiedTime =>
      if (r.calls.get call).isSome then ((), r) else ((), r.moveTime call certifiedTime)
    | .resume call =>
      match r.calls.get call with
      | some c => ((), r.resume call c)
      | none => ((), r)
    | .clearDigest call digest =>
      match r.calls.get call with
      | some (.clear certifiedTime digests) =>
        ((), r.clearDigest call certifiedTime digests digest)
      | _ => ((), r)

end

end BatchStoreRun

end Liquent
