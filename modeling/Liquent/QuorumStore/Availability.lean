import Liquent.Misc.Lists
import Liquent.QuorumStore.BatchStore

/-!
# Signed batches are available

Once `persist` has returned a signed info, the batch can be read locally under the key of the info,
whatever the order of the sections, provided that each request that is signed because its digest is
already in the cache finds there an entry of its own epoch that has been written to the database.
The cache is keyed by digest alone and is filled before the database is written, so neither comes
for free.
-/

namespace Liquent

open Misc

/-! ## What the operations do to the cache and the database -/

namespace BatchStore

variable {s s' : BatchStore} {value : PersistedValue}

/-- `free_quota` leaves the cache and the database, and it fails with a panic only. -/
theorem freeQuota_frame (s : BatchStore) (value : PersistedValue) :
    (s.freeQuota value).2.dbCache = s.dbCache ∧ (s.freeQuota value).2.db = s.db ∧
      ∀ fault, (s.freeQuota value).1 = .error fault → ∃ message, fault = .panic message := by
  unfold freeQuota
  cases s.peerQuota.get value.info.author with
  | none => exact ⟨rfl, rfl, fun fault heq => ⟨_, (Except.error.inj heq).symm⟩⟩
  | some quotaManager =>
    refine ⟨rfl, rfl, fun fault heq => ?_⟩
    cases fault with
    | panic message => exact ⟨message, rfl⟩
    | error message =>
      simp only [QuotaManager.freeQuota] at heq
      generalize value.payloadStorageMode = mode at heq
      cases mode with
      | persistedOnly | memoryAndPersisted => split_ifs at heq <;> cases heq

/-- What an insertion does to the cache and the database. -/
inductive Inserts (s : BatchStore) (value : PersistedValue) :
    Except StoreFault Bool × BatchStore → Prop
  /-- The value is put into the cache, with or without its payload. -/
  | new {s' : BatchStore} (db : s'.db = s.db) (v : PersistedValue)
    (stored : v = value ∨ v = value.removePayload)
    (cache : s'.dbCache = s.dbCache.put value.info.digest v) : Inserts s value (.ok true, s')
  /-- The cache holds the digest with at least the expiration of the value. -/
  | old (entry : PersistedValue) (found : s.dbCache.get value.info.digest = some entry)
    (expiration : value.info.expiration ≤ entry.info.expiration) : Inserts s value (.ok false, s)
  /-- A quota is exceeded. -/
  | exceeded {s' : BatchStore} {message : String} (db : s'.db = s.db)
    (cache : s'.dbCache = s.dbCache) : Inserts s value (.error (.error message), s')
  | panic {s' : BatchStore} {message : String} : Inserts s value (.error (.panic message), s')

theorem replaceEntry_inserts (s : BatchStore) (value : PersistedValue) :
    Inserts s value ((s.replaceEntry value).map (·.map fun _ => true) id) := by
  have hfault (fault : StoreFault) (peerQuota : Table Author QuotaManager) :
      Inserts s value (.error fault, { s with peerQuota }) := by
    cases fault with
    | error message => exact .exceeded rfl rfl
    | panic message => exact .panic
  unfold replaceEntry
  cases QuotaManager.new s.dbQuota s.memoryQuota s.batchQuota with
  | error fault => exact hfault fault s.peerQuota
  | ok fresh =>
    dsimp only
    split
    · exact hfault _ _
    · rename_i mode charged _
      have hv : value.toBeStored mode = value ∨ value.toBeStored mode = value.removePayload := by
        cases mode with
        | persistedOnly => exact .inr rfl
        | memoryAndPersisted => exact .inl rfl
      cases s.dbCache.get value.info.digest with
      | none => exact .new rfl _ hv rfl
      | some prevValue =>
        obtain ⟨hcache, hdb, hpanic⟩ := freeQuota_frame { s with
          peerQuota := s.peerQuota.put value.info.author charged
          dbCache := s.dbCache.put value.info.digest (value.toBeStored mode) } prevValue
        dsimp only
        generalize freeQuota _ prevValue = freed at hcache hdb hpanic ⊢
        obtain ⟨result, s'⟩ := freed
        cases result with
        | ok _ => exact .new hdb _ hv hcache
        | error fault =>
          obtain ⟨message, rfl⟩ := hpanic fault rfl
          exact .panic

theorem insertToCache_inserts (s : BatchStore) (value : PersistedValue) :
    Inserts s value (s.insertToCache value) := by
  unfold insertToCache
  cases hentry : s.dbCache.get value.info.digest with
  | none => exact replaceEntry_inserts s value
  | some entry =>
    dsimp only
    split_ifs with hexp
    · exact .old entry hentry hexp
    · exact replaceEntry_inserts s value

/-- Clearing a digest leaves the other entries of the cache, and all of the database. -/
theorem clearExpired_frame (s : BatchStore) (certifiedTime : Nat) (digest : HashValue) :
    (s.clearExpired certifiedTime digest).2.db = s.db ∧
      ∀ d v, (s.clearExpired certifiedTime digest).2.dbCache.get d = some v →
        s.dbCache.get d = some v := by
  unfold clearExpired
  cases s.dbCache.get digest with
  | none => exact ⟨rfl, fun _ _ hd => hd⟩
  | some entry =>
    dsimp only
    split_ifs
    · obtain ⟨hcache, hdb, -⟩ := freeQuota_frame
        { s with dbCache := s.dbCache.retain (· ≠ digest) } entry
      rw [hcache]
      exact ⟨hdb, fun _ _ => Table.of_get_retain (p := (· ≠ digest))⟩
    · exact ⟨rfl, fun _ _ hd => hd⟩

end BatchStore

/-! ## The property and its condition -/

/-- The value has its payload, and the payload hashes to the digest. -/
def PersistedValue.HasPayload [Crypto] (value : PersistedValue) (digest : HashValue) : Prop :=
  ∃ txns, value.maybePayload = some txns ∧ Crypto.hashBatchPayload value.info.author txns = digest

/-- The request is in the cache and will be written to the database under the key. -/
def StoreCall.awaitsDb (key : BatchKey) : StoreCall → Bool
  | .persist value .cached => value.info.key = key
  | .persist value .noted => value.info.key = key
  | _ => false

namespace BatchStoreRun

/-- A read that starts after a signed info was returned for its key finds the payload, and what a
read finds has its payload. -/
structure Available [Crypto] (r : BatchStoreRun) : Prop where
  found : ∀ a ∈ r.answers, a.signed = true → ∃ value, a.value = some value ∧
    value.HasPayload a.key.digest
  mustHavePayload : ∀ a ∈ r.answers, ∀ value, a.value = some value → value.maybePayload.isSome

/-- A request whose digest the cache already holds, with at least its expiration, is for the epoch
of the entry, and no request for that key is between the cache and the database. -/
def FindsWritten [Crypto] [BatchApi] (r : BatchStoreRun) : StoreSection → Prop
  | .resume call =>
    match r.calls.get call with
    | some (.persist value .unexpired) =>
      match r.store.dbCache.get value.info.digest with
      | some entry => value.info.expiration ≤ entry.info.expiration →
          entry.info.epoch = value.info.epoch ∧ ∀ e ∈ r.calls, e.2.awaitsDb value.info.key = false
      | none => True
    | _ => True
  | _ => True

/-- A call that does not wait for the database has nothing to write. -/
theorem nothing_awaited {r : BatchStoreRun} {call : Nat} {c : StoreCall}
    (hcall : r.calls.get call = some c) (hc : ∀ key, c.awaitsDb key = false) {P : BatchKey → Prop} :
    ∀ c', r.calls.get call = some c' → ∀ key, c'.awaitsDb key = true → P key := by
  intro c' hc' key hkey
  rw [hcall] at hc'
  obtain rfl := Option.some.inj hc'
  simp [hc key] at hkey

/-! ## The invariant -/

section Invariant

variable [Crypto]

/-- An entry of the cache is in the database or on its way there. -/
structure EntrySound (r : BatchStoreRun) (digest : HashValue) (entry : PersistedValue) : Prop where
  sameDigest : entry.info.digest = digest
  payload : entry.maybePayload.isSome → entry.HasPayload digest
  written : (r.store.db.getBatch entry.info.key).isSome ∨
    ∃ i c, r.calls.get i = some c ∧ c.awaitsDb entry.info.key = true

/-- What is known of a call under way. -/
def CallSound (r : BatchStoreRun) : StoreCall → Prop
  | .persist value _ => value.HasPayload value.info.digest
  | .getBatch key signed => signed = true → (r.store.db.getBatch key).isSome
  | .expire _ => True
  | .clear _ _ => True

structure Sound (r : BatchStoreRun) : Prop where
  db : ∀ key value, r.store.db.getBatch key = some value → value.HasPayload key.digest
  cache : ∀ digest entry, r.store.dbCache.get digest = some entry → r.EntrySound digest entry
  calls : ∀ i c, r.calls.get i = some c → r.CallSound c
  signed : ∀ info ∈ r.signedInfos, (r.store.db.getBatch info.key).isSome
  available : r.Available

variable {r r' : BatchStoreRun} {call : Nat} {c : StoreCall}

theorem CallSound.mono (hc : r.CallSound c)
    (hdb : ∀ key, (r.store.db.getBatch key).isSome → (r'.store.db.getBatch key).isSome) :
    r'.CallSound c := by
  cases c with
  | persist value stage => exact hc
  | getBatch key signed => exact fun hsigned => hdb key (hc hsigned)
  | expire certifiedTime | clear certifiedTime digests => trivial

section

variable (hs : r.Sound)

include hs

/-- No batch leaves the database, what was to be written is written or still to be, and what is new
is sound. -/
theorem Sound.frame
    (hkept : ∀ key, (r.store.db.getBatch key).isSome → (r'.store.db.getBatch key).isSome)
    (hdb : ∀ key value, r'.store.db.getBatch key = some value → value.HasPayload key.digest)
    (hcache : ∀ d v, r'.store.dbCache.get d = some v →
      r.store.dbCache.get d = some v ∨ r'.EntrySound d v)
    (hcalls : ∀ i c, r'.calls.get i = some c → r.calls.get i = some c ∨ r'.CallSound c)
    (hawaits : ∀ i c key, r.calls.get i = some c → c.awaitsDb key = true →
      (r'.store.db.getBatch key).isSome ∨ ∃ j c', r'.calls.get j = some c' ∧ c'.awaitsDb key = true)
    (hsigned : ∀ info ∈ r'.signedInfos, (r'.store.db.getBatch info.key).isSome)
    (havailable : r'.Available) : r'.Sound := by
  refine ⟨hdb, ?_, ?_, hsigned, havailable⟩
  · intro digest entry hentry
    rcases hcache digest entry hentry with hold | hnew
    · obtain ⟨hdigest, hpayload, hwritten⟩ := hs.cache digest entry hold
      refine ⟨hdigest, hpayload, ?_⟩
      rcases hwritten with hwritten | ⟨i, c, hi, hkey⟩
      · exact .inl (hkept _ hwritten)
      · exact hawaits i c _ hi hkey
    · exact hnew
  · intro i c hi
    rcases hcalls i c hi with hold | hnew
    · exact (hs.calls i c hold).mono hkept
    · exact hnew

/-- A call starts or moves on, and still writes what it was to write. -/
theorem Sound.setCall (hawaits : ∀ c', r.calls.get call = some c' → ∀ key, c'.awaitsDb key = true →
      c.awaitsDb key = true) (hc : r.CallSound c) : (r.setCall call c).Sound := by
  refine hs.frame (fun _ h => h) hs.db (fun _ _ h => .inl h) ?_ ?_ hs.signed { hs.available with }
  · exact Table.forall_get_put (fun _ _ hi => .inl hi) (.inr (hc.mono fun _ hsome => hsome))
  · intro i c' key hi hkey
    by_cases hcall : i = call
    · subst hcall
      exact .inr ⟨i, c, Table.get_put_self, hawaits c' hi _ hkey⟩
    · exact .inr ⟨i, c', (Table.get_put_of_ne hcall).trans hi, hkey⟩

/-- A call ends, having written what it was to write. -/
theorem Sound.finish (hawaits : ∀ c', r.calls.get call = some c' → ∀ key, c'.awaitsDb key = true →
      (r.store.db.getBatch key).isSome) : (r.finish call).Sound := by
  refine hs.frame (fun _ h => h) hs.db (fun _ _ h => .inl h) ?_ ?_ hs.signed { hs.available with }
  · exact fun _ _ hi => .inl (Table.of_get_retain (p := (· ≠ call)) hi)
  · intro i c' key hi hkey
    by_cases hcall : i = call
    · subst hcall
      exact .inl (hawaits c' hi _ hkey)
    · refine .inr ⟨i, c', ?_, hkey⟩
      simp only [BatchStoreRun.finish, Table.get_retain]
      simpa [hcall] using hi

/-- Entries leave the cache, or other parts of the store change. -/
theorem Sound.withStore {store : BatchStore} (hdb : store.db = r.store.db)
    (hcache : ∀ d v, store.dbCache.get d = some v → r.store.dbCache.get d = some v) :
    { r with store }.Sound := by
  cases store
  subst hdb
  exact hs.frame (fun _ h => h) hs.db (fun d v h => .inl (hcache d v h)) (fun _ _ h => .inl h)
    (fun i c _ hi hkey => .inr ⟨i, c, hi, hkey⟩) hs.signed { hs.available with }

theorem Sound.answer {key : BatchKey} {signed : Bool}
    {value : Option PersistedValue} (hfound : signed = true → value.isSome)
    (hvalue : ∀ v, value = some v → v.HasPayload key.digest) :
    (r.answer key signed value).Sound := by
  refine hs.frame (fun _ h => h) hs.db (fun _ _ h => .inl h) (fun _ _ h => .inl h)
    (fun i c _ hi hkey => .inr ⟨i, c, hi, hkey⟩) hs.signed ⟨?_, ?_⟩
  · refine forall_mem_snoc hs.available.found fun hsigned => ?_
    obtain ⟨v, hv⟩ := Option.isSome_iff_exists.mp (hfound hsigned)
    exact ⟨v, hv, hvalue v hv⟩
  · refine forall_mem_snoc hs.available.mustHavePayload fun v hv => ?_
    obtain ⟨txns, htxns, -⟩ := hvalue v hv
    rw [htxns]
    rfl

theorem Sound.isSome_of_isSigned {key : BatchKey} (h : r.isSigned key = true) :
    (r.store.db.getBatch key).isSome := by
  obtain ⟨info, hinfo, hkey⟩ := List.any_eq_true.mp h
  obtain rfl : info.key = key := by simpa using hkey
  exact hs.signed info hinfo

theorem Sound.lookUp (hcall : r.calls.get call = none) (key : BatchKey) :
    (r.lookUp call key).Sound := by
  have hwait : (r.setCall call (.getBatch key (r.isSigned key))).Sound := by
    exact hs.setCall (fun _ hc' => nomatch hcall.symm.trans hc') hs.isSome_of_isSigned
  unfold BatchStoreRun.lookUp
  cases hentry : r.store.dbCache.get key.digest with
  | none => exact hwait
  | some entry =>
    cases hpayload : entry.maybePayload with
    | none =>
      simp only [PersistedValue.payloadStorageMode, hpayload]
      exact hwait
    | some txns =>
      simp only [PersistedValue.payloadStorageMode, hpayload]
      refine hs.answer (fun _ => rfl) ?_
      intro v hv
      obtain rfl := Option.some.inj hv
      exact (hs.cache key.digest entry hentry).payload (by rw [hpayload]; rfl)

/-- A request is signed once its batch is in the database. -/
theorem Sound.sign {info : BatchInfo} (hdb : (r.store.db.getBatch info.key).isSome)
    (hawaits : ∀ c', r.calls.get call = some c' → ∀ key, c'.awaitsDb key = true →
      (r.store.db.getBatch key).isSome) : (r.sign call info).Sound := by
  unfold BatchStoreRun.sign
  cases Crypto.sign r.store.validatorSigner (.batchInfo info) with
  | error e => exact hs.finish hawaits
  | ok signature =>
    have hsigned : { r with signedInfos := r.signedInfos ++ [info] }.Sound := by
      refine hs.frame (fun _ h => h) hs.db (fun _ _ h => .inl h) (fun _ _ h => .inl h)
        (fun i c _ hi hkey => .inr ⟨i, c, hi, hkey⟩) ?_ { hs.available with }
      exact forall_mem_snoc hs.signed hdb
    exact hsigned.finish hawaits

end

variable {value : PersistedValue}

section

variable (hs : r.Sound)

include hs

/-- A request goes into the cache, and is to be written to the database. -/
theorem Sound.cached {v : PersistedValue} {store : BatchStore}
    (hcall : r.calls.get call = some (.persist value .unexpired)) (hdb : store.db = r.store.db)
    (hv : v = value ∨ v = value.removePayload)
    (hcache : store.dbCache = r.store.dbCache.put value.info.digest v) :
    ({ r with store }.setCall call (.persist value .cached)).Sound := by
  have hvalue : value.HasPayload value.info.digest := hs.calls call _ hcall
  have hinfo : v.info = value.info := by rcases hv with rfl | rfl <;> rfl
  cases store
  subst hdb hcache
  refine hs.frame (fun _ h => h) hs.db ?_ ?_ ?_ hs.signed { hs.available with }
  · refine Table.forall_get_put (fun _ _ hentry => .inl hentry)
      (.inr ⟨by rw [hinfo], ?_, .inr ⟨call, _, Table.get_put_self, ?_⟩⟩)
    · intro hsome
      rcases hv with rfl | rfl
      · exact hvalue
      · cases hsome
    · simp [StoreCall.awaitsDb, hinfo]
  · exact Table.forall_get_put (fun _ _ hi => .inl hi) (.inr hvalue)
  · intro i c' key hi hkey
    refine .inr ⟨i, c', (Table.get_put_of_ne ?_).trans hi, hkey⟩
    -- the request that is put into the cache was not waiting for the database
    rintro rfl
    rw [hcall] at hi
    obtain rfl := Option.some.inj hi
    cases hkey

theorem Sound.saveBatch (hvalue : value.HasPayload value.info.digest) :
    { r with store := { r.store with db := r.store.db.saveBatch value } }.Sound := by
  have hmono : ∀ key, (r.store.db.getBatch key).isSome →
      ((r.store.db.saveBatch value).getBatch key).isSome := by
    intro key hsome
    simp only [QuorumStoreDb.saveBatch, QuorumStoreDb.getBatch, Table.get_put]
    split_ifs
    · rfl
    · exact hsome
  refine hs.frame hmono ?_ (fun _ _ h => .inl h) (fun _ _ h => .inl h)
    (fun i c _ hi hkey => .inr ⟨i, c, hi, hkey⟩) (fun info hinfo => hmono _ (hs.signed info hinfo))
    { hs.available with }
  exact Table.forall_get_put hs.db hvalue

theorem Sound.stop : { r with stopped := true }.Sound :=
  hs.frame (fun _ h => h) hs.db (fun _ _ h => .inl h) (fun _ _ h => .inl h)
    (fun i c _ hi hkey => .inr ⟨i, c, hi, hkey⟩) hs.signed { hs.available with }

/-! ## Steps and runs -/

theorem Sound.continuePersist {stage : PersistStage}
    (hcall : r.calls.get call = some (.persist value stage))
    (hwritten : stage = .unexpired → ∀ entry, r.store.dbCache.get value.info.digest = some entry →
      value.info.expiration ≤ entry.info.expiration → entry.info.epoch = value.info.epoch ∧
        ∀ e ∈ r.calls, e.2.awaitsDb value.info.key = false) :
    (r.continuePersist call value stage).Sound := by
  have hvalue : value.HasPayload value.info.digest := hs.calls call _ hcall
  cases stage with
  | unexpired =>
    simp only [BatchStoreRun.continuePersist]
    have hinserts := BatchStore.insertToCache_inserts r.store value
    generalize r.store.insertToCache value = inserted at hinserts
    cases hinserts with
    | new hdb v hv hcache => exact hs.cached hcall hdb hv hcache
    | old entry hentry hexp =>
      -- the entry that was found is in the database under the key of the request
      refine hs.sign ?_ (nothing_awaited hcall fun _ => rfl)
      obtain ⟨hepoch, hnone⟩ := hwritten rfl entry hentry hexp
      obtain ⟨hdigest, -, hdb⟩ := hs.cache _ entry hentry
      have hkey : entry.info.key = value.info.key := by
        simp only [BatchInfo.key, hepoch, hdigest]
      rw [hkey] at hdb
      rcases hdb with hdb | ⟨i, c', hi, hawaits'⟩
      · exact hdb
      · simp [hnone (i, c') (Table.mem_of_get hi)] at hawaits'
    | exceeded hdb hcache =>
      refine Sound.finish (hs.withStore hdb fun d v hd => ?_) (nothing_awaited hcall fun _ => rfl)
      rwa [hcache] at hd
    | panic => exact hs.stop
  | cached =>
    refine Sound.setCall (hs.withStore rfl fun d v hd => hd) ?_ hvalue
    intro c' hc' key hkey
    rw [show r.calls.get call = some _ from hcall] at hc'
    obtain rfl := Option.some.inj hc'
    exact hkey
  | noted =>
    have hsaved : ((r.store.db.saveBatch value).getBatch value.info.key).isSome := by
      simp [QuorumStoreDb.saveBatch, QuorumStoreDb.getBatch, Table.get_put_self]
    refine (hs.saveBatch hvalue).sign hsaved ?_
    intro c' hc' key hkey
    rw [show r.calls.get call = some _ from hcall] at hc'
    obtain rfl := Option.some.inj hc'
    obtain rfl : value.info.key = key := by simpa [StoreCall.awaitsDb] using hkey
    exact hsaved

theorem Sound.moveTime (hcall : r.calls.get call = none) (certifiedTime : Nat) :
    (r.moveTime call certifiedTime).Sound := by
  unfold BatchStoreRun.moveTime
  split_ifs with htime
  · refine Sound.setCall (hs.withStore rfl fun d v hd => hd) ?_ trivial
    exact fun _ hc' => nomatch hcall.symm.trans hc'
  · exact hs.stop

theorem Sound.clearDigest {certifiedTime : Nat} {digests : List HashValue}
    (hcall : r.calls.get call = some (.clear certifiedTime digests)) (digest : HashValue) :
    (r.clearDigest call certifiedTime digests digest).Sound := by
  unfold BatchStoreRun.clearDigest
  split_ifs with hmem
  · obtain ⟨hdb, hcache⟩ := BatchStore.clearExpired_frame r.store certifiedTime digest
    generalize r.store.clearExpired certifiedTime digest = cleared at hdb hcache ⊢
    obtain ⟨result, store⟩ := cleared
    cases result with
    | error fault => exact hs.stop
    | ok _ =>
      have hcleared : { r with store }.Sound := hs.withStore hdb hcache
      cases digests.erase digest with
      | nil => exact hcleared.finish (nothing_awaited hcall fun _ => rfl)
      | cons d rest => exact hcleared.setCall (nothing_awaited hcall fun _ => rfl) trivial
  · exact hs

end

variable [BatchApi]

theorem Sound.resume (hs : r.Sound) (hcall : r.calls.get call = some c)
    (hwritten : r.FindsWritten (.resume call)) : (r.resume call c).Sound := by
  cases c with
  | persist value stage =>
    refine hs.continuePersist hcall ?_
    rintro rfl entry hentry hexp
    simp only [FindsWritten, hcall, hentry] at hwritten
    exact hwritten hexp
  | getBatch key signed =>
    have hold : signed = true → (r.store.db.getBatch key).isSome := hs.calls call _ hcall
    have hanswered := hs.answer hold fun v hv => hs.db key v hv
    exact hanswered.finish (nothing_awaited hcall fun _ => rfl)
  | expire certifiedTime =>
    refine Sound.setCall (hs.withStore rfl fun d v hd => hd) ?_ trivial
    exact nothing_awaited hcall fun _ => rfl
  | clear certifiedTime digests =>
    cases digests with
    | nil => exact hs.finish (nothing_awaited hcall fun _ => rfl)
    | cons d rest => exact hs

theorem Sound.step (hs : r.Sound) (s : StoreSection) (hwritten : r.FindsWritten s) :
    (r.step s).2.Sound := by
  unfold BatchStoreRun.step
  split_ifs with hstopped
  · exact hs
  · cases s with
    | persist call batch =>
      dsimp only
      split_ifs with hcall htime
      · exact hs
      · refine hs.setCall ?_ ⟨batch.batch.txns, rfl, Batch.hash_of_verify batch.verified⟩
        intro c' hc'
        rw [hc'] at hcall
        exact absurd rfl hcall
      · exact hs
    | getBatch call key =>
      dsimp only
      split_ifs with hcall
      · exact hs
      · exact hs.lookUp (by simpa using hcall) key
    | updateCertifiedTimestamp call certifiedTime =>
      dsimp only
      split_ifs with hcall
      · exact hs
      · exact hs.moveTime (by simpa using hcall) certifiedTime
    | resume call =>
      cases hcall : r.calls.get call with
      | none =>
        simp only [hcall]
        exact hs
      | some c =>
        simp only [hcall]
        exact hs.resume hcall hwritten
    | clearDigest call digest =>
      cases hcall : r.calls.get call with
      | none =>
        simp only [hcall]
        exact hs
      | some c =>
        cases c with
        | clear certifiedTime digests =>
          simp only [hcall]
          exact hs.clearDigest hcall digest
        | persist value stage | getBatch key signed | expire certifiedTime =>
          simp only [hcall]
          exact hs

end Invariant

/-- The store as it is made, over a database. -/
def start (lastCertifiedTime : Nat) (db : QuorumStoreDb) (memoryQuota dbQuota batchQuota : Nat)
    (validatorSigner : ValidatorSigner) : BatchStoreRun where
  store := .new lastCertifiedTime db memoryQuota dbQuota batchQuota validatorSigner

theorem start_sound [Crypto] {lastCertifiedTime : Nat} {db : QuorumStoreDb}
    {memoryQuota dbQuota batchQuota : Nat} {validatorSigner : ValidatorSigner}
    (hdb : ∀ key value, db.getBatch key = some value → value.HasPayload key.digest) :
    (start lastCertifiedTime db memoryQuota dbQuota batchQuota validatorSigner).Sound where
  db := hdb
  cache := nofun
  calls := nofun
  signed := nofun
  available := ⟨nofun, nofun⟩

/-- In every run, whatever the interleaving, in which each request that finds its digest in the
cache finds a written entry of its own epoch, signed batches are available. -/
theorem signed_available [Crypto] [BatchApi] {lastCertifiedTime : Nat} {db : QuorumStoreDb}
    {memoryQuota dbQuota batchQuota : Nat} {validatorSigner : ValidatorSigner}
    (hdb : ∀ key value, db.getBatch key = some value → value.HasPayload key.digest)
    (sections : List StoreSection) (hwritten : AlongRun step FindsWritten
      (start lastCertifiedTime db memoryQuota dbQuota batchQuota validatorSigner) sections) :
    (run step (start lastCertifiedTime db memoryQuota dbQuota batchQuota validatorSigner)
      sections).2.Available := by
  have hsound := hwritten.invariant (I := fun r => r.Sound)
    (fun r s hs hr => hr.step s hs) (start_sound hdb)
  exact hsound.available

end BatchStoreRun

/-! ## Requests that are signed without a write of their own -/

namespace SignedUnwritten

open BatchStoreRun

local instance crypto : Crypto :=
  { Permissive.crypto (fun _ => 0) fun _ => 0 with
    hashBatchPayload := fun author txns => Encodable.encode (author, txns) }

local instance api : BatchApi where
  serializedSize _ txns := txns.length + 1

theorem hashBatchPayload_injective {author author' : Author} {txns txns' : List SignedTransaction}
    (h : Crypto.hashBatchPayload author txns = Crypto.hashBatchPayload author' txns') :
    author = author' ∧ txns = txns' :=
  Prod.mk.inj (Encodable.encode_injective h)

def digest : HashValue := Crypto.hashBatchPayload 7 []

/-- The empty batch of author 7. -/
def info (epoch expiration : Nat) : BatchInfo := ⟨7, ⟨0, 0⟩, epoch, expiration, digest, 0, 1, 0⟩

def batch (epoch expiration : Nat) : VerifiedBatch := ⟨⟨info epoch expiration, 7, []⟩, rfl⟩

/-- A store with room for ten bytes on disk, and `memoryQuota` of them in memory. -/
def store (memoryQuota : Nat) : BatchStoreRun :=
  BatchStoreRun.start 0 ⟨[], []⟩ memoryQuota 10 10 ⟨9, 90⟩

/-- All sections of a request that is new. -/
def persisted (call epoch expiration : Nat) : List StoreSection :=
  [.persist call (batch epoch expiration), .resume call, .resume call, .resume call]

/-- The same batch is persisted in epoch 1, and for a shorter time in epoch 2; then both expire. -/
def otherEpoch : List StoreSection :=
  persisted 0 1 100 ++
    [.persist 1 (batch 2 50), .resume 1, .updateCertifiedTimestamp 2 100, .resume 2,
      .clearDigest 2 digest, .getBatch 3 ⟨2, digest⟩, .resume 3]

/-- The batch is persisted again before the first request has written it, with no room in memory. -/
def notYetWritten : List StoreSection :=
  [.persist 0 (batch 1 100), .resume 0, .persist 1 (batch 1 100), .resume 1,
    .getBatch 2 ⟨1, digest⟩, .resume 2]

/-- In both runs an info is signed whose batch a later read does not find, although digests do not
collide. -/
theorem signed_not_found : (∀ author txns author' txns', Crypto.hashBatchPayload author txns =
        Crypto.hashBatchPayload author' txns' → author = author' ∧ txns = txns') ∧
      (run step (store 10) otherEpoch).2.signedInfos = [info 1 100, info 2 50] ∧
      (run step (store 10) otherEpoch).2.answers = [⟨⟨2, digest⟩, true, none⟩] ∧
      (run step (store 0) notYetWritten).2.signedInfos = [info 1 100] ∧
      (run step (store 0) notYetWritten).2.answers = [⟨⟨1, digest⟩, true, none⟩] ∧
      ¬ (run step (store 10) otherEpoch).2.Available ∧
      ¬ (run step (store 0) notYetWritten).2.Available := by
  have hmissed {s : BatchStoreRun} {key : BatchKey} (h : s.answers = [⟨key, true, none⟩]) :
      ¬ s.Available := by
    intro havailable
    obtain ⟨value, hvalue, -⟩ := havailable.found ⟨key, true, none⟩ (by simp [h]) rfl
    cases hvalue
  exact ⟨fun _ _ _ _ => hashBatchPayload_injective, rfl, rfl, rfl, rfl, hmissed rfl, hmissed rfl⟩

/-- The second request comes when the first one has been written. -/
def inTurn : List StoreSection :=
  persisted 0 1 100 ++
    [.persist 1 (batch 1 50), .resume 1, .updateCertifiedTimestamp 2 100, .resume 2,
      .clearDigest 2 digest, .getBatch 3 ⟨1, digest⟩, .resume 3]

theorem signed_available_inTurn : AlongRun step FindsWritten (store 10) inTurn ∧
      (run step (store 10) inTurn).2.answers = [⟨⟨1, digest⟩, true, some ⟨info 1 100, some []⟩⟩] ∧
      (run step (store 10) inTurn).2.Available := by
  have hwritten : AlongRun step FindsWritten (store 10) inTurn := by
    refine ⟨trivial, trivial, trivial, trivial, trivial, ?_, trivial, trivial, trivial, trivial,
      trivial, trivial⟩
    intro _
    refine ⟨rfl, ?_⟩
    intro e he
    obtain rfl := List.mem_singleton.mp he
    rfl
  exact ⟨hwritten, rfl, signed_available (fun _ _ hget => by cases hget) inTurn hwritten⟩

end SignedUnwritten

end Liquent
