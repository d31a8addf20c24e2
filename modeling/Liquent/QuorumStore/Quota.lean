import Liquent.QuorumStore.BatchStore

/-!
# The quotas of the batch store are conserved

`insert_to_cache` and `clear_expired_payload`, one call at a time.  What an author's cached batches
use and what is left of the author's quotas always add up to the quotas, although an entry is
charged before the one it replaces is freed, and may be kept in memory when that one was not.
-/

namespace Liquent

open Misc

/-- The three quotas of an author. -/
inductive Resource where
  | db
  | memory
  | batch

namespace Resource

/-- What an entry of the cache uses: a payload takes memory only while it is kept there. -/
def cost : Resource → PersistedValue → Nat
  | .db, value => value.info.numBytes
  | .memory, value => if value.maybePayload.isSome then value.info.numBytes else 0
  | .batch, _ => 1

/-- What an entry uses of the quotas of an author. -/
def due (author : Author) (r : Resource) (value : PersistedValue) : Nat :=
  if value.info.author = author then r.cost value else 0

end Resource

namespace QuotaManager

def balance (q : QuotaManager) : Resource → Nat
  | .db => q.dbBalance
  | .memory => q.memoryBalance
  | .batch => q.batchBalance

def quota (q : QuotaManager) : Resource → Nat
  | .db => q.dbQuota
  | .memory => q.memoryQuota
  | .batch => q.batchQuota

variable {q q' : QuotaManager} {value : PersistedValue}

/-- What is charged is what the entry uses that is then stored. -/
theorem updateQuota_ok {mode : StorageMode} (hpayload : value.maybePayload.isSome = true)
    (h : q.updateQuota value.info.numBytes = (.ok mode, q')) (r : Resource) :
    q'.balance r + r.cost (value.toBeStored mode) = q.balance r ∧ q'.quota r = q.quota r := by
  unfold updateQuota at h
  split_ifs at h with hbatch hdb hmemory
  · cases h
  · obtain ⟨hmode, rfl⟩ := Prod.mk.inj h
    obtain rfl := Except.ok.inj hmode
    cases r <;> simp [balance, quota, Resource.cost, PersistedValue.toBeStored, hpayload] <;> omega
  · obtain ⟨hmode, rfl⟩ := Prod.mk.inj h
    obtain rfl := Except.ok.inj hmode
    cases r <;> simp [balance, quota, Resource.cost, PersistedValue.toBeStored,
      PersistedValue.removePayload] <;> omega
  · cases h

/-- Nothing is charged when a quota is exceeded. -/
theorem updateQuota_error {numBytes : Nat} {fault : StoreFault}
    (h : q.updateQuota numBytes = (.error fault, q')) :
    q' = q ∧ ∃ message, fault = .error message := by
  unfold updateQuota at h
  split_ifs at h
  · obtain ⟨hfault, rfl⟩ := Prod.mk.inj h
    exact ⟨rfl, _, (Except.error.inj hfault).symm⟩
  · cases h
  · cases h
  · obtain ⟨hfault, rfl⟩ := Prod.mk.inj h
    exact ⟨rfl, _, (Except.error.inj hfault).symm⟩

/-- An entry can be freed when what it uses is missing from the balances. -/
theorem freeQuota_succeeds (h : ∀ r : Resource, q.balance r + r.cost value ≤ q.quota r) :
    ∃ q', q.freeQuota value.info.numBytes value.payloadStorageMode = (.ok (), q') ∧
      ∀ r : Resource, q'.balance r = q.balance r + r.cost value ∧ q'.quota r = q.quota r := by
  have hbatch : ¬ q.batchQuota < q.batchBalance + 1 := Nat.not_lt.mpr (h .batch)
  have hdb : ¬ q.dbQuota < q.dbBalance + value.info.numBytes := Nat.not_lt.mpr (h .db)
  have hmemory := h .memory
  simp only [freeQuota, if_neg hbatch, if_neg hdb, PersistedValue.payloadStorageMode]
  cases hpayload : value.maybePayload with
  | none =>
    refine ⟨_, rfl, fun r => ?_⟩
    cases r <;> simp [balance, quota, Resource.cost, hpayload]
  | some txns =>
    simp only [balance, quota, Resource.cost, hpayload, Option.isSome_some, if_true] at hmemory
    simp only [if_neg (Nat.not_lt.mpr hmemory)]
    refine ⟨_, rfl, fun r => ?_⟩
    cases r <;> simp [balance, quota, Resource.cost, hpayload]

end QuotaManager

namespace BatchStore

/-! ## Whole calls -/

section

variable (s : BatchStore)

/-- `insert_to_cache`, both sections. -/
def insert (value : PersistedValue) : Except StoreFault Bool × BatchStore :=
  match s.insertToCache value with
  | (.ok true, stored) => (.ok true, { stored with
      expirations := (value.info.expiration, value.info.digest) :: stored.expirations })
  | result => result

/-- The loop of `clear_expired_payload`. -/
def clearAll (certifiedTime : Nat) (s : BatchStore) : List HashValue →
    Option StoreFault × BatchStore
  | [] => (none, s)
  | digest :: rest =>
    match s.clearExpired certifiedTime digest with
    | (.ok _, cleared) => cleared.clearAll certifiedTime rest
    | (.error fault, cleared) => (some fault, cleared)

/-- `clear_expired_payload` (`batch_store.rs:278`); the expired digests come in the order of a hash
set. -/
def clearExpiredPayload (certifiedTime : Nat) (order : List HashValue → List HashValue) :
    Option StoreFault × BatchStore :=
  let expired := s.expirations.filter fun e => e.1 ≤ certifiedTime
  let expirations := s.expirations.filter fun e => certifiedTime < e.1
  { s with expirations }.clearAll certifiedTime (order (expired.map Prod.snd).dedup)

end

inductive CacheCall [Crypto] [BatchApi] where
  | insert (batch : VerifiedBatch)
  | clear (certifiedTime : Nat) (order : List HashValue → List HashValue)

/-- A call, and how it fails if it does. -/
def cacheStep [Crypto] [BatchApi] (s : BatchStore) : CacheCall → Option StoreFault × BatchStore
  | .insert batch =>
    let (result, s') := s.insert batch.batch.toPersistedValue
    (match result with
      | .ok _ => none
      | .error fault => some fault, s')
  | .clear certifiedTime order => s.clearExpiredPayload certifiedTime order

/-! ## The books -/

section

variable (s : BatchStore)

def quota : Resource → Nat
  | .db => s.dbQuota
  | .memory => s.memoryQuota
  | .batch => s.batchQuota

/-- What is left to an author; one without a record has everything left. -/
def balance (author : Author) (r : Resource) : Nat :=
  match s.peerQuota.get author with
  | some quotaManager => quotaManager.balance r
  | none => s.quota r

/-- What the cached batches of an author use. -/
def used (author : Author) (r : Resource) : Nat := s.dbCache.total (r.due author)

/-- The books add up, while an entry that has left the cache may still have to be freed. -/
structure Owing (limit : Resource → Nat) (owed : Option PersistedValue) : Prop where
  nodup : s.dbCache.keys.Nodup
  configured : ∀ r, s.quota r = limit r
  quotas : ∀ author q, s.peerQuota.get author = some q → ∀ r, q.quota r = limit r
  balanced : ∀ author r,
    s.balance author r + s.used author r + owed.elim 0 (r.due author) = limit r

/-- An error for the caller, or a panic that is not one of `free_quota`. -/
def Allowed : StoreFault → Prop
  | .error _ => True
  | .panic message => message = "assertion failed: db_quota >= memory_quota" ∨
      message = "Expired entry not in cache"

end

variable {s : BatchStore} {value : PersistedValue} {limit : Resource → Nat}

theorem balance_put {author : Author} {q : QuotaManager} {cache : Table HashValue PersistedValue}
    (a : Author) (r : Resource) :
    { s with peerQuota := s.peerQuota.put author q, dbCache := cache }.balance a r =
      if a = author then q.balance r else s.balance a r := by
  unfold balance
  rw [Table.get_put]
  split_ifs <;> rfl

/-- An entry that is owed is freed, without a panic. -/
theorem Owing.free (h : s.Owing limit (some value)) :
    ∃ s', s.freeQuota value = (.ok (), s') ∧ s'.Owing limit none := by
  cases hq : s.peerQuota.get value.info.author with
  | none =>
    have hsum := h.balanced value.info.author .batch
    simp only [balance, hq, h.configured, Option.elim_some, Resource.due, if_true,
      Resource.cost] at hsum
    omega
  | some q =>
    have hsum (r : Resource) : q.balance r + s.used value.info.author r + r.cost value =
        limit r := by
      simpa [balance, hq, Resource.due] using h.balanced value.info.author r
    have hfits (r : Resource) : q.balance r + r.cost value ≤ q.quota r := by
      rw [h.quotas _ q hq, ← hsum r]
      omega
    obtain ⟨q', hfree, hq'⟩ := QuotaManager.freeQuota_succeeds hfits
    simp only [freeQuota, hq, hfree]
    refine ⟨_, rfl, h.nodup, h.configured, ?_, ?_⟩
    · exact Table.forall_get_put h.quotas fun r => (hq' r).2.trans (h.quotas _ q hq r)
    · intro author r
      rw [balance_put]
      show _ + s.used author r + 0 = limit r
      by_cases hauthor : author = value.info.author
      · rw [if_pos hauthor, hauthor, (hq' r).1, ← hsum r]
        omega
      · simpa [hauthor, Resource.due, Ne.symm hauthor] using h.balanced author r

/-- The books add up after a call, and one that fails changes neither the cache nor a balance. -/
structure Settles {α : Type} (s : BatchStore) (limit : Resource → Nat)
    (call : Except StoreFault α × BatchStore) : Prop where
  owing : call.2.Owing limit none
  fault : ∀ fault, call.1 = .error fault → Allowed fault ∧ call.2.dbCache = s.dbCache ∧
    ∀ author r, call.2.balance author r = s.balance author r

theorem settles_ok {α : Type} {a : α} {s' : BatchStore} (h : s'.Owing limit none) :
    s.Settles limit (.ok a, s') := ⟨h, nofun⟩

section

variable (h : s.Owing limit none)

include h

/-- The record of an author, which may be made for it, says what is left. -/
theorem Owing.record {fresh : QuotaManager}
    (hfresh : QuotaManager.new s.dbQuota s.memoryQuota s.batchQuota = .ok fresh) (author : Author)
    (r : Resource) : ((s.peerQuota.get author).getD fresh).balance r = s.balance author r ∧
      ((s.peerQuota.get author).getD fresh).quota r = limit r := by
  rw [← h.configured]
  unfold balance
  cases hq : s.peerQuota.get author with
  | some q => exact ⟨rfl, (h.quotas author q hq r).trans (h.configured r).symm⟩
  | none =>
    simp only [QuotaManager.new, except_seq_ok_iff, except_pure_ok_iff] at hfresh
    obtain ⟨-, rfl⟩ := hfresh
    cases r <;> exact ⟨rfl, rfl⟩

/-- The quota is exceeded: a record of the author is made, if there was none. -/
theorem Owing.settles_record {α : Type} {fresh : QuotaManager} {fault : StoreFault}
    (hfresh : QuotaManager.new s.dbQuota s.memoryQuota s.batchQuota = .ok fresh) (author : Author)
    (hfault : Allowed fault) : s.Settles limit ((.error fault : Except StoreFault α), { s with
      peerQuota := s.peerQuota.put author ((s.peerQuota.get author).getD fresh) }) := by
  have hbalance : ∀ a r, balance { s with
      peerQuota := s.peerQuota.put author ((s.peerQuota.get author).getD fresh) } a r =
        s.balance a r := by
    intro a r
    rw [balance_put]
    split_ifs with ha
    · rw [ha, (h.record hfresh author r).1]
    · rfl
  refine ⟨⟨h.nodup, h.configured, ?_, ?_⟩, ?_⟩
  · exact Table.forall_get_put h.quotas fun r => (h.record hfresh author r).2
  · intro a r
    rw [hbalance]
    exact h.balanced a r
  · rintro _ ⟨⟩
    exact ⟨hfault, rfl, hbalance⟩

variable (hpayload : value.maybePayload.isSome = true)

include hpayload

/-- A value is charged and takes the place of an entry, which is then owed. -/
theorem Owing.store {fresh charged : QuotaManager} {mode : StorageMode}
    (hfresh : QuotaManager.new s.dbQuota s.memoryQuota s.batchQuota = .ok fresh)
    (hcharged : ((s.peerQuota.get value.info.author).getD fresh).updateQuota value.info.numBytes =
      (.ok mode, charged)) :
    { s with
      peerQuota := s.peerQuota.put value.info.author charged
      dbCache := s.dbCache.put value.info.digest (value.toBeStored mode) }.Owing limit
      (s.dbCache.get value.info.digest) := by
  have hcharge := QuotaManager.updateQuota_ok hpayload hcharged
  refine ⟨Table.nodup_keys_put h.nodup _ _, h.configured, ?_, ?_⟩
  · exact Table.forall_get_put h.quotas fun r => (hcharge r).2.trans (h.record hfresh _ r).2
  · intro author r
    have hsum : s.balance author r + s.used author r = limit r := h.balanced author r
    have hinfo : (value.toBeStored mode).info = value.info := by cases mode <;> rfl
    have hleft := (hcharge r).1
    rw [(h.record hfresh _ r).1] at hleft
    have hused : _ = s.used author r + _ :=
      Table.total_put h.nodup value.info.digest (value.toBeStored mode) (r.due author)
    rw [Resource.due, hinfo] at hused
    rw [balance_put]
    show _ + Table.total (s.dbCache.put _ _) _ + _ = limit r
    by_cases hauthor : author = value.info.author
    · subst hauthor
      rw [if_pos rfl] at hused ⊢
      omega
    · rw [if_neg hauthor]
      rw [if_neg (Ne.symm hauthor)] at hused
      omega

theorem Owing.replaceEntry : s.Settles limit (s.replaceEntry value) := by
  unfold BatchStore.replaceEntry
  cases hfresh : QuotaManager.new s.dbQuota s.memoryQuota s.batchQuota with
  | error fault =>
    refine ⟨h, ?_⟩
    rintro _ ⟨⟩
    simp only [QuotaManager.new, except_bind_error_iff, ensure_error_iff] at hfresh
    rcases hfresh with ⟨-, rfl⟩ | ⟨_, _, hpure⟩
    · exact ⟨.inl rfl, rfl, fun _ _ => rfl⟩
    · cases hpure
  | ok fresh =>
    dsimp only
    split
    · rename_i fault charged hcharged
      obtain ⟨rfl, message, rfl⟩ := QuotaManager.updateQuota_error hcharged
      exact h.settles_record hfresh _ trivial
    · rename_i mode charged hcharged
      have howing := h.store hpayload hfresh hcharged
      cases hprev : s.dbCache.get value.info.digest with
      | none =>
        rw [hprev] at howing
        exact settles_ok howing
      | some prev =>
        rw [hprev] at howing
        obtain ⟨s', hfree, hs'⟩ := howing.free
        simp only [hfree]
        exact settles_ok hs'

theorem Owing.insert : s.Settles limit (s.insert value) := by
  have hreplace : s.Settles limit ((s.replaceEntry value).map (·.map fun _ => true) id) := by
    obtain ⟨howing, hfault⟩ := h.replaceEntry hpayload
    refine ⟨howing, fun fault heq => hfault fault ?_⟩
    cases hx : (s.replaceEntry value).1 with
    | ok a => simp [Except.map, hx] at heq
    | error e => simpa [Except.map, hx] using heq
  have hinsert : s.Settles limit (s.insertToCache value) := by
    unfold BatchStore.insertToCache
    split
    · split_ifs
      · exact settles_ok h
      · exact hreplace
    · exact hreplace
  unfold BatchStore.insert
  split
  · rename_i stored heq
    rw [heq] at hinsert
    exact settles_ok { hinsert.owing with }
  · exact hinsert

end

/-- An expired entry leaves the cache and is freed. -/
theorem Owing.clearExpired (h : s.Owing limit none) (certifiedTime : Nat) (digest : HashValue) :
    s.Settles limit (s.clearExpired certifiedTime digest) := by
  unfold BatchStore.clearExpired
  cases hentry : s.dbCache.get digest with
  | none =>
    refine ⟨h, ?_⟩
    rintro _ ⟨⟩
    exact ⟨.inr rfl, rfl, fun _ _ => rfl⟩
  | some entry =>
    dsimp only
    split_ifs with hexpired
    · have howing : { s with dbCache := s.dbCache.retain (· ≠ digest) }.Owing limit
        (some entry) := by
        refine ⟨h.nodup.sublist (List.filter_sublist.map _), h.configured, h.quotas, ?_⟩
        intro author r
        have hsum : s.balance author r + s.used author r = limit r := h.balanced author r
        have hused : _ = s.used author r := Table.total_retain h.nodup digest (r.due author)
        rw [hentry] at hused
        show s.balance author r + Table.total (s.dbCache.retain (· ≠ digest)) (r.due author) + _ =
          limit r
        omega
      obtain ⟨s', hfree, hs'⟩ := howing.free
      rw [hfree]
      exact settles_ok hs'
    · exact settles_ok h

theorem Owing.clearAll {certifiedTime : Nat} {digests : List HashValue} (h : s.Owing limit none) :
    (s.clearAll certifiedTime digests).2.Owing limit none ∧
      ∀ fault, (s.clearAll certifiedTime digests).1 = some fault → Allowed fault := by
  induction digests generalizing s with
  | nil => exact ⟨h, fun _ heq => nomatch heq⟩
  | cons digest rest ih =>
    have hclear := h.clearExpired certifiedTime digest
    unfold BatchStore.clearAll
    split
    · rename_i cleared hresult
      rw [hresult] at hclear
      exact ih hclear.owing
    · rename_i fault cleared hresult
      rw [hresult] at hclear
      exact ⟨hclear.owing, fun _ heq => Option.some.inj heq ▸ (hclear.fault fault rfl).1⟩

/-! ## Steps and runs -/

section Run

variable [Crypto] [BatchApi]

theorem Owing.step (h : s.Owing limit none) (call : CacheCall) :
    (s.cacheStep call).2.Owing limit none ∧
      ∀ fault, (s.cacheStep call).1 = some fault → Allowed fault := by
  cases call with
  | insert batch =>
    obtain ⟨hs', hfault⟩ := h.insert (rfl : batch.batch.toPersistedValue.maybePayload.isSome = true)
    refine ⟨hs', ?_⟩
    intro fault heq
    simp only [cacheStep] at heq
    split at heq
    · cases heq
    · rename_i hresult
      exact Option.some.inj heq ▸ (hfault _ hresult).1
  | clear certifiedTime order =>
    exact Owing.clearAll ⟨h.nodup, h.configured, h.quotas, h.balanced⟩

/-- After any calls the balances and what is used add up to the quotas, no assertion of `free_quota`
fails in the next call, and an insertion that fails changes neither the cache nor a balance. -/
theorem quota_conserved (lastCertifiedTime : Nat) (db : QuorumStoreDb)
    (memoryQuota dbQuota batchQuota : Nat) (validatorSigner : ValidatorSigner)
    (calls : List CacheCall) :
    let start := new lastCertifiedTime db memoryQuota dbQuota batchQuota validatorSigner
    let s := (run cacheStep start calls).2
    (∀ author r, s.balance author r + s.used author r = start.quota r) ∧
      (∀ call fault, (s.cacheStep call).1 = some fault → Allowed fault) ∧
      ∀ (batch : VerifiedBatch) fault, (s.insert batch.batch.toPersistedValue).1 = .error fault →
        (s.insert batch.batch.toPersistedValue).2.dbCache = s.dbCache ∧ ∀ author r,
          (s.insert batch.batch.toPersistedValue).2.balance author r = s.balance author r := by
  intro start s
  have hs : s.Owing start.quota none := by
    refine run_invariant (fun s call (h : Owing s _ none) => (h.step call).1) calls ?_
    exact ⟨List.nodup_nil, fun _ => rfl, fun _ _ hq => (nomatch hq), fun _ _ => rfl⟩
  refine ⟨hs.balanced, fun call => (hs.step call).2, ?_⟩
  intro batch fault hfault
  exact ((hs.insert (rfl : batch.batch.toPersistedValue.maybePayload.isSome = true)).fault fault
    hfault).2

end Run

/-! ### One author -/

namespace OneAuthor

def batch (digest : HashValue) (expiration numBytes : Nat) : PersistedValue where
  info :=
    { author := 1, batchId := { id := digest, nonce := 0 }, epoch := 1, expiration, digest
      numTxns := 0, numBytes, gasBucketStart := 0 }
  maybePayload := some []

/-- A batch of six bytes is cached, under quotas of eight bytes in memory and ten in the
database. -/
def cached : BatchStore := ((new 0 ⟨[], []⟩ 8 10 3 ⟨0, 0⟩).insert (batch 1 5 6)).2

/-- Another batch of six bytes is beyond the quota. -/
example : let (result, s) := cached.insert (batch 2 5 6)
    result = .error (.error "Storage quota exceeded ") ∧ s.dbCache = cached.dbCache ∧
      s.balance 1 .db = 4 := by decide

/-- The digest comes with four bytes and a later expiration: it is kept without its payload, since
the six bytes are given back only afterwards. -/
example : let (result, s) := cached.insert (batch 1 7 4)
    result = .ok true ∧ s.balance 1 .db = 6 ∧ s.balance 1 .memory = 8 ∧ s.balance 1 .batch = 2 ∧
      s.used 1 .memory = 0 := by decide

end OneAuthor

end BatchStore

end Liquent
