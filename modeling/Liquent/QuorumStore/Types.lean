import Liquent.ConsensusTypes.Crypto
import Liquent.Misc.StateExcept
import Liquent.Misc.Table

/-!
# Batches and the quorum store database

The batches of `quorum_store/types.rs` with the checks made when one is received, and the two tables
of `quorum_store_db.rs` (cited by line).
-/

namespace Liquent

open Misc

/-- The key of a batch in the database. -/
structure BatchKey where
  epoch : Nat
  digest : HashValue
deriving DecidableEq

def BatchInfo.key (info : BatchInfo) : BatchKey where
  epoch := info.epoch
  digest := info.digest

/-- The value stored for a batch; in memory the payload may be missing. -/
structure PersistedValue where
  info : BatchInfo
  maybePayload : Option (List SignedTransaction)
deriving DecidableEq

inductive StorageMode where
  | persistedOnly
  | memoryAndPersisted
deriving DecidableEq

namespace PersistedValue

/-- `payload_storage_mode` (`types.rs:61`). -/
def payloadStorageMode (value : PersistedValue) : StorageMode :=
  match value.maybePayload with
  | some _ => .memoryAndPersisted
  | none => .persistedOnly

/-- `remove_payload` (`types.rs:73`), and the value that `take_payload` leaves. -/
def removePayload (value : PersistedValue) : PersistedValue := { value with maybePayload := none }

end PersistedValue

/-- A batch as it is sent: its description, and its transactions with the author they are hashed
with. -/
structure Batch where
  batchInfo : BatchInfo
  payloadAuthor : Author
  txns : List SignedTransaction
deriving DecidableEq

/-- The size of a batch payload in its binary encoding, which is computed outside the repository. -/
class BatchApi where
  serializedSize : Author → List SignedTransaction → Nat

namespace Batch

variable [Crypto] [BatchApi]

/-- The loop of `Batch::verify` over the transactions. -/
def verifyGasPrices (gasBucketStart : Nat) : List SignedTransaction → Except String Unit
  | [] => .ok ()
  | txn :: rest => do
    ensure (gasBucketStart ≤ txn.gasUnitPrice) "Payload gas unit price doesn't match batch info"
    verifyGasPrices gasBucketStart rest

/-- `Batch::verify` (`types.rs:172`). -/
def verify (b : Batch) : Except String Unit := do
  ensure (b.payloadAuthor = b.batchInfo.author) "Payload author doesn't match the info"
  ensure (Crypto.hashBatchPayload b.payloadAuthor b.txns = b.batchInfo.digest)
    "Payload hash doesn't match the digest"
  ensure (b.txns.length = b.batchInfo.numTxns) "Payload num txns doesn't match batch info"
  ensure (BatchApi.serializedSize b.payloadAuthor b.txns = b.batchInfo.numBytes)
    "Payload num bytes doesn't match batch info"
  verifyGasPrices b.batchInfo.gasBucketStart b.txns

/-- `PersistedValue::from` (`types.rs:33`). -/
def toPersistedValue (b : Batch) : PersistedValue where
  info := b.batchInfo
  maybePayload := some b.txns

/-- The transactions of a verified batch are those of its digest. -/
theorem hash_of_verify {b : Batch} (h : b.verify = .ok ()) :
    Crypto.hashBatchPayload b.batchInfo.author b.txns = b.batchInfo.digest := by
  simp only [verify, except_seq_ok_iff, ensure_ok_iff] at h
  obtain ⟨hauthor, hhash, -⟩ := h
  rw [← hauthor]
  exact hhash

end Batch

/-- The quorum store database: the batches, and the last batch identifier of each epoch. -/
structure QuorumStoreDb where
  batches : Table BatchKey PersistedValue
  batchIds : Table Nat BatchId
deriving DecidableEq

namespace QuorumStoreDb

/-- `delete_batches` (64). -/
def deleteBatches (db : QuorumStoreDb) (keys : List BatchKey) : QuorumStoreDb :=
  { db with batches := db.batches.retain (· ∉ keys) }

/-- `save_batch` (81). -/
def saveBatch (db : QuorumStoreDb) (value : PersistedValue) : QuorumStoreDb :=
  { db with batches := db.batches.put value.info.key value }

/-- `get_batch` (92). -/
def getBatch (db : QuorumStoreDb) (key : BatchKey) : Option PersistedValue := db.batches.get key

/-- `delete_batch_id` (97). -/
def deleteBatchId (db : QuorumStoreDb) (epoch : Nat) : QuorumStoreDb :=
  { db with batchIds := db.batchIds.retain (· ≠ epoch) }

/-- `get_all_batch_id_epochs` (121). -/
def getAllBatchIdEpochs (db : QuorumStoreDb) : List Nat := db.batchIds.keys

theorem getBatch_deleteBatches {db : QuorumStoreDb} {keys : List BatchKey} {key : BatchKey} :
    (db.deleteBatches keys).getBatch key = if key ∈ keys then none else db.getBatch key := by
  unfold getBatch deleteBatches
  rw [Table.get_retain]
  by_cases hkey : key ∈ keys
  · simp [hkey]
  · simp [hkey]

end QuorumStoreDb

end Liquent
