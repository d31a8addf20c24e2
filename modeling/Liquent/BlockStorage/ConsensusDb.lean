import Liquent.BlockStorage.Retrieval
import Liquent.Misc.Table

/-!
# The consensus database

The tables that synchronisation and recovery write (`consensusdb/mod.rs`, cited by line), and the
latest ledger info that is kept in memory beside them.  Ledger infos and randomness are stored under
a block number; blocks and quorum certificates under an epoch and a block identifier.
-/

namespace Liquent

open Misc

/-- `HashValue::new([u8::MAX; LENGTH])`. -/
def HashValue.max : HashValue := 2 ^ 256 - 1

/-- The keys of an epoch that a range read goes through: from the zero identifier up to the largest,
excluded. -/
abbrev InEpoch (epoch : Nat) (key : Nat × HashValue) : Prop :=
  key.1 = epoch ∧ key.2 < HashValue.max

structure ConsensusDb where
  ledgerInfos : Table Nat LedgerInfoWithSignatures := []
  /-- The last block number of each epoch that has ended. -/
  epochByBlockNumber : Table Nat Nat := []
  latestLedgerInfo : Option LedgerInfoWithSignatures := none
  blocks : Table (Nat × HashValue) Block := []
  quorumCerts : Table (Nat × HashValue) QuorumCert := []
  blockNumbers : Table (Nat × HashValue) Nat := []
  randomness : Table Nat (List UInt8) := []
deriving DecidableEq

namespace ConsensusDb

/-- `put_ledger_info` (`writer.rs:22`); the key is the block that ends the epoch, if the ledger info
names one. -/
def putLedgerInfo [LedgerApi] (db : ConsensusDb) (li : LedgerInfoWithSignatures) : ConsensusDb :=
  let number := li.ledgerInfo.targetBlock.2
  { db with
    ledgerInfos := db.ledgerInfos.put number li
    epochByBlockNumber :=
      if li.ledgerInfo.endsEpoch then
        db.epochByBlockNumber.put number li.ledgerInfo.commitInfo.epoch
      else db.epochByBlockNumber }

def putLedgerInfos [LedgerApi] (db : ConsensusDb) (lis : List LedgerInfoWithSignatures) :
    ConsensusDb :=
  lis.foldl putLedgerInfo db

/-- `update_latest_ledger_info` (`ledger_metadata_db.rs:124`): the entry under the largest block
number. -/
def updateLatestLedgerInfo (db : ConsensusDb) : ConsensusDb :=
  { db with latestLedgerInfo := db.ledgerInfos.last.map (·.2) }

/-- `put_randomness` (461). -/
def putRandomness (db : ConsensusDb) (values : List (Nat × List UInt8)) : ConsensusDb :=
  { db with randomness := db.randomness.putAll values }

/-- `get_randomness` (476). -/
def getRandomness (db : ConsensusDb) (number : Nat) : Option (List UInt8) :=
  db.randomness.get number

variable [Crypto]

/-- `save_tree` (`persistent_liveness_storage.rs:48`): blocks and certificates, then the block
numbers. The table holds a block without its number, as it is read back. -/
def saveTree (db : ConsensusDb) (blocks : List Block) (quorumCerts : List QuorumCert)
    (blockNumbers : List (Nat × Nat × HashValue)) : ConsensusDb :=
  { db with
    blocks := db.blocks.putAll (blocks.map fun b =>
      ((b.epoch, b.id), { b with blockNumber := none }))
    quorumCerts := db.quorumCerts.putAll
      (quorumCerts.map fun qc => ((qc.certifiedBlock.epoch, qc.certifiedBlock.id), qc))
    blockNumbers := db.blockNumbers.putAll
      (blockNumbers.map fun (epoch, number, id) => ((epoch, id), number)) }

/-- `get_block` (413), with the number that is stored for the block. -/
def getBlock (db : ConsensusDb) (epoch : Nat) (id : HashValue) : Option Block :=
  (db.blocks.get (epoch, id)).map fun block =>
    { block with blockNumber := block.blockNumber.or (db.blockNumbers.get (epoch, id)) }

/-- The numbers from `latest` on that the epoch's blocks have; of two blocks with one number, the
larger identifier keeps it. -/
def numbersFrom (db : ConsensusDb) (latest epoch : Nat) : Table (Nat × HashValue) Nat :=
  let numbers := db.blockNumbers.filter fun e => InEpoch epoch e.1 ∧ latest ≤ e.2
  numbers.filter fun e => ∀ e' ∈ numbers, e'.2 = e.2 → e'.1.2 ≤ e.1.2

/-- The round and identifier from which `get_data` returns blocks: those of the block with the given
number, if any. -/
def startOfData (db : ConsensusDb) (latest epoch : Nat) : Except String (Nat × HashValue) :=
  match (db.numbersFrom latest epoch).find? (·.2 = latest) with
  | none => .ok (0, HashValue.zero)
  | some e =>
    match db.blocks.get e.1 with
    | some block => .ok (block.round, block.id)
    | none => .error "called `Option::unwrap()` on a `None` value"

/-- The blocks and certificates that `get_data` (195) returns. -/
def getData (db : ConsensusDb) (latest epoch : Nat) :
    Except String (List Block × List QuorumCert) := do
  let (startRound, startId) ← db.startOfData latest epoch
  let numbers := db.numbersFrom latest epoch
  let blocks := (db.blocks.filter fun e => InEpoch epoch e.1 ∧
    (startRound < e.2.round ∨ e.2.id = startId)).map (·.2)
  let quorumCerts := (db.quorumCerts.filter fun e => InEpoch epoch e.1 ∧
    (startRound < e.2.certifiedBlock.round ∨ e.2.certifiedBlock.id = startId)).map (·.2)
  pure (blocks.map fun b => { b with blockNumber := b.blockNumber.or (numbers.get (epoch, b.id)) },
    quorumCerts)

end ConsensusDb

end Liquent
