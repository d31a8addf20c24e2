import Liquent.BlockStorage.Unwind
import Liquent.Misc.Run

/-!
# The cached ledger info

`get_latest_ledger_info` answers from memory.  A synchronisation and an unwind read the cache anew
from the table, but a commit sets it to the ledger info that it saves, whatever is stored.  The
cache is the newest ledger info after every operation exactly when no commit saves one of an earlier
block than the table has.
-/

namespace Liquent.ConsensusStore

open Misc

variable [LedgerApi] {s : ConsensusStore}

/-- `save_transactions` (`writer.rs:4`), of which only the ledger info is written. -/
def saveTransactions (s : ConsensusStore) : Option LedgerInfoWithSignatures → ConsensusStore
  | none => s
  | some li => { s with toConsensusDb := { s.putLedgerInfo li with latestLedgerInfo := some li } }

/-- `persist_forward_epoch_sync_ledger_infos`. -/
def persistLedgerInfos (s : ConsensusStore) (lis : List LedgerInfoWithSignatures) :
    ConsensusStore :=
  if lis = [] then s
  else { s with toConsensusDb := (s.putLedgerInfos lis).updateLatestLedgerInfo }

/-- What writes the table of ledger infos. -/
inductive LedgerWrite where
  | saveTransactions (li : Option LedgerInfoWithSignatures)
  | persistLedgerInfos (lis : List LedgerInfoWithSignatures)
  | unwindToBlock (target : Nat)

/-- The store after a write; an unwind that fails changes nothing. -/
def write (s : ConsensusStore) : LedgerWrite → Unit × ConsensusStore
  | .saveTransactions li => ((), s.saveTransactions li)
  | .persistLedgerInfos lis => ((), s.persistLedgerInfos lis)
  | .unwindToBlock target =>
    match s.unwindToBlock target with
    | .ok (_, left) => ((), left)
    | .error _ => ((), s)

/-- The cache is the ledger info under the greatest block number. -/
def Coherent (s : ConsensusStore) : Prop := s.latestLedgerInfo = s.ledgerInfos.last.map (·.2)

instance : Decidable s.Coherent := inferInstanceAs (Decidable (_ = _))

/-- Ledger infos are stored under their own block numbers. -/
def Keyed (s : ConsensusStore) : Prop := ∀ e ∈ s.ledgerInfos, e.1 = e.2.ledgerInfo.targetBlock.2

/-- A ledger info that is saved is not of an earlier block than one that is stored. -/
def Newest (s : ConsensusStore) : LedgerWrite → Prop
  | .saveTransactions (some li) => ∀ e ∈ s.ledgerInfos, e.1 ≤ li.ledgerInfo.targetBlock.2
  | _ => True

theorem keyed_putLedgerInfos {db : ConsensusDb} (lis : List LedgerInfoWithSignatures)
    (h : ∀ e ∈ db.ledgerInfos, e.1 = e.2.ledgerInfo.targetBlock.2) :
    ∀ e ∈ (db.putLedgerInfos lis).ledgerInfos, e.1 = e.2.ledgerInfo.targetBlock.2 := by
  induction lis generalizing db with
  | nil => exact h
  | cons li rest ih =>
    exact ih (Table.forall_mem_put h rfl)

theorem Keyed.write (h : s.Keyed) (w : LedgerWrite) : (s.write w).2.Keyed := by
  cases w with
  | saveTransactions li =>
    cases li with
    | none => exact h
    | some li => exact keyed_putLedgerInfos [li] h
  | persistLedgerInfos lis =>
    simp only [ConsensusStore.write, persistLedgerInfos]
    split
    · exact h
    · exact keyed_putLedgerInfos lis h
  | unwindToBlock target =>
    simp only [ConsensusStore.write]
    split
    · rename_i left hleft
      obtain ⟨deleted, -, -, rfl⟩ := unwindToBlock_ok hleft
      exact fun e he => h e (List.mem_of_mem_filter he)
    · exact h

/-- The table answers with the ledger info that was just saved exactly when it is the newest. -/
theorem coherent_saveTransactions_iff (h : s.Keyed) (li : LedgerInfoWithSignatures) :
    (s.saveTransactions (some li)).Coherent ↔ s.Newest (.saveTransactions (some li)) := by
  have hself : (s.saveTransactions (some li)).ledgerInfos.get li.ledgerInfo.targetBlock.2 =
    some li :=
    Table.get_put_self
  constructor
  · intro hcoherent e he
    obtain ⟨last, hlast, rfl⟩ := Option.map_eq_some_iff.mp hcoherent.symm
    have hkey := h.write (.saveTransactions (some last.2)) last (Table.mem_of_last hlast)
    rw [← hkey]
    by_cases hsame : e.1 = last.2.ledgerInfo.targetBlock.2
    · exact (hsame.trans hkey.symm).le
    · refine List.le_of_mem_argmax (f := fun e : Nat × LedgerInfoWithSignatures => e.1) ?_ hlast
      exact List.mem_cons_of_mem _ (List.mem_filter.mpr ⟨he, by simpa using hsame⟩)
  · intro hnewest
    have hmax : ∀ e ∈ (s.saveTransactions (some li)).ledgerInfos,
        e.1 ≤ li.ledgerInfo.targetBlock.2 := Table.forall_mem_put hnewest le_rfl
    unfold Coherent
    rw [Table.last_of_get hself hmax]
    rfl

theorem coherent_write_iff (h : s.Keyed) (hcoherent : s.Coherent) (w : LedgerWrite) :
    (s.write w).2.Coherent ↔ s.Newest w := by
  cases w with
  | saveTransactions li =>
    cases li with
    | none => exact iff_of_true hcoherent trivial
    | some li => exact coherent_saveTransactions_iff h li
  | persistLedgerInfos lis =>
    refine iff_of_true ?_ trivial
    simp only [write, persistLedgerInfos]
    split
    · exact hcoherent
    · rfl
  | unwindToBlock target =>
    refine iff_of_true ?_ trivial
    simp only [write]
    split
    · rename_i left hleft
      obtain ⟨deleted, -, -, rfl⟩ := unwindToBlock_ok hleft
      rfl
    · exact hcoherent

/-- The cache is the newest stored ledger info after every write exactly when every ledger info that
is saved is, at that time, not older than those that are stored. -/
theorem latest_is_newest_iff (h : s.Keyed) (hcoherent : s.Coherent) (writes : List LedgerWrite) :
    AlongRun write (fun s w => (s.write w).2.Coherent) s writes ↔
      AlongRun write Newest s writes := by
  induction writes generalizing s with
  | nil => exact Iff.rfl
  | cons w rest ih =>
    have hhead := coherent_write_iff h hcoherent w
    simp only [AlongRun, hhead]
    refine and_congr_right fun hnewest => ?_
    exact ih (h.write w) (hhead.mpr hnewest)

end Liquent.ConsensusStore

/-! ### A commit behind a synchronisation -/

namespace Liquent.LateCommit

open Misc ConsensusStore

attribute [local instance] Permissive.ledger

def ledgerInfo (number : Nat) : LedgerInfoWithSignatures where
  ledgerInfo :=
    { commitInfo := BlockInfo.empty, consensusDataHash := 0
      blockHashAndNumber := some (number, number) }
  signatures := { signers := [], sig := none }

/-- Blocks 1 and 2 are synchronised, block 3 is committed, and the last one is unwound. -/
theorem newest_after_sync : AlongRun write (fun s w => (s.write w).2.Coherent) {}
    [.persistLedgerInfos [ledgerInfo 1, ledgerInfo 2], .saveTransactions (some (ledgerInfo 3)),
      .unwindToBlock 2] := by
  have hkeyed : Keyed {} := List.forall_mem_nil _
  refine (latest_is_newest_iff hkeyed (rfl : Coherent {}) _).mpr ⟨trivial, ?_, trivial, trivial⟩
  change ∀ e ∈ [(2, ledgerInfo 2), (1, ledgerInfo 1)], e.1 ≤ 3
  decide

/-- The commit of block 1 is saved after blocks 1 and 2 were synchronised. -/
theorem stale_after_commit : ¬ AlongRun write (fun s w => (s.write w).2.Coherent) {}
    [.persistLedgerInfos [ledgerInfo 1, ledgerInfo 2],
      .saveTransactions (some (ledgerInfo 1))] := by
  rintro ⟨-, hcoherent, -⟩
  revert hcoherent
  decide

end Liquent.LateCommit
