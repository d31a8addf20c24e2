import Liquent.BlockStorage.ConsensusDb
import Liquent.QuorumStore.Types

/-!
# Unwinding the consensus database

`ConsensusDB::unwind_to_block` (`consensusdb/mod.rs`, cited by line) deletes what belongs to blocks
after a target number.  Blocks are stored under an epoch and an identifier, and the numbers of
suffix blocks of one epoch occur again in the next; the scan goes through the epochs from the last
one down and stops at the first that has blocks and loses none of them.

`unwound_iff` says for which contents the result is what the command promises.
-/

namespace Liquent

open Misc

/-- The key of a block: its epoch and its identifier. -/
abbrev BlockKey := Nat × HashValue

/-- The database with the entries of `SingleEntrySchema`. -/
structure ConsensusStore extends ConsensusDb where
  lastVote : Option (List UInt8) := none
  highest2ChainTimeoutCert : Option (List UInt8) := none
deriving DecidableEq

/-- The batches of a payload that are deleted with its block. -/
def Payload.batchesToDelete : Payload → List BatchKey
  | .inQuorumStore proofs => proofs.map (·.info.key)
  | .inQuorumStoreWithLimit proofs _ => proofs.map (·.info.key)
  | .quorumStoreInlineHybrid inlineBatches proofs _ =>
    inlineBatches.map (·.1.key) ++ proofs.map (·.info.key)
  | .optQuorumStore payload => payload.optBatches.map (·.key) ++ payload.proofs.map (·.info.key)
  | .directMempool _ => []

namespace ConsensusDb

/-- `get_max_epoch` (450): the epoch of the last block. -/
def getMaxEpoch (db : ConsensusDb) : Nat := (db.blocks.keys.map (·.1)).max?.getD 1

/-- The blocks of an epoch, as `get_range` (375) returns them. -/
def blocksOfEpoch (db : ConsensusDb) (epoch : Nat) : List (BlockKey × Block) :=
  ((db.blocks.keys.filter fun key => InEpoch epoch key).insertionSort
    (·.2 ≤ ·.2)).filterMap fun key => (db.blocks.get key).map (key, ·)

/-- The number of a block: its own, or the one stored for it. -/
def numberOf (db : ConsensusDb) (key : BlockKey) (block : Block) : Option Nat :=
  block.blockNumber.or (db.blockNumbers.get key)

/-- Whether a block with the given number is kept. -/
def keepsNumber (target : Nat) : Option Nat → Except String Bool
  | some number => do
    ensure (target < u64Max) "attempt to add with overflow"
    pure (decide (number ≤ target + 1))
  | none => .ok false

/-- The blocks of a list that are not kept. -/
def staleBlocks (db : ConsensusDb) (target : Nat) :
    List (BlockKey × Block) → Except String (List (BlockKey × Block))
  | [] => .ok []
  | e :: rest => do
    let keep ← keepsNumber target (db.numberOf e.1 e.2)
    let stale ← db.staleBlocks target rest
    pure (if keep then stale else e :: stale)

/-- The loop over the epochs, downward from the given one: the blocks that are deleted. -/
def unwindEpochs (db : ConsensusDb) (target : Nat) : Nat → Except String (List (BlockKey × Block))
  | 0 => .ok []
  | epoch + 1 =>
    if db.blocksOfEpoch (epoch + 1) = [] then db.unwindEpochs target epoch
    else do
      let stale ← db.staleBlocks target (db.blocksOfEpoch (epoch + 1))
      -- the epoch keeps all its blocks: earlier ones are not looked at
      if stale = [] then pure []
      else do
        let earlier ← db.unwindEpochs target epoch
        pure (stale ++ earlier)

end ConsensusDb

namespace ConsensusStore

/-- The numbers that `get_range` returns from after the target up to the largest one, excluded. -/
def inRange (target number : Nat) : Bool := min (target + 1) u64Max ≤ number && number < u64Max

/-- The store after the deletions for the blocks with the given keys (359). -/
def delete (s : ConsensusStore) (target : Nat) (keys : List BlockKey) : ConsensusStore :=
  { s with
    blocks := s.blocks.retain (· ∉ keys)
    quorumCerts := s.quorumCerts.retain (· ∉ keys)
    blockNumbers := s.blockNumbers.retain (· ∉ keys)
    ledgerInfos := s.ledgerInfos.retain (!inRange target ·)
    epochByBlockNumber := s.epochByBlockNumber.retain (!inRange target ·)
    randomness := s.randomness.retain (!inRange target ·)
    lastVote := none
    highest2ChainTimeoutCert := none }

/-- `unwind_to_block` (484): the batches and epochs that the quorum store has to forget, and the
store. -/
def unwindToBlock (s : ConsensusStore) (target : Nat) :
    Except String ((List BatchKey × List Nat) × ConsensusStore) := do
  let maxEpoch := s.getMaxEpoch
  let deleted ← s.unwindEpochs target maxEpoch
  let batchesToDelete := deleted.flatMap fun e => (e.2.payload.map Payload.batchesToDelete).getD []
  let left := s.delete target (deleted.map (·.1))
  let cancelledEpochs := List.range' (left.getMaxEpoch + 1) (maxEpoch - left.getMaxEpoch)
  pure ((batchesToDelete, cancelledEpochs),
    { left with toConsensusDb := left.updateLatestLedgerInfo })

end ConsensusStore

/-! ## What is deleted -/

variable {deleted : List (BlockKey × Block)} {n : Nat}

namespace ConsensusDb

variable {db : ConsensusDb} {key : BlockKey} {block : Block} {epoch target : Nat}

/-- The number of the block under a key. -/
def number (db : ConsensusDb) (key : BlockKey) : Option Nat :=
  ((db.blocks.get key).bind (·.blockNumber)).or (db.blockNumbers.get key)

/-- The block under a key is after the target, or has no number. -/
def Stale (db : ConsensusDb) (target : Nat) (key : BlockKey) : Prop :=
  ∀ number ∈ db.number key, target < number

instance : Decidable (db.Stale target key) :=
  inferInstanceAs (Decidable (∀ number ∈ db.number key, target < number))

/-- An epoch has blocks and none of them is deleted, so that the scan stops there. -/
def Settled (db : ConsensusDb) (target epoch : Nat) : Prop :=
  db.blocksOfEpoch epoch ≠ [] ∧
    ∀ e ∈ db.blocksOfEpoch epoch, ∃ number ∈ db.number e.1, number ≤ target + 1

theorem mem_blocksOfEpoch : (key, block) ∈ db.blocksOfEpoch epoch ↔
    key.1 = epoch ∧ key.2 < HashValue.max ∧ db.blocks.get key = some block := by
  unfold blocksOfEpoch
  rw [List.mem_filterMap]
  constructor
  · rintro ⟨key', hkey', hget⟩
    obtain ⟨block', hblock', heq⟩ := Option.map_eq_some_iff.mp hget
    obtain ⟨rfl, rfl⟩ := Prod.mk.inj heq
    rw [List.mem_insertionSort, List.mem_filter] at hkey'
    have hrange := of_decide_eq_true hkey'.2
    exact ⟨hrange.1, hrange.2, hblock'⟩
  · rintro ⟨hepoch, hid, hget⟩
    refine ⟨key, ?_, by rw [hget]; rfl⟩
    rw [List.mem_insertionSort, List.mem_filter, Table.mem_keys_iff, hget]
    exact ⟨rfl, decide_eq_true ⟨hepoch, hid⟩⟩

theorem numberOf_eq (h : db.blocks.get key = some block) :
    db.numberOf key block = db.number key := by
  unfold numberOf number
  rw [h]
  rfl

theorem le_getMaxEpoch (h : key ∈ db.blocks.keys) : key.1 ≤ db.getMaxEpoch := by
  unfold getMaxEpoch
  have hmem : key.1 ∈ db.blocks.keys.map (·.1) := List.mem_map_of_mem h
  cases hmax : (db.blocks.keys.map (·.1)).max? with
  | none =>
    rw [List.max?_eq_none_iff] at hmax
    simp [hmax] at hmem
  | some top => exact (List.max?_eq_some_iff.mp hmax).2 _ hmem

variable {number : Option Nat}

theorem keepsNumber_eq_false (h : keepsNumber target number = .ok false) :
    ∀ n ∈ number, target + 1 < n := by
  intro n hn
  obtain rfl := Option.mem_def.mp hn
  simp only [keepsNumber, except_seq_ok_iff, except_pure_ok_iff] at h
  simpa using h.2

theorem keepsNumber_eq_true (h : keepsNumber target number = .ok true) :
    ∃ n ∈ number, n ≤ target + 1 := by
  cases number with
  | none => cases h
  | some n =>
    simp only [keepsNumber, except_seq_ok_iff, except_pure_ok_iff] at h
    exact ⟨n, rfl, by simpa using h.2⟩

variable {entries stale : List (BlockKey × Block)} {e : BlockKey × Block}

/-- Deleted are the blocks without a number or too far after the target. -/
theorem mem_staleBlocks (h : db.staleBlocks target entries = .ok stale) :
    e ∈ stale ↔ e ∈ entries ∧ ∀ n ∈ db.numberOf e.1 e.2, target + 1 < n := by
  induction entries generalizing stale with
  | nil =>
    obtain rfl := Except.ok.inj h
    simp
  | cons first rest ih =>
    simp only [staleBlocks, except_bind_ok_iff, except_pure_ok_iff] at h
    obtain ⟨keep, hkeep, stale', hstale', rfl⟩ := h
    cases keep with
    | true =>
      obtain ⟨n, hn, hle⟩ := keepsNumber_eq_true hkeep
      rw [if_pos rfl, ih hstale', List.mem_cons]
      constructor
      · rintro ⟨hmem, hnumber⟩
        exact ⟨.inr hmem, hnumber⟩
      · rintro ⟨rfl | hmem, hnumber⟩
        · exact absurd (hnumber n hn) (Nat.not_lt.mpr hle)
        · exact ⟨hmem, hnumber⟩
    | false =>
      have hnumber := keepsNumber_eq_false hkeep
      simp only [Bool.false_eq_true, if_false, List.mem_cons, ih hstale']
      constructor
      · rintro (rfl | ⟨hmem, hlater⟩)
        · exact ⟨.inl rfl, hnumber⟩
        · exact ⟨.inr hmem, hlater⟩
      · rintro ⟨rfl | hmem, hlater⟩
        · exact .inl rfl
        · exact .inr ⟨hmem, hlater⟩

/-- A number was read without an overflow. -/
theorem lt_of_keepsNumber {keep : Bool}
    (h : keepsNumber target number = .ok keep) (hsome : number.isSome) : target < u64Max := by
  cases number with
  | none => cases hsome
  | some n =>
    simp only [keepsNumber, except_seq_ok_iff, ensure_ok_iff] at h
    exact h.1

theorem lt_of_staleBlocks (h : db.staleBlocks target entries = .ok stale) (he : e ∈ entries)
    (hsome : (db.numberOf e.1 e.2).isSome) : target < u64Max := by
  induction entries generalizing stale with
  | nil => cases he
  | cons first rest ih =>
    simp only [staleBlocks, except_bind_ok_iff, except_pure_ok_iff] at h
    obtain ⟨keep, hkeep, stale', hstale', -⟩ := h
    rcases List.mem_cons.mp he with rfl | he
    · exact lt_of_keepsNumber hkeep hsome
    · exact ih hstale' he

/-- The scan down from `top` gets to an epoch. -/
def Visited (db : ConsensusDb) (target top epoch : Nat) : Prop :=
  1 ≤ epoch ∧ epoch ≤ top ∧ ∀ later, epoch < later → later ≤ top → ¬ db.Settled target later

variable {top : Nat}

theorem visited_self : db.Visited target (top + 1) (top + 1) := by
  refine ⟨Nat.succ_le_succ (Nat.zero_le _), le_rfl, ?_⟩
  intro later hlt hle
  omega

/-- An epoch that is not settled does not stop the scan. -/
theorem visited_succ (h : ¬ db.Settled target (top + 1)) (hne : epoch ≠ top + 1) :
    db.Visited target (top + 1) epoch ↔ db.Visited target top epoch := by
  constructor
  · rintro ⟨hpos, hle, hlater⟩
    refine ⟨hpos, by omega, ?_⟩
    intro later hlt hle'
    exact hlater later hlt (by omega)
  · rintro ⟨hpos, hle, hlater⟩
    refine ⟨hpos, by omega, ?_⟩
    intro later hlt hle'
    by_cases htop : later = top + 1
    · rw [htop]
      exact h
    · exact hlater later hlt (by omega)

theorem settled_of_staleBlocks_nil (hne : db.blocksOfEpoch epoch ≠ [])
    (h : db.staleBlocks target (db.blocksOfEpoch epoch) = .ok []) : db.Settled target epoch := by
  refine ⟨hne, ?_⟩
  rintro ⟨key, block⟩ he
  by_contra hnone
  have hlate : ∀ n ∈ db.numberOf key block, target + 1 < n := by
    rw [numberOf_eq (mem_blocksOfEpoch.mp he).2.2]
    intro n hn
    by_contra hle
    exact hnone ⟨n, hn, Nat.not_lt.mp hle⟩
  have hmem := (mem_staleBlocks h).mpr ⟨he, hlate⟩
  cases hmem

theorem not_settled_of_mem_stale
    (h : db.staleBlocks target (db.blocksOfEpoch epoch) = .ok stale) (he : e ∈ stale) :
    ¬ db.Settled target epoch := by
  rintro ⟨-, hall⟩
  obtain ⟨key, block⟩ := e
  obtain ⟨hmem, hlate⟩ := (mem_staleBlocks h).mp he
  obtain ⟨n, hn, hle⟩ := hall _ hmem
  rw [numberOf_eq (mem_blocksOfEpoch.mp hmem).2.2] at hlate
  exact absurd (hlate n hn) (Nat.not_lt.mpr hle)

/-- One scan deletes the late blocks of the epochs it visits, and reads the number of every block in
them. -/
structure Scanned (db : ConsensusDb) (target top : Nat) (deleted : List (BlockKey × Block)) :
    Prop where
  mem_iff : ∀ e, e ∈ deleted ↔ e ∈ db.blocksOfEpoch e.1.1 ∧ db.Visited target top e.1.1 ∧
    ∀ n ∈ db.numberOf e.1 e.2, target + 1 < n
  read : ∀ e ∈ db.blocksOfEpoch e.1.1, db.Visited target top e.1.1 →
    (db.numberOf e.1 e.2).isSome → target < u64Max

theorem epoch_of_mem (h : e ∈ db.blocksOfEpoch epoch) : e.1.1 = epoch :=
  (mem_blocksOfEpoch.mp h).1

theorem unwindEpochs_scanned
    (h : db.unwindEpochs target top = .ok deleted) : db.Scanned target top deleted := by
  induction top generalizing deleted with
  | zero =>
    obtain rfl := Except.ok.inj h
    have hnone : ∀ epoch, ¬ db.Visited target 0 epoch := by
      rintro epoch ⟨hpos, hle, -⟩
      omega
    constructor
    · intro e
      simp [hnone]
    · intro e _ hvisited
      exact absurd hvisited (hnone _)
  | succ top ih =>
    simp only [unwindEpochs] at h
    by_cases hempty : db.blocksOfEpoch (top + 1) = []
    · rw [if_pos hempty] at h
      have hrest := ih h
      have hnot : ¬ db.Settled target (top + 1) := fun hsettled => hsettled.1 hempty
      have hne : ∀ e : BlockKey × Block, e ∈ db.blocksOfEpoch e.1.1 → e.1.1 ≠ top + 1 := by
        intro e he heq
        simp [heq, hempty] at he
      constructor
      · intro e
        refine (hrest.mem_iff e).trans (and_congr_right fun he => ?_)
        rw [visited_succ hnot (hne e he)]
      · intro e he hvisited
        exact hrest.read e he ((visited_succ hnot (hne e he)).mp hvisited)
    · rw [if_neg hempty, except_bind_ok_iff] at h
      obtain ⟨stale, hstale, h⟩ := h
      by_cases hnil : stale = []
      · -- the scan stops at this epoch
        subst hnil
        rw [if_pos rfl, except_pure_ok_iff] at h
        subst h
        have hsettled := settled_of_staleBlocks_nil hempty hstale
        have htop : ∀ epoch, db.Visited target (top + 1) epoch → epoch = top + 1 := by
          rintro epoch ⟨-, hle, hlater⟩
          by_contra hne
          exact hlater (top + 1) (by omega) le_rfl hsettled
        constructor
        · intro e
          refine iff_of_false List.not_mem_nil ?_
          rintro ⟨he, hvisited, hlate⟩
          rw [htop _ hvisited] at he
          exact List.not_mem_nil ((mem_staleBlocks hstale).mpr ⟨he, hlate⟩)
        · intro e he hvisited hsome
          rw [htop _ hvisited] at he
          exact lt_of_staleBlocks hstale he hsome
      · rw [if_neg hnil, except_bind_ok_iff] at h
        obtain ⟨earlier, hearlier, h⟩ := h
        rw [except_pure_ok_iff] at h
        subst h
        have hrest := ih hearlier
        obtain ⟨first, hfirst⟩ := List.exists_mem_of_ne_nil stale hnil
        have hnot := not_settled_of_mem_stale hstale hfirst
        constructor
        · intro e
          rw [List.mem_append, mem_staleBlocks hstale, hrest.mem_iff e]
          by_cases htop : e.1.1 = top + 1
          · have hnever : ¬ db.Visited target top e.1.1 := by
              rintro ⟨-, hle, -⟩
              omega
            rw [htop]
            rw [htop] at hnever
            constructor
            · rintro (⟨he, hlate⟩ | ⟨-, hvisited, -⟩)
              · exact ⟨he, visited_self, hlate⟩
              · exact absurd hvisited hnever
            · rintro ⟨he, -, hlate⟩
              exact .inl ⟨he, hlate⟩
          · rw [visited_succ hnot htop]
            constructor
            · rintro (⟨he, -⟩ | h)
              · exact absurd (epoch_of_mem he) htop
              · exact h
            · exact .inr
        · intro e he hvisited hsome
          by_cases htop : e.1.1 = top + 1
          · rw [htop] at he
            exact lt_of_staleBlocks hstale he hsome
          · exact hrest.read e he ((visited_succ hnot htop).mp hvisited) hsome

/-- Nothing is deleted when the last epoch with blocks is kept as a whole. -/
theorem unwindEpochs_eq_nil (h : ∀ epoch, 1 ≤ epoch → epoch ≤ top →
      (∀ later, epoch < later → later ≤ top → db.blocksOfEpoch later = []) →
      db.staleBlocks target (db.blocksOfEpoch epoch) = .ok []) :
    db.unwindEpochs target top = .ok [] := by
  induction top with
  | zero => rfl
  | succ top ih =>
    simp only [unwindEpochs]
    by_cases hempty : db.blocksOfEpoch (top + 1) = []
    · rw [if_pos hempty]
      apply ih
      intro epoch hpos hle hlater
      apply h epoch hpos (by omega)
      intro later hlt hle'
      by_cases htop : later = top + 1
      · rw [htop]
        exact hempty
      · exact hlater later hlt (by omega)
    · have hstale : db.staleBlocks target (db.blocksOfEpoch (top + 1)) = .ok [] := by
        apply h (top + 1) (by omega) le_rfl
        intro later hlt hle
        omega
      rw [if_neg hempty, hstale]
      rfl

theorem staleBlocks_eq_nil
    (h : ∀ e ∈ entries, keepsNumber target (db.numberOf e.1 e.2) = .ok true) :
    db.staleBlocks target entries = .ok [] := by
  induction entries with
  | nil => rfl
  | cons first rest ih =>
    have hfirst := h first List.mem_cons_self
    have hrest := ih (List.forall_mem_cons.mp h).2
    simp only [staleBlocks, hfirst, hrest]
    rfl

theorem keepsNumber_of_le (htarget : target < u64Max)
    (hn : n ∈ number) (hle : n ≤ target + 1) : keepsNumber target number = .ok true := by
  obtain rfl := Option.mem_def.mp hn
  have hensure : ensure (target < u64Max) "attempt to add with overflow" = .ok () := by
    rw [ensure_ok_iff]
    exact htarget
  simp only [keepsNumber, hensure, decide_eq_true hle]
  rfl

/-- The block under a key is deleted: it is late and in an epoch that the scan visits. -/
def Dropped (db : ConsensusDb) (target : Nat) (key : BlockKey) : Prop :=
  (∃ block, (key, block) ∈ db.blocksOfEpoch key.1) ∧ db.Visited target db.getMaxEpoch key.1 ∧
    ∀ n ∈ db.number key, target + 1 < n

theorem Scanned.mem_keys_iff (key : BlockKey) (h : db.Scanned target db.getMaxEpoch deleted) :
    key ∈ deleted.map (·.1) ↔ db.Dropped target key := by
  rw [List.mem_map]
  constructor
  · rintro ⟨⟨key', block⟩, he, rfl⟩
    obtain ⟨hmem, hvisited, hlate⟩ := (h.mem_iff _).mp he
    rw [numberOf_eq (mem_blocksOfEpoch.mp hmem).2.2] at hlate
    exact ⟨⟨block, hmem⟩, hvisited, hlate⟩
  · rintro ⟨⟨block, hmem⟩, hvisited, hlate⟩
    rw [← numberOf_eq (mem_blocksOfEpoch.mp hmem).2.2] at hlate
    exact ⟨(key, block), (h.mem_iff _).mpr ⟨hmem, hvisited, hlate⟩, rfl⟩

theorem not_settled_of_getMaxEpoch_lt (h : db.getMaxEpoch < epoch) : ¬ db.Settled target epoch := by
  rintro ⟨hne, -⟩
  obtain ⟨⟨key, block⟩, he⟩ := List.exists_mem_of_ne_nil _ hne
  obtain ⟨rfl, -, hget⟩ := mem_blocksOfEpoch.mp he
  have hkey : key ∈ db.blocks.keys := Table.mem_keys_iff_get.mpr ⟨block, hget⟩
  exact absurd (le_getMaxEpoch hkey) (Nat.not_le.mpr h)

end ConsensusDb

/-! ## Exactness -/

namespace ConsensusStore

open ConsensusDb

variable {s s' : ConsensusStore} {target : Nat} {key : BlockKey} {out : List BatchKey × List Nat}

/-- What one run of `unwind_to_block` did. -/
theorem unwindToBlock_ok (h : s.unwindToBlock target = .ok (out, s')) :
    ∃ deleted, s.unwindEpochs target s.getMaxEpoch = .ok deleted ∧
      out.1 = deleted.flatMap (fun e => (e.2.payload.map Payload.batchesToDelete).getD []) ∧
      s' = { s.delete target (deleted.map (·.1)) with
        toConsensusDb := (s.delete target (deleted.map (·.1))).updateLatestLedgerInfo } := by
  simp only [unwindToBlock, except_bind_ok_iff, except_pure_ok_iff, Prod.mk.injEq] at h
  obtain ⟨deleted, hdeleted, hout, hstore⟩ := h
  exact ⟨deleted, hdeleted, by rw [← hout], hstore.symm⟩

/-- Nothing is stored for a block. -/
def NoBlock (s : ConsensusStore) (key : BlockKey) : Prop :=
  s.blocks.get key = none ∧ s.quorumCerts.get key = none ∧ s.blockNumbers.get key = none

/-- Nothing is stored for a number. -/
def NoNumber (s : ConsensusStore) (n : Nat) : Prop :=
  s.ledgerInfos.get n = none ∧ s.epochByBlockNumber.get n = none ∧ s.randomness.get n = none

/-- Two stores have the same entries for a block. -/
def SameBlock (s s' : ConsensusStore) (key : BlockKey) : Prop :=
  s'.blocks.get key = s.blocks.get key ∧ s'.quorumCerts.get key = s.quorumCerts.get key ∧
    s'.blockNumbers.get key = s.blockNumbers.get key

/-- Two stores have the same entries for a number. -/
def SameNumber (s s' : ConsensusStore) (n : Nat) : Prop :=
  s'.ledgerInfos.get n = s.ledgerInfos.get n ∧
    s'.epochByBlockNumber.get n = s.epochByBlockNumber.get n ∧
    s'.randomness.get n = s.randomness.get n

/-- The tables after a run, by the store before it. -/
structure Left (target : Nat) (s s' : ConsensusStore) : Prop where
  dropped : ∀ key, s.Dropped target key → s'.NoBlock key
  kept : ∀ key, ¬ s.Dropped target key → s.SameBlock s' key
  ranged : ∀ n, inRange target n = true → s'.NoNumber n
  outOfRange : ∀ n, inRange target n = false → s.SameNumber s' n
  lastVote : s'.lastVote = none
  highest2ChainTimeoutCert : s'.highest2ChainTimeoutCert = none

theorem left_of_ok (h : s.unwindToBlock target = .ok (out, s')) : Left target s s' := by
  obtain ⟨deleted, hdeleted, -, rfl⟩ := unwindToBlock_ok h
  have hkeys := fun key => (unwindEpochs_scanned hdeleted).mem_keys_iff key
  constructor
  · intro key hdropped
    have hmem := (hkeys key).mpr hdropped
    refine ⟨?_, ?_, ?_⟩ <;>
      simp only [delete, updateLatestLedgerInfo, Table.get_retain, hmem, not_true_eq_false,
        decide_false, Bool.false_eq_true, if_false]
  · intro key hkept
    have hmem : key ∉ deleted.map (·.1) := fun hmem => hkept ((hkeys key).mp hmem)
    refine ⟨?_, ?_, ?_⟩ <;>
      simp only [delete, updateLatestLedgerInfo, Table.get_retain, hmem, not_false_eq_true,
        decide_true, if_true]
  · intro n hn
    refine ⟨?_, ?_, ?_⟩ <;>
      simp only [delete, updateLatestLedgerInfo, Table.get_retain, hn, Bool.not_true,
        Bool.false_eq_true, if_false]
  · intro n hn
    refine ⟨?_, ?_, ?_⟩ <;>
      simp only [delete, updateLatestLedgerInfo, Table.get_retain, hn, Bool.not_false, if_true]
  · rfl
  · rfl

/-- What the command promises: entries of blocks after the target are gone, those of earlier blocks
are unchanged, and a second run changes nothing. -/
structure Unwound (target : Nat) (s s' : ConsensusStore) : Prop where
  stale : ∀ key, s.Stale target key → s'.NoBlock key
  notStale : ∀ key, ¬ s.Stale target key → s.SameBlock s' key
  after : ∀ n, target < n → s'.NoNumber n
  upTo : ∀ n ≤ target, s.SameNumber s' n
  lastVote : s'.lastVote = none
  highest2ChainTimeoutCert : s'.highest2ChainTimeoutCert = none
  again : s'.unwindToBlock target = .ok (([], []), s')

/-- The scan deletes a block: the block itself is stored, in an epoch from one on and not under the
largest identifier, its number is not the one after the target, and no later epoch keeps all its
blocks. -/
structure ReachedBlock (s : ConsensusStore) (target : Nat) (key : BlockKey) : Prop where
  stored : key ∈ s.blocks.keys
  epoch_pos : 1 ≤ key.1
  id_lt : key.2 < HashValue.max
  not_next : s.number key ≠ some (target + 1)
  not_stopped : ∀ later, key.1 < later → ¬ s.Settled target later

/-- The deletions reach every entry that has to go: those of blocks by the scan, those of numbers
because none is under the largest number. -/
structure Reached (s : ConsensusStore) (target : Nat) : Prop where
  blocks : ∀ key, s.Stale target key → ¬ s.NoBlock key → s.ReachedBlock target key
  numbers : ∀ n, target < n → u64Max ≤ n → s.NoNumber n

theorem inRange_iff : inRange target n = true ↔ target < n ∧ n < u64Max := by
  simp only [inRange, Bool.and_eq_true, decide_eq_true_eq]
  omega

theorem stale_of_dropped (h : s.Dropped target key) : s.Stale target key := by
  intro n hn
  have := h.2.2 n hn
  omega

theorem reachedBlock_iff (hstale : s.Stale target key) :
    s.ReachedBlock target key ↔ s.Dropped target key := by
  constructor
  · intro h
    obtain ⟨block, hget⟩ := Table.mem_keys_iff_get.mp h.stored
    refine ⟨⟨block, mem_blocksOfEpoch.mpr ⟨rfl, h.id_lt, hget⟩⟩, ⟨h.epoch_pos, ?_, ?_⟩, ?_⟩
    · exact le_getMaxEpoch h.stored
    · intro later hlt _
      exact h.not_stopped later hlt
    · intro n hn
      have hlt := hstale n hn
      have hne : n ≠ target + 1 := by
        intro heq
        apply h.not_next
        rw [← heq]
        exact hn
      omega
  · rintro ⟨⟨block, hmem⟩, ⟨hpos, -, hlater⟩, hlate⟩
    obtain ⟨-, hid, hget⟩ := mem_blocksOfEpoch.mp hmem
    refine ⟨?_, hpos, hid, ?_, ?_⟩
    · exact Table.mem_keys_iff_get.mpr ⟨block, hget⟩
    · intro hnext
      exact absurd (hlate _ hnext) (lt_irrefl _)
    · intro later hlt
      by_cases hle : later ≤ s.getMaxEpoch
      · exact hlater later hlt hle
      · exact not_settled_of_getMaxEpoch_lt (Nat.not_le.mp hle)

theorem SameBlock.noBlock_iff (h : s.SameBlock s' key) : s'.NoBlock key ↔ s.NoBlock key := by
  unfold NoBlock
  rw [h.1, h.2.1, h.2.2]

theorem SameNumber.noNumber_iff (h : s.SameNumber s' n) : s'.NoNumber n ↔ s.NoNumber n := by
  unfold NoNumber
  rw [h.1, h.2.1, h.2.2]

/-- The number of a block that is kept is still there. -/
theorem number_of_same (h : s.SameBlock s' key) : s'.number key = s.number key := by
  unfold number
  rw [h.1, h.2.2]

/-- The last epoch that still has blocks keeps all of them in a second run, because the first run
would have deleted them otherwise. -/
theorem unwindEpochs_again (hleft : Left target s s')
    (hscan : s.Scanned target s.getMaxEpoch deleted) :
    s'.unwindEpochs target s'.getMaxEpoch = .ok [] := by
  apply unwindEpochs_eq_nil
  intro epoch hpos _ hlater
  apply staleBlocks_eq_nil
  rintro ⟨key, block⟩ he
  obtain ⟨rfl, hid, hget'⟩ := mem_blocksOfEpoch.mp he
  have hkept : ¬ s.Dropped target key := by
    intro hdropped
    simp [(hleft.dropped key hdropped).1] at hget'
  have hsame := hleft.kept key hkept
  have hget : s.blocks.get key = some block := by
    rw [← hsame.1]
    exact hget'
  have hmem : (key, block) ∈ s.blocksOfEpoch key.1 := mem_blocksOfEpoch.mpr ⟨rfl, hid, hget⟩
  have hstored : key ∈ s.blocks.keys := Table.mem_keys_iff_get.mpr ⟨block, hget⟩
  -- an epoch that had stopped the first run would still have its blocks
  have hvisited : s.Visited target s.getMaxEpoch key.1 := by
    refine ⟨hpos, le_getMaxEpoch hstored, ?_⟩
    intro later hlt _ hsettled
    obtain ⟨hne, hall⟩ := hsettled
    obtain ⟨⟨key₂, block₂⟩, he₂⟩ := List.exists_mem_of_ne_nil _ hne
    obtain ⟨rfl, hid₂, hget₂⟩ := mem_blocksOfEpoch.mp he₂
    obtain ⟨n, hn, hle⟩ := hall _ he₂
    have hkept₂ : ¬ s.Dropped target key₂ := by
      intro hdropped
      have hlate := hdropped.2.2 n hn
      omega
    have hget₂' : s'.blocks.get key₂ = some block₂ := by
      rw [(hleft.kept key₂ hkept₂).1]
      exact hget₂
    have hmem₂ : (key₂, block₂) ∈ s'.blocksOfEpoch key₂.1 :=
      mem_blocksOfEpoch.mpr ⟨rfl, hid₂, hget₂'⟩
    have hstored₂ : key₂ ∈ s'.blocks.keys := Table.mem_keys_iff_get.mpr ⟨block₂, hget₂'⟩
    simp [hlater key₂.1 hlt (le_getMaxEpoch hstored₂)] at hmem₂
  have hnumber : ∃ n ∈ s.number key, n ≤ target + 1 := by
    by_contra hnone
    apply hkept
    refine ⟨⟨block, hmem⟩, hvisited, ?_⟩
    intro n hn
    by_contra hle
    exact hnone ⟨n, hn, Nat.not_lt.mp hle⟩
  obtain ⟨n, hn, hle⟩ := hnumber
  have htarget : target < u64Max := by
    apply hscan.read _ hmem hvisited
    rw [numberOf_eq hget, Option.mem_def.mp hn]
    rfl
  rw [numberOf_eq hget', number_of_same hsame]
  exact keepsNumber_of_le htarget hn hle

theorem delete_nil (hnumbers : ∀ n, inRange target n = true → s.NoNumber n)
    (hvote : s.lastVote = none) (hcert : s.highest2ChainTimeoutCert = none) :
    s.delete target [] = s := by
  have hkeys : ∀ {ν : Type} (t : Table Nat ν), (∀ n, inRange target n = true → t.get n = none) →
      t.retain (!inRange target ·) = t := by
    intro ν t hnone
    apply Table.retain_eq_self
    intro n hn
    rw [Table.mem_keys_iff] at hn
    cases hrange : inRange target n with
    | false => rfl
    | true => simp [hnone n hrange] at hn
  have hall : ∀ {ν : Type} (t : Table BlockKey ν),
      t.retain (fun key => decide (key ∉ ([] : List BlockKey))) = t := by
    intro ν t
    apply Table.retain_eq_self
    simp
  have hledger := hkeys s.ledgerInfos fun n hn => (hnumbers n hn).1
  have hepoch := hkeys s.epochByBlockNumber fun n hn => (hnumbers n hn).2.1
  have hrandom := hkeys s.randomness fun n hn => (hnumbers n hn).2.2
  unfold delete
  rw [hledger, hepoch, hrandom, hall, hall, hall]
  cases s
  subst hvote hcert
  rfl

theorem unwindToBlock_again (h : s.unwindToBlock target = .ok (out, s')) :
    s'.unwindToBlock target = .ok (([], []), s') := by
  have hleft := left_of_ok h
  obtain ⟨deleted, hdeleted, -, hs'⟩ := unwindToBlock_ok h
  have hagain := unwindEpochs_again hleft (unwindEpochs_scanned hdeleted)
  have hsame := delete_nil hleft.ranged hleft.lastVote hleft.highest2ChainTimeoutCert
  have hlatest : s'.updateLatestLedgerInfo = s'.toConsensusDb := by
    rw [hs']
    rfl
  unfold unwindToBlock
  rw [except_bind_ok_iff]
  refine ⟨[], hagain, ?_⟩
  simp only [List.map_nil, List.flatMap_nil, hsame, hlatest, Nat.sub_self, List.range'_zero]
  rfl

/-- The command keeps its promise exactly when every entry that has to go is in reach. -/
theorem unwound_iff (h : s.unwindToBlock target = .ok (out, s')) :
    Unwound target s s' ↔ s.Reached target := by
  have hleft := left_of_ok h
  have houtside : ∀ n, ¬ (target < n ∧ n < u64Max) → s.SameNumber s' n := by
    intro n hn
    exact hleft.outOfRange n (Bool.eq_false_iff.mpr (inRange_iff.not.mpr hn))
  constructor
  · intro hunwound
    constructor
    · intro key hstale hentry
      rw [reachedBlock_iff hstale]
      by_contra hkept
      exact hentry ((hleft.kept key hkept).noBlock_iff.mp (hunwound.stale key hstale))
    · intro n hlt hge
      exact (houtside n (by omega)).noNumber_iff.mp (hunwound.after n hlt)
  · intro hreached
    refine ⟨?_, ?_, ?_, ?_, hleft.lastVote, hleft.highest2ChainTimeoutCert, unwindToBlock_again h⟩
    · intro key hstale
      by_cases hdropped : s.Dropped target key
      · exact hleft.dropped key hdropped
      · have hnone : s.NoBlock key := by
          by_contra hentry
          exact hdropped ((reachedBlock_iff hstale).mp (hreached.blocks key hstale hentry))
        exact (hleft.kept key hdropped).noBlock_iff.mpr hnone
    · intro key hnot
      exact hleft.kept key fun hdropped => hnot (stale_of_dropped hdropped)
    · intro n hlt
      by_cases hn : n < u64Max
      · exact hleft.ranged n (inRange_iff.mpr ⟨hlt, hn⟩)
      · have hnone := hreached.numbers n hlt (Nat.not_lt.mp hn)
        exact (houtside n fun hrange => hn hrange.2).noNumber_iff.mpr hnone
    · intro n hle
      exact houtside n (by omega)

theorem noBlock_of_notMem (hblock : key ∉ s.blocks.keys) (hcert : key ∉ s.quorumCerts.keys)
    (hnumber : key ∉ s.blockNumbers.keys) : s.NoBlock key :=
  ⟨Table.get_eq_none hblock, Table.get_eq_none hcert, Table.get_eq_none hnumber⟩

theorem noNumber_of_notMem (hledger : n ∉ s.ledgerInfos.keys)
    (hepoch : n ∉ s.epochByBlockNumber.keys) (hrandom : n ∉ s.randomness.keys) :
    s.NoNumber n :=
  ⟨Table.get_eq_none hledger, Table.get_eq_none hepoch, Table.get_eq_none hrandom⟩

end ConsensusStore

/-! ## The command and the quorum store -/

/-- All batches that a payload refers to. -/
def Payload.batches : Payload → List BatchKey
  | .inQuorumStore proofs => proofs.map (·.info.key)
  | .inQuorumStoreWithLimit proofs _ => proofs.map (·.info.key)
  | .quorumStoreInlineHybrid inlineBatches proofs _ =>
    inlineBatches.map (·.1.key) ++ proofs.map (·.info.key)
  | .optQuorumStore payload =>
    payload.inlineBatches.map (·.1.key) ++ payload.optBatches.map (·.key) ++
      payload.proofs.map (·.info.key)
  | .directMempool _ => []

def Block.batches (b : Block) : List BatchKey := (b.payload.map Payload.batches).getD []

def Block.batchesToDelete (b : Block) : List BatchKey :=
  (b.payload.map Payload.batchesToDelete).getD []

/-- The epochs whose batch identifiers are deleted: the cancelled ones, and those after the last
epoch that is left. -/
def allCancelledEpochs (maxRetained : Nat) (cancelled : List Nat) (epochs : List Nat) : List Nat :=
  epochs.foldl
    (fun all epoch => if maxRetained < epoch ∧ epoch ∉ all then all ++ [epoch] else all) cancelled

/-- `UnwindCommand::execute` (`unwind.rs:24`) on the two databases. -/
def unwindCommand (target : Nat) (s : ConsensusStore) (qs : QuorumStoreDb) :
    Except String (ConsensusStore × QuorumStoreDb) := do
  let ((batchesToDelete, cancelledEpochs), s') ←
    (s.unwindToBlock target).mapError fun e => s!"Failed to unwind consensus DB: {e}"
  let epochs := allCancelledEpochs s'.getMaxEpoch cancelledEpochs qs.getAllBatchIdEpochs
  let qs := if batchesToDelete = [] then qs else qs.deleteBatches batchesToDelete
  pure (s', epochs.foldl QuorumStoreDb.deleteBatchId qs)

namespace ConsensusStore

open ConsensusDb

variable {s s' : ConsensusStore} {qs qs' : QuorumStoreDb} {target : Nat}

theorem batches_foldl_deleteBatchId (epochs : List Nat) :
    (epochs.foldl QuorumStoreDb.deleteBatchId qs).batches = qs.batches := by
  induction epochs generalizing qs with
  | nil => rfl
  | cons epoch rest ih =>
    rw [List.foldl_cons, ih]
    rfl

/-- The quorum store loses the batches that are deleted with a block. -/
theorem getBatch_unwindCommand (h : unwindCommand target s qs = .ok (s', qs')) :
    ∃ out, s.unwindToBlock target = .ok (out, s') ∧
      ∀ key, qs'.getBatch key = if key ∈ out.1 then none else qs.getBatch key := by
  simp only [unwindCommand, except_bind_ok_iff, except_mapError_ok_iff, except_pure_ok_iff,
    Prod.mk.injEq] at h
  obtain ⟨⟨⟨batchesToDelete, cancelledEpochs⟩, left⟩, hunwind, rfl, rfl⟩ := h
  refine ⟨_, hunwind, ?_⟩
  intro key
  unfold QuorumStoreDb.getBatch
  rw [batches_foldl_deleteBatchId]
  by_cases hempty : batchesToDelete = []
  · subst hempty
    simp
  · rw [if_neg hempty]
    exact QuorumStoreDb.getBatch_deleteBatches

/-- A batch is deleted when a block that is deleted lists it. -/
theorem mem_batchesToDelete {out : List BatchKey × List Nat}
    (h : s.unwindToBlock target = .ok (out, s')) {batch : BatchKey} :
    batch ∈ out.1 ↔ ∃ key block, s.blocks.get key = some block ∧ s.Dropped target key ∧
      batch ∈ block.batchesToDelete := by
  obtain ⟨deleted, hdeleted, hout, -⟩ := unwindToBlock_ok h
  have hscan := unwindEpochs_scanned hdeleted
  rw [hout, List.mem_flatMap]
  constructor
  · rintro ⟨⟨key, block⟩, he, hbatch⟩
    have hmem := ((hscan.mem_iff _).mp he).1
    have hdropped := (hscan.mem_keys_iff _).mp (List.mem_map_of_mem he)
    exact ⟨key, block, (mem_blocksOfEpoch.mp hmem).2.2, hdropped, hbatch⟩
  · rintro ⟨key, block, hget, hdropped, hbatch⟩
    obtain ⟨⟨key', block'⟩, he, rfl⟩ := List.mem_map.mp ((hscan.mem_keys_iff _).mpr hdropped)
    have hget' := (mem_blocksOfEpoch.mp ((hscan.mem_iff _).mp he).1).2.2
    rw [hget] at hget'
    obtain rfl := Option.some.inj hget'
    exact ⟨(key', block), he, hbatch⟩

/-- No stored batch of a block that stays is listed by a block that is deleted. -/
def BatchesApart (s : ConsensusStore) (target : Nat) (qs : QuorumStoreDb) : Prop :=
  ∀ key block, s.blocks.get key = some block → ¬ s.Dropped target key →
    ∀ key' block', s.blocks.get key' = some block' → s.Dropped target key' →
      ∀ batch ∈ block.batches, batch ∈ block'.batchesToDelete → qs.getBatch batch = none

/-- The blocks that stay keep their batches exactly when they share none with the blocks that are
deleted. -/
theorem replayable_iff (h : unwindCommand target s qs = .ok (s', qs')) :
    (∀ key block, s'.blocks.get key = some block → ∀ batch ∈ block.batches,
      (qs.getBatch batch).isSome → qs'.getBatch batch = qs.getBatch batch) ↔
      s.BatchesApart target qs := by
  obtain ⟨out, hunwind, hget⟩ := getBatch_unwindCommand h
  have hleft := left_of_ok hunwind
  constructor
  · intro hkept key block hblock hnot key' block' hblock' hdropped batch hbatch hlisted
    have hmem := (mem_batchesToDelete hunwind).mpr ⟨key', block', hblock', hdropped, hlisted⟩
    have hblock₂ : s'.blocks.get key = some block := by
      rw [(hleft.kept key hnot).1]
      exact hblock
    cases hstored : qs.getBatch batch with
    | none => rfl
    | some value =>
      have hsame := hkept key block hblock₂ batch hbatch (by rw [hstored]; rfl)
      simp [hget batch, if_pos hmem, hstored] at hsame
  · intro hapart key block hblock batch hbatch hsome
    rw [hget batch]
    by_cases hmem : batch ∈ out.1
    · obtain ⟨key', block', hblock', hdropped, hlisted⟩ := (mem_batchesToDelete hunwind).mp hmem
      have hnot : ¬ s.Dropped target key := by
        intro hdropped
        simp [(hleft.dropped key hdropped).1] at hblock
      have hblock₂ : s.blocks.get key = some block := by
        rw [← (hleft.kept key hnot).1]
        exact hblock
      simp [hapart key block hblock₂ hnot key' block' hblock' hdropped batch hbatch
        hlisted] at hsome
    · rw [if_neg hmem]

end ConsensusStore

/-! ### Suffix blocks and the next epoch -/

namespace SuffixBlocks

/-- A certificate that nothing looks at. -/
def qc : QuorumCert where
  voteData := { proposed := BlockInfo.empty, parent := BlockInfo.empty }
  signedLedgerInfo :=
    { ledgerInfo := { commitInfo := BlockInfo.empty, consensusDataHash := 0 }
      signatures := { signers := [], sig := none } }

def block (epoch round : Nat) (payload : Payload) : Block where
  blockData :=
    { epoch := epoch, round := round, timestampUsecs := round, quorumCert := qc
      blockType := .proposal payload 0 [] }
  signature := none

/-- A store with blocks under the given keys and numbers. -/
def storeOf (blocks : List (BlockKey × Block)) (numbers : List (BlockKey × Nat)) :
    ConsensusStore where
  ledgerInfos := []
  epochByBlockNumber := [(1, 1), (2, 2), (4, 2)]
  latestLedgerInfo := none
  blocks := blocks
  quorumCerts := []
  blockNumbers := numbers
  randomness := []
  lastVote := some [1]

/-- Two committed blocks, and one after them in the next epoch. -/
def committed : ConsensusStore :=
  storeOf [((1, 11), block 1 1 (.directMempool [])), ((1, 12), block 1 2 (.directMempool [])),
    ((2, 13), block 2 1 (.directMempool []))] [((1, 11), 1), ((1, 12), 2), ((2, 13), 4)]

theorem reached_committed : committed.Reached 2 := by
  have hkeys : ∀ key, ¬ committed.NoBlock key → key = (1, 11) ∨ key = (1, 12) ∨ key = (2, 13) := by
    intro key hentry
    by_contra hother
    apply hentry
    have hnot : key ∉ [(1, 11), (1, 12), (2, 13)] := by simpa using hother
    exact ConsensusStore.noBlock_of_notMem hnot (by simp [committed, storeOf, Table.keys]) hnot
  constructor
  · intro key hstale hentry
    rcases hkeys key hentry with rfl | rfl | rfl
    · exact absurd (hstale 1 rfl) (by decide)
    · exact absurd (hstale 2 rfl) (by decide)
    · refine ⟨by decide, by decide, by decide, by decide, ?_⟩
      intro later hlater
      exact ConsensusDb.not_settled_of_getMaxEpoch_lt hlater
  · intro n hlt hge
    have hnot : n ∉ [1, 2, 4] := by
      have hmax : 4 < u64Max := by decide
      simp only [List.mem_cons, List.not_mem_nil, or_false]
      omega
    exact ConsensusStore.noNumber_of_notMem (by simp [committed, storeOf, Table.keys]) hnot
      (by simp [committed, storeOf, Table.keys])

theorem unwound_committed : ∃ out s', committed.unwindToBlock 2 = .ok (out, s') ∧
    ConsensusStore.Unwound 2 committed s' :=
  ⟨([], [2]), _, rfl, (ConsensusStore.unwound_iff rfl).mpr reached_committed⟩

/-- The first epoch ended with block 1; later blocks in it have the numbers of blocks of the next
one. -/
def overlapping : ConsensusStore :=
  storeOf [((1, 11), block 1 1 (.directMempool [])), ((1, 12), block 1 2 (.directMempool [])),
    ((1, 14), block 1 3 (.directMempool [])), ((2, 13), block 2 1 (.directMempool []))]
    [((1, 11), 1), ((1, 12), 2), ((1, 14), 5), ((2, 13), 2)]

/-- The second epoch keeps its block, so the last block of the first one is never looked at. -/
theorem not_unwound_overlapping : ∃ out s', overlapping.unwindToBlock 2 = .ok (out, s') ∧
    ¬ ConsensusStore.Unwound 2 overlapping s' := by
  refine ⟨([], []), _, rfl, ?_⟩
  intro hunwound
  have hstale : overlapping.Stale 2 (1, 14) := by decide
  have hgone := (hunwound.stale (1, 14) hstale).2.2
  cases hgone

/-! ### A batch in two blocks -/

def batchInfo (digest : HashValue) : BatchInfo where
  author := 0
  batchId := { id := digest, nonce := 0 }
  epoch := 1
  expiration := 10
  digest := digest
  numTxns := 0
  numBytes := 0
  gasBucketStart := 0

def proof (digest : HashValue) : ProofOfStore where
  info := batchInfo digest
  multiSignature := { signers := [], sig := none }

/-- The quorum store holds two batches. -/
def quorumStore : QuorumStoreDb where
  batches := [21, 22].map fun digest =>
    ((batchInfo digest).key, { info := batchInfo digest, maybePayload := some [] })
  batchIds := [(1, { id := 22, nonce := 0 })]

/-- A committed block, and a block of a fork that never got a number. -/
def forked (kept deleted : HashValue) : ConsensusStore :=
  storeOf [((1, 11), block 1 1 (.inQuorumStore [proof kept])),
    ((1, 12), block 1 2 (.inQuorumStore [proof deleted]))] [((1, 11), 1)]

theorem batchesApart_forked : (forked 21 22).BatchesApart 1 quorumStore := by
  have hfirst : ¬ (forked 21 22).Dropped 1 (1, 11) := by
    intro hdropped
    exact absurd (hdropped.2.2 1 rfl) (by decide)
  have hsecond : (forked 21 22).Dropped 1 (1, 12) := by
    refine ⟨⟨_, ConsensusDb.mem_blocksOfEpoch.mpr ⟨rfl, by decide, rfl⟩⟩,
      ⟨by decide, by decide, ?_⟩, by decide⟩
    intro later hlt hle
    have hmax : (forked 21 22).getMaxEpoch = 1 := by decide
    omega
  have hapart : ∀ e ∈ (forked 21 22).blocks, ∀ e' ∈ (forked 21 22).blocks, e.1 ≠ (1, 12) →
      e'.1 ≠ (1, 11) → ∀ batch ∈ e.2.batches, batch ∉ e'.2.batchesToDelete := by
    decide
  intro key block hblock hnot key' block' hblock' hdropped batch hbatch hlisted
  refine absurd hlisted
    (hapart _ (Table.mem_of_get hblock) _ (Table.mem_of_get hblock') ?_ ?_ batch hbatch)
  · rintro rfl
    exact hnot hsecond
  · rintro rfl
    exact hfirst hdropped

/-- With a batch of its own the committed block keeps it. -/
theorem replayable_forked : ∃ s' qs', unwindCommand 1 (forked 21 22) quorumStore = .ok (s', qs') ∧
    ∀ key block, s'.blocks.get key = some block → ∀ batch ∈ block.batches,
      (quorumStore.getBatch batch).isSome → qs'.getBatch batch = quorumStore.getBatch batch := by
  have hrun : unwindCommand 1 (forked 21 22) quorumStore = .ok (_, _) := rfl
  exact ⟨_, _, hrun, (ConsensusStore.replayable_iff hrun).mpr batchesApart_forked⟩

/-- The fork shares a batch with the committed block, whose transactions are then gone. -/
theorem not_replayable_forked :
    ∃ s' qs', unwindCommand 1 (forked 21 21) quorumStore = .ok (s', qs') ∧
      ∃ key block batch, s'.blocks.get key = some block ∧ batch ∈ block.batches ∧
        (quorumStore.getBatch batch).isSome ∧ qs'.getBatch batch = none :=
  ⟨_, _, rfl, (1, 11), _, (batchInfo 21).key, rfl, by decide, by decide, rfl⟩

end SuffixBlocks

end Liquent
