import Liquent.ConsensusTypes.Data
import Liquent.Misc.Run
import Liquent.Misc.StateExcept

/-!
# The transaction buffer

`push_txns` appends a batch with its gas, and `pop_txns` removes batches from the front up to a
number of batches and an amount of gas; a first batch that alone exceeds the gas is removed anyway.
The scan adds the gas of a batch before it compares the sum with the limit, and sums are checked for
overflow.
-/

namespace Liquent.BlockBuffer

open Misc

/-- `TxnItem`, without the time at which it was inserted. -/
structure TxnItem (τ : Type) where
  txns : List τ
  gasLimit : Nat
deriving DecidableEq

variable {τ : Type} {buffer items : List (TxnItem τ)} {maxSize gasLimit total count : Nat}

/-- The gas of some batches. -/
def gasOf (items : List (TxnItem τ)) : Nat := (items.map (·.gasLimit)).sum

/-- The scan of `pop_txns`: how many of the batches fit, after `count` batches with `total` gas. -/
def splitPoint (maxSize gasLimit : Nat) : (total count : Nat) → List (TxnItem τ) → Except String Nat
  | _, _, [] => .ok 0
  | total, count, item :: rest => do
    ensure (total + item.gasLimit ≤ u64Max) "attempt to add with overflow"
    if gasLimit < total + item.gasLimit ∨ maxSize ≤ count then pure 0
    else do
      let n ← splitPoint maxSize gasLimit (total + item.gasLimit) (count + 1) rest
      pure (n + 1)

/-- `pop_txns` (`block_buffer_manager.rs:490`): the transactions, and what is left. -/
def popTxns (buffer : List (TxnItem τ)) (maxSize gasLimit : Nat) :
    Except String (List τ × List (TxnItem τ)) := do
  let splitPoint ← splitPoint maxSize gasLimit 0 0 buffer
  let n := if splitPoint = 0 ∧ buffer ≠ [] ∧ 0 < maxSize then 1 else splitPoint
  pure ((buffer.take n).flatMap (·.txns), buffer.drop n)

inductive TxnCall (τ : Type) where
  | push (txns : List τ) (gasLimit : Nat)
  | pop (maxSize gasLimit : Nat)
deriving DecidableEq

/-- A call, with what it returns.  A panic leaves the buffer as it is. -/
def txnStep (buffer : List (TxnItem τ)) : TxnCall τ → Except String (List τ) × List (TxnItem τ)
  | .push txns gasLimit => (.ok [], buffer ++ [⟨txns, gasLimit⟩])
  | .pop maxSize gasLimit =>
    match popTxns buffer maxSize gasLimit with
    | .ok (txns, rest) => (.ok txns, rest)
    | .error e => (.error e, buffer)

/-- The transactions that a call pushes. -/
def TxnCall.pushed : TxnCall τ → List τ
  | .push txns _ => txns
  | .pop _ _ => []

/-- A pop removes whole batches from the front, within its limits or one batch, and makes
progress. -/
def Accounted (buffer : List (TxnItem τ)) : TxnCall τ → Prop
  | .push _ _ => True
  | .pop maxSize gasLimit => ∃ n ≤ buffer.length,
    txnStep buffer (.pop maxSize gasLimit) =
      (.ok ((buffer.take n).flatMap (·.txns)), buffer.drop n) ∧
      n ≤ maxSize ∧ (gasOf (buffer.take n) ≤ gasLimit ∨ n = 1) ∧ (0 < maxSize → buffer ≠ [] → 0 < n)

/-- The gas of the batches that fit, with the batch after them, is a `u64`. -/
def GasFits (buffer : List (TxnItem τ)) : TxnCall τ → Prop
  | .push _ _ => True
  | .pop maxSize gasLimit => ∀ n < buffer.length, n ≤ maxSize → gasOf (buffer.take n) ≤ gasLimit →
    gasOf (buffer.take (n + 1)) ≤ u64Max

theorem splitPoint_ok {n : Nat} (h : splitPoint maxSize gasLimit total count items = .ok n)
    (hcount : count ≤ maxSize) (htotal : total ≤ gasLimit) :
    n ≤ items.length ∧ count + n ≤ maxSize ∧ total + gasOf (items.take n) ≤ gasLimit := by
  induction items generalizing total count n with
  | nil =>
    obtain rfl := Except.ok.inj h
    exact ⟨le_rfl, hcount, htotal⟩
  | cons item rest ih =>
    simp only [splitPoint, except_seq_ok_iff] at h
    obtain ⟨-, h⟩ := h
    split_ifs at h with hstop
    · obtain rfl := except_pure_ok_iff.mp h
      exact ⟨Nat.zero_le _, hcount, htotal⟩
    · obtain ⟨n, hrest, hn⟩ := except_bind_ok_iff.mp h
      obtain rfl := except_pure_ok_iff.mp hn
      obtain ⟨hlength, hsize, hgas⟩ := ih hrest (by omega) (by omega)
      refine ⟨Nat.succ_le_succ hlength, by omega, ?_⟩
      simp only [gasOf, List.take_succ_cons, List.map_cons, List.sum_cons] at hgas ⊢
      omega

/-- The scan ends without an overflow exactly when the sums that it computes are `u64`s. -/
theorem splitPoint_ok_iff (hcount : count ≤ maxSize) (htotal : total ≤ gasLimit) :
    (∃ n, splitPoint maxSize gasLimit total count items = .ok n) ↔
      ∀ n < items.length, count + n ≤ maxSize → total + gasOf (items.take n) ≤ gasLimit →
        total + gasOf (items.take (n + 1)) ≤ u64Max := by
  induction items generalizing total count with
  | nil => exact iff_of_true ⟨0, rfl⟩ nofun
  | cons item rest ih =>
    have hcons : ∀ n, gasOf ((item :: rest).take (n + 1)) =
      item.gasLimit + gasOf (rest.take n) := by
      intro n
      simp [gasOf]
    simp only [splitPoint, except_seq_ok_iff, ensure_ok_iff]
    constructor
    · rintro ⟨m, hfits, h⟩ n hn hsize hgas
      cases n with
      | zero => simpa [gasOf] using hfits
      | succ n =>
        rw [hcons] at hgas ⊢
        rw [if_neg (by omega)] at h
        obtain ⟨m', hrest, -⟩ := except_bind_ok_iff.mp h
        have hlater := (ih (by omega) (by omega)).mp ⟨m', hrest⟩ n (by simpa using hn) (by omega)
          (by omega)
        omega
    · intro h
      have hfits : total + item.gasLimit ≤ u64Max := by
        simpa [gasOf] using h 0 (by simp) hcount (by simpa [gasOf] using htotal)
      by_cases hstop : gasLimit < total + item.gasLimit ∨ maxSize ≤ count
      · exact ⟨0, hfits, by rw [if_pos hstop]; rfl⟩
      · obtain ⟨m, hm⟩ : ∃ m, splitPoint maxSize gasLimit (total + item.gasLimit) (count + 1) rest =
            .ok m := by
          refine (ih (by omega) (by omega)).mpr fun n hn hsize hgas => ?_
          have hlater := h (n + 1) (by simpa using hn) (by omega) (by rw [hcons]; omega)
          rw [hcons] at hlater
          omega
        exact ⟨m + 1, hfits, by rw [if_neg hstop, hm]; rfl⟩

/-- How many batches are removed when the scan has found a split point. -/
def removed (buffer : List (TxnItem τ)) (maxSize splitPoint : Nat) : Nat :=
  if splitPoint = 0 ∧ buffer ≠ [] ∧ 0 < maxSize then 1 else splitPoint

theorem txnStep_pop_cases (buffer : List (TxnItem τ)) (maxSize gasLimit : Nat) :
    (∃ e, splitPoint maxSize gasLimit 0 0 buffer = .error e ∧
      txnStep buffer (.pop maxSize gasLimit) = (.error e, buffer)) ∨
    ∃ m, splitPoint maxSize gasLimit 0 0 buffer = .ok m ∧ txnStep buffer (.pop maxSize gasLimit) =
        (.ok ((buffer.take (removed buffer maxSize m)).flatMap (·.txns)),
          buffer.drop (removed buffer maxSize m)) := by
  simp only [txnStep, popTxns]
  cases splitPoint maxSize gasLimit 0 0 buffer with
  | error e => exact .inl ⟨e, rfl, rfl⟩
  | ok m => exact .inr ⟨m, rfl, rfl⟩

theorem accounted_iff (buffer : List (TxnItem τ)) (call : TxnCall τ) :
    Accounted buffer call ↔ GasFits buffer call := by
  cases call with
  | push txns gasLimit => exact Iff.rfl
  | pop maxSize gasLimit =>
    have hscan : (∃ n, splitPoint maxSize gasLimit 0 0 buffer = .ok n) ↔
        GasFits buffer (.pop maxSize gasLimit) := by
      rw [splitPoint_ok_iff (Nat.zero_le _) (Nat.zero_le _)]
      simp only [Nat.zero_add, GasFits]
    rw [← hscan]
    rcases txnStep_pop_cases buffer maxSize gasLimit with ⟨e, hsplit, hstep⟩ | ⟨m, hsplit, hstep⟩
    · refine iff_of_false ?_ (by simp [hsplit])
      rintro ⟨n, -, hok, -⟩
      simp [hstep] at hok
    · refine iff_of_true ?_ ⟨m, hsplit⟩
      obtain ⟨hlength, hsize, hgas⟩ := splitPoint_ok hsplit (Nat.zero_le _) (Nat.zero_le _)
      refine ⟨removed buffer maxSize m, ?_, hstep, ?_⟩
      all_goals unfold removed; split_ifs with hfirst
      · exact List.length_pos_iff.mpr hfirst.2.1
      · exact hlength
      · exact ⟨hfirst.2.2, .inr rfl, fun _ _ => one_pos⟩
      · refine ⟨by omega, .inl (by omega), fun hmax hne => ?_⟩
        by_contra hzero
        exact hfirst ⟨by omega, hne, hmax⟩

/-- What a call returns with what it leaves is what was there with what it pushes. -/
theorem txnStep_conserves (buffer : List (TxnItem τ)) (call : TxnCall τ) :
    (txnStep buffer call).1.toOption.getD [] ++ (txnStep buffer call).2.flatMap (·.txns) =
      buffer.flatMap (·.txns) ++ call.pushed := by
  cases call with
  | push txns gasLimit => simp [txnStep, TxnCall.pushed, Except.toOption]
  | pop maxSize gasLimit =>
    rcases txnStep_pop_cases buffer maxSize gasLimit with ⟨e, -, hstep⟩ | ⟨m, -, hstep⟩
    · simp [hstep, TxnCall.pushed, Except.toOption]
    · simp [hstep, TxnCall.pushed, Except.toOption, ← List.flatMap_append]

/-- All pushes together are what was popped, in this order, and what is left. -/
theorem run_conserves (buffer : List (TxnItem τ)) (calls : List (TxnCall τ)) :
    (run txnStep buffer calls).1.flatMap (·.2.toOption.getD []) ++
        (run txnStep buffer calls).2.flatMap (·.txns) =
      buffer.flatMap (·.txns) ++ calls.flatMap TxnCall.pushed := by
  induction calls generalizing buffer with
  | nil => simp
  | cons call rest ih =>
    have hstep := txnStep_conserves buffer call
    simp only [run_cons, List.flatMap_cons, List.append_assoc, ih]
    rw [← List.append_assoc, hstep, List.append_assoc]

/-- Nothing is lost, and every pop is within its limits, exactly when no sum of gas overflows. -/
theorem buffer_accounted_iff (calls : List (TxnCall τ)) :
    ((run txnStep [] calls).1.flatMap (·.2.toOption.getD []) ++
        (run txnStep [] calls).2.flatMap (·.txns) = calls.flatMap TxnCall.pushed ∧
      AlongRun txnStep Accounted [] calls) ↔ AlongRun txnStep GasFits [] calls := by
  have hsame : @Accounted τ = GasFits := by
    funext buffer call
    exact propext (accounted_iff buffer call)
  rw [hsame]
  exact and_iff_right (run_conserves [] calls)

/-- A batch with the largest gas waits behind another one, and the next pop panics. -/
theorem pop_overflows : ¬ AlongRun txnStep Accounted []
    [TxnCall.push [1] 1, TxnCall.push [2] u64Max, TxnCall.pop 2 5] := by
  rintro ⟨-, -, ⟨n, -, hstep, -⟩, -⟩
  cases hstep

end Liquent.BlockBuffer
