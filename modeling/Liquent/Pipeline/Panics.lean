import Liquent.Pipeline.BufferManager

/-!
# Panics of the pipeline

Three panics of the source are to be out of reach: that an aggregated item is not found in the
buffer, that a commit proof arrives for an item that is aggregated already, and that an execution
response arrives for an item that is not ordered.  All other panics have other messages.
-/

namespace Liquent.Pipeline

open Misc

/-- The panic of `advance_to_executed_or_aggregated` for an item that has been executed. -/
def notOrderedMessage : String := "Only ordered blocks can advance to executed blocks."

/-- The `unreachable!` of `advance_head` and of `try_advance_to_aggregated_with_ledger_info`. -/
def unreachableMessages : List String :=
  ["Aggregated item not found in the list",
    "Found aggregated buffer item but any aggregated buffer item should get dequeued " ++
      "right away."]

/-- The panics that the cursors rule out. -/
def crashMessages : List String := notOrderedMessage :: unreachableMessages

/-- A panic at an `unwrap` is none of them. -/
theorem unwrapNone_not_mem : unwrapNone ∉ crashMessages := by decide +kernel

/-- Nor is a failed aggregation of signatures. -/
theorem aggregationMessage_not_mem (e : String) :
    s!"Failed to generate aggregated signature: {e}" ∉ crashMessages := by
  have hstart : ∀ message, s!"Failed to generate aggregated signature: {e}" = message →
      message.toList.take 2 = ['F', 'a'] := by
    rintro message rfl
    simp [toString]
  intro hmem
  exact absurd (hstart _ rfl) ((by decide +kernel :
    ∀ message ∈ crashMessages, message.toList.take 2 ≠ ['F', 'a']) _ hmem)

variable {message : String}

theorem checkedAdd_error {a b : Nat} (h : checkedAdd a b = .error message) :
    message ∉ crashMessages := by
  unfold checkedAdd at h
  split at h
  · cases h
  · obtain rfl := Except.error.inj h
    decide +kernel

variable {info : Option EpochBlockInfo}

section Items

variable {item : BufferItem} {message : String}

theorem ensure_error_not_mem {c : Prop} [Decidable c] {e : String} (he : e ∉ crashMessages)
    (h : ensure c e = .error message) : message ∉ crashMessages := by
  obtain ⟨-, rfl⟩ := ensure_error_iff.mp h
  exact he

theorem advanceToSigned_error {author : Author} {signature : Signature}
    (h : item.advanceToSigned author signature = .error message) : message ∉ crashMessages := by
  cases item with
  | executed item => cases h
  | ordered | signed | aggregated =>
    obtain rfl := Except.error.inj h
    decide +kernel

theorem tryAdvanceWithLedgerInfo_error [LedgerApi] {proof : LedgerInfoWithSignatures}
    (hitem : item.isAggregated = false)
    (h : item.tryAdvanceToAggregatedWithLedgerInfo proof = .error message) :
    message ∉ crashMessages := by
  cases item with
  | aggregated item => cases hitem
  | ordered item | executed item | signed item =>
    simp only [BufferItem.tryAdvanceToAggregatedWithLedgerInfo] at h
    rcases except_bind_error_iff.mp h with h | ⟨_, -, h⟩
    · exact ensure_error_not_mem (by decide +kernel) h
    · cases h

theorem applyPendingCommitProof_error [LedgerApi] {proof : Option LedgerInfoWithSignatures}
    {id : HashValue} (h : BufferManager.applyPendingCommitProof item proof id = .error message) :
    message ∉ crashMessages := by
  unfold BufferManager.applyPendingCommitProof at h
  split at h
  · split at h
    · rename_i hcond
      simp only [Bool.and_eq_true, Bool.not_eq_true'] at hcond
      exact tryAdvanceWithLedgerInfo_error hcond.1 h
    · cases h
  · cases h

variable [PipelineApi] {v : ValidatorVerifier}

theorem aggregateCommitProof_error {li : LedgerInfo} {verified : PartialSignatures}
    (h : BufferItem.aggregateCommitProof li verified v = .error message) :
    message ∉ crashMessages := by
  unfold BufferItem.aggregateCommitProof at h
  cases haggregate : PipelineApi.aggregateSignatures v verified.signatures with
  | ok sig =>
    rw [haggregate] at h
    cases h
  | error e =>
    rw [haggregate] at h
    obtain rfl := Except.error.inj h
    exact aggregationMessage_not_mem e

theorem tryAdvanceToAggregated_error (h : item.tryAdvanceToAggregated v = .error message) :
    message ∉ crashMessages := by
  cases item with
  | ordered item | aggregated item => cases h
  | executed item | signed item =>
    simp only [BufferItem.tryAdvanceToAggregated, BufferItem.aggregateIfEnough] at h
    split at h
    · exact aggregateCommitProof_error (except_map_error_iff.mp h)
    · cases h

theorem countVotes_error [LedgerApi] {m : BufferManager} {votes : List CommitVote}
    {vote : CommitVote}
    (h : m.countVotes item votes vote = .error message) : message ∉ crashMessages := by
  simp only [BufferManager.countVotes] at h
  split at h
  · exact tryAdvanceToAggregated_error h
  · cases h

omit [PipelineApi] in
theorem executedCommitInfo_error [Crypto] {block : PipelinedBlock} {epochEnd : Option Nat}
    (h : BufferItem.executedCommitInfo block epochEnd info = .error message) :
    message ∉ crashMessages := by
  have hcorrected := except_map_error_iff.mp h
  split at hcorrected
  · split at hcorrected
    · split at hcorrected
      · cases hcorrected
      · obtain rfl := Except.error.inj hcorrected
        decide +kernel
    · cases hcorrected
  · cases hcorrected

/-- The execution of an ordered item panics for other reasons only. -/
theorem advanceToExecutedOrAggregated_error [Crypto] {blocks : List PipelinedBlock}
    {epochEnd : Option Nat} {orderVoteEnabled : Bool}
    (h : item.advanceToExecutedOrAggregated blocks v epochEnd orderVoteEnabled info =
      .error message) :
    message ∉ crashMessages ∨ item.isOrdered = false ∧ message = notOrderedMessage := by
  cases item with
  | executed item | signed item | aggregated item =>
    obtain rfl := Except.error.inj h
    exact .inr ⟨rfl, rfl⟩
  | ordered item =>
    left
    simp only [BufferItem.advanceToExecutedOrAggregated] at h
    rcases except_bind_error_iff.mp h with h | ⟨_, -, h⟩
    · exact ensure_error_not_mem (by decide +kernel) h
    rcases except_bind_error_iff.mp h with h | ⟨block, -, h⟩
    · obtain ⟨-, rfl⟩ := expect_error_iff.mp h
      decide +kernel
    rcases except_bind_error_iff.mp h with h | ⟨commitInfo, -, h⟩
    · exact executedCommitInfo_error h
    split at h
    · rcases except_bind_error_iff.mp h with h | ⟨_, -, h⟩
      · exact ensure_error_not_mem (by decide +kernel) h
      · cases h
    · rcases except_bind_error_iff.mp h with h | ⟨number, -, h⟩
      · obtain ⟨-, rfl⟩ := expect_error_iff.mp h
        decide +kernel
      · unfold BufferItem.advanceWithVotes at h
        dsimp only at h
        split at h
        · exact aggregateCommitProof_error (except_map_error_iff.mp h)
        · cases h

end Items

/-! ## Runs without these panics -/

section Spares

variable {bad : List String} (hbad : bad ⊆ crashMessages)

/-- None of these is the message of a panic. -/
def Spares (bad : List String) (panic : Panic) : Prop := panic.message ∉ bad

include hbad

theorem spares_of_not_mem (h : message ∉ crashMessages) (m : BufferManager) :
    Spares bad ⟨message, m⟩ := fun hmem => h (hbad hmem)

end Spares

end Liquent.Pipeline
