import Liquent.Pipeline.Cursors

/-!
# Repeated execution responses

A retry sends every batch from the execution root to the tail again, also a batch behind the root
that has been executed already.  Its second response still finds the item, as long as the root is
before it, and the item is no longer ordered.  A response is harmless when it is for the execution
root, or when it is the first for its batch.
-/

namespace Liquent.Pipeline

open Misc

/-- The batch that a successful execution response answers. -/
def Event.answered : Event → List HashValue
  | .executionResponse response _ => if response.inner.isOk then [response.blockId] else []
  | _ => []

/-- The panic for an item that is not ordered is not this one. -/
abbrev OtherPanic (panic : Panic) : Prop := Spares [notOrderedMessage] panic

theorem notOrdered_subset : [notOrderedMessage] ⊆ crashMessages := by decide

/-- Items that do not wait for their execution have been answered. -/
def ItemAnswered (answered : List HashValue) (key : HashValue) (item : BufferItem) : Prop :=
  item.isOrdered = false → key ∈ answered

/-- The same, and the execution root is none of them. -/
def Answered (answered : List HashValue) (m : BufferManager) : Prop :=
  m.buffer.HoldsAt fun key item =>
    ItemAnswered answered key item ∧ (m.executionRoot = some key → item.isOrdered = true)

section Walk

variable {answered : List HashValue} {m : BufferManager} {item item' : BufferItem}

theorem Answered.items (h : Answered answered m) : m.buffer.HoldsAt (ItemAnswered answered) :=
  h.mono fun _ _ hitem => hitem.1

theorem Answered.mono {answered' : List HashValue} (h : Answered answered m)
    (hsub : answered ⊆ answered') : Answered answered' m := by
  refine Buffer.HoldsAt.mono h ?_
  rintro key item ⟨hitem, hwaits⟩
  exact ⟨fun hordered => hsub (hitem hordered), hwaits⟩

/-- The search leaves the root at an item that waits. -/
theorem answered_rule (answered : List HashValue) :
    HandlerRule (Answered answered) (fun m => m.buffer.HoldsAt (ItemAnswered answered))
      OtherPanic where
  weak h := h.items
  panic := fun {m} _ _ hmessage => spares_of_not_mem notOrdered_subset hmessage m
  executionRoot := by
    intro m root h hfind key item elem hget helem
    refine ⟨h key item elem hget helem, ?_⟩
    rintro rfl
    exact Buffer.findElemFrom_compare hfind key item elem hget helem rfl
  signingRoot h _ := h
  send h _ := h
  latestRound h := h
  drain h := BufferManager.drainCachedCommitVotes_of fun _ => h

theorem otherPanic_of_ne {message : String} (h : message ≠ notOrderedMessage) :
    OtherPanic ⟨message, m⟩ := by
  simpa [Spares] using h

theorem Answered.replace {buffer : Buffer BufferItem} {key : HashValue} (h : Answered answered m)
    (hreplaces : Replaces m.buffer key item item' buffer)
    (hordered : item'.isOrdered = item.isOrdered) :
    Answered answered { m with buffer := buffer } := by
  refine hreplaces.holdsAt h ?_
  unfold ItemAnswered
  rw [hordered]
  exact fun hitem => hitem

variable [Crypto]

/-- A root that leaves with its item is harmless. -/
theorem Answered.advanceHead (h : Answered answered m) (target : HashValue) :
    Ensures (m.advanceHead target) (Answered answered) OtherPanic := by
  have hpop {m : BufferManager} {item : BufferItem} {buffer : Buffer BufferItem}
      (h : Answered answered m) (hpop : m.buffer.popFront = some (some item, buffer)) :
      Answered answered (m.popped item buffer) := by
    refine Buffer.HoldsAt.mono (h.popFront hpop).2 ?_
    rintro key other ⟨hother, hwaits⟩
    refine ⟨hother, fun hroot => hwaits ?_⟩
    change (if m.executionRoot = some item.blockId then none else m.executionRoot) =
      some key at hroot
    split at hroot
    · cases hroot
    · exact hroot
  exact ensures_popUntil (fun _ hmessage => otherPanic_of_ne hmessage) hpop
    (fun h hfront => hpop h hfront) h

variable [LedgerApi] {proof : LedgerInfoWithSignatures}

omit [Crypto] in
theorem tryAdvanceWithLedgerInfo_ne {message : String}
    (h : item.tryAdvanceToAggregatedWithLedgerInfo proof = .error message) :
    message ∉ [notOrderedMessage] := by
  cases hitem : item.isAggregated with
  | false =>
    have hmessage := tryAdvanceWithLedgerInfo_error hitem h
    exact fun hmem => hmessage (notOrdered_subset hmem)
  | true =>
    cases item with
    | aggregated item =>
      obtain rfl := Except.error.inj h
      decide
    | ordered | executed | signed => cases hitem

omit [Crypto] in
theorem isOrdered_tryAdvanceWithLedgerInfo
    (h : item.tryAdvanceToAggregatedWithLedgerInfo proof = .ok item') :
    item'.isOrdered = item.isOrdered := by
  cases item with
  | ordered item | executed item | signed item =>
    simp only [BufferItem.tryAdvanceToAggregatedWithLedgerInfo, except_seq_ok_iff,
      except_pure_ok_iff] at h
    obtain ⟨-, rfl⟩ := h
    rfl
  | aggregated => cases h

variable [PipelineApi]

theorem Answered.handleCommitMessage (h : Answered answered m) (message : CommitMessage) :
    Ensures (m.handleCommitMessage message) (Answered answered) OtherPanic := by
  refine (answered_rule answered).handleCommitMessage (Answered answered) h (fun _ => ?_)
    fun m' hm' => (hm'.advanceHead _).imp fun _ hm => .inr hm
  cases message with
  | vote vote =>
    refine (answered_rule answered).processVote h (BufferManager.cacheCommitVote_of fun _ => h) ?_
    intro cache item item' buffer votes _ _ hm' hreplaces hcount
    exact .of (hm'.replace hreplaces (Kept.countVotes hcount).ordered)
  | decision proof =>
    refine (answered_rule answered).processDecision h
      (BufferManager.tryAddPendingCommitProof_of fun _ => h)
      (fun _ herror => tryAdvanceWithLedgerInfo_ne herror) ?_
    intro item item' buffer hreplaces hdecide
    exact .of (h.replace hreplaces (isOrdered_tryAdvanceWithLedgerInfo hdecide))

/-- The execution of an item that waits, or of none. -/
theorem Answered.handleExecutionResponse {response : ExecutionResponse}
    {info : Option EpochBlockInfo}
    (h : Answered answered m) (hfirst : Event.InTurn m (.executionResponse response info) ∨
      ∀ id ∈ Event.answered (.executionResponse response info), id ∉ answered) :
    Ensures (m.handleExecutionResponse response info)
      (Answered (answered ++ Event.answered (.executionResponse response info))) OtherPanic := by
  have hmore := h.mono (List.subset_append_left answered
    (Event.answered (.executionResponse response info)))
  have hanswer {blocks : List PipelinedBlock} {item : BufferItem}
      (hfinds : HandlerRule.Finds m response blocks item) : response.inner.isOk = true ∧
      Event.answered (.executionResponse response info) = [response.blockId] := by
    have hok : response.inner.isOk = true := by
      rw [hfinds.inner]
      rfl
    exact ⟨hok, if_pos hok⟩
  refine (answered_rule _).handleExecutionResponse (fun m' => m'.buffer.HoldsAt
      (ItemAnswered (answered ++ Event.answered (.executionResponse response info))))
    hmore (fun _ => hmore.items) ?_ (fun _ _ => hmore.items) ?_ ?_
  · intro blocks item info' message hfinds herror
    rcases advanceToExecutedOrAggregated_error herror with hmessage | ⟨hordered, -⟩
    · exact spares_of_not_mem notOrdered_subset hmessage _
    · -- the item waits, or has been answered before
      obtain ⟨key, hkey, hitem, hwaits⟩ := Buffer.HoldsAt.get h hfinds.item
      obtain ⟨hok, hid⟩ := hanswer hfinds
      rcases hfirst with hturn | hnew
      · rw [← hkey, hturn hok hfinds.key] at hwaits
        rw [hwaits rfl] at hordered
        cases hordered
      · rw [hid] at hnew
        exact absurd (Option.some.inj hkey ▸ hitem hordered) (hnew _ (by simp))
  · intro blocks bound item executed item' buffer hexecuted
    refine .of (hexecuted.replaces.holdsAt hmore.items fun _ _ => ?_)
    rw [(hanswer hexecuted.finds).2]
    simp
  · intro m' hm'
    exact ensures_popUntil (fun _ hmessage => otherPanic_of_ne hmessage)
      (fun h hpop => (h.popFront hpop).2) (fun h hpop => (h.popFront hpop).2) hm'

/-! ### Runs -/

omit [PipelineApi] in
theorem Answered.handleOrdered (h : Answered answered m) (blocks : OrderedBlocks) :
    Ensures (m.handleOrdered blocks) (Answered answered) OtherPanic := by
  refine (answered_rule answered).handleOrdered (answered_rule answered) h ?_
  intro last sent round blockId m' votes buffer _ _ _ hm' hpush
  -- a batch that arrives waits for its execution
  have hordered := (Kept.addSignatures (.newOrdered blocks.orderedBlocks blocks.orderedProof)
    votes).ordered
  refine .inr (hm'.pushBack hpush ⟨?_, fun _ => hordered⟩)
  intro hwaits
  rw [hordered] at hwaits
  cases hwaits

omit [Crypto] [LedgerApi] [PipelineApi] in
theorem answered_empty (hbuffer : m.buffer = {}) : Answered answered m := by
  unfold Answered
  rw [hbuffer]
  exact Buffer.holdsAt_empty

theorem Answered.handle {event : Event} (h : Answered answered m)
    (hfirst : event.InTurn m ∨ ∀ id ∈ event.answered, id ∉ answered) :
    Ensures (m.handle event) (Answered (answered ++ event.answered)) OtherPanic := by
  have hother {x : Outcome BufferManager} (hx : Ensures x (Answered answered) OtherPanic) :
      Ensures x (Answered (answered ++ event.answered)) OtherPanic :=
    hx.imp fun _ hm => hm.mono (List.subset_append_left ..)
  have hstays : Answered (answered ++ event.answered) m := hother (x := .ok m) h
  refine (answered_rule _).handle (answered_rule answered) h (fun _ => hstays) ?_
  intro full _ _
  cases event with
  | ordered blocks =>
    cases full with
    | true => exact hstays
    | false => exact hother (h.handleOrdered blocks)
  | reset signal =>
    cases signal with
    | stop | targetRound round => exact answered_empty rfl
  | executionResponse response info => exact h.handleExecutionResponse hfirst
  | executionScheduleRetry => exact hother ((answered_rule answered).retryFrom h)
  | signingResponse response =>
    refine hother ((answered_rule answered).handleSigningResponse h response ?_)
    intro key item item' buffer signature hreplaces hsign
    refine h.replace hreplaces ?_
    split at hsign
    · exact (Kept.advanceToSigned hsign).ordered
    · obtain rfl := Except.ok.inj hsign
      rfl
  | persistingResponse result =>
    apply hother
    cases result with
    | ok | error => exact h
  | commitMessage message => exact hother (h.handleCommitMessage message)

/-- A successful response for a batch behind the execution root is the first for that batch. The
list has the batches answered before. -/
def AnswersOnce (answered : List HashValue) : Outcome BufferManager → List Event → Prop
  | _, [] => True
  | m, event :: rest =>
    (InTurnStep m event ∨ ∀ id ∈ event.answered, id ∉ answered) ∧
      AnswersOnce (answered ++ event.answered) (BufferManager.step m event).2 rest

instance (answered : List HashValue) (m : Outcome BufferManager) :
    (events : List Event) → Decidable (AnswersOnce answered m events)
  | [] => isTrue trivial
  | event :: rest =>
    have := instDecidableAnswersOnce (answered ++ event.answered)
      (BufferManager.step m event).2 rest
    inferInstanceAs (Decidable (_ ∧ _))

theorem Answered.run {events : List Event} (h : Answered answered m)
    (hanswers : AnswersOnce answered (.ok m) events) :
    Ensures (Misc.run BufferManager.step (.ok m) events).2 (fun _ => True) OtherPanic := by
  induction events generalizing m answered with
  | nil => trivial
  | cons event rest ih =>
    have hstep := h.handle hanswers.1
    have hafter := hanswers.2
    have hnext : (BufferManager.step (.ok m) event).2 = m.handle event := rfl
    rw [run_cons]
    simp only [hnext] at hafter ⊢
    cases hhandle : m.handle event with
    | ok m' =>
      rw [hhandle] at hstep hafter
      exact ih hstep hafter
    | error panic =>
      rw [hhandle] at hstep
      rw [(receivedInRun_error panic rest).2]
      exact hstep

/-- In every run in which a successful response for a batch behind the execution root is the first
for that batch, no response meets an item that is not ordered. -/
theorem responses_meet_ordered (author : Author) (epochState : EpochState) (orderVoteEnabled : Bool)
    (highestCommittedRound maxPendingRounds : Nat) (events : List Event) (hanswers : AnswersOnce []
      (.ok (.new author epochState orderVoteEnabled highestCommittedRound maxPendingRounds))
        events) :
    Ensures (run BufferManager.step
        (.ok (.new author epochState orderVoteEnabled highestCommittedRound maxPendingRounds))
        events).2
      (fun _ => True) (fun panic => panic.message ≠ notOrderedMessage) := by
  have hstart : Answered [] (.new author epochState orderVoteEnabled highestCommittedRound
      maxPendingRounds) := answered_empty rfl
  refine (hstart.run hanswers).mono (fun _ hm => hm) ?_
  intro panic hpanic
  simpa [OtherPanic, Spares] using hpanic

end Walk

/-- A failed execution. -/
def TwoBatches.failed (round : Nat) : Event :=
  .executionResponse { blockId := round, inner := .error "execution failed" } none

open FourValidators TwoBatches

attribute [local instance] crypto ledgerApi pipelineApi

/-- The second batch is executed first, then the first fails once and succeeds. -/
theorem responses_meet_ordered_retry : Ensures (run BufferManager.step start
        [ordered 1, ordered 2, failed 1, executed 2, .executionScheduleRetry, executed 1,
          executed 2]).2
      (fun _ => True) (fun panic => panic.message ≠ notOrderedMessage) := by
  exact responses_meet_ordered 0 epochState true 0 100
    [ordered 1, ordered 2, failed 1, executed 2, .executionScheduleRetry, executed 1, executed 2]
    (by decide)

/-- Of two batches the first fails and the second succeeds, and the retry ends in the same way: the
second response for the second batch panics. -/
theorem repeated_response_panics : ∃ panic, (run BufferManager.step start
        [ordered 1, ordered 2, failed 1, executed 2, .executionScheduleRetry, failed 1,
          executed 2]).2 =
        .error panic ∧ panic.message = notOrderedMessage := by
  exact ⟨_, rfl, by decide⟩

end Liquent.Pipeline
