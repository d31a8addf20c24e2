import Liquent.Pipeline.Responses

/-!
# Commit decisions that arrive early

A commit decision for a batch that is not in the buffer yet is kept by its round.  Every execution
takes the pending decisions of its round and of all earlier ones, and uses only the last of them.
So a decision waits for its batch as long as no batch of the same or a later round is executed
before.
-/

namespace Liquent.Pipeline

open Misc BufferManager BufferItem

variable {decision : LedgerInfoWithSignatures}

/-- The batch waits for its execution, and no commit proof has been stored with it. -/
def BufferItem.Unproved (item : BufferItem) : Prop :=
  ∃ ordered : OrderedItem, item = .ordered ordered ∧ ordered.commitProof = none

/-- The decision is pending, and its batch, if it is in the buffer, waits for it. -/
structure Awaits (decision : LedgerInfoWithSignatures) (m : BufferManager) : Prop where
  pending : m.pendingCommitProofs.get decision.ledgerInfo.commitInfo.round = some decision
  items : m.buffer.HoldsAt fun key item => key = decision.ledgerInfo.commitInfo.id → item.Unproved

/-- An event does not replace a pending decision, store another one with its batch, push it out of
the full cache, or execute its batch or one of the same or a later round. -/
def Event.Leaves [Crypto] [LedgerApi] (decision : LedgerInfoWithSignatures) (m : BufferManager) :
    Event → Prop
  | .reset _ => False
  | .executionResponse response _ =>
    response.inner.isOk = true →
      m.buffer.findElemByKey m.executionRoot response.blockId = some response.blockId →
      ∀ item ∈ m.buffer.get (some response.blockId),
        response.blockId ≠ decision.ledgerInfo.commitInfo.id ∧
          item.commitInfo.round < decision.ledgerInfo.commitInfo.round
  | .commitMessage (.decision other) =>
    (verifyCommitDecision other m.epochState.verifier).isOk = true →
      other.ledgerInfo.commitInfo.id ≠ decision.ledgerInfo.commitInfo.id ∧
        other.ledgerInfo.commitInfo.round ≠ decision.ledgerInfo.commitInfo.round ∧
        m.pendingCommitProofs.length < maxPendingCommitProofs
  | _ => True

instance [Crypto] [LedgerApi] (decision : LedgerInfoWithSignatures) (m : BufferManager) :
    (event : Event) → Decidable (event.Leaves decision m)
  | .reset _ => isFalse id
  | .executionResponse response _ =>
    inferInstanceAs (Decidable (response.inner.isOk = true → _ → ∀ item ∈ _, _))
  | .commitMessage (.decision other) =>
    inferInstanceAs (Decidable ((verifyCommitDecision other _).isOk = true → _))
  | .ordered _ | .executionScheduleRetry | .signingResponse _ | .persistingResponse _
  | .commitMessage (.vote _) => isTrue trivial

/-! ## The items -/

section Items

variable {item item' : BufferItem}

theorem unproved_newOrdered (blocks : List PipelinedBlock) (proof : LedgerInfoWithSignatures) :
    (newOrdered blocks proof).Unproved := ⟨_, rfl, rfl⟩

theorem BufferItem.Unproved.addSignatureIfMatched [LedgerApi] {vote : CommitVote}
    (h : item.Unproved) (hadd : item.addSignatureIfMatched vote = .ok item') : item'.Unproved := by
  obtain ⟨ordered, rfl, hproof⟩ := h
  simp only [addSignatureIfMatched] at hadd
  split at hadd
  · obtain rfl := Except.ok.inj hadd
    exact ⟨_, rfl, hproof⟩
  · cases hadd

theorem BufferItem.Unproved.addSignatures [LedgerApi] (h : item.Unproved)
    (votes : List CommitVote) :
    (addSignatures item votes).Unproved := by
  induction votes generalizing item with
  | nil => exact h
  | cons vote rest ih =>
    rw [addSignatures_cons]
    apply ih
    cases hadd : item.addSignatureIfMatched vote with
    | error e => exact h
    | ok added => exact h.addSignatureIfMatched hadd

theorem BufferItem.Unproved.countVotes [LedgerApi] [PipelineApi] {m : BufferManager}
    {votes : List CommitVote} {vote : CommitVote} (h : item.Unproved)
    (hcount : m.countVotes item votes vote = .ok item') : item'.Unproved := by
  have hadded := h.addSignatures votes
  simp only [BufferManager.countVotes] at hcount
  split at hcount
  · rename_i added hadd
    obtain ⟨ordered, rfl, hproof⟩ := hadded.addSignatureIfMatched hadd
    obtain rfl := Except.ok.inj hcount
    exact ⟨_, rfl, hproof⟩
  · obtain rfl := Except.ok.inj hcount
    exact hadded

end Items

/-! ## Events -/

variable {info : Option EpochBlockInfo} {blocks : List PipelinedBlock} {buffer : Buffer BufferItem}
  {key : HashValue} {event : Event}

section Walk

variable {m : BufferManager} {item item' : BufferItem}

/-- Nothing is said about panics here. -/
abbrev Ends {α : Type} (x : Outcome α) (Q : α → Prop) : Prop := Ensures x Q fun _ => True

theorem awaits_rule (decision : LedgerInfoWithSignatures) :
    HandlerRule (Awaits decision) (Awaits decision) (fun _ => True) where
  weak h := h
  panic _ _ := trivial
  executionRoot h _ := ⟨h.pending, h.items⟩
  signingRoot h _ := ⟨h.pending, h.items⟩
  send h _ := ⟨h.pending, h.items⟩
  latestRound h := ⟨h.pending, h.items⟩
  drain h := drainCachedCommitVotes_of fun _ => ⟨h.pending, h.items⟩

theorem Awaits.replace (h : Awaits decision m) (hreplaces : Replaces m.buffer key item item' buffer)
    (hitem : key = decision.ledgerInfo.commitInfo.id → item.Unproved → item'.Unproved) :
    Awaits decision { m with buffer := buffer } :=
  ⟨h.pending, hreplaces.holdsAt h.items fun hold hkey => hitem hkey (hold hkey)⟩

variable [Crypto]

theorem Awaits.advanceHead (h : Awaits decision m) (target : HashValue) :
    Ends (m.advanceHead target) (Awaits decision) :=
  ensures_popUntil (fun _ _ => trivial) (fun h hpop => ⟨h.pending, (h.items.popFront hpop).2⟩)
    (fun h hpop => ⟨h.pending, (h.items.popFront hpop).2⟩) h

omit [Crypto] in
theorem Awaits.handleSigningResponse (h : Awaits decision m) (response : SigningResponse) :
    Ends (m.handleSigningResponse response) (Awaits decision) := by
  refine (awaits_rule decision).handleSigningResponse h response ?_
  intro key item item' buffer signature hreplaces hsign
  refine h.replace hreplaces ?_
  -- an item that waits is not signed
  rintro - ⟨ordered, rfl, hproof⟩
  obtain rfl := Except.ok.inj hsign
  exact ⟨ordered, rfl, hproof⟩

variable [LedgerApi]

omit [Crypto] [LedgerApi] in
/-- Another round's decision goes into the cache. -/
theorem Awaits.tryAddPendingCommitProof {other : LedgerInfoWithSignatures} (h : Awaits decision m)
    (hround : other.ledgerInfo.commitInfo.round ≠ decision.ledgerInfo.commitInfo.round)
    (hfew : m.pendingCommitProofs.length < maxPendingCommitProofs) :
    Awaits decision (m.tryAddPendingCommitProof other) := by
  unfold BufferManager.tryAddPendingCommitProof
  dsimp only
  split
  · rw [makeRoom, if_neg (by omega)]
    refine ⟨?_, h.items⟩
    rw [Table.get_put_of_ne hround.symm]
    exact h.pending
  · exact h

variable [PipelineApi]

variable (h : Awaits decision m)

include h

theorem Awaits.handleCommitMessage {message : CommitMessage}
    (hleaves : Event.Leaves decision m (.commitMessage message)) :
    Ends (m.handleCommitMessage message) (Awaits decision) := by
  refine (awaits_rule decision).handleCommitMessage (Awaits decision) h (fun hverify => ?_)
    fun m' hm' => (hm'.advanceHead _).imp fun _ hm => .inr hm
  cases message with
  | vote vote =>
    refine (awaits_rule decision).processVote h
      (cacheCommitVote_of fun _ => ⟨h.pending, h.items⟩) ?_
    intro cache item item' buffer votes _ _ hm' hreplaces hcount
    exact .of (hm'.replace hreplaces fun _ hitem => hitem.countVotes hcount)
  | decision other =>
    obtain ⟨hid, hround, hfew⟩ := hleaves hverify
    refine (awaits_rule decision).processDecision h (h.tryAddPendingCommitProof hround hfew)
      (fun _ _ => trivial) ?_
    intro item item' buffer hreplaces _
    exact .of (h.replace hreplaces fun heq => absurd heq hid)

/-- The execution of a batch of an earlier round. -/
theorem Awaits.handleExecutionResponse {response : ExecutionResponse}
    (hleaves : Event.Leaves decision m (.executionResponse response info)) :
    Ends (m.handleExecutionResponse response info) (Awaits decision) := by
  have hearlier {blocks : List PipelinedBlock} {item : BufferItem}
      (hfinds : HandlerRule.Finds m response blocks item) :
      response.blockId ≠ decision.ledgerInfo.commitInfo.id ∧
        item.commitInfo.round < decision.ledgerInfo.commitInfo.round := by
    refine hleaves ?_ hfinds.key item hfinds.item
    rw [hfinds.inner]
    rfl
  have hdrained {blocks : List PipelinedBlock} {item : BufferItem} {bound : Nat}
      (hfinds : HandlerRule.Finds m response blocks item)
      (hbound : checkedAdd item.commitInfo.round 1 = .ok bound) :
      Awaits decision (HandlerRule.drained m blocks bound) := by
    have hround := (hearlier hfinds).2
    have hle : bound ≤ decision.ledgerInfo.commitInfo.round := by
      unfold checkedAdd at hbound
      split at hbound
      · obtain rfl := Except.ok.inj hbound
        omega
      · cases hbound
    refine ⟨?_, h.items⟩
    change (m.pendingCommitProofs.retain (bound ≤ ·)).get _ = _
    rw [Table.get_retain, if_pos (by simpa using hle)]
    exact h.pending
  refine (awaits_rule decision).handleExecutionResponse (Awaits decision) h
    (fun _ => ⟨h.pending, h.items⟩) (fun _ _ => trivial) hdrained ?_ fun m' hm' => hm'.advanceHead _
  intro blocks bound item executed item' buffer hexecuted
  refine .of ((hdrained hexecuted.finds hexecuted.takes).replace hexecuted.replaces ?_)
  exact fun heq => absurd heq (hearlier hexecuted.finds).1

omit [PipelineApi] in
theorem Awaits.handleOrdered (blocks : OrderedBlocks) :
    Ends (m.handleOrdered blocks) (Awaits decision) := by
  refine (awaits_rule decision).handleOrdered (awaits_rule decision) h ?_
  intro last sent round blockId m' votes buffer _ _ _ hm' hpush
  have hnew := unproved_newOrdered blocks.orderedBlocks blocks.orderedProof
  exact .inr ⟨hm'.pending, hm'.items.pushBack hpush fun _ => hnew.addSignatures votes⟩

/-- An event that leaves the decision alone. -/
theorem Awaits.handle (hleaves : event.Leaves decision m) :
    Ends (m.handle event) fun m' => Awaits decision m' ∧ (m'.stop = false → Guarded m') := by
  refine ensures_handle (fun _ => h) (fun _ _ => trivial) ?_ fun _ _ _ => trivial
  intro full _ _
  cases event with
  | ordered blocks =>
    cases full with
    | true => exact h
    | false => exact h.handleOrdered blocks
  | reset signal => exact hleaves.elim
  | executionResponse response info => exact h.handleExecutionResponse hleaves
  | executionScheduleRetry => exact (awaits_rule decision).retryFrom h
  | signingResponse response => exact h.handleSigningResponse response
  | persistingResponse result =>
    cases result with
    | ok | error => exact ⟨h.pending, h.items⟩
  | commitMessage message => exact h.handleCommitMessage hleaves

end Walk

/-! ## The response -/

section Response

variable [Crypto] {m : BufferManager} {l pre post : List BufferItem}

/-- The loop of `advance_head` sends the blocks up to the aggregated item, with its proof. -/
theorem popUntil_persists {fuel : Nat} {taken : List PipelinedBlock} {item : AggregatedItem}
    (h : m.buffer.Represents blockId (pre ++ .aggregated item :: post))
    (hfuel : pre.length < fuel) :
    Ensures (popUntil (aggregated item).blockId fuel m taken)
      (fun m' => m'.persisted = m.persisted ++
        [{ blocks := taken ++ blocksOf pre ++ item.executedBlocks
           commitLedgerInfo := item.commitProof }])
      (fun _ => False) := by
  induction pre generalizing m fuel taken with
  | nil =>
    obtain ⟨fuel, rfl⟩ := Nat.exists_eq_succ_of_ne_zero (by omega : fuel ≠ 0)
    obtain ⟨buffer, hpop, -⟩ := h.popFront_cons
    rw [popUntil, hpop]
    change Ensures (if (aggregated item).blockId = (aggregated item).blockId
      then _ else _) _ _
    rw [if_pos rfl]
    change (send _ _).persisted = _
    rw [persisted_send]
    simp [blocksOf, Request.persistingRequest, popped, persisted, getBlocks]
  | cons first pre ih =>
    obtain ⟨fuel, rfl⟩ := Nat.exists_eq_succ_of_ne_zero (by omega : fuel ≠ 0)
    obtain ⟨buffer, hpop, hbuffer⟩ := h.popFront_cons
    have hne : first.blockId ≠ (aggregated item).blockId := by
      have hnodup := h.nodup
      rw [List.cons_append, List.map_cons, List.nodup_cons] at hnodup
      intro heq
      exact hnodup.1 (heq ▸ List.mem_map_of_mem (by simp))
    have hnext : (m.popped first buffer).buffer.Represents blockId
        (pre ++ .aggregated item :: post) := hbuffer
    have hlength : pre.length < fuel := by simpa using hfuel
    have hrest := @ih (m.popped first buffer) fuel (taken ++ first.getBlocks) hnext hlength
    rw [popUntil, hpop]
    change Ensures (if first.blockId = (aggregated item).blockId then _ else _) _ _
    rw [if_neg hne]
    refine hrest.imp ?_
    intro m' hm'
    rw [hm']
    simp [blocksOf, popped, persisted]

/-- What has been sent to the persisting phase, also where a part of a handler panics. -/
abbrev SendsNothing (m : BufferManager) (x : Outcome BufferManager) : Prop :=
  Ensures x (fun m' => m'.persisted = m.persisted) fun panic => panic.manager.persisted =
    m.persisted

omit [Crypto] in
theorem sendsNothing_advanceExecutionRoot (m : BufferManager) :
    SendsNothing m m.advanceExecutionRoot := by
  refine (ensures_orPanic fun _ => rfl).bind ?_
  intro root _ _
  exact ensures_pure rfl

omit [Crypto] in
theorem sendsNothing_advanceSigningRootIfNone (m : BufferManager) :
    SendsNothing m m.advanceSigningRootIfNone := by
  unfold advanceSigningRootIfNone
  split
  · refine (ensures_orPanic fun _ => rfl).bind ?_
    intro root _ _
    unfold requestSigning
    cases root with
    | none => rfl
    | some root =>
      refine (ensures_orPanic fun _ => rfl).bind ?_
      intro item _ _
      cases item with
      | executed item =>
        apply ensures_pure
        rw [persisted_send]
        exact List.append_nil _
      | ordered | signed | aggregated => rfl
  · rfl

variable [PipelineApi]

/-- The commit info of an executed batch. -/
def executedItemInfo (block : PipelinedBlock) (number : Nat) (commitInfo : BlockInfo) : BlockInfo :=
  { commitInfo with
    version := number
    timestampUsecs := executedCommitTimestampUsecs commitInfo.timestampUsecs
      block.block.timestampUsecs (PipelineApi.isConsensusForkActive block.block.timestampUsecs) }

/-- A response delivers the blocks of a batch with the decided result, while the votes for it are
too few. -/
def Confirms (decision : LedgerInfoWithSignatures) (m : BufferManager) (item : OrderedItem)
    (blocks : List PipelinedBlock) (info : Option EpochBlockInfo) : Prop :=
  ids item.orderedBlocks = ids blocks ∧ ∃ block number commitInfo,
    blocks.getLast? = some block ∧ block.block.blockNumber = some number ∧
    executedCommitInfo block (m.noteEndOfEpoch blocks).endEpochTimestamp
      ((m.noteEndOfEpoch blocks).resolveEpochBlockInfo block info) = .ok commitInfo ∧
    (PipelineApi.checkVotingPower m.epochState.verifier
      (verifySignatures item.unverifiedSignatures m.epochState.verifier
        (generateCommitLedgerInfo commitInfo item.orderedProof m.orderVoteEnabled
          block.stateComputeResult.rootHash number)).authors).isOk = false ∧
    decision.ledgerInfo.commitInfo = executedItemInfo block number commitInfo

variable {item : OrderedItem}

/-- The batch becomes executed, with the commit info of the decision. -/
theorem Confirms.advance (h : Confirms decision m item blocks info)
    (hproof : item.commitProof = none) :
    ∃ block executed, blocks.getLast? = some block ∧
      (ordered item).advanceToExecutedOrAggregated blocks m.epochState.verifier
        (m.noteEndOfEpoch blocks).endEpochTimestamp m.orderVoteEnabled
        ((m.noteEndOfEpoch blocks).resolveEpochBlockInfo block info) = .ok (.executed executed) ∧
      executed.executedBlocks = blocks ∧
      executed.commitInfo = decision.ledgerInfo.commitInfo := by
  obtain ⟨hids, block, number, commitInfo, hlast, hnumber, hcommit, hvotes, hdecided⟩ := h
  have hids' : item.orderedBlocks.map PipelinedBlock.id = blocks.map PipelinedBlock.id := hids
  refine ⟨block, ?_⟩
  simp only [advanceToExecutedOrAggregated, ensure, if_pos hids', hlast, hnumber, hcommit,
    hproof, expect, advanceWithVotes, Except.bind, bind]
  split
  · rename_i hpower
    rw [hpower] at hvotes
    cases hvotes
  · exact ⟨_, trivial, rfl, rfl, hdecided.symm⟩

variable [LedgerApi]

omit [PipelineApi] [LedgerApi] [Crypto] in
theorem drainPending_eq {round : Nat} (hpending : m.pendingCommitProofs.get round = some decision)
    (hround : round < u64Max) :
    m.drainPendingCommitProofTill round = .ok (some decision,
      { m with pendingCommitProofs := m.pendingCommitProofs.retain (round + 1 ≤ ·) }) := by
  have hbound : checkedAdd round 1 = .ok (round + 1) := if_pos (by omega)
  have hget : (m.pendingCommitProofs.retain (· < round + 1)).get round = some decision := by
    rw [Table.get_retain, if_pos (by simp)]
    exact hpending
  have hlast : (m.pendingCommitProofs.retain (· < round + 1)).last = some (round, decision) := by
    apply Table.last_of_get hget
    intro e he
    have hlt := (List.mem_filter.mp he).2
    simp only [decide_eq_true_eq] at hlt
    omega
  rw [drainPendingCommitProofTill, hbound]
  simp only [orPanic, except_mapError_ok, bind, Except.bind, hlast]
  rfl

theorem advanceExecuted_eq {m₁ m₂ : BufferManager} {item executed newItem : BufferItem}
    {proof : Option LedgerInfoWithSignatures}
    (htake : m.buffer.take (some key) = some (item, buffer))
    (hadvance : item.advanceToExecutedOrAggregated blocks m.epochState.verifier m.endEpochTimestamp
      m.orderVoteEnabled info = .ok executed)
    (hdrain : m.drainPendingCommitProofTill item.commitInfo.round = .ok (proof, m₁))
    (happly : applyPendingCommitProof executed proof key = .ok newItem)
    (hput : m₁.putBack buffer (some key) newItem = .ok m₂) :
    m.advanceExecuted (some key) key blocks info =
      if newItem.isAggregated then m₂.advanceHead key else .ok m₂ := by
  simp only [advanceExecuted, htake, expect, orPanic, except_mapError_ok, bind,
    Except.bind, hadvance, hdrain, happly, hput, pure, Except.pure]

variable {seen : List HashValue}

/-- The execution completes the batch with the pending decision. -/
theorem advanceExecuted_persists {executed : ExecutedItem} (h : Held seen m l)
    (hget : m.buffer.get (some decision.ledgerInfo.commitInfo.id) = some (.ordered item))
    (hpending : m.pendingCommitProofs.get decision.ledgerInfo.commitInfo.round = some decision)
    (hround : item.orderedProof.ledgerInfo.commitInfo.round = decision.ledgerInfo.commitInfo.round)
    (hsmall : decision.ledgerInfo.commitInfo.round < u64Max)
    (hadvance : (ordered item).advanceToExecutedOrAggregated blocks
      m.epochState.verifier m.endEpochTimestamp m.orderVoteEnabled info = .ok (.executed executed))
    (hblocks : executed.executedBlocks = blocks)
    (hcommit : executed.commitInfo = decision.ledgerInfo.commitInfo) :
    Ensures (m.advanceExecuted (some decision.ledgerInfo.commitInfo.id)
        decision.ledgerInfo.commitInfo.id blocks info)
      (fun m' => ∃ earlier, m'.persisted = m.persisted ++
        [{ blocks := earlier ++ blocks, commitLedgerInfo := decision }])
      (fun _ => False) := by
  subst hblocks
  have hexec := Executes.advance hadvance
  have hkey : decision.ledgerInfo.commitInfo.id = (ordered item).blockId :=
    Option.some.inj (h.represents.get hget).1
  let complete : BufferItem :=
    .aggregated { executedBlocks := executed.executedBlocks, commitProof := decision }
  have happly : applyPendingCommitProof (.executed executed) (some decision)
      decision.ledgerInfo.commitInfo.id = .ok complete := by
    simp [applyPendingCommitProof, isAggregated,
      tryAdvanceToAggregatedWithLedgerInfo, ensure, hcommit, complete, bind,
      Except.bind, pure, Except.pure]
  obtain ⟨buffer, buffer', htake, hset⟩ := Buffer.take_set_of_get complete hget
  have hid : complete.blockId = (ordered item).blockId := hexec.blockId
  obtain ⟨pre, post, rfl, -, hbuffer⟩ := h.represents.take_set htake hset hid
  have hdrain := drainPending_eq hpending hsmall
  rw [← hround] at hdrain
  have hlength := hbuffer.length_le
  rw [List.length_append, List.length_cons] at hlength
  let done : BufferManager :=
    { m with
      buffer := buffer'
      pendingCommitProofs := m.pendingCommitProofs.retain
        (item.orderedProof.ledgerInfo.commitInfo.round + 1 ≤ ·) }
  have hdone : done.buffer.Represents blockId (pre ++ complete :: post) := hbuffer
  have hpop := @popUntil_persists _ done pre post (buffer'.map.length + 1) [] _ hdone (by omega)
  rw [hid, ← hkey] at hpop
  have hput : putBack
      { m with
        pendingCommitProofs := m.pendingCommitProofs.retain
          (item.orderedProof.ledgerInfo.commitInfo.round + 1 ≤ ·) }
      buffer (some decision.ledgerInfo.commitInfo.id) complete = .ok done := by
    unfold putBack
    rw [hset]
    rfl
  rw [advanceExecuted_eq htake hadvance hdrain happly hput]
  have hagg : complete.isAggregated = true := rfl
  rw [if_pos hagg]
  refine hpop.imp ?_
  intro m' hm'
  exact ⟨blocksOf pre, by simpa [persisted] using hm'⟩

omit [LedgerApi] [PipelineApi] in
theorem Held.find_ordered {item : BufferItem} (h : Held seen m l)
    (hroot : Rooted m l) (hmem : item ∈ l) (hitem : item.isOrdered = true) :
    m.buffer.findElemByKey m.executionRoot item.blockId = some item.blockId := by
  cases hfind : l.find? isOrdered with
  | none =>
    have hno := List.find?_eq_none.mp hfind item hmem
    exact absurd hitem hno
  | some first =>
    rw [hroot, hfind]
    obtain ⟨-, before, after, rfl, hbefore⟩ := List.find?_eq_some_iff_append.mp hfind
    refine h.represents.findElemByKey h.indexed rfl ?_
    rcases List.mem_append.mp hmem with hmem | hmem
    · have hno := hbefore item hmem
      rw [hitem] at hno
      cases hno
    · exact hmem

/-- The first successful response for a batch whose decision is pending sends both to the persisting
phase. -/
theorem Tracked.response_persists (h : Tracked seen m)
    (hawaits : Awaits decision m) (hrunning : m.stop = false)
    (hguard : Guarded m)
    (hget : m.buffer.get (some decision.ledgerInfo.commitInfo.id) = some (.ordered item))
    (hround : item.orderedProof.ledgerInfo.commitInfo.round = decision.ledgerInfo.commitInfo.round)
    (hsmall : decision.ledgerInfo.commitInfo.round < u64Max)
    (hconfirms : Confirms decision m item blocks info) :
    ∃ earlier, (last (m.handle (.executionResponse
        { blockId := decision.ledgerInfo.commitInfo.id, inner := .ok blocks } info))).persisted =
      m.persisted ++ [{ blocks := earlier ++ blocks, commitLedgerInfo := decision }] := by
  obtain ⟨l, hheld, hroot, -⟩ := h
  obtain ⟨hkey, hmem⟩ := hheld.represents.get hget
  have hid : decision.ledgerInfo.commitInfo.id = (ordered item).blockId :=
    Option.some.inj hkey
  have hfind := hheld.find_ordered hroot hmem rfl
  rw [← hid] at hfind
  -- the item has no proof of its own
  have hproof : item.commitProof = none := by
    obtain ⟨key, hcursor, hunproved⟩ := hawaits.items.get hget
    obtain ⟨ordered, hordered, hproof⟩ := hunproved (Option.some.inj hcursor).symm
    obtain rfl := BufferItem.ordered.inj hordered
    exact hproof
  obtain ⟨block, executed, hlast, hadvance, hblocks, hcommit⟩ := hconfirms.advance hproof
  have hnoted : Held seen (m.noteEndOfEpoch blocks) l := { hheld with }
  have hpersists := advanceExecuted_persists hnoted hget hawaits.pending hround hsmall hadvance
    hblocks hcommit
  have hprocess : m.processExecutionResponse
      { blockId := decision.ledgerInfo.commitInfo.id, inner := .ok blocks } info =
      (m.noteEndOfEpoch blocks).advanceExecuted (some decision.ledgerInfo.commitInfo.id)
        decision.ledgerInfo.commitInfo.id blocks
        ((m.noteEndOfEpoch blocks).resolveEpochBlockInfo block info) := by
    simp only [processExecutionResponse, hfind, hlast, hget, expect,
      orPanic, except_mapError_ok, bind, Except.bind]
    rw [if_neg (not_not.mpr hid.symm)]
  rw [← hprocess] at hpersists
  have hhandle : Ensures (m.handle (.executionResponse
      { blockId := decision.ledgerInfo.commitInfo.id, inner := .ok blocks } info))
      (fun m' => ∃ earlier, m'.persisted = m.persisted ++
        [{ blocks := earlier ++ blocks, commitLedgerInfo := decision }])
      (fun panic => ∃ earlier, panic.manager.persisted = m.persisted ++
        [{ blocks := earlier ++ blocks, commitLedgerInfo := decision }]) := by
    refine (ensures_handle (fun hstop => ?_) (fun hnot => absurd hguard hnot) (fun full _ _ => ?_)
      fun hm' _ _ => hm').imp fun _ hm' => hm'.1
    · simp [hrunning] at hstop
    refine (hpersists.mono (fun _ hm' => hm') fun _ hp => hp.elim).bind ?_
    rintro m₁ _ ⟨earlier, hm₁⟩
    have hrest : SendsNothing m₁ (m₁.advanceExecutionRoot >>= (·.advanceSigningRootIfNone)) := by
      apply (sendsNothing_advanceExecutionRoot m₁).bind
      intro m₂ _ hm₂
      rw [← hm₂]
      exact sendsNothing_advanceSigningRootIfNone m₂
    exact hrest.mono (fun _ hm' => ⟨earlier, hm'.trans hm₁⟩) fun _ hp => ⟨earlier, hp.trans hm₁⟩
  generalize m.handle _ = result at hhandle ⊢
  cases result with
  | ok | error => exact hhandle

/-! ## Runs -/

/-- A step that finds the manager running leaves the decision alone. -/
def LeavesStep (decision : LedgerInfoWithSignatures) : Outcome BufferManager → Event → Prop
  | .ok m, event => event.Leaves decision m
  | .error _, _ => True

omit [PipelineApi] in
instance (decision : LedgerInfoWithSignatures) :
    (m : Outcome BufferManager) → (event : Event) → Decidable (LeavesStep decision m event)
  | .ok m, event => inferInstanceAs (Decidable (event.Leaves decision m))
  | .error _, _ => isTrue trivial

omit [Crypto] [PipelineApi] [LedgerApi] in
theorem running_untouched : Untouched fun m => m.stop = false where
  work h := h
  drain h := drainCachedCommitVotes_of (P := fun m => m.stop = false) fun _ => h

/-- Without a reset the manager does not stop. -/
theorem handle_running (hrunning : m.stop = false) (hreset : ∀ signal, event ≠ .reset signal) :
    Ensures (m.handle event) (fun m' => m'.stop = false) fun panic => panic.manager.stop =
      false := by
  refine running_untouched.handle hrunning ?_ (fun _ _ _ _ _ _ => hrunning) ?_ ?_
  · intro vote _
    exact cacheCommitVote_of (P := fun m => m.stop = false) fun _ => hrunning
  · intro signal heq
    exact absurd heq (hreset signal)
  · intro result _
    cases result with
    | ok | error => exact hrunning

theorem Awaits.run {events : List Event} {m' : BufferManager} (h : Awaits decision m)
    (hrunning : m.stop = false) (hguard : Guarded m)
    (hleaves : AlongRun step (LeavesStep decision) (.ok m) events)
    (hrun : (Misc.run step (.ok m) events).2 = .ok m') :
    Awaits decision m' ∧ m'.stop = false ∧ Guarded m' := by
  have hstep : ∀ (o : Outcome BufferManager) (event : Event), LeavesStep decision o event →
      Ends o (fun m => Awaits decision m ∧ m.stop = false ∧ Guarded m) →
      Ends (step o event).2 (fun m => Awaits decision m ∧ m.stop = false ∧ Guarded m) := by
    intro o event hevent ho
    cases o with
    | error panic => trivial
    | ok m =>
      obtain ⟨hawaits, hstop, -⟩ := ho
      have hreset : ∀ signal, event ≠ .reset signal := by
        rintro signal rfl
        exact hevent
      have hnext := hawaits.handle hevent
      have hgoes := handle_running hstop hreset
      exact (hnext.and hgoes).mono (fun _ hm => ⟨hm.1.1, hm.2, hm.1.2 hm.2⟩) fun _ _ => trivial
  have hinvariant := AlongRun.invariant hstep hleaves ⟨h, hrunning, hguard⟩
  rw [hrun] at hinvariant
  exact hinvariant

/-- A decision for a batch that is not in the buffer is kept. -/
theorem awaits_of_decision (hrunning : m.stop = false)
    (hverified : (verifyCommitDecision decision m.epochState.verifier).isOk = true)
    (habsent : m.buffer.exist (some decision.ledgerInfo.commitInfo.id) = false)
    (hround : m.highestCommittedRound < decision.ledgerInfo.commitInfo.round)
    (hfew : m.pendingCommitProofs.length < maxPendingCommitProofs) :
    Ends (m.handle (.commitMessage (.decision decision))) fun m' =>
      (Awaits decision m' ∧ m'.stop = false) ∧ (m'.stop = false → Guarded m') := by
  have habsent : m.buffer.map.get decision.ledgerInfo.commitInfo.id = none := by
    simpa [Buffer.exist] using habsent
  have hfind : m.buffer.findElemByKey m.buffer.head decision.ledgerInfo.commitInfo.id = none := by
    cases hfind : m.buffer.findElemByKey m.buffer.head decision.ledgerInfo.commitInfo.id with
    | none => rfl
    | some key =>
      simp [Buffer.findElemByKey, habsent] at hfind
  have hverify : (CommitMessage.verify m.epochState.verifier (.decision decision)).isOk = true :=
    hverified
  have hadded : Awaits decision (m.tryAddPendingCommitProof decision) ∧
      (m.tryAddPendingCommitProof decision).stop = false := by
    simp only [tryAddPendingCommitProof, if_pos hround, makeRoom, if_neg (not_le.mpr hfew)]
    refine ⟨⟨Table.get_put_self, ?_⟩, hrunning⟩
    intro key item elem hget _ hkey
    subst hkey
    rw [habsent] at hget
    cases hget
  refine ensures_handle (fun hstop => ?_) (fun _ _ => trivial) (fun full _ _ => ?_)
    fun _ _ _ => trivial
  · simp [hrunning] at hstop
  · simp only [selectBranch, handleCommitMessage, if_pos hverify, processCommitMessage,
      processDecision, hfind, bind, Except.bind, pure, Except.pure]
    exact hadded

/-- A commit decision arrives before its batch. If until the first successful response for the batch
no batch of the same or a later round is executed, no other decision for the round or the batch
arrives and fewer than a hundred decisions are pending, then the response, when it confirms the
decision, sends them to the persisting phase together. -/
theorem decision_kept (author : Author) (epochState : EpochState) (orderVoteEnabled : Bool)
    (highestCommittedRound maxPendingRounds : Nat) (before after : List Event)
    (decision : LedgerInfoWithSignatures) (m₀ m : BufferManager) (item : OrderedItem)
    (blocks : List PipelinedBlock) (info : Option EpochBlockInfo) (hdistinct : (batchesInRun
      (.ok (.new author epochState orderVoteEnabled highestCommittedRound maxPendingRounds))
      (before ++ .commitMessage (.decision decision) :: after)).Nodup)
    (hbefore : (run step
      (.ok (.new author epochState orderVoteEnabled highestCommittedRound maxPendingRounds))
      before).2 = .ok m₀)
    (hrunning : m₀.stop = false)
    (hverified : (verifyCommitDecision decision m₀.epochState.verifier).isOk = true)
    (habsent : m₀.buffer.exist (some decision.ledgerInfo.commitInfo.id) = false)
    (hround : m₀.highestCommittedRound < decision.ledgerInfo.commitInfo.round)
    (hfew : m₀.pendingCommitProofs.length < maxPendingCommitProofs)
    (hafter : (run step (.ok m₀) (.commitMessage (.decision decision) :: after)).2 = .ok m)
    (hleaves : AlongRun step (LeavesStep decision)
      (step (.ok m₀) (.commitMessage (.decision decision))).2 after)
    (hget : m.buffer.get (some decision.ledgerInfo.commitInfo.id) = some (.ordered item))
    (hsame : item.orderedProof.ledgerInfo.commitInfo.round = decision.ledgerInfo.commitInfo.round)
    (hsmall : decision.ledgerInfo.commitInfo.round < u64Max)
    (hconfirms : Confirms decision m item blocks info) :
    ∃ earlier, (last (step (.ok m) (.executionResponse
        { blockId := decision.ledgerInfo.commitInfo.id, inner := .ok blocks } info)).2).persisted =
      m.persisted ++ [{ blocks := earlier ++ blocks, commitLedgerInfo := decision }] := by
  have hstart : Tracked [] (.new author epochState orderVoteEnabled highestCommittedRound
      maxPendingRounds) := Tracked.empty [] rfl rfl rfl
  have htracked := hstart.run hdistinct
  rw [run_append, hbefore, hafter] at htracked
  have hfirst := awaits_of_decision hrunning hverified habsent hround hfew
  have hnext : (step (.ok m₀) (.commitMessage (.decision decision))).2 =
      m₀.handle (.commitMessage (.decision decision)) := rfl
  rw [run_cons, hnext] at hafter
  rw [hnext] at hleaves
  cases hm₁ : m₀.handle (.commitMessage (.decision decision)) with
  | error panic =>
    rw [hm₁, (receivedInRun_error panic after).2] at hafter
    cases hafter
  | ok m₁ =>
    rw [hm₁] at hafter hleaves hfirst
    obtain ⟨⟨hawaits₁, hrunning₁⟩, hguard₁⟩ := hfirst
    obtain ⟨hawaits, hrunning', hguard⟩ := hawaits₁.run hrunning₁ (hguard₁ hrunning₁) hleaves hafter
    exact htracked.response_persists hawaits hrunning' hguard hget hsame hsmall hconfirms

end Response

/-! ## Two batches -/

namespace TwoBatches

open FourValidators

attribute [local instance] crypto ledgerApi pipelineApi

/-- The decision of three validators for a batch. -/
def decisionFor (round : Nat) : LedgerInfoWithSignatures :=
  let li := LedgerInfo.newWithBlockInfo (executedAt round).blockInfo 0 (70 + round) round
  { ledgerInfo := li
    signatures := { signers := [0, 1, 2], sig := some (signatureOf (.ledgerInfo li)) } }

/-- The item of a batch that has been received. -/
def orderedItem (round : Nat) : OrderedItem where
  orderedBlocks := [orderedAt round]
  orderedProof :=
    { ledgerInfo := .new (orderedAt round).blockInfo 0
      signatures := { signers := [0, 1, 2], sig := some 1 } }

/-- The decision for the second batch arrives first; then the batches are received and the first is
executed. -/
def early : BufferManager :=
  last (run step start
    [.commitMessage (.decision (decisionFor 2)), ordered 1, ordered 2, executed 1]).2

theorem decisionFor_confirmed : Confirms (decisionFor 2) early (orderedItem 2)
    [executedAt 2] none :=
  ⟨by decide, executedAt 2, 2, (executedAt 2).blockInfo, rfl, rfl, rfl, by decide, by decide⟩

end TwoBatches

open FourValidators TwoBatches

attribute [local instance] crypto ledgerApi pipelineApi

/-- Both batches go to the persisting phase, with the early decision. -/
theorem decision_kept_twoBatches : ∃ earlier, (last (step (.ok early) (executed 2)).2).persisted =
      [{ blocks := earlier ++ [executedAt 2], commitLedgerInfo := decisionFor 2 }] := by
  exact decision_kept 0 epochState true 0 100 [] [ordered 1, ordered 2, executed 1] (decisionFor 2)
    (.new 0 epochState true 0 100) early (orderedItem 2) [executedAt 2] none (by decide) rfl rfl
    (by decide) (by decide) (by decide) (by decide) rfl (by decide) (by decide) (by decide)
      (by decide)
    decisionFor_confirmed

/-- The second batch is executed before the first, which drops the early decision for the first. -/
theorem decision_dropped :
    let m := last (run step start
      [.commitMessage (.decision (decisionFor 1)), ordered 1, ordered 2, executed 2, executed 1]).2
    (verifyCommitDecision (decisionFor 1) epochState.verifier).isOk = true ∧ m.persisted = [] ∧
      m.pendingCommitProofs = [] ∧ ∃ item, m.buffer.get (some 1) = some (.executed item) := by
  exact ⟨by decide, by decide, by decide, _, rfl⟩

end Liquent.Pipeline
