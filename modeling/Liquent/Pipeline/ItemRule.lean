import Liquent.Misc.Lists
import Liquent.Pipeline.CommitProof

/-!
# A rule for what is known about the items

Between two events the execution root is the first item that waits for its execution, and no item is
aggregated: an aggregated item leaves the buffer at once, with everything before it, in whatever
state it is.  What else is known about the items has to survive a change of one item and the removal
of the first ones; then every handler keeps it.
-/

namespace Liquent.Pipeline

open Misc BufferManager

/-- No item has been aggregated. -/
def NoneAggregated (l : List BufferItem) : Prop := ∀ item ∈ l, item.isAggregated = false

variable {m m' : BufferManager} {l pre post : List BufferItem} {item item' item'' : BufferItem}
  {buffer : Buffer BufferItem}

theorem NoneAggregated.replace (h : NoneAggregated (pre ++ item :: post))
    (hitem : item'.isAggregated = false) : NoneAggregated (pre ++ item' :: post) :=
  forall_mem_replace h hitem

theorem unreachable_subset : unreachableMessages ⊆ crashMessages := by decide

/-- The blocks that the manager receives with an event: under backpressure, and once it has stopped
or panicked, they stay in the channel. -/
def receivedBlocks : Outcome BufferManager → Event → List PipelinedBlock
  | .ok m, .ordered blocks =>
    if m.stop then []
    else
      match m.needBackpressure with
      | .ok false => blocks.orderedBlocks
      | _ => []
  | _, _ => []

theorem receivedBlocks_of_stop {event : Event} (hstop : m.stop = true) :
    receivedBlocks (.ok m) event = [] := by
  cases event with
  | ordered blocks => simp [receivedBlocks, hstop]
  | _ => rfl

theorem receivedBlocks_ordered (blocks : OrderedBlocks) {full : Bool} (hstop : m.stop = false)
    (hfull : m.needBackpressure = .ok full) : receivedBlocks (.ok m) (.ordered blocks) =
      if full then [] else blocks.orderedBlocks := by
  cases full with
  | true | false => simp [receivedBlocks, hstop, hfull]

section Items

variable [Crypto]

/-- The identifiers of blocks. -/
def ids (blocks : List PipelinedBlock) : List HashValue := blocks.map PipelinedBlock.id

/-! ## Items -/

/-- The commit info for which an item collects votes, or that it has a proof for, is the one of its
last block. -/
def ItemNamed (item : BufferItem) : Prop :=
  match item with
  | .ordered ordered => ∀ proof ∈ ordered.commitProof,
      proof.ledgerInfo.commitInfo.id = item.blockId
  | .executed executed => executed.partialCommitProof.commitInfo.id = item.blockId
  | .signed signed => signed.partialCommitProof.commitInfo.id = item.blockId
  | .aggregated aggregated => aggregated.commitProof.ledgerInfo.commitInfo.id = item.blockId

/-- A change of an item that neither executes it nor renames it. -/
structure Kept (item item' : BufferItem) : Prop where
  blocks : item'.getBlocks = item.getBlocks
  ordered : item'.isOrdered = item.isOrdered
  named : ItemNamed item → ItemNamed item'

theorem Kept.refl (item : BufferItem) : Kept item item := ⟨rfl, rfl, fun h => h⟩

theorem Kept.trans (h : Kept item item') (h' : Kept item' item'') : Kept item item'' where
  blocks := h'.blocks.trans h.blocks
  ordered := h'.ordered.trans h.ordered
  named := fun hnamed => h'.named (h.named hnamed)

theorem Kept.blockId (h : Kept item item') : item'.blockId = item.blockId := by
  unfold BufferItem.blockId
  rw [h.blocks]

theorem getLast?_ids_getBlocks (hne : item.getBlocks ≠ []) :
    (ids item.getBlocks).getLast? = some item.blockId := by
  obtain ⟨block, hblock⟩ := Option.isSome_iff_exists.mp (List.getLast?_isSome.mpr hne)
  simp [ids, BufferItem.blockId, hblock]

theorem blockId_mem_ids (hne : item.getBlocks ≠ []) : item.blockId ∈ ids item.getBlocks :=
  List.mem_of_getLast? (getLast?_ids_getBlocks hne)

theorem Kept.advanceToSigned {author : Author} {signature : Signature}
    (h : item.advanceToSigned author signature = .ok item') : Kept item item' := by
  cases item with
  | executed item =>
    obtain rfl := Except.ok.inj h
    exact ⟨rfl, rfl, fun hnamed => hnamed⟩
  | ordered | signed | aggregated => cases h

variable {proof : LedgerInfoWithSignatures} {vote : CommitVote}

section Ledger

variable [LedgerApi]

theorem Kept.addSignatureIfMatched
    (h : item.addSignatureIfMatched vote = .ok item') : Kept item item' := by
  cases item <;>
  · simp only [BufferItem.addSignatureIfMatched] at h
    split at h
    · obtain rfl := Except.ok.inj h
      exact ⟨rfl, rfl, fun hnamed => hnamed⟩
    · cases h

theorem Kept.addSignatures (item : BufferItem) (votes : List CommitVote) :
    Kept item (addSignatures item votes) := by
  induction votes generalizing item with
  | nil => exact .refl item
  | cons vote rest ih =>
    change Kept item (BufferManager.addSignatures
      ((item.addSignatureIfMatched vote).toOption.getD item) rest)
    cases hadd : item.addSignatureIfMatched vote with
    | error e => exact ih item
    | ok added => exact (Kept.addSignatureIfMatched hadd).trans (ih added)

theorem Kept.tryAdvanceWithLedgerInfo (hid : proof.ledgerInfo.commitInfo.id = item.blockId)
    (h : item.tryAdvanceToAggregatedWithLedgerInfo proof = .ok item') : Kept item item' := by
  cases item with
  | ordered item =>
    simp only [BufferItem.tryAdvanceToAggregatedWithLedgerInfo, except_seq_ok_iff,
      except_pure_ok_iff] at h
    obtain ⟨-, rfl⟩ := h
    refine ⟨rfl, rfl, ?_⟩
    intro _ proof' hproof'
    obtain rfl := Option.some.inj hproof'
    exact hid
  | executed item | signed item =>
    simp only [BufferItem.tryAdvanceToAggregatedWithLedgerInfo, except_seq_ok_iff,
      except_pure_ok_iff] at h
    obtain ⟨-, rfl⟩ := h
    exact ⟨rfl, rfl, fun _ => hid⟩
  | aggregated => cases h

theorem Kept.applyPendingCommitProof {proof : Option LedgerInfoWithSignatures}
    (h : applyPendingCommitProof item proof item.blockId = .ok item') :
    Kept item item' := by
  unfold BufferManager.applyPendingCommitProof at h
  split at h
  · split at h
    · rename_i hcond
      simp only [Bool.and_eq_true, decide_eq_true_eq] at hcond
      exact .tryAdvanceWithLedgerInfo hcond.2 h
    · obtain rfl := Except.ok.inj h
      exact .refl item
  · obtain rfl := Except.ok.inj h
    exact .refl item

end Ledger

variable {blocks : List PipelinedBlock} {info : Option EpochBlockInfo}

section Api

variable [PipelineApi] {v : ValidatorVerifier}

theorem Kept.tryAdvanceToAggregated (h : item.tryAdvanceToAggregated v = .ok item') :
    Kept item item' := by
  cases item with
  | ordered item | aggregated item =>
    obtain rfl := Except.ok.inj h
    exact .refl _
  | executed item | signed item =>
    simp only [BufferItem.tryAdvanceToAggregated, BufferItem.aggregateIfEnough] at h
    split at h
    · simp only [BufferItem.aggregateCommitProof, except_map_ok_iff] at h
      obtain ⟨_, ⟨_, -, rfl⟩, rfl⟩ := h
      exact ⟨rfl, rfl, fun hnamed => hnamed⟩
    · obtain rfl := Except.ok.inj h
      exact .refl _

theorem Kept.countVotes [LedgerApi] {votes : List CommitVote}
    (h : m.countVotes item votes vote = .ok item') : Kept item item' := by
  have hcached := Kept.addSignatures item votes
  simp only [BufferManager.countVotes] at h
  split at h
  · rename_i added hadded
    exact hcached.trans ((Kept.addSignatureIfMatched hadded).trans (.tryAdvanceToAggregated h))
  · obtain rfl := Except.ok.inj h
    exact hcached

variable {epochEnd : Option Nat}

omit [PipelineApi] in
theorem executedCommitInfo_id {block : PipelinedBlock} {commitInfo : BlockInfo}
    (h : BufferItem.executedCommitInfo block epochEnd info = .ok commitInfo) :
    commitInfo.id = block.id := by
  unfold BufferItem.executedCommitInfo at h
  obtain ⟨corrected, hcorrected, rfl⟩ := except_map_ok_iff.mp h
  change corrected.id = block.id
  split at hcorrected
  · split at hcorrected
    · split at hcorrected
      · obtain rfl := Except.ok.inj hcorrected
        rfl
      · cases hcorrected
    · obtain rfl := Except.ok.inj hcorrected
      rfl
  · obtain rfl := Except.ok.inj hcorrected
    rfl

/-- The execution of an item: its blocks are replaced by the delivered ones, under the same
identifiers. -/
structure Executes (item : BufferItem) (blocks : List PipelinedBlock) (item' : BufferItem) :
    Prop where
  waits : item.isOrdered = true
  ids : ids item.getBlocks = ids blocks
  blocks : item'.getBlocks = blocks
  ordered : item'.isOrdered = false
  named : ItemNamed item'

theorem Executes.advance {orderVoteEnabled : Bool}
    (h : item.advanceToExecutedOrAggregated blocks v epochEnd orderVoteEnabled info =
      .ok item') : Executes item blocks item' := by
  cases item with
  | ordered item =>
    simp only [BufferItem.advanceToExecutedOrAggregated, except_bind_ok_iff, expect_ok_iff] at h
    obtain ⟨_, hids, block, hblock, commitInfo, hcommit, h⟩ := h
    rw [ensure_ok_iff] at hids
    have hid : commitInfo.id = ((blocks.getLast?.map PipelinedBlock.id).getD HashValue.zero) := by
      rw [hblock]
      exact executedCommitInfo_id hcommit
    cases hproof : item.commitProof with
    | some proof =>
      simp only [hproof, except_seq_ok_iff, except_pure_ok_iff] at h
      obtain ⟨hcommitInfo, rfl⟩ := h
      rw [ensure_ok_iff] at hcommitInfo
      refine ⟨rfl, hids, rfl, rfl, ?_⟩
      change proof.ledgerInfo.commitInfo.id = _
      rw [hcommitInfo]
      exact hid
    | none =>
      simp only [hproof, except_bind_ok_iff] at h
      obtain ⟨number, -, h⟩ := h
      unfold BufferItem.advanceWithVotes at h
      simp only at h
      split at h
      · simp only [BufferItem.aggregateCommitProof, except_map_ok_iff] at h
        obtain ⟨_, ⟨_, -, rfl⟩, rfl⟩ := h
        exact ⟨rfl, hids, rfl, rfl, hid⟩
      · obtain rfl := Except.ok.inj h
        exact ⟨rfl, hids, rfl, rfl, hid⟩
  | executed | signed | aggregated => cases h

omit [PipelineApi] in
theorem Executes.kept (h : Executes item blocks item')
    (hkept : Kept item' item'') : Executes item blocks item'' where
  waits := h.waits
  ids := h.ids
  blocks := hkept.blocks.trans h.blocks
  ordered := hkept.ordered.trans h.ordered
  named := hkept.named h.named

omit [PipelineApi] in
theorem Executes.blockId (h : Executes item blocks item') : item'.blockId = item.blockId := by
  have hlast (l : List PipelinedBlock) :
      l.getLast?.map PipelinedBlock.id = (Pipeline.ids l).getLast? := (List.getLast?_map ..).symm
  unfold BufferItem.blockId
  rw [hlast, hlast, h.blocks, h.ids]

end Api

/-! ## The execution root -/

/-- The execution root is the first item that waits for its execution. -/
def Rooted (m : BufferManager) (l : List BufferItem) : Prop :=
  m.executionRoot = (l.find? BufferItem.isOrdered).map BufferItem.blockId

/-- No item before the execution root waits for its execution. -/
def RootNotAfter (m : BufferManager) (l : List BufferItem) : Prop :=
  m.executionRoot = none ∨ ∃ pre post, l = pre ++ post ∧
    (∀ item ∈ pre, item.isOrdered = false) ∧ m.executionRoot = post.head?.map BufferItem.blockId

theorem Rooted.notAfter (h : Rooted m l) : RootNotAfter m l := by
  cases hfind : l.find? BufferItem.isOrdered with
  | none =>
    left
    rw [h, hfind]
    rfl
  | some item =>
    right
    obtain ⟨-, pre, post, rfl, hpre⟩ := List.find?_eq_some_iff_append.mp hfind
    refine ⟨pre, item :: post, rfl, ?_, ?_⟩
    · intro other hother
      simpa using hpre other hother
    · rw [h, hfind]
      rfl

theorem Rooted.replace (h : Rooted m (pre ++ item :: post)) (hkept : Kept item item') :
    Rooted { m with buffer := buffer } (pre ++ item' :: post) := by
  have hfind : ((pre ++ item' :: post).find? BufferItem.isOrdered).map BufferItem.blockId =
      ((pre ++ item :: post).find? BufferItem.isOrdered).map BufferItem.blockId := by
    rw [List.find?_append, List.find?_append, List.find?_cons, List.find?_cons, hkept.ordered]
    cases item.isOrdered with
    | true =>
      cases pre.find? BufferItem.isOrdered with
      | none => exact congrArg some hkept.blockId
      | some found => rfl
    | false => rfl
  exact Eq.trans h hfind.symm

/-- From a root that is not after it, the first item that waits is found. -/
theorem RootNotAfter.find_root (hroot : RootNotAfter m l)
    (h : m.buffer.Represents BufferItem.blockId l) {root : Cursor}
    (hfind : m.buffer.findElemFrom (m.executionRoot.or m.buffer.head) BufferItem.isOrdered =
      some root) : root = (l.find? BufferItem.isOrdered).map BufferItem.blockId := by
  rcases hroot with hnone | ⟨pre, post, rfl, hpre, hroot⟩
  · rw [hnone, Option.none_or] at hfind
    exact h.findElemFrom_head hfind
  · cases post with
    | nil =>
      rw [hroot, List.head?_nil, Option.map_none, Option.none_or] at hfind
      exact h.findElemFrom_head hfind
    | cons item post =>
      rw [hroot, List.head?_cons, Option.map_some, Option.some_or] at hfind
      exact Buffer.Represents.findElemFrom h hpre hfind

/-- A root after some items have been popped. -/
def rootAfter (root : Cursor) (popped : List BufferItem) : Cursor :=
  popped.foldl (fun root item => if root = some item.blockId then none else root) root

theorem rootAfter_none (popped : List BufferItem) : rootAfter none popped = none := by
  induction popped with
  | nil => rfl
  | cons item rest ih => exact ih

theorem rootAfter_of_ne {root : Cursor} {popped : List BufferItem}
    (h : ∀ item ∈ popped, root ≠ some item.blockId) : rootAfter root popped = root := by
  induction popped with
  | nil => rfl
  | cons item rest ih =>
    change rootAfter (if root = some item.blockId then none else root) rest = root
    rw [if_neg (h item List.mem_cons_self)]
    exact ih (List.forall_mem_cons.mp h).2

theorem rootAfter_of_mem {item : BufferItem} {popped : List BufferItem} (h : item ∈ popped) :
    rootAfter (some item.blockId) popped = none := by
  induction popped with
  | nil => cases h
  | cons first rest ih =>
    change rootAfter (if some item.blockId = some first.blockId then none else some item.blockId)
      rest = none
    by_cases hfirst : some item.blockId = some first.blockId
    · rw [if_pos hfirst]
      exact rootAfter_none rest
    · rw [if_neg hfirst]
      refine ih ((List.mem_cons.mp h).resolve_left ?_)
      rintro rfl
      exact hfirst rfl

/-- When no item waits among those that leave the buffer, the execution root is after them. -/
theorem Rooted.pass (hroot : Rooted m (pre ++ item :: post))
    (hnodup : ((pre ++ item :: post).map BufferItem.blockId).Nodup)
    (hnone : (pre ++ [item]).find? BufferItem.isOrdered = none)
    (hroot' : m'.executionRoot = rootAfter m.executionRoot (pre ++ [item])) : Rooted m' post := by
  have hsplit : pre ++ item :: post = (pre ++ [item]) ++ post := by simp
  unfold Rooted at hroot ⊢
  rw [hsplit, List.find?_append, hnone, Option.none_or] at hroot
  rw [hsplit, List.map_append, List.nodup_append] at hnodup
  rw [hroot', ← hroot]
  refine rootAfter_of_ne ?_
  intro other hother heq
  rw [hroot] at heq
  obtain ⟨found, hfound, hid⟩ := Option.map_eq_some_iff.mp heq
  exact hnodup.2.2 other.blockId (List.mem_map_of_mem hother) found.blockId
    (List.mem_map_of_mem (List.mem_of_find?_eq_some hfound)) hid.symm

/-- When items have left the buffer, the execution root has left with them or is right. -/
theorem Rooted.afterPop (hroot : Rooted m (pre ++ item :: post))
    (hnodup : ((pre ++ item :: post).map BufferItem.blockId).Nodup)
    (hroot' : m'.executionRoot = rootAfter m.executionRoot (pre ++ [item])) :
    m'.executionRoot = none ∨ Rooted m' post := by
  cases hfind : (pre ++ [item]).find? BufferItem.isOrdered with
  | some found =>
    left
    have hsplit : pre ++ item :: post = (pre ++ [item]) ++ post := by simp
    unfold Rooted at hroot
    rw [hroot', hroot, hsplit, List.find?_append, hfind]
    exact rootAfter_of_mem (List.mem_of_find?_eq_some hfind)
  | none => exact .inr (hroot.pass hnodup hfind hroot')

section

variable (h : Rooted m (pre ++ item :: post)) (hitem : item.isOrdered = true)
  (hid : item'.blockId = item.blockId)

include h hitem hid

/-- The root is then not after the first item that waits. -/
theorem Rooted.execute
    (hroot : m'.executionRoot = m.executionRoot) : RootNotAfter m' (pre ++ item' :: post) := by
  cases hfind : pre.find? BufferItem.isOrdered with
  | some found =>
    apply Rooted.notAfter
    unfold Rooted at h ⊢
    rw [hroot, h, List.find?_append, List.find?_append, hfind]
    rfl
  | none =>
    right
    refine ⟨pre, item' :: post, rfl, ?_, ?_⟩
    · intro other hother
      simpa using List.find?_eq_none.mp hfind other hother
    · unfold Rooted at h
      rw [hroot, h, List.find?_append, hfind, Option.none_or, List.find?_cons, hitem]
      exact congrArg some hid.symm

/-- The execution root leaves the buffer with the first item that waits. -/
theorem Rooted.rootAfter_eq_none : rootAfter m.executionRoot (pre ++ [item']) = none := by
  unfold Rooted at h
  rw [h, List.find?_append]
  cases hfind : pre.find? BufferItem.isOrdered with
  | some found =>
    have hmem : found ∈ pre ++ [item'] := by simp [List.mem_of_find?_eq_some hfind]
    exact rootAfter_of_mem hmem
  | none =>
    rw [Option.none_or, List.find?_cons, hitem]
    change rootAfter (some item.blockId) _ = none
    rw [← hid]
    exact rootAfter_of_mem (by simp)

end

theorem Rooted.push (h : Rooted m l) (hroot : m'.executionRoot = m.executionRoot) :
    m'.executionRoot = none ∨ Rooted m' (l ++ [item]) := by
  unfold Rooted at h ⊢
  rw [hroot, h, List.find?_append]
  cases l.find? BufferItem.isOrdered with
  | none => exact .inl rfl
  | some found => exact .inr rfl

/-- When the execution root is an item of the buffer, no item before it waits. -/
theorem Rooted.executed_before
    (h : Rooted m (pre ++ item :: post)) (hroot : m.executionRoot = some item.blockId)
    (hnodup : ((pre ++ item :: post).map BufferItem.blockId).Nodup) :
    ∀ other ∈ pre, other.isOrdered = false := by
  have hnone : pre.find? BufferItem.isOrdered = none := by
    cases hfind : pre.find? BufferItem.isOrdered with
    | none => rfl
    | some found =>
      -- the root would be an item before this one, with the same identifier
      unfold Rooted at h
      rw [List.find?_append, hfind, Option.some_or, hroot] at h
      have hid : item.blockId = found.blockId := Option.some.inj h
      rw [List.map_append, List.nodup_append] at hnodup
      have hpre := List.mem_map_of_mem (f := BufferItem.blockId) (List.mem_of_find?_eq_some hfind)
      exact absurd hid.symm (hnodup.2.2 _ hpre _ (by simp))
  intro other hother
  simpa using List.find?_eq_none.mp hnone other hother

/-! ## The rule -/

/-- What is known of the items of the buffer survives the requests, the moves of the roots, a change
of one item, and the removal of the items up to an aggregated one. -/
structure ItemRule (C : BufferManager → List PipelinedBlock → List BufferItem → Prop)
    (E : Panic → Prop) : Prop where
  represents : ∀ {m taken l}, C m taken l → m.buffer.Represents BufferItem.blockId l
  panic : ∀ {m taken l message}, C m taken l → message ∉ unreachableMessages → E ⟨message, m⟩
  work : ∀ {m l executionRoot endEpochTimestamp highestCommittedRound latestRound commitVoteCache
      pendingCommitProofs}, C m [] l →
    C { m with
        executionRoot, endEpochTimestamp, highestCommittedRound, latestRound, commitVoteCache
        pendingCommitProofs } [] l
  signingRoot : ∀ {m l root}, C m [] l →
    m.buffer.findElemFrom (m.signingRoot.or m.buffer.head) BufferItem.isExecuted = some root →
    C { m with signingRoot := root } [] l
  send : ∀ {m l request}, C m [] l → request.persistingRequest = none → C (m.send request) [] l
  keep : ∀ {m pre item post item' buffer}, C m [] (pre ++ item :: post) → Kept item item' →
    Replaces m.buffer item.blockId item item' buffer →
    buffer.Represents BufferItem.blockId (pre ++ item' :: post) →
    C { m with buffer } [] (pre ++ item' :: post)
  pop : ∀ {m taken item l buffer}, C m taken (item :: l) →
    m.buffer.popFront = some (some item, buffer) → buffer.Represents BufferItem.blockId l →
    C (m.popped item buffer) (taken ++ item.getBlocks) l
  persist : ∀ {m taken item l buffer}, C m taken (.aggregated item :: l) →
    m.buffer.popFront = some (some (.aggregated item), buffer) →
    buffer.Represents BufferItem.blockId l →
    C ((m.popped (.aggregated item) buffer).send
      (.persisting ⟨taken ++ item.executedBlocks, item.commitProof⟩)) [] l

section

variable (C : BufferManager → List PipelinedBlock → List BufferItem → Prop)

/-- What holds between two events. -/
def Between (m : BufferManager) : Prop :=
  ∃ l, C m [] l ∧ Rooted m l ∧ NoneAggregated l

/-- What holds before the execution root is moved. -/
def BeforeRoot (m : BufferManager) : Prop :=
  ∃ l, C m [] l ∧ RootNotAfter m l ∧ NoneAggregated l

/-- The only item that has been aggregated is about to leave the buffer. -/
def Leaving (blockId : HashValue) (m : BufferManager) : Prop :=
  ∃ pre item post, C m [] (pre ++ item :: post) ∧ Rooted m (pre ++ item :: post) ∧
    item.blockId = blockId ∧ item.isAggregated = true ∧ NoneAggregated post

end

/-- An item of the buffer is executed with the blocks of a response. -/
structure ExecutedAt (m : BufferManager) (response : ExecutionResponse)
    (blocks : List PipelinedBlock) (pre : List BufferItem) (item : BufferItem)
    (post : List BufferItem) (item' : BufferItem) (buffer : Buffer BufferItem) : Prop where
  rooted : Rooted m (pre ++ item :: post)
  finds : HandlerRule.Finds m response blocks item
  executes : Executes item blocks item'
  replaces : Replaces m.buffer item.blockId item item' buffer
  represents : buffer.Represents BufferItem.blockId (pre ++ item' :: post)

/-- An item is taken out of the buffer, changed, and put back in its place. -/
theorem Replaces.split {key : HashValue} (h : Replaces m.buffer key item item' buffer)
    (hrepresents : m.buffer.Represents BufferItem.blockId l)
    (hid : item'.blockId = item.blockId) :
    ∃ pre post, l = pre ++ item :: post ∧ key = item.blockId ∧
      buffer.Represents BufferItem.blockId (pre ++ item' :: post) := by
  obtain ⟨rest, htake, hset⟩ := h
  obtain ⟨pre, post, hl, hkey, hbuffer⟩ := hrepresents.take_set htake hset hid
  exact ⟨pre, post, hl, Option.some.inj hkey, hbuffer⟩

namespace ItemRule

variable {C : BufferManager → List PipelinedBlock → List BufferItem → Prop} {E : Panic → Prop}
  (hrule : ItemRule C E)

include hrule

/-- Moving the roots keeps the items, whatever is known about them. -/
theorem handlerRule (P : List BufferItem → Prop) :
    HandlerRule (fun m => ∃ l, C m [] l ∧ Rooted m l ∧ P l)
      (fun m => ∃ l, C m [] l ∧ RootNotAfter m l ∧ P l) E where
  weak := fun ⟨l, hl, hroot, hP⟩ => ⟨l, hl, hroot.notAfter, hP⟩
  panic := fun ⟨_, hl, _⟩ hmessage => hrule.panic hl fun hmem => hmessage (unreachable_subset hmem)
  executionRoot := fun ⟨l, hl, hroot, hP⟩ hfind =>
    ⟨l, hrule.work hl, hroot.find_root (hrule.represents hl) hfind, hP⟩
  signingRoot := fun ⟨l, hl, hroot, hP⟩ hfind => ⟨l, hrule.signingRoot hl hfind, hroot, hP⟩
  send := fun ⟨l, hl, hroot, hP⟩ hrequest => ⟨l, hrule.send hl hrequest, hroot, hP⟩
  latestRound := fun ⟨l, hl, hroot, hP⟩ => ⟨l, hrule.work hl, hroot, hP⟩
  drain := fun ⟨l, hl, hroot, hP⟩ => drainCachedCommitVotes_of
    (P := fun m => ∃ l, C m [] l ∧ Rooted m l ∧ P l) fun _ => ⟨l, hrule.work hl, hroot, hP⟩

theorem between : HandlerRule (Between C) (BeforeRoot C) E := hrule.handlerRule NoneAggregated

/-! ### The head -/

section Head

variable (hitem : item.isAggregated = true)

include hitem

/-- The loop of `advance_head` finds the aggregated item. -/
theorem popUntil {fuel : Nat} {taken : List PipelinedBlock} (h : C m taken (pre ++ item :: post))
    (hfuel : pre.length < fuel) : Ensures (popUntil item.blockId fuel m taken)
      (fun m' => C m' [] post ∧ m'.executionRoot = rootAfter m.executionRoot (pre ++ [item]))
      E := by
  induction fuel generalizing m taken pre with
  | zero => omega
  | succ fuel ih =>
    apply ensures_bind_orPanic
    · intro message herror
      obtain ⟨-, rfl⟩ := expect_error_iff.mp herror
      exact hrule.panic h (by decide +kernel)
    rintro ⟨front, buffer⟩ hpop
    rw [expect_ok_iff] at hpop
    rcases (hrule.represents h).popFront hpop with ⟨hnil, -, -⟩ | ⟨first, rest, hl, rfl, hbuffer⟩
    · simp at hnil
    · cases pre with
      | nil =>
        obtain ⟨rfl, rfl⟩ := List.cons.inj hl
        simp only [if_true]
        cases item with
        | aggregated item => exact ensures_pure ⟨hrule.persist h hpop hbuffer, rfl⟩
        | ordered | executed | signed => cases hitem
      | cons a pre =>
        obtain ⟨rfl, rfl⟩ := List.cons.inj hl
        have hne := (hrule.represents h).head_ne
        simp only [if_neg hne]
        exact ih (hrule.pop h hpop hbuffer) (by simpa using hfuel)

theorem advanceHead (h : C m [] (pre ++ item :: post)) : Ensures (m.advanceHead item.blockId)
      (fun m' => C m' [] post ∧ m'.executionRoot = rootAfter m.executionRoot (pre ++ [item]))
      E := by
  have hlength := (hrule.represents h).length_le
  rw [List.length_append, List.length_cons] at hlength
  exact hrule.popUntil hitem h (by omega)

end Head

/-! ### Signing responses and commit messages -/

theorem handleSigningResponse (h : Between C m) (response : SigningResponse) :
    Ensures (m.handleSigningResponse response) (Between C) E := by
  refine hrule.between.handleSigningResponse h response ?_
  intro key item item' buffer signature hreplaces hsign
  obtain ⟨l, hl, hroot, hnone⟩ := h
  have hkept : Kept item item' ∧ (item.isAggregated = false → item'.isAggregated = false) := by
    split at hsign
    · refine ⟨.advanceToSigned hsign, ?_⟩
      cases item with
      | executed item =>
        obtain rfl := Except.ok.inj hsign
        exact fun _ => rfl
      | ordered | signed | aggregated => cases hsign
    · obtain rfl := Except.ok.inj hsign
      exact ⟨.refl item, fun h => h⟩
  obtain ⟨pre, post, rfl, rfl, hbuffer⟩ := hreplaces.split (hrule.represents hl) hkept.1.blockId
  exact ⟨_, hrule.keep hl hkept.1 hreplaces hbuffer, hroot.replace hkept.1,
    hnone.replace (hkept.2 (hnone item (by simp)))⟩

/-- An item is put back; when it is aggregated now, it is about to leave. -/
theorem advances {key : HashValue} (hl : C m [] l) (hroot : Rooted m l) (hnone : NoneAggregated l)
    (hreplaces : Replaces m.buffer key item item' buffer) (hkept : Kept item item') :
    Advances (Between C) (Leaving C key) item' { m with buffer := buffer } := by
  obtain ⟨pre, post, rfl, rfl, hbuffer⟩ := hreplaces.split (hrule.represents hl) hkept.blockId
  have hl' := hrule.keep hl hkept hreplaces hbuffer
  unfold Advances
  split
  · rename_i hagg
    exact ⟨pre, item', post, hl', hroot.replace hkept, hkept.blockId, hagg,
      fun other hother => hnone other (by simp [hother])⟩
  · rename_i hagg
    exact ⟨_, hl', hroot.replace hkept, hnone.replace (by simpa using hagg)⟩

variable [LedgerApi] [PipelineApi]

theorem handleCommitMessage (h : Between C m) (message : CommitMessage) :
    Ensures (m.handleCommitMessage message) (Between C) E := by
  obtain ⟨l, hl, hroot, hnone⟩ := id h
  refine hrule.between.handleCommitMessage (Leaving C message.blockId) h (fun _ => ?_) ?_
  · cases message with
    | vote vote =>
      refine hrule.between.processVote h
        (cacheCommitVote_of (P := Between C) fun _ => ⟨l, hrule.work hl, hroot, hnone⟩) ?_
      rintro cache item item' buffer votes _ - ⟨l', hl', hroot', hnone'⟩ hreplaces hcount
      exact hrule.advances hl' hroot' hnone' hreplaces (.countVotes hcount)
    | decision proof =>
      refine hrule.between.processDecision h
        (tryAddPendingCommitProof_of (P := Between C) fun _ => ⟨l, hrule.work hl, hroot, hnone⟩)
        ?_ ?_
      · intro item message hget herror
        have hitem := hnone item ((hrule.represents hl).get hget).2
        exact hrule.between.panic ⟨l, hl, hroot.notAfter, hnone⟩
          (tryAdvanceWithLedgerInfo_error hitem herror)
      · intro item item' buffer hreplaces hdecide
        obtain ⟨rest, htake, -⟩ := id hreplaces
        have hkey := ((hrule.represents hl).get (Buffer.get_of_take htake)).1
        exact hrule.advances hl hroot hnone hreplaces
          (.tryAdvanceWithLedgerInfo (Option.some.inj hkey) hdecide)
  · rintro m' ⟨pre, item, post, hl', hroot', hid, hitem, hnone'⟩
    rw [← hid]
    refine (hrule.advanceHead hitem hl').imp ?_
    rintro m₁ ⟨hl₁, hroot₁⟩
    rcases hroot'.afterPop (hrule.represents hl').nodup hroot₁ with hgone | hrooted
    · exact .inl ⟨hgone, post, hl₁, .inl hgone, hnone'⟩
    · exact .inr ⟨post, hl₁, hrooted, hnone'⟩

/-! ### Execution responses -/

theorem handleExecutionResponse {response : ExecutionResponse} (h : Between C m)
    (hexecute : ∀ {pre item post blocks item' buffer}, C m [] (pre ++ item :: post) →
      ExecutedAt m response blocks pre item post item' buffer →
      C { m with buffer } [] (pre ++ item' :: post)) :
    Ensures (m.handleExecutionResponse response info) (Between C) E := by
  obtain ⟨l, hl, hroot, hnone⟩ := id h
  refine hrule.between.handleExecutionResponse
    (fun m' => ∃ pre item post, C m' [] (pre ++ item :: post) ∧
      item.blockId = response.blockId ∧ item.isAggregated = true ∧ NoneAggregated post ∧
      rootAfter m'.executionRoot (pre ++ [item]) = none) h
    (fun _ => ⟨l, hrule.work hl, hroot.notAfter, hnone⟩) ?_
    (fun _ _ => ⟨l, hrule.work (m := m) hl, hroot.notAfter, hnone⟩) ?_ ?_
  · intro blocks item info message _ herror
    have hnoted : C (m.noteEndOfEpoch blocks) [] l := hrule.work hl
    rcases advanceToExecutedOrAggregated_error herror with hmessage | ⟨-, rfl⟩
    · exact hrule.panic hnoted fun hmem => hmessage (unreachable_subset hmem)
    · exact hrule.panic hnoted (by decide)
  · intro blocks bound item executed item' buffer hexecuted
    obtain ⟨info', hexecutes⟩ := hexecuted.executes
    have hadvanced := Executes.advance hexecutes
    have hkey := Option.some.inj ((hrule.represents hl).get hexecuted.finds.item).1
    have happlies := hexecuted.applies
    rw [hkey, ← hadvanced.blockId] at happlies
    have hexec := hadvanced.kept (.applyPendingCommitProof happlies)
    have hreplaces := hexecuted.replaces
    rw [hkey] at hreplaces
    obtain ⟨pre, post, rfl, -, hbuffer⟩ := hreplaces.split (hrule.represents hl) hexec.blockId
    have hl' := hexecute hl ⟨hroot, hexecuted.finds, hexec, hreplaces, hbuffer⟩
    unfold Advances
    split
    · rename_i hagg
      refine ⟨pre, item', post, hrule.work hl', hexec.blockId.trans hkey.symm, hagg, ?_, ?_⟩
      · exact fun other hother => hnone other (by simp [hother])
      · exact hroot.rootAfter_eq_none hexec.waits hexec.blockId
    · rename_i hagg
      exact ⟨_, hrule.work hl', hroot.execute hexec.waits hexec.blockId rfl,
        hnone.replace (by simpa using hagg)⟩
  · rintro m' ⟨pre, item, post, hl', hid, hitem, hnone', hgone⟩
    rw [← hid]
    refine (hrule.advanceHead hitem hl').imp ?_
    rintro m₁ ⟨hl₁, hroot₁⟩
    exact ⟨post, hl₁, .inl (hroot₁.trans hgone), hnone'⟩

end ItemRule

/-! ## One event -/

section Events

variable [LedgerApi] {C C₀ : BufferManager → List PipelinedBlock → List BufferItem → Prop}
  {E : Panic → Prop}

/-- A batch is received: what is known may be something else then. -/
theorem ItemRule.handleOrdered {blocks : OrderedBlocks} (hrule : ItemRule C E)
    (hbefore : ItemRule C₀ E) (h : Between C₀ m)
    (hpush : ∀ {m' l item buffer}, C₀ m' [] l → blocks.orderedBlocks ≠ [] →
      Kept (.newOrdered blocks.orderedBlocks blocks.orderedProof) item →
      m'.buffer.pushBack BufferItem.blockId item = some buffer →
      C { m' with buffer } [] (l ++ [item])) :
    Ensures (m.handleOrdered blocks) (Between C) E := by
  refine hrule.between.handleOrdered hbefore.between h ?_
  rintro last sent round blockId m' votes buffer hlast - - ⟨l, hl, hroot, hnone⟩ hbuffer
  have hkept := Kept.addSignatures (.newOrdered blocks.orderedBlocks blocks.orderedProof) votes
  generalize addSignatures _ votes = item at hkept hbuffer
  have hne : blocks.orderedBlocks ≠ [] := by
    intro hnil
    simp [hnil] at hlast
  have hpushed := hpush hl hne hkept hbuffer
  have hnone' : NoneAggregated (l ++ [item]) := by
    apply forall_mem_snoc hnone
    have hordered : item.isOrdered = true := hkept.ordered
    cases item with
    | ordered => rfl
    | executed | signed | aggregated => cases hordered
  rcases hroot.push rfl with hgone | hrooted
  · exact .inl ⟨hgone, _, hpushed, .inl hgone, hnone'⟩
  · exact .inr ⟨_, hpushed, hrooted, hnone'⟩

variable [PipelineApi]

/-- What is known changes with the blocks that are received. -/
theorem ItemRule.handle {event : Event} (hrule : ItemRule C E) (hbefore : ItemRule C₀ E)
    (h : Between C₀ m) (hnothing : receivedBlocks (.ok m) event = [] → C₀ = C)
    (hreset : ∀ signal, event = .reset signal → Between C (m.processResetRequest signal))
    (hpush : ∀ {blocks : OrderedBlocks} {m' l item buffer},
      receivedBlocks (.ok m) event = blocks.orderedBlocks → C₀ m' [] l →
      blocks.orderedBlocks ≠ [] → Kept (.newOrdered blocks.orderedBlocks blocks.orderedProof) item →
      m'.buffer.pushBack BufferItem.blockId item = some buffer →
      C { m' with buffer } [] (l ++ [item]))
    (hexecute : ∀ {response answer pre item post blocks item' buffer},
      event = .executionResponse response answer → C m [] (pre ++ item :: post) →
      ExecutedAt m response blocks pre item post item' buffer →
      C { m with buffer } [] (pre ++ item' :: post)) :
    Ensures (m.handle event) (Between C) E := by
  refine hrule.between.handle hbefore.between h ?_ ?_
  · intro hstop
    exact hnothing (receivedBlocks_of_stop hstop) ▸ h
  · intro full hstop hfull
    cases event with
    | ordered blocks =>
      have hreceived := receivedBlocks_ordered blocks hstop hfull
      cases full with
      | true => exact (hnothing hreceived ▸ h : Between C m)
      | false => exact hrule.handleOrdered hbefore h (hpush hreceived)
    | reset signal => exact hreset signal rfl
    | executionResponse response answer =>
      exact hrule.handleExecutionResponse (hnothing rfl ▸ h) (hexecute rfl)
    | executionScheduleRetry => exact hrule.between.retryFrom (hnothing rfl ▸ h)
    | signingResponse response => exact hrule.handleSigningResponse (hnothing rfl ▸ h) response
    | persistingResponse result =>
      obtain ⟨l, hl, hroot, hnone⟩ : Between C m := hnothing rfl ▸ h
      cases result with
      | ok round => exact ⟨l, hrule.work hl, hroot, hnone⟩
      | error e => exact ⟨l, hl, hroot, hnone⟩
    | commitMessage message => exact hrule.handleCommitMessage (hnothing rfl ▸ h) message

end Events

end Items

end Liquent.Pipeline
