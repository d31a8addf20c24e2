import Liquent.Pipeline.Panics

/-!
# A rule for invariants of the manager

A handler takes an item out of the buffer, changes it and puts it back, removes the items up to one
that has been aggregated, and moves the roots.  What an invariant has to survive is stated here
once: the moves of the roots, the requests, and for each handler its change of the one item.  Then
the handler keeps the invariant, and leaves what is asked for where it panics.
-/

namespace Liquent.Pipeline

open Misc BufferManager

/-- An item is taken out of the buffer, changed, and put back. -/
def Replaces (buffer : Buffer BufferItem) (key : HashValue) (item item' : BufferItem)
    (buffer' : Buffer BufferItem) : Prop :=
  ∃ rest, buffer.take (some key) = some (item, rest) ∧ rest.set (some key) item' = some buffer'

variable {item : BufferItem} {key : HashValue}

theorem Replaces.holdsAt {P : HashValue → BufferItem → Prop} {buffer buffer' : Buffer BufferItem}
    {item' : BufferItem} (h : Replaces buffer key item item' buffer')
    (hbuffer : buffer.HoldsAt P) (hitem : P key item → P key item') : buffer'.HoldsAt P := by
  obtain ⟨rest, htake, hset⟩ := h
  obtain ⟨htaken, hrest⟩ := hbuffer.take htake
  refine hrest.set hset ?_
  rintro _ ⟨⟩
  exact hitem (htaken key rfl)

/-- What the moves of the roots and the requests need of `I`; the weaker `J` is enough before the
execution root is moved. -/
structure HandlerRule (I J : BufferManager → Prop) (E : Panic → Prop) : Prop where
  weak : ∀ {m}, I m → J m
  panic : ∀ {m message}, J m → message ∉ crashMessages → E ⟨message, m⟩
  executionRoot : ∀ {m root}, J m →
    m.buffer.findElemFrom (m.executionRoot.or m.buffer.head) BufferItem.isOrdered = some root →
    I { m with executionRoot := root }
  signingRoot : ∀ {m root}, I m →
    m.buffer.findElemFrom (m.signingRoot.or m.buffer.head) BufferItem.isExecuted = some root →
    I { m with signingRoot := root }
  send : ∀ {m request}, I m → request.persistingRequest = none → I (m.send request)
  latestRound : ∀ {m round}, I m → I { m with latestRound := round }
  drain : ∀ {m round blockId}, I m → I (m.drainCachedCommitVotes round blockId).2

/-- The block that a commit message is for. -/
def CommitMessage.blockId : CommitMessage → HashValue
  | .vote commitVote => commitVote.commitInfo.id
  | .decision proof => proof.ledgerInfo.commitInfo.id

/-- What is enough before the execution root is moved if there is none. -/
def Settles (I J : BufferManager → Prop) (m : BufferManager) : Prop :=
  m.executionRoot = none ∧ J m ∨ I m

/-- What holds when an item has been put back: an aggregated one is about to leave the buffer. -/
def Advances (I H : BufferManager → Prop) (item : BufferItem) (m : BufferManager) : Prop :=
  if item.isAggregated then H m else I m

theorem Advances.of {I : BufferManager → Prop} {m : BufferManager} (h : I m) :
    Advances I I item m := by
  unfold Advances
  split
  · exact h
  · exact h

section Panics

variable {m : BufferManager} {E : Panic → Prop}

/-- A part of a handler may panic where it calls something that fails. -/
theorem ensures_bind_orPanic {α β : Type} {x : Except String α} {f : α → Outcome β} {Q : β → Prop}
    (herror : ∀ message, x = .error message → E ⟨message, m⟩)
    (hf : ∀ a, x = .ok a → Ensures (f a) Q E) : Ensures (m.orPanic x >>= f) Q E :=
  (ensures_orPanic_message herror).bind fun a _ => hf a

/-- The loop of `advance_head`, for what survives the removal of items. -/
theorem ensures_popUntil [Crypto] {P : BufferManager → Prop} {target : HashValue} {fuel : Nat}
    {taken : List PipelinedBlock}
    (hpanic : ∀ {m message}, P m → message ≠ notOrderedMessage → E ⟨message, m⟩)
    (hpop : ∀ {m item buffer}, P m → m.buffer.popFront = some (some item, buffer) →
      P (m.popped item buffer))
    (hsend : ∀ {m item buffer blocks}, P m →
      m.buffer.popFront = some (some (.aggregated item), buffer) →
      P ((m.popped (.aggregated item) buffer).send (.persisting ⟨blocks, item.commitProof⟩)))
    (h : P m) : Ensures (popUntil target fuel m taken) P E := by
  induction fuel generalizing m taken with
  | zero => exact hpanic h (by decide +kernel)
  | succ fuel ih =>
    apply ensures_bind_orPanic
    · intro message herror
      obtain ⟨-, rfl⟩ := expect_error_iff.mp herror
      exact hpanic h (by decide +kernel)
    rintro ⟨front, buffer⟩ hfront
    rw [expect_ok_iff] at hfront
    cases front with
    | none => exact hpanic h (by decide +kernel)
    | some item =>
      dsimp only
      split
      · cases item with
        | aggregated item => exact ensures_pure (hsend h hfront)
        | ordered | executed | signed => exact hpanic (hpop h hfront) (by decide +kernel)
      · exact ih (hpop h hfront)

/-- The guard for ordered blocks can be evaluated: the rounds are not at the end of their range. -/
def Guarded (m : BufferManager) : Prop := ∃ full, m.needBackpressure = .ok full

theorem ensures_guard {α : Type} {f : Bool → Outcome α} {Q : α → Prop}
    (hpanic : ∀ {message}, ¬ Guarded m → message ∉ crashMessages → E ⟨message, m⟩)
    (hf : ∀ full, m.needBackpressure = .ok full → Ensures (f full) Q E) :
    Ensures (m.needBackpressure >>= f) Q E := by
  unfold Guarded at hpanic
  unfold needBackpressure at hpanic hf ⊢
  rw [bind_assoc]
  apply ensures_bind_orPanic
  · intro message herror
    rw [herror] at hpanic
    refine hpanic ?_ (checkedAdd_error herror)
    rintro ⟨full, hfull⟩
    cases hfull
  · intro bound hbound
    rw [hbound] at hf
    exact hf _ rfl

/-- What the branch ensures, and the guard of the next iteration. -/
theorem ensures_handle [Crypto] [LedgerApi] [PipelineApi] {Q : BufferManager → Prop} {event : Event}
    (hstopped : m.stop = true → Q m)
    (hpanic : ∀ {message}, ¬ Guarded m → message ∉ crashMessages → E ⟨message, m⟩)
    (hbranch : ∀ full, m.stop = false → m.needBackpressure = .ok full →
      Ensures (m.selectBranch full event) Q E)
    (hnext : ∀ {m' message}, Q m' → ¬ Guarded m' → message ∉ crashMessages → E ⟨message, m'⟩) :
    Ensures (m.handle event) (fun m' => Q m' ∧ (m'.stop = false → Guarded m')) E := by
  unfold BufferManager.handle
  cases hstop : m.stop with
  | true => exact ⟨hstopped hstop, fun hrunning => by simp [hstop] at hrunning⟩
  | false =>
    apply ensures_guard hpanic
    intro full hfull
    apply (hbranch full hstop hfull).bind
    intro m' _ hm'
    split
    · rename_i hstop'
      exact ⟨hm', fun hrunning => by simp [hstop'] at hrunning⟩
    · exact ensures_guard (hnext hm') fun full hfull => ⟨hm', fun _ => ⟨full, hfull⟩⟩

end Panics

namespace HandlerRule

variable {I J H : BufferManager → Prop} {E : Panic → Prop} {m : BufferManager}
  (hrule : HandlerRule I J E)

include hrule

theorem unwrap {α β : Type} {o : Option α} {f : α → Outcome β} {Q : β → Prop} (h : J m)
    (hf : ∀ a, o = some a → Ensures (f a) Q E) :
    Ensures (m.orPanic (expect o unwrapNone) >>= f) Q E := by
  apply ensures_bind_orPanic
  · intro message herror
    obtain ⟨-, rfl⟩ := expect_error_iff.mp herror
    exact hrule.panic h unwrapNone_not_mem
  · intro a ha
    exact hf a (expect_ok_iff.mp ha)

/-! ## Roots -/

theorem advanceExecutionRoot (h : J m) : Ensures m.advanceExecutionRoot I E :=
  hrule.unwrap h fun _ hfind => ensures_pure (hrule.executionRoot h hfind)

theorem advanceExecutionRootIfNone (h : Settles I J m) :
    Ensures m.advanceExecutionRootIfNone I E := by
  unfold BufferManager.advanceExecutionRootIfNone
  rcases h with ⟨hnone, h⟩ | h
  · rw [hnone]
    exact hrule.advanceExecutionRoot h
  · split
    · exact hrule.advanceExecutionRoot (hrule.weak h)
    · exact h

theorem advanceSigningRoot (h : I m) : Ensures m.advanceSigningRoot I E := by
  apply hrule.unwrap (hrule.weak h)
  intro root hfind
  have hroot := hrule.signingRoot h hfind
  unfold requestSigning
  cases root with
  | none => exact hroot
  | some root =>
    apply hrule.unwrap (hrule.weak hroot)
    intro item _
    cases item with
    | executed item => exact ensures_pure (hrule.send hroot rfl)
    | ordered | signed | aggregated => exact hrule.panic (hrule.weak hroot) (by decide +kernel)

theorem advanceSigningRootIfNone (h : I m) : Ensures m.advanceSigningRootIfNone I E := by
  unfold BufferManager.advanceSigningRootIfNone
  split
  · exact hrule.advanceSigningRoot h
  · exact h

theorem retryFrom {fuel : Nat} {cursor : Cursor} (h : I m) :
    Ensures (retryFrom fuel cursor m) I E := by
  induction fuel generalizing m cursor with
  | zero =>
    cases cursor with
    | none => exact h
    | some key => exact hrule.panic (hrule.weak h) unwrapNone_not_mem
  | succ fuel ih =>
    cases cursor with
    | none => exact h
    | some key =>
      apply hrule.unwrap (hrule.weak h)
      intro item _
      apply hrule.unwrap (hrule.weak h)
      intro elem _
      exact ih (hrule.send h rfl)

/-! ## Signing responses -/

/-- Executed items may be signed, all others stay as they are. -/
theorem handleSigningResponse (h : I m) (response : SigningResponse)
    (hsign : ∀ {key item item' buffer signature}, Replaces m.buffer key item item' buffer →
      (if item.isExecuted then item.advanceToSigned m.author signature else .ok item) = .ok item' →
      I { m with buffer := buffer }) :
    Ensures (m.handleSigningResponse response) I E := by
  have hprocess : Ensures (m.processSigningResponse response) I E := by
    unfold processSigningResponse
    split
    · exact h
    · split
      · exact h
      · apply hrule.unwrap (hrule.weak h)
        rintro ⟨item, rest⟩ htake
        apply ensures_bind_orPanic
        · intro message herror
          split at herror
          · exact hrule.panic (hrule.weak h) (advanceToSigned_error herror)
          · cases herror
        intro item' hitem'
        apply hrule.unwrap (hrule.weak h)
        intro buffer hset
        exact ensures_pure (hsign ⟨rest, htake, hset⟩ hitem')
  apply hprocess.bind
  intro m' _ hm'
  exact hrule.advanceSigningRoot hm'

/-! ## Commit messages -/

/-- What holds after a commit message: the block that is returned has been aggregated. -/
def Completed (I H : BufferManager → Prop) (blockId : HashValue)
    (r : Option HashValue × BufferManager) : Prop :=
  r.1 = none ∧ I r.2 ∨ r.1 = some blockId ∧ H r.2

theorem completed_of_putBack {rest : Buffer BufferItem} (h : J m)
    (hput : ∀ {buffer}, rest.set (some key) item = some buffer →
      Advances I H item { m with buffer := buffer }) :
    Ensures (do
        let m' ← m.putBack rest (some key) item
        pure (if item.isAggregated then some key else none, m'))
      (Completed I H key) E := by
  rw [putBack, bind_assoc]
  apply hrule.unwrap h
  intro buffer hset
  have hadvances := hput hset
  unfold Advances at hadvances
  cases hagg : item.isAggregated with
  | true =>
    rw [hagg, if_pos rfl] at hadvances
    exact .inr ⟨rfl, hadvances⟩
  | false =>
    rw [hagg] at hadvances
    exact .inl ⟨rfl, hadvances⟩

variable [LedgerApi]

theorem processDecision {proof : LedgerInfoWithSignatures} (h : I m)
    (hadd : I (m.tryAddPendingCommitProof proof))
    (herror : ∀ {item message}, m.buffer.get (some proof.ledgerInfo.commitInfo.id) = some item →
      item.tryAdvanceToAggregatedWithLedgerInfo proof = .error message → E ⟨message, m⟩)
    (hdecide : ∀ {item item' buffer},
      Replaces m.buffer proof.ledgerInfo.commitInfo.id item item' buffer →
      item.tryAdvanceToAggregatedWithLedgerInfo proof = .ok item' →
      Advances I H item' { m with buffer := buffer }) :
    Ensures (m.processDecision proof) (Completed I H proof.ledgerInfo.commitInfo.id) E := by
  unfold BufferManager.processDecision
  dsimp only
  split
  · exact .inl ⟨rfl, hadd⟩
  · rename_i key hkey
    obtain rfl := Buffer.findElemByKey_eq hkey
    apply hrule.unwrap (hrule.weak h)
    rintro ⟨item, rest⟩ htake
    apply ensures_bind_orPanic
    · exact fun message => herror (Buffer.get_of_take htake)
    intro item' hitem'
    apply hrule.completed_of_putBack (hrule.weak h)
    intro buffer hset
    exact hdecide ⟨rest, htake, hset⟩ hitem'

variable [PipelineApi]

theorem processVote {vote : CommitVote} (h : I m) (hcache : I (m.cacheCommitVote vote))
    (hcount : ∀ {cache item item' buffer votes},
      let m' := { m with commitVoteCache := cache }
      m.drainCachedCommitVotes vote.commitInfo.round vote.commitInfo.id = (votes, m') → I m' →
      Replaces m.buffer vote.commitInfo.id item item' buffer →
      m'.countVotes item votes vote = .ok item' → Advances I H item' { m' with buffer := buffer }) :
    Ensures (m.processVote vote) (Completed I H vote.commitInfo.id) E := by
  unfold BufferManager.processVote
  dsimp only
  split
  · exact .inl ⟨rfl, hcache⟩
  · rename_i key hkey
    obtain rfl := Buffer.findElemByKey_eq hkey
    apply hrule.unwrap (hrule.weak h)
    rintro ⟨item, rest⟩ htake
    obtain ⟨cache, hcache⟩ :=
      m.drainCachedCommitVotes_eq vote.commitInfo.round vote.commitInfo.id
    have hdrained : I { m with commitVoteCache := cache } := hcache ▸ hrule.drain h
    generalize hdrain : m.drainCachedCommitVotes _ _ = drained at hcache
    obtain ⟨votes, m'⟩ := drained
    obtain rfl : m' = _ := hcache
    apply ensures_bind_orPanic
    · intro message herror
      exact hrule.panic (hrule.weak hdrained) (countVotes_error herror)
    intro item' hitem'
    apply hrule.completed_of_putBack (hrule.weak hdrained)
    intro buffer hset
    exact hcount hdrain hdrained ⟨rest, htake, hset⟩ hitem'

variable [Crypto]

/-- An aggregated item leaves the buffer, and the roots are moved. -/
theorem handleCommitMessage (H : BufferManager → Prop) {message : CommitMessage} (h : I m)
    (hprocess : (message.verify m.epochState.verifier).isOk = true →
      Ensures (m.processCommitMessage message) (Completed I H message.blockId) E)
    (hhead : ∀ m', H m' → Ensures (m'.advanceHead message.blockId) (Settles I J) E) :
    Ensures (m.handleCommitMessage message) I E := by
  unfold BufferManager.handleCommitMessage
  split
  · rename_i hverify
    apply (hprocess hverify).bind
    rintro ⟨completed, m'⟩ _ (⟨rfl, hm'⟩ | ⟨rfl, hm'⟩)
    · exact ensures_pure hm'
    · apply (hhead m' hm').bind
      intro m₁ _ hm₁
      apply (hrule.advanceExecutionRootIfNone hm₁).bind
      intro m₂ _ hm₂
      exact hrule.advanceSigningRootIfNone hm₂
  · exact h

/-! ## Execution responses -/

/-- The item that a successful execution response finds. -/
structure Finds (m : BufferManager) (response : ExecutionResponse) (blocks : List PipelinedBlock)
    (item : BufferItem) : Prop where
  inner : response.inner = .ok blocks
  last : ∃ last, blocks.getLast? = some last
  key : m.buffer.findElemByKey m.executionRoot response.blockId = some response.blockId
  item : m.buffer.get (some response.blockId) = some item

/-- The execution of an item, for which the end of the epoch has been noted. -/
def executedItem (m : BufferManager) (item : BufferItem) (blocks : List PipelinedBlock)
    (info : Option EpochBlockInfo) : Except String BufferItem :=
  item.advanceToExecutedOrAggregated blocks (m.noteEndOfEpoch blocks).epochState.verifier
    (m.noteEndOfEpoch blocks).endEpochTimestamp (m.noteEndOfEpoch blocks).orderVoteEnabled info

/-- The manager when the commit proofs before a round have been taken. -/
def drained (m : BufferManager) (blocks : List PipelinedBlock) (bound : Nat) : BufferManager :=
  { m.noteEndOfEpoch blocks with
    pendingCommitProofs := m.pendingCommitProofs.retain (bound ≤ ·) }

/-- An item is executed, completed by a pending commit proof if there is one, and put back. -/
structure Executed (m : BufferManager) (response : ExecutionResponse) (blocks : List PipelinedBlock)
    (bound : Nat) (item executed item' : BufferItem) (buffer : Buffer BufferItem) : Prop where
  finds : Finds m response blocks item
  executes : ∃ info, executedItem m item blocks info = .ok executed
  takes : checkedAdd item.commitInfo.round 1 = .ok bound
  applies : applyPendingCommitProof executed
    ((m.pendingCommitProofs.retain (· < bound)).last.map (·.2)) response.blockId = .ok item'
  replaces : Replaces m.buffer response.blockId item item' buffer

theorem handleExecutionResponse (H : BufferManager → Prop) {response : ExecutionResponse}
    {answer : Option EpochBlockInfo}
    (h : I m) (hnote : ∀ {blocks item}, Finds m response blocks item → J (m.noteEndOfEpoch blocks))
    (herror : ∀ {blocks item info message}, Finds m response blocks item →
      executedItem m item blocks info = .error message → E ⟨message, m.noteEndOfEpoch blocks⟩)
    (hdrained : ∀ {blocks item bound}, Finds m response blocks item →
      checkedAdd item.commitInfo.round 1 = .ok bound → J (drained m blocks bound))
    (hexecuted : ∀ {blocks bound item executed item' buffer},
      Executed m response blocks bound item executed item' buffer →
      Advances J H item' { drained m blocks bound with buffer := buffer })
    (hhead : ∀ m', H m' → Ensures (m'.advanceHead response.blockId) J E) :
    Ensures (m.handleExecutionResponse response answer) I E := by
  have hprocess : Ensures (m.processExecutionResponse response answer) J E := by
    unfold processExecutionResponse
    split
    · exact hrule.weak h
    · rename_i key hkey
      obtain rfl := Buffer.findElemByKey_eq hkey
      split
      · exact hrule.weak h
      · rename_i blocks hinner
        apply hrule.unwrap (hrule.weak h)
        intro last hlast
        apply hrule.unwrap (hrule.weak h)
        intro item hitem
        split
        · exact ensures_pure (hrule.weak h)
        · have hfinds : Finds m response blocks item := ⟨hinner, ⟨last, hlast⟩, hkey, hitem⟩
          apply hrule.unwrap (hnote hfinds)
          rintro ⟨taken, rest⟩ htake
          obtain rfl := Option.some.inj (hitem.symm.trans (Buffer.get_of_take htake))
          apply ensures_bind_orPanic
          · exact fun message hmessage => herror hfinds hmessage
          intro executed hexecutes
          rw [drainPendingCommitProofTill, bind_assoc]
          apply ensures_bind_orPanic
          · exact fun message hmessage => hrule.panic (hnote hfinds) (checkedAdd_error hmessage)
          intro bound hbound
          have hpending := hdrained hfinds hbound
          apply ensures_bind_orPanic
          · exact fun message hmessage => hrule.panic hpending
              (applyPendingCommitProof_error hmessage)
          intro item' happlies
          rw [putBack, bind_assoc]
          apply hrule.unwrap hpending
          intro buffer hset
          rw [pure_bind]
          have hadvances := hexecuted ⟨hfinds, ⟨_, hexecutes⟩, hbound, happlies, rest, htake, hset⟩
          unfold Advances at hadvances
          split at hadvances
          · rename_i hagg
            rw [if_pos hagg]
            exact hhead _ hadvances
          · rename_i hagg
            rw [if_neg hagg]
            exact ensures_pure hadvances
  apply hprocess.bind
  intro m₁ _ hm₁
  apply (hrule.advanceExecutionRoot hm₁).bind
  intro m₂ _ hm₂
  exact hrule.advanceSigningRootIfNone hm₂

/-! ## Ordered blocks -/

omit [PipelineApi] in
/-- The invariant may be another one once the batch has been received. -/
theorem handleOrdered {I₀ J₀ : BufferManager → Prop} (hbefore : HandlerRule I₀ J₀ E)
    {blocks : OrderedBlocks} (h : I₀ m)
    (hpush : ∀ {last sent round blockId m' votes buffer},
      blocks.orderedBlocks.getLast? = some last → I₀ sent →
      sent.drainCachedCommitVotes round blockId = (votes, m') → I₀ m' →
      m'.buffer.pushBack BufferItem.blockId (addSignatures
        (.newOrdered blocks.orderedBlocks blocks.orderedProof) votes) = some buffer →
      Settles I J { m' with buffer := buffer }) :
    Ensures (m.handleOrdered blocks) I E := by
  unfold BufferManager.handleOrdered
  apply ensures_bind_orPanic
  · intro message herror
    obtain ⟨-, rfl⟩ := expect_error_iff.mp herror
    exact hbefore.panic (hbefore.weak h) (by decide +kernel)
  intro last hlast
  rw [expect_ok_iff] at hlast
  have hsent : I₀ (BufferManager.send { m with latestRound := last.block.round }
      (.execution blocks.orderedBlocks)) := hbefore.send (hbefore.latestRound h) rfl
  unfold processOrderedBlocks
  dsimp only
  rw [bind_assoc]
  apply hbefore.unwrap (hbefore.weak (hbefore.drain hsent))
  intro buffer hbuffer
  exact hrule.advanceExecutionRootIfNone (hpush hlast hsent rfl (hbefore.drain hsent) hbuffer)

/-! ## One iteration -/

theorem handle {I₀ J₀ : BufferManager → Prop} (hbefore : HandlerRule I₀ J₀ E) {event : Event}
    (h : I₀ m) (hstopped : m.stop = true → I m)
    (hbranch : ∀ full, m.stop = false → m.needBackpressure = .ok full →
      Ensures (m.selectBranch full event) I E) : Ensures (m.handle event) I E :=
  (ensures_handle hstopped (fun _ => hbefore.panic (hbefore.weak h)) hbranch
    fun hm' _ => hrule.panic (hrule.weak hm')).imp fun _ hm' => hm'.1

end HandlerRule

/-! ## What is not about the buffer -/

/-- What the work on the buffer does not touch: the moves of items and roots, the requests, the
votes dropped from the cache. -/
structure Untouched (I : BufferManager → Prop) : Prop where
  work : ∀ {m buffer executionRoot signingRoot latestRound pendingCommitProofs sent}, I m →
    I { m with buffer, executionRoot, signingRoot, latestRound, pendingCommitProofs, sent }
  drain : ∀ {m round blockId}, I m → I (m.drainCachedCommitVotes round blockId).2

namespace Untouched

variable {I : BufferManager → Prop} {m : BufferManager} (hI : Untouched I)

include hI

theorem rule : HandlerRule I I (fun panic => I panic.manager) where
  weak h := h
  panic h _ := h
  executionRoot h _ := hI.work h
  signingRoot h _ := hI.work h
  send h _ := hI.work h
  latestRound h := hI.work h
  drain h := hI.drain h

theorem advanceHead [Crypto] (h : I m) (blockId : HashValue) :
    Ensures (m.advanceHead blockId) I (fun panic => I panic.manager) :=
  ensures_popUntil (fun h _ => h) (fun h _ => hI.work h) (fun h _ => hI.work (hI.work h)) h

theorem tryAddPendingCommitProof (h : I m) (proof : LedgerInfoWithSignatures) :
    I (m.tryAddPendingCommitProof proof) :=
  tryAddPendingCommitProof_of fun _ => hI.work h

variable [Crypto] [LedgerApi] [PipelineApi]

/-- An event is one of the steps that keep a vote, note the end of the epoch, reset the manager or
note a persisted round, or its handler's. -/
theorem handle {event : Event} (h : I m)
    (hcache : ∀ vote, event = .commitMessage (.vote vote) → I (m.cacheCommitVote vote))
    (hnote : ∀ response answer blocks item, event = .executionResponse response answer →
      HandlerRule.Finds m response blocks item → I (m.noteEndOfEpoch blocks))
    (hreset : ∀ signal, event = .reset signal → I (m.processResetRequest signal))
    (hpersist : ∀ result, event = .persistingResponse result →
      I (m.handlePersistingResponse result)) :
    Ensures (m.handle event) I (fun panic => I panic.manager) := by
  refine hI.rule.handle hI.rule h (fun _ => h) ?_
  intro full _ _
  cases event with
  | ordered blocks =>
    cases full with
    | true => exact h
    | false =>
      refine hI.rule.handleOrdered hI.rule h ?_
      intro last sent round blockId m' votes buffer _ _ _ hm' _
      exact .inr (hI.work hm')
  | reset signal => exact hreset signal rfl
  | executionResponse response answer =>
    refine hI.rule.handleExecutionResponse I h (hnote _ _ _ _ rfl)
      (fun hf _ => hnote _ _ _ _ rfl hf)
      (fun hf _ => hI.work (hnote _ _ _ _ rfl hf)) ?_ fun m' hm' => hI.advanceHead hm' _
    intro blocks bound item executed item' buffer hexecuted
    exact .of (hI.work (hI.work (hnote _ _ _ _ rfl hexecuted.finds)))
  | executionScheduleRetry => exact hI.rule.retryFrom h
  | signingResponse response =>
    exact hI.rule.handleSigningResponse h response fun _ _ => hI.work h
  | persistingResponse result => exact hpersist result rfl
  | commitMessage message =>
    refine hI.rule.handleCommitMessage I h (fun _ => ?_) fun m' hm' =>
      (hI.advanceHead hm' _).imp fun _ hm => .inr hm
    cases message with
    | vote vote =>
      refine hI.rule.processVote h (hcache vote rfl) ?_
      intro cache item item' buffer votes _ _ hm' _ _
      exact .of (hI.work hm')
    | decision proof =>
      exact hI.rule.processDecision h (hI.tryAddPendingCommitProof h proof) (fun _ _ => h)
        fun _ _ => .of (hI.work h)

end Untouched

end Liquent.Pipeline
