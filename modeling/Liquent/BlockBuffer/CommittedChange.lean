import Liquent.BlockBuffer.EpochChange

/-!
# Adopting an epoch after its commit

A reset of the pipeline calls `release_inflight_blocks`, whatever its reason, and the call adopts
whatever change has been announced.  Whether the block that announced it has been committed by then
is up to the caller.  This module says when it has, and what a block of an epoch that has been left
can then still meet in the buffer.
-/

namespace Liquent.BlockBuffer

open Misc BlockStateMachine

/-! ## Entries that have a result -/

variable {result : StateComputeResult} {state : BlockState}

theorem BlockState.Advances.of_computed {id : HashValue}
    (h : (BlockState.computed id result).Advances state) :
    state = .computed id result ∨ ∃ hash notifier, state = .committed hash result id notifier := by
  induction h with
  | refl => exact .inl rfl
  | tail _ hstep ih =>
    rcases ih with rfl | ⟨hash, notifier, rfl⟩
    · cases hstep with
      | commit => exact .inr ⟨_, _, rfl⟩
    · cases hstep with
      | notify => exact .inr ⟨_, _, rfl⟩

theorem BlockState.Advances.of_committed {hash : Option HashValue}
    {id : HashValue} {notifier : Bool}
    (h : (BlockState.committed hash result id notifier).Advances state) :
    ∃ notifier', state = .committed hash result id notifier' := by
  induction h with
  | refl => exact ⟨notifier, rfl⟩
  | tail _ hstep ih =>
    obtain ⟨notifier', rfl⟩ := ih
    cases hstep with
    | notify => exact ⟨_, rfl⟩

theorem BlocksAdvance.get_of_some {t t' : Table BlockKey BlockState} (h : BlocksAdvance t t')
    {key : BlockKey} (hget : t.get key = some state) :
    ∃ state', t'.get key = some state' ∧ state.Advances state' := by
  have hkey := h key
  rw [hget] at hkey
  generalize t'.get key = entry at *
  cases hkey with
  | some hadvance => exact ⟨_, rfl, hadvance⟩

section Runs

variable [Crypto] [OnChainConfig] {s : BlockStateMachine} {op : Operation}

/-- An entry with a result stays and advances, unless it is released or, once a later block has been
persisted, cleaned up. -/
theorem computed_entry_step {key : BlockKey} (hget : s.blocks.get key = some state)
    (hstate : ∀ block parentId round, state ≠ .ordered block parentId round)
    (hop : op ≠ .releaseInflightBlocks) (hkept : s.latestFinalizedBlockNumber ≤ key.blockNumber) :
    ∃ state', (step s op).2.blocks.get key = some state' ∧ state.Advances state' := by
  have hput {other : BlockKey} {new : BlockState} (hne : key ≠ other)
      (h : (step s op).2.blocks = s.blocks.put other new) :
      ∃ state', (step s op).2.blocks.get key = some state' ∧ state.Advances state' := by
    rw [h, Table.get_put_of_ne hne]
    exact ⟨state, hget, .refl⟩
  cases step_blocks s op with
  | advance h => exact h.get_of_some hget
  | order block new _ hnone h =>
    refine hput ?_ h
    rintro rfl
    rw [hnone] at hget
    cases hget
  | settle block parentId round id num epoch result _ hordered _ h =>
    refine hput ?_ h
    rintro rfl
    rw [hordered] at hget
    exact hstate _ _ _ (Option.some.inj hget).symm
  | retain p _ hremoves h =>
    have hp : p key = true := by
      by_contra hp
      cases hremoves key (by simpa using hp) with
      | release => exact hop rfl
      | cleanUp _ hearlier => omega
    rw [h, Table.get_retain, if_pos hp]
    exact ⟨state, hget, .refl⟩

variable {epoch : Nat}

omit [Crypto] [OnChainConfig] in
/-- A successful call commits every block with a result that it names. -/
theorem setCommitBlocks_commits {refs : List BlockHashRef}
    {r : BlockHashRef} (hr : r ∈ refs) {notifiers : List Nat}
    (hok : (s.setCommitBlocks refs epoch).1 = .ok notifiers)
    (hget : s.blocks.get ⟨epoch, r.num⟩ = some state)
    (hstate : (BlockState.computed r.blockId result).Advances state) :
    ∃ hash notifier, (s.setCommitBlocks refs epoch).2.blocks.get ⟨epoch, r.num⟩ =
      some (.committed hash result r.blockId notifier) := by
  induction refs generalizing s state notifiers with
  | nil => cases hr
  | cons first rest ih =>
    obtain ⟨notifier, s', more, hstep, hrest, -, hlast⟩ := setCommitBlocks_cons_ok hok
    rw [hlast]
    obtain ⟨-, hadvance⟩ := s.setCommitBlock_spec first epoch
    rw [hstep] at hadvance
    obtain ⟨state', hget', hmove⟩ := hadvance.get_of_some hget
    rcases List.mem_cons.mp hr with rfl | hmem
    · -- the entry is committed here, and the rest of the call leaves it so
      have hcommitted : ∃ hash n, s'.blocks.get ⟨epoch, r.num⟩ =
          some (.committed hash result r.blockId n) := by
        rcases hstate.of_computed with rfl | ⟨hash, n, rfl⟩
        · have hs' : s' = (s.setCommitBlock r epoch).2 := by rw [hstep]
          rw [hs']
          simp only [setCommitBlock, hget, if_true]
          exact ⟨_, _, Table.get_put_self⟩
        · obtain ⟨n', rfl⟩ := hmove.of_committed
          exact ⟨hash, n', hget'⟩
      obtain ⟨hash, n, hentry⟩ := hcommitted
      obtain ⟨last, hlast, hmove'⟩ :=
        (s'.setCommitBlocks_spec rest epoch).2.get_of_some hentry
      obtain ⟨n', rfl⟩ := hmove'.of_committed
      exact ⟨hash, n', hlast⟩
    · exact ih hmem hrest hget' (hstate.trans hmove)

/-! ## What consensus and the execution layer have to keep to -/

/-- A result that changes the epoch is of the current epoch, for a block that has not been
persisted; no later block is reported as persisted while the change is pending; `init_epoch` is not
called. -/
def Operation.InOrder (s : BlockStateMachine) : Operation → Prop
  | .setComputeRes _ _ blockNum epoch _ events => (findNewEpoch events).isSome →
    epoch = s.currentEpoch ∧ s.latestFinalizedBlockNumber ≤ blockNum
  | .setState _ latestFinalized => ∀ cache, s.epochChangeBlockInfo = some cache →
    latestFinalized ≤ cache.epochBlockInfo.blockNumber
  | .initEpoch _ => False
  | _ => True

/-- Between the announcement of a change and the reset that adopts it, `set_commit_blocks` has
succeeded for its block. -/
def ResetsAfterCommit (s : BlockStateMachine) (ops : List Operation) : Prop :=
  ∀ before op between post c, ops = before ++ op :: (between ++ .releaseInflightBlocks :: post) →
    announces (after s before) op = some c → NoAnnouncement (after s (before ++ [op])) between →
    .releaseInflightBlocks ∉ between →
    ∃ done refs todo notifiers, between = done ++ .setCommitBlocks refs c.epoch :: todo ∧
      (∃ r ∈ refs, r.num = c.number ∧ r.blockId = c.blockId) ∧
      ((after s (before ++ op :: done)).setCommitBlocks refs c.epoch).1 = .ok notifiers

/-- The block that announced a pending change is in the map, with its result and as far as
`base`. -/
structure PendingBlock (c : Change) (base : BlockState) (s : BlockStateMachine) : Prop where
  notOrdered : ∀ block parentId round, base ≠ .ordered block parentId round
  entry : ∃ state, s.blocks.get ⟨c.epoch, c.number⟩ = some state ∧ base.Advances state
  finalized : s.latestFinalizedBlockNumber ≤ c.number
  info : ∃ cache, s.epochChangeBlockInfo = some cache ∧ cache.epochBlockInfo.blockNumber = c.number

/-- Only `set_state` changes the number of the last persisted block. -/
theorem latestFinalized_step
    (hop : ∀ latestCommit latestFinalized, op ≠ .setState latestCommit latestFinalized) :
    (step s op).2.latestFinalizedBlockNumber = s.latestFinalizedBlockNumber := by
  cases op with
  | setState latestCommit latestFinalized => exact absurd rfl (hop _ _)
  | setComputeRes blockId blockHash blockNum epoch txnStatus events =>
    dsimp only [step]
    rcases s.setComputeRes_stores blockId blockHash blockNum epoch txnStatus events with
      ⟨_, h⟩ | ⟨_, _, _, _, -, -, ⟨-, -, h⟩ | ⟨_, _, _, -, -, -, -, h⟩⟩
    · rw [h]
    · rw [h]
    · rw [h]
  | releaseInflightBlocks =>
    dsimp only [step]
    unfold releaseInflightBlocks
    split
    · rfl
    · rfl
  | consumeEpochChange | initEpoch => rfl
  | _ => rw [step_of_blocks _ rfl]

theorem PendingBlock.step {c : Change} {base : BlockState}
    (hop : op.InOrder s) (hannounce : announces s op = none)
    (hrelease : op ≠ .releaseInflightBlocks) (h : PendingBlock c base s) :
    PendingBlock c base (step s op).2 := by
  obtain ⟨state, hget, hstate⟩ := h.entry
  obtain ⟨cache, hinfo, hnumber⟩ := h.info
  have hnot : ∀ block parentId round, state ≠ .ordered block parentId round := by
    rintro block parentId round rfl
    exact h.notOrdered block parentId round hstate.eq_of_ordered
  refine ⟨h.notOrdered, ?_, ?_, ⟨cache, ?_, hnumber⟩⟩
  · obtain ⟨state', hget', hmove⟩ := computed_entry_step hget hnot hrelease h.finalized
    exact ⟨state', hget', hstate.trans hmove⟩
  · by_cases hset : ∃ latestCommit latestFinalized, op = .setState latestCommit latestFinalized
    · obtain ⟨latestCommit, latestFinalized, rfl⟩ := hset
      have hle := hop cache hinfo
      rw [hnumber] at hle
      exact hle
    · rw [latestFinalized_step fun latestCommit latestFinalized heq =>
        hset ⟨latestCommit, latestFinalized, heq⟩]
      exact h.finalized
  · cases step_effect s op with
    | quiet hquiet => exact hquiet.control.info.trans hinfo
    | announce c' h' =>
      rw [h'.announces] at hannounce
      cases hannounce
    | consume heq heffect =>
      rw [heffect]
      exact hinfo
    | release heq => exact absurd heq hrelease
    | initEpoch e heq =>
      subst heq
      cases hop

theorem PendingBlock.after {c : Change} {base : BlockState}
    {ops : List Operation} (hop : AlongRun BlockBuffer.step (fun s op => op.InOrder s) s ops)
    (hquiet : NoAnnouncement s ops) (hrelease : .releaseInflightBlocks ∉ ops)
    (h : PendingBlock c base s) : PendingBlock c base (after s ops) := by
  have hne : ∀ op ∈ ops, op ≠ .releaseInflightBlocks := by
    rintro op hmem rfl
    exact hrelease hmem
  have hrun := hop.and (hquiet.and (alongRun_of_forall hne))
  exact AlongRun.invariant (fun _ _ hstep hs => hs.step hstep.1 hstep.2.1 hstep.2.2) hrun h

theorem Announcement.pendingBlock {s' : BlockStateMachine} {c : Change}
    (h : Announcement s op s' c) (hs' : s' = (step s op).2) (hop : op.InOrder s) :
    c.epoch = s.currentEpoch ∧ ∃ result, PendingBlock c (.computed c.blockId result) s' := by
  obtain ⟨result, hget⟩ := h.computed
  obtain ⟨blockHash, txnStatus, events, bytes, rfl, hfind⟩ := h.call
  obtain ⟨hepoch, hfinalized⟩ := hop (Option.isSome_of_eq_some hfind)
  refine ⟨hepoch, result, nofun, ⟨_, hget, .refl⟩, ?_, h.info⟩
  rw [hs', latestFinalized_step fun _ _ heq => by cases heq]
  exact hfinalized

/-! ## Epochs are left with their last block committed -/

/-- After the operations `pre`, the block of the epoch that announced the pending change is
committed. -/
def ChangeCommitted (s : BlockStateMachine) (pre : List Operation) (epoch : Nat) : Prop :=
  ∃ before op between c, pre = before ++ op :: between ∧ announces (after s before) op = some c ∧
    NoAnnouncement (after s (before ++ [op])) between ∧ c.epoch = epoch ∧
    ∃ hash result notifier, (after s pre).blocks.get ⟨epoch, c.number⟩ =
      some (.committed hash result c.blockId notifier)

/-- The buffer has left the epoch, with the block that changed it committed. -/
def LeftCommitted (s : BlockStateMachine) (ops : List Operation) (epoch : Nat) : Prop :=
  ∃ pre post, ops = pre ++ .releaseInflightBlocks :: post ∧ (after s pre).currentEpoch = epoch ∧
    ChangeCommitted s pre epoch

/-- The epoch has been the current one. -/
def Visited (s : BlockStateMachine) (ops : List Operation) (epoch : Nat) : Prop :=
  ∃ done todo, ops = done ++ todo ∧ (after s done).currentEpoch = epoch

/-- `set_ordered_blocks` ignores the block because its epoch is over. -/
def BlockStateMachine.ignoresAsOld (s : BlockStateMachine) (block : ExternalBlock) : Prop :=
  s.epochChangeReady = false ∧ block.blockMeta.epoch < s.currentEpoch

/-- `get_executed_res` answers with a dummy result because the epoch of the block is over. -/
def BlockStateMachine.answersOldEpoch (s : BlockStateMachine) (blockNum epoch : Nat) : Prop :=
  s.blocks.get ⟨epoch, blockNum⟩ = none ∧ epoch < s.currentEpoch

/-- `get_executed_res` answers with a dummy result because the block comes after a change. -/
def BlockStateMachine.answersSuffix (s : BlockStateMachine) (blockNum epoch : Nat) : Prop :=
  (∃ block parentId round, s.blocks.get ⟨epoch, blockNum⟩ = some (.ordered block parentId round)) ∧
    s.isSuffixBlock blockNum = true

/-- Epoch changes are only adopted after they are committed, so no block that consensus still has to
execute is ignored or answered with a dummy result: its epoch has been left with the block that
changed it committed, or it comes after that block. -/
structure AdoptsOnlyCommitted (s : BlockStateMachine) (ops : List Operation) : Prop where
  release : ∀ pre post, ops = pre ++ .releaseInflightBlocks :: post →
    (step (after s pre) .releaseInflightBlocks).2.currentEpoch ≠ (after s pre).currentEpoch →
    ChangeCommitted s pre (after s pre).currentEpoch
  ignored : ∀ pre parentId block round post,
    ops = pre ++ .setOrderedBlocks parentId block round :: post →
    (after s pre).ignoresAsOld block → Visited s pre block.blockMeta.epoch →
    LeftCommitted s pre block.blockMeta.epoch
  oldEpoch : ∀ pre blockId blockNum epoch post,
    ops = pre ++ .getExecutedRes blockId blockNum epoch :: post →
    (after s pre).answersOldEpoch blockNum epoch → Visited s pre epoch → LeftCommitted s pre epoch
  suffix : ∀ pre blockId blockNum epoch post,
    ops = pre ++ .getExecutedRes blockId blockNum epoch :: post →
    (after s pre).answersSuffix blockNum epoch →
    ∃ before op between c, pre = before ++ op :: between ∧ announces (after s before) op = some c ∧
      NoAnnouncement (after s (before ++ [op])) between ∧ c.number < blockNum

/-- An epoch that is no longer the current one has been left by a reset. -/
theorem exists_release_of_visited :
    ∀ {ops : List Operation}, (∀ op ∈ ops, op.isInitEpoch = false) → Visited s ops epoch →
      (after s ops).currentEpoch ≠ epoch →
      ∃ pre post, ops = pre ++ .releaseInflightBlocks :: post ∧ (after s pre).currentEpoch = epoch ∧
        (step (after s pre) .releaseInflightBlocks).2.currentEpoch ≠
          (after s pre).currentEpoch := by
  intro ops
  induction ops using List.reverseRecOn with
  | nil =>
    rintro - ⟨done, todo, heq, hcurrent⟩ hne
    obtain ⟨rfl, -⟩ := List.append_eq_nil_iff.mp heq.symm
    exact absurd hcurrent hne
  | append_singleton ops op ih =>
    rintro hinit ⟨done, todo, heq, hcurrent⟩ hne
    have hinitOps : ∀ op' ∈ ops, op'.isInitEpoch = false :=
      fun op' hmem => hinit op' (List.mem_append_left _ hmem)
    have hvisited : Visited s ops epoch := by
      rcases List.eq_nil_or_concat todo with rfl | ⟨todo, last, rfl⟩
      · rw [List.append_nil] at heq
        rw [heq] at hne
        exact absurd hcurrent hne
      · rw [List.concat_eq_append, ← List.append_assoc] at heq
        exact ⟨done, todo, (List.append_inj' heq rfl).1, hcurrent⟩
    by_cases hops : (after s ops).currentEpoch = epoch
    · -- the epoch is left by this very operation
      rw [after_snoc] at hne
      cases step_effect (after s ops) op with
      | quiet h => exact absurd (h.control.currentEpoch.trans hops) hne
      | announce c h => exact absurd (h.currentEpoch.trans hops) hne
      | consume hop h =>
        rw [h] at hne
        exact absurd hops hne
      | release hop h =>
        subst hop
        refine ⟨ops, [], rfl, hops, ?_⟩
        rw [hops]
        exact hne
      | initEpoch e hop h =>
        have hfalse := hinit op (List.mem_append_right _ (List.mem_singleton_self _))
        rw [hop] at hfalse
        cases hfalse
    · obtain ⟨pre, post, rfl, hpre, hleave⟩ := ih hinitOps hvisited hops
      exact ⟨pre, post ++ [op], by simp, hpre, hleave⟩

theorem isInitEpoch_of_inOrder {ops : List Operation}
    (h : AlongRun step (fun s op => op.InOrder s) s ops) : ∀ op ∈ ops, op.isInitEpoch = false := by
  intro op hmem
  obtain ⟨pre, post, rfl⟩ := List.append_of_mem hmem
  have hop := alongRun_iff.mp h pre op post rfl
  cases op with
  | initEpoch e => cases hop
  | _ => rfl

/-- The cached metadata and the next epoch are there together. -/
def CachedWithNext (s : BlockStateMachine) : Prop :=
  s.epochChangeBlockInfo.isSome = s.nextEpoch.isSome

omit [Crypto] [OnChainConfig] in
theorem cachedWithNext_of_fresh (h : Fresh s) : CachedWithNext s := by
  unfold CachedWithNext
  rw [h.info, h.nextEpoch]
  rfl

theorem CachedWithNext.step (h : CachedWithNext s) : CachedWithNext (step s op).2 := by
  unfold CachedWithNext at *
  cases step_effect s op with
  | quiet hquiet => rw [hquiet.control.info, hquiet.control.nextEpoch, h]
  | announce c hannounce =>
    obtain ⟨cache, hinfo, -⟩ := hannounce.info
    rw [hinfo, hannounce.nextEpoch]
    rfl
  | consume heq heffect | initEpoch e heq heffect =>
    rw [heffect]
    exact h
  | release heq heffect =>
    rw [heffect]
    unfold releaseInflightBlocks
    split
    · rfl
    · exact h

/-- From the announcement of a change to its adoption, its block stays in the map. -/
theorem pendingBlock_of_next (hs : s.nextEpoch = none)
    {pre : List Operation} (horder : AlongRun step (fun s op => op.InOrder s) s pre)
    (hnext : (after s pre).nextEpoch = some epoch) :
    ∃ before op between c result, pre = before ++ op :: between ∧
      announces (after s before) op = some c ∧ NoAnnouncement (after s (before ++ [op])) between ∧
      .releaseInflightBlocks ∉ between ∧ c.epoch = (after s pre).currentEpoch ∧
      PendingBlock c (.computed c.blockId result) (after s (before ++ [op])) := by
  obtain ⟨before, op, between, c, rfl, hannounce, hquiet⟩ := exists_announcement hs hnext
  obtain ⟨-, hop, hrest⟩ := alongRun_append.mp horder
  have hinit := isInitEpoch_of_inOrder hrest
  have hsplit : after s (before ++ op :: between) = after (after s (before ++ [op])) between := by
    rw [List.append_cons, after_append]
  rw [hsplit] at hnext ⊢
  obtain ⟨-, hcurrent, -, -, hrelease⟩ := pending_of_noAnnouncement hquiet hinit hnext
  have hpending := announcement_of_announces hannounce
  rw [← after_snoc] at hpending
  obtain ⟨hepoch, result, hblock⟩ := hpending.pendingBlock (after_snoc _ _ _) hop
  refine ⟨before, op, between, c, result, rfl, hannounce, hquiet, hrelease, ?_, hblock⟩
  rw [hcurrent, hpending.currentEpoch]
  exact hepoch

/-- If the pipeline is reset only after the commit of a pending change, the block that announced it
is committed when it is adopted. -/
theorem changeCommitted_of_release (hs : s.nextEpoch = none)
    {ops pre post : List Operation} (hops : ops = pre ++ .releaseInflightBlocks :: post)
    (horder : AlongRun step (fun s op => op.InOrder s) s ops) (hreset : ResetsAfterCommit s ops)
    (hchange : (step (after s pre) .releaseInflightBlocks).2.currentEpoch ≠
      (after s pre).currentEpoch) : ChangeCommitted s pre (after s pre).currentEpoch := by
  obtain ⟨next, hnext⟩ := exists_next_of_adopted hchange
  rw [hops] at horder
  have horderPre := (alongRun_append.mp horder).1
  obtain ⟨before, op, between, c, result, rfl, hannounce, hquiet, hrelease, hepoch, hblock⟩ :=
    pendingBlock_of_next hs horderPre hnext
  obtain ⟨done, refs, todo, notifiers, rfl, ⟨r, hr, hnum, hid⟩, hok⟩ :=
    hreset before op between post c (by rw [hops]; simp) hannounce hquiet hrelease
  -- the block keeps its result up to the call that commits it, and stays committed after it
  have horderRest := horderPre
  rw [List.append_cons] at horderRest hok
  have horderBetween := (alongRun_append.mp horderRest).2
  obtain ⟨horderDone, -, horderTodo⟩ := alongRun_append.mp horderBetween
  obtain ⟨hquietDone, -, hquietTodo⟩ := alongRun_append.mp hquiet
  have hreleaseDone : .releaseInflightBlocks ∉ done :=
    fun hmem => hrelease (List.mem_append_left _ hmem)
  have hreleaseTodo : .releaseInflightBlocks ∉ todo :=
    fun hmem => hrelease (List.mem_append_right _ (List.mem_cons_of_mem _ hmem))
  have hdone := hblock.after horderDone hquietDone hreleaseDone
  obtain ⟨state, hget, hstate⟩ := hdone.entry
  rw [after_append] at hok
  rw [← hnum] at hget
  rw [← hid] at hstate
  obtain ⟨hash, n, hcommitted⟩ := setCommitBlocks_commits hr hok hget hstate
  have hcall : PendingBlock c (.computed c.blockId result)
      (step (after (after s (before ++ [op])) done) (.setCommitBlocks refs c.epoch)).2 :=
    hdone.step trivial rfl nofun
  have hentry : PendingBlock c (.committed hash result c.blockId n)
      (step (after (after s (before ++ [op])) done) (.setCommitBlocks refs c.epoch)).2 := by
    rw [hnum, hid] at hcommitted
    exact ⟨nofun, ⟨_, hcommitted, .refl⟩, hcall.finalized, hcall.info⟩
  obtain ⟨last, hlast, hmove⟩ := (hentry.after horderTodo hquietTodo hreleaseTodo).entry
  obtain ⟨n', rfl⟩ := hmove.of_committed
  refine ⟨before, op, _, c, rfl, hannounce, hquiet, hepoch, hash, result, n', ?_⟩
  rw [← hepoch, List.append_cons, after_append, after_append, after_cons]
  exact hlast

theorem leftCommitted_of_visited (hs : s.nextEpoch = none)
    {ops pre post : List Operation} (hops : ops = pre ++ post)
    (horder : AlongRun step (fun s op => op.InOrder s) s ops) (hreset : ResetsAfterCommit s ops)
    (hvisited : Visited s pre epoch) (hless : epoch < (after s pre).currentEpoch) :
    LeftCommitted s pre epoch := by
  have hinit : ∀ op ∈ pre, op.isInitEpoch = false := by
    intro op hmem
    exact isInitEpoch_of_inOrder horder op (by rw [hops]; exact List.mem_append_left _ hmem)
  obtain ⟨first, rest, rfl, hcurrent, hleave⟩ :=
    exists_release_of_visited hinit hvisited (Nat.ne_of_gt hless)
  have hsplit : ops = first ++ .releaseInflightBlocks :: (rest ++ post) := by
    rw [hops]
    simp
  have hcommitted := changeCommitted_of_release hs hsplit horder hreset hleave
  rw [hcurrent] at hcommitted
  exact ⟨first, rest, rfl, hcurrent, hcommitted⟩

end Runs

namespace Example

/-- Block 1 changes the epoch and is committed before the reset. -/
def committedChange : List Operation :=
  [.setOrderedBlocks 0 (block 1 1 11) 1, announce 1 1 11 2,
    .setCommitBlocks [{ blockId := 11, num := 1, hash := some 7 }] 1, .releaseInflightBlocks,
    .consumeEpochChange, .setOrderedBlocks 11 (block 1 2 12) 2]

/-- The pipeline is reset as soon as block 1 has announced the change. -/
def earlyReset : List Operation :=
  [.setOrderedBlocks 0 (block 1 1 11) 1, announce 1 1 11 2, .releaseInflightBlocks]

end Example

attribute [local instance] Example.crypto Example.config

theorem Example.resetsAfterCommit : ResetsAfterCommit Example.start Example.committedChange := by
  intro before op between post c hops hannounce _ hrelease
  rcases List.cons_eq_append_iff.mp hops with ⟨rfl, hfirst⟩ | ⟨before, rfl, hrest⟩
  · obtain ⟨rfl, -⟩ := List.cons.inj hfirst
    cases hannounce
  rcases List.cons_eq_append_iff.mp hrest with ⟨rfl, hsecond⟩ | ⟨before, rfl, hrest'⟩
  · obtain ⟨rfl, hbetween⟩ := List.cons.inj hsecond
    obtain rfl := Option.some.inj hannounce
    rcases between with _ | ⟨call, _ | ⟨next, between⟩⟩
    · cases (List.cons.inj hbetween).1
    · obtain ⟨rfl, -⟩ := List.cons.inj hbetween
      exact ⟨[], _, [], _, rfl, ⟨_, List.mem_singleton_self _, rfl, rfl⟩, rfl⟩
    · obtain ⟨-, hnext⟩ := List.cons.inj hbetween
      obtain ⟨rfl, -⟩ := List.cons.inj hnext
      exact absurd (List.mem_cons_of_mem _ List.mem_cons_self) hrelease
  rcases List.cons_eq_append_iff.mp hrest' with ⟨rfl, hthird⟩ | ⟨before, rfl, hlast⟩
  · obtain ⟨rfl, -⟩ := List.cons.inj hthird
    cases hannounce
  -- no reset follows the one that comes next
  rcases List.cons_eq_append_iff.mp hlast with ⟨rfl, hfourth⟩ | ⟨before, rfl, hnone⟩
  · obtain ⟨rfl, -⟩ := List.cons.inj hfourth
    cases hannounce
  · have hmem : Operation.releaseInflightBlocks ∈
        [.consumeEpochChange, .setOrderedBlocks 11 (Example.block 1 2 12) 2] := by
      rw [hnone]
      simp
    simp at hmem

end Liquent.BlockBuffer
