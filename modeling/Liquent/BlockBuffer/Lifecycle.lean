import Liquent.BlockBuffer.BlockBufferManager
import Liquent.Misc.StateExcept

/-!
# The lifecycle of a block in the buffer

What each operation of the manager can do to the map, and from it what happens to one entry along a
run: as long as the key stays, the identifier is the same and the state moves from ordered to
computed to committed.
-/

namespace Liquent.BlockBuffer

open Misc Relation

/-! ## Moves of one entry -/

/-- One move of an entry. The identifier stays, and so does a result. -/
inductive BlockState.Step : BlockState → BlockState → Prop
  | compute (block : ExternalBlock) (parentId : HashValue) (round : Nat)
      (result : StateComputeResult) :
      Step (.ordered block parentId round) (.computed block.blockMeta.blockId result)
  | commit (id : HashValue) (result : StateComputeResult) (hash : Option HashValue)
      (notifier : Bool) :
      Step (.computed id result) (.committed hash result id notifier)
  | notify (hash : Option HashValue) (result : StateComputeResult) (id : HashValue) :
      Step (.committed hash result id true) (.committed hash result id false)

/-- Any number of moves. -/
abbrev BlockState.Advances : BlockState → BlockState → Prop := ReflTransGen BlockState.Step

theorem BlockState.Advances.getBlockId_eq {a b : BlockState} (h : a.Advances b) :
    a.getBlockId = b.getBlockId := by
  induction h with
  | refl => rfl
  | tail _ hstep ih =>
    rw [ih]
    cases hstep with
    | compute | commit | notify => rfl

/-- The keys are the same, and every entry has advanced. -/
def BlocksAdvance (t t' : Table BlockKey BlockState) : Prop :=
  ∀ key, Option.Rel BlockState.Advances (t.get key) (t'.get key)

theorem optionRel_advances_refl (o : Option BlockState) : Option.Rel BlockState.Advances o o := by
  cases o with
  | none => exact .none
  | some state => exact .some .refl

theorem BlocksAdvance.refl (t : Table BlockKey BlockState) : BlocksAdvance t t :=
  fun key => optionRel_advances_refl (t.get key)

variable {t t' : Table BlockKey BlockState}

theorem BlocksAdvance.trans {t'' : Table BlockKey BlockState} (h : BlocksAdvance t t')
    (h' : BlocksAdvance t' t'') : BlocksAdvance t t'' := by
  intro key
  have hfirst := h key
  have hsecond := h' key
  generalize t.get key = a at *
  generalize t'.get key = b at *
  generalize t''.get key = c at *
  cases hfirst with
  | none =>
    cases hsecond with
    | none => exact .none
  | some hab =>
    cases hsecond with
    | some hbc => exact .some (hab.trans hbc)

variable {key : BlockKey}

theorem BlocksAdvance.put {old new : BlockState}
    (hold : t.get key = some old) (h : old.Advances new) : BlocksAdvance t (t.put key new) := by
  intro other
  by_cases hkey : other = key
  · subst hkey
    rw [hold, Table.get_put_self]
    exact .some h
  · rw [Table.get_put_of_ne hkey]
    exact optionRel_advances_refl _

theorem BlocksAdvance.mapValues {f : BlockKey → BlockState → BlockState}
    (h : ∀ key (state : BlockState), state.Advances (f key state)) :
    BlocksAdvance t (t.mapValues f) := by
  intro key
  rw [Table.get_mapValues]
  cases t.get key with
  | none => exact .none
  | some state => exact .some (h key state)

/-! ## What each operation does -/

namespace BlockStateMachine

variable {s : BlockStateMachine}

theorem setOrderedBlocks_cases (parentId : HashValue) (block : ExternalBlock) (round : Nat) :
    (s.setOrderedBlocks parentId block round).2 = s ∨
      s.epochChangeReady = false ∧ block.blockMeta.epoch = s.currentEpoch ∧
      s.blocks.get block.key = none ∧
      (s.setOrderedBlocks parentId block round).2 = { s with
        blocks := s.blocks.put block.key
          (.ordered block (s.actualParentId parentId block.key) round) } := by
  unfold setOrderedBlocks
  by_cases hready : s.epochChangeReady = true
  · simp [hready]
  by_cases hold : block.blockMeta.epoch < s.currentEpoch
  · simp [hready, hold]
  by_cases hnew : s.currentEpoch < block.blockMeta.epoch
  · simp [hready, hold, hnew]
  by_cases hsome : (s.blocks.get block.key).isSome = true
  · simp [hready, hold, hnew, hsome]
  · right
    have hepoch : block.blockMeta.epoch = s.currentEpoch := by omega
    have hnone : s.blocks.get block.key = none := by simpa using hsome
    simp [hready, hepoch, hnone]

/-- A new-epoch event is recorded together with its block, or the state is left as it is. -/
theorem calculateNewEpochState_cases [OnChainConfig] (events : List LiquentEvent) (blockNum : Nat) :
    (∃ e, s.calculateNewEpochState events blockNum = .error e) ∨
      findNewEpoch events = none ∧ s.calculateNewEpochState events blockNum = .ok (none, s) ∨
      ∃ newEpoch bytes verifier, findNewEpoch events = some (newEpoch, bytes) ∧
        s.calculateNewEpochState events blockNum =
          .ok (some { epoch := newEpoch, verifier := verifier },
            { s with latestEpochChangeBlockNumber := blockNum, nextEpoch := some newEpoch }) := by
  unfold calculateNewEpochState
  cases hnew : findNewEpoch events with
  | none => exact .inr (.inl ⟨rfl, rfl⟩)
  | some event =>
    obtain ⟨newEpoch, bytes⟩ := event
    cases hset : OnChainConfig.fromBytes bytes with
    | error e => exact .inl ⟨_, by simp only [hset]; rfl⟩
    | ok validatorSet =>
      cases hconvert : OnChainConfig.convertValidatorSet validatorSet with
      | error e =>
        exact .inl ⟨_, by simp only [hset, except_mapError_ok, bind, Except.bind, hconvert]; rfl⟩
      | ok verifier =>
        right
        right
        refine ⟨newEpoch, bytes, verifier, rfl, ?_⟩
        simp only [hset, except_mapError_ok, bind, Except.bind, hconvert]
        rfl

/-- What a call stores, with the new epoch that the result has. -/
theorem setComputeRes_stores [Crypto] [OnChainConfig] (blockId blockHash : HashValue)
    (blockNum epoch : Nat) (txnStatus : Option (List TxnStatus)) (events : List LiquentEvent) :
    (∃ e, s.setComputeRes blockId blockHash blockNum epoch txnStatus events = (.error e, s)) ∨
      ∃ block parentId round result,
        s.blocks.get ⟨epoch, blockNum⟩ = some (.ordered block parentId round) ∧
        block.blockMeta.blockId = blockId ∧
        (findNewEpoch events = none ∧ result.epochState = none ∧
          s.setComputeRes blockId blockHash blockNum epoch txnStatus events = (.ok (), { s with
            blocks := s.blocks.put ⟨epoch, blockNum⟩ (.computed blockId result) }) ∨
        ∃ newEpoch bytes cache, findNewEpoch events = some (newEpoch, bytes) ∧
          result.epochState = some cache.epochState ∧
          cache.epochBlockInfo.blockNumber = blockNum ∧ cache.epochState.epoch = newEpoch ∧
          s.setComputeRes blockId blockHash blockNum epoch txnStatus events = (.ok (), { s with
            latestEpochChangeBlockNumber := blockNum
            nextEpoch := some newEpoch
            epochChangeBlockInfo := some cache
            blocks := (s.blocks.put ⟨epoch, blockNum⟩ (.computed blockId result)).mapValues
              (computeSuffix epoch blockNum cache.epochState) })) := by
  unfold setComputeRes
  cases hget : s.blocks.get ⟨epoch, blockNum⟩ with
  | none => exact .inl ⟨_, rfl⟩
  | some state =>
    cases state with
    | computed | committed | historical => exact .inl ⟨_, rfl⟩
    | ordered block parentId round =>
      by_cases hid : block.blockMeta.blockId = blockId
      · rcases s.calculateNewEpochState_cases events blockNum with
          ⟨e, hcalc⟩ | ⟨hnew, hcalc⟩ | ⟨newEpoch, bytes, verifier, hnew, hcalc⟩
        · left
          simp [hid, hcalc]
        · right
          refine ⟨block, parentId, round,
            { rootHash := blockHash, epochState := none, txnNum := block.txns.length,
              txnStatus := txnStatus, events := events }, rfl, hid, .inl ⟨hnew, rfl, ?_⟩⟩
          simp [hid, hcalc, recordResult]
        · right
          refine ⟨block, parentId, round,
            { rootHash := blockHash, epochState := some { epoch := newEpoch, verifier := verifier },
              txnNum := block.txns.length, txnStatus := txnStatus, events := events }, rfl, hid,
            .inr ⟨newEpoch, bytes,
              { epochBlockInfo :=
                  { blockId := blockId, blockNumber := blockNum, epochStartRound := round,
                    epochStartTimestampUsecs := block.blockMeta.usecs, blockHash := blockHash },
                epochState := { epoch := newEpoch, verifier := verifier } }, hnew, rfl,
                  rfl, rfl, ?_⟩⟩
          simp [hid, hcalc, recordResult, handleEpochChangeSuffixBlocks]
      · left
        simp [hid]

/-- A call answers without a write, or it settles an ordered block after the one that changes the
epoch. -/
theorem getExecutedRes_cases [Crypto] (blockId : HashValue) (blockNum epoch : Nat) :
    (s.getExecutedRes blockId blockNum epoch).2 = s ∧ (∀ block parentId round,
        s.blocks.get ⟨epoch, blockNum⟩ = some (.ordered block parentId round) →
          s.isSuffixBlock blockNum = false) ∨
      ∃ block parentId round cache,
        s.blocks.get ⟨epoch, blockNum⟩ = some (.ordered block parentId round) ∧
        s.epochChangeBlockInfo = some cache ∧ s.isSuffixBlock blockNum = true ∧
        s.getExecutedRes blockId blockNum epoch =
          (.ok (some (newDummyWithEpochState cache.epochState)), { s with
            blocks := s.blocks.put ⟨epoch, blockNum⟩
              (.computed blockId (newDummyWithEpochState cache.epochState)) }) := by
  simp only [getExecutedRes]
  cases hget : s.blocks.get ⟨epoch, blockNum⟩ with
  | none =>
    left
    by_cases hold : epoch < s.currentEpoch
    · simp [hold]
    · simp [hold]
  | some state =>
    cases state with
    | computed id result | committed hash result id notifier =>
      left
      by_cases hid : id = blockId
      · simp [hid]
      · simp [hid]
    | historical id =>
      left
      simp
    | ordered block parentId round =>
      cases hinfo : s.epochChangeBlockInfo with
      | none =>
        left
        simp [isSuffixBlock, hinfo]
      | some cache =>
        by_cases hsuffix : s.isSuffixBlock blockNum = true
        · right
          exact ⟨block, parentId, round, cache, rfl, rfl, hsuffix, by simp [hsuffix]⟩
        · left
          simp [hsuffix]

/-- Whether a block can be committed, or need not be. -/
def acceptsCommit (s : BlockStateMachine) (epoch : Nat) (r : BlockHashRef) : Bool :=
  match s.blocks.get ⟨epoch, r.num⟩ with
  | some (.computed id _) => id = r.blockId
  | some (.committed _ _ id _) => s.isSuffixBlock r.num || id = r.blockId
  | some (.ordered _ _ _) => false
  | some (.historical id) => id = r.blockId
  | none => s.isStaleCommitAfterEpochChange epoch r.num

/-- Whether the block is waiting to be committed. -/
def awaitsCommit (s : BlockStateMachine) (epoch : Nat) (r : BlockHashRef) : Bool :=
  match s.blocks.get ⟨epoch, r.num⟩ with
  | some (.computed _ _) => true
  | _ => false

/-- One iteration of `set_commit_blocks` refuses the block, finds nothing to do, or commits it. -/
inductive CommitStep (s : BlockStateMachine) (r : BlockHashRef) (epoch : Nat) :
    Except String (Option Nat) × BlockStateMachine → Prop
  | refuse (e : String) (refuses : s.acceptsCommit epoch r = false) :
      CommitStep s r epoch (.error e, s)
  | settle (accepts : s.acceptsCommit epoch r = true) (settled : s.awaitsCommit epoch r = false) :
      CommitStep s r epoch (.ok none, s)
  | commit {s' : BlockStateMachine} (result : StateComputeResult) (notify : Bool)
      (computed : s.blocks.get ⟨epoch, r.num⟩ = some (.computed r.blockId result))
      (notifies : notify = (result.epochState.isSome && !s.isSuffixBlock r.num))
      (commits : s' = { s with
        blocks := s.blocks.put ⟨epoch, r.num⟩ (.committed r.hash result r.blockId notify) }) :
      CommitStep s r epoch (.ok (if notify then some r.num else none), s')

theorem setCommitBlock_step (r : BlockHashRef) (epoch : Nat) :
    CommitStep s r epoch (s.setCommitBlock r epoch) := by
  simp only [setCommitBlock]
  cases hget : s.blocks.get ⟨epoch, r.num⟩ with
  | none =>
    dsimp only
    split
    · exact .settle (by simpa [acceptsCommit, hget]) (by simp [awaitsCommit, hget])
    · exact .refuse _ (by simp_all [acceptsCommit])
  | some state =>
    cases state with
    | ordered => exact .refuse _ (by simp [acceptsCommit, hget])
    | historical id =>
      dsimp only
      split
      · exact .refuse _ (by simpa [acceptsCommit, hget])
      · exact .settle (by simp_all [acceptsCommit]) (by simp [awaitsCommit, hget])
    | committed hash result id notifier =>
      dsimp only
      split
      · exact .refuse _ (by simp_all [acceptsCommit])
      · exact .settle (by simp_all [acceptsCommit, or_iff_not_imp_left])
          (by simp [awaitsCommit, hget])
    | computed id result =>
      by_cases hid : id = r.blockId
      · subst hid
        simp only [if_true]
        exact .commit result _ hget rfl rfl
      · simp only [if_neg hid]
        exact .refuse _ (by simpa [acceptsCommit, hget])

theorem setCommitBlock_spec (r : BlockHashRef) (epoch : Nat) :
    (s.setCommitBlock r epoch).2 = { s with blocks := (s.setCommitBlock r epoch).2.blocks } ∧
      BlocksAdvance s.blocks (s.setCommitBlock r epoch).2.blocks := by
  have hstep := s.setCommitBlock_step r epoch
  generalize s.setCommitBlock r epoch = out at *
  cases hstep with
  | refuse | settle => exact ⟨rfl, .refl _⟩
  | commit result notify hget _ hs' =>
    subst hs'
    exact ⟨rfl, .put hget (.single (.commit _ _ _ _))⟩

theorem setCommitBlocks_spec (refs : List BlockHashRef) (epoch : Nat) :
    (s.setCommitBlocks refs epoch).2 =
    { s with blocks := (s.setCommitBlocks refs epoch).2.blocks } ∧
      BlocksAdvance s.blocks (s.setCommitBlocks refs epoch).2.blocks := by
  induction refs generalizing s with
  | nil => exact ⟨rfl, .refl _⟩
  | cons r rest ih =>
    obtain ⟨hfields, hblocks⟩ := s.setCommitBlock_spec r epoch
    simp only [setCommitBlocks]
    cases hstep : s.setCommitBlock r epoch with
    | mk result s' =>
      rw [hstep] at hfields hblocks
      cases result with
      | error e => exact ⟨hfields, hblocks⟩
      | ok notifier =>
        obtain ⟨hfields', hblocks'⟩ := ih (s := s')
        refine ⟨?_, hblocks.trans hblocks'⟩
        simp only at hfields ⊢
        rw [hfields', hfields]

/-- A successful call commits its first block and then the rest. -/
theorem setCommitBlocks_cons_ok {s : BlockStateMachine} {r : BlockHashRef}
    {rest : List BlockHashRef}
    {epoch : Nat} {nums : List Nat} (h : (s.setCommitBlocks (r :: rest) epoch).1 = .ok nums) :
    ∃ notifier s' more, s.setCommitBlock r epoch = (.ok notifier, s') ∧
      (s'.setCommitBlocks rest epoch).1 = .ok more ∧ nums = notifier.toList ++ more ∧
      (s.setCommitBlocks (r :: rest) epoch).2 = (s'.setCommitBlocks rest epoch).2 := by
  simp only [setCommitBlocks] at h ⊢
  cases hfirst : s.setCommitBlock r epoch with
  | mk reply s' =>
    rw [hfirst] at h
    cases reply with
    | error e => cases h
    | ok notifier =>
      obtain ⟨more, hrest, rfl⟩ := except_map_ok_iff.mp h
      exact ⟨notifier, s', more, rfl, hrest, rfl, rfl⟩

theorem takeNotifier_advances (epoch : Nat) (nums : List Nat) (key : BlockKey)
    (state : BlockState) : state.Advances (takeNotifier epoch nums key state) := by
  cases state with
  | committed hash result id notifier =>
    cases notifier with
    | false => exact .refl
    | true =>
      by_cases hmem : (key.epoch = epoch && key.blockNumber ∈ nums) = true
      · simp only [takeNotifier, hmem]
        exact .single (.notify _ _ _)
      · simp only [takeNotifier, hmem]
        exact .refl
  | ordered | computed | historical => exact .refl

theorem computeSuffix_advances [Crypto] (epoch number : Nat) (epochState : EpochState)
    (key : BlockKey) (state : BlockState) :
    state.Advances (computeSuffix epoch number epochState key state) := by
  cases state with
  | ordered block parentId round =>
    by_cases hsuffix : key.epoch = epoch ∧ number < key.blockNumber
    · simp only [computeSuffix, hsuffix]
      exact .single (.compute _ _ _ _)
    · simp only [computeSuffix, hsuffix, if_false]
      exact .refl
  | computed | committed | historical => exact .refl

end BlockStateMachine

/-! ## Entries along a run -/

/-- A `get_executed_res` that settles a block names the block that is there. -/
def Operation.NamesOwnBlock (s : BlockStateMachine) : Operation → Prop
  | .getExecutedRes blockId blockNum epoch =>
    ∀ block parentId round, s.blocks.get ⟨epoch, blockNum⟩ = some (.ordered block parentId round) →
      s.isSuffixBlock blockNum = true → block.blockMeta.blockId = blockId
  | _ => True

/-- The call puts a new block into the buffer. -/
def Operation.puts (s : BlockStateMachine) (key : BlockKey) : Operation → Prop
  | .setOrderedBlocks _ block _ =>
    block.key = key ∧ s.epochChangeReady = false ∧ key.epoch = s.currentEpoch
  | _ => False

/-- An entry leaves the buffer: a reset or the clean-up removes it. -/
inductive Removes (s : BlockStateMachine) (key : BlockKey) : Operation → Prop
  | release (pending : s.hasPendingEpochChange = true)
      (later : s.latestEpochChangeBlockNumber < key.blockNumber) :
      Removes s key .releaseInflightBlocks
  | cleanUp (full : s.maxBlockSize ≤ s.blocks.length)
      (earlier : key.blockNumber < s.latestFinalizedBlockNumber) :
      Removes s key .removeCommittedBlocks

/-- Entries advance, a block is ordered, `get_executed_res` settles a block, or entries are removed.
-/
inductive BlocksEffect (s : BlockStateMachine) (op : Operation)
    (t : Table BlockKey BlockState) : Prop
  | advance (h : BlocksAdvance s.blocks t) (names : op.NamesOwnBlock s)
  | order (block : ExternalBlock) (state : BlockState) (puts : op.puts s block.key)
      (absent : s.blocks.get block.key = none) (h : t = s.blocks.put block.key state)
  | settle (block : ExternalBlock) (parentId : HashValue) (round : Nat) (id : HashValue)
      (num epoch : Nat) (result : StateComputeResult) (hop : op = .getExecutedRes id num epoch)
      (ordered : s.blocks.get ⟨epoch, num⟩ = some (.ordered block parentId round))
      (suffix : s.isSuffixBlock num = true)
        (h : t = s.blocks.put ⟨epoch, num⟩ (.computed id result))
  | retain (p : BlockKey → Bool) (names : op.NamesOwnBlock s)
      (removes : ∀ key, p key = false → Removes s key op) (h : t = s.blocks.retain p)

/-- Every entry whose key is there before and after has advanced. -/
def EntriesAdvance (t t' : Table BlockKey BlockState) : Prop :=
  ∀ key state state', t.get key = some state → t'.get key = some state' → state.Advances state'

theorem BlocksAdvance.entriesAdvance (h : BlocksAdvance t t') : EntriesAdvance t t' := by
  intro key state state' hstate hstate'
  have hkey := h key
  rw [hstate, hstate'] at hkey
  cases hkey with
  | some h => exact h

theorem entriesAdvance_retain (t : Table BlockKey BlockState) (p : BlockKey → Bool) :
    EntriesAdvance t (t.retain p) := by
  intro key state state' hstate hstate'
  obtain rfl := Option.some.inj (hstate.symm.trans (Table.of_get_retain hstate'))
  exact .refl

section Run

variable [Crypto] [OnChainConfig]

theorem step_blocks (s : BlockStateMachine) (op : Operation) :
    BlocksEffect s op (step s op).2.blocks := by
  cases op with
  | setOrderedBlocks parentId block round =>
    dsimp only [step]
    rcases s.setOrderedBlocks_cases parentId block round with h | ⟨hready, hepoch, hnone, h⟩
    · rw [h]
      exact .advance (.refl _) trivial
    · rw [h]
      exact .order block _ ⟨rfl, hready, hepoch⟩ hnone rfl
  | setComputeRes blockId blockHash blockNum epoch txnStatus events =>
    refine .advance ?_ trivial
    dsimp only [step]
    rcases s.setComputeRes_stores blockId blockHash blockNum epoch txnStatus events with
      ⟨e, h⟩ | ⟨block, parentId, round, result, hget, rfl, ⟨-, -, h⟩ | ⟨_, _, cache, -, -, -, -, h⟩⟩
    · rw [h]
      exact .refl _
    · rw [h]
      exact .put hget (.single (.compute _ _ _ _))
    · rw [h]
      have hput := BlocksAdvance.put hget (.single (.compute _ _ _ result))
      exact hput.trans (.mapValues (BlockStateMachine.computeSuffix_advances _ _ _))
  | getExecutedRes blockId blockNum epoch =>
    dsimp only [step]
    rcases s.getExecutedRes_cases blockId blockNum epoch with
      ⟨h, hnot⟩ | ⟨block, parentId, round, cache, hget, -, hsuffix, h⟩
    · rw [h]
      refine .advance (.refl _) ?_
      intro block parentId round hget hsuffix
      simp [hnot block parentId round hget] at hsuffix
    · rw [h]
      exact .settle block parentId round blockId blockNum epoch _ rfl hget hsuffix rfl
  | setCommitBlocks blockIds epoch =>
    exact .advance (s.setCommitBlocks_spec blockIds epoch).2 trivial
  | getCommittedBlocks startNum maxSize epoch =>
    exact .advance (.mapValues (BlockStateMachine.takeNotifier_advances _ _)) trivial
  | removeCommittedBlocks =>
    dsimp only [step]
    unfold BlockStateMachine.removeCommittedBlocks
    by_cases hsize : s.blocks.length < s.maxBlockSize
    · rw [if_pos hsize]
      exact .advance (.refl _) trivial
    · rw [if_neg hsize]
      refine .retain (fun key => s.latestFinalizedBlockNumber ≤ key.blockNumber) trivial ?_ rfl
      intro key hkey
      exact .cleanUp (Nat.le_of_not_lt hsize) (by simpa using hkey)
  | releaseInflightBlocks =>
    dsimp only [step]
    unfold BlockStateMachine.releaseInflightBlocks
    by_cases hpending : s.hasPendingEpochChange = true
    · rw [if_pos hpending]
      refine .retain (fun key => key.blockNumber ≤ s.latestEpochChangeBlockNumber) trivial ?_ rfl
      intro key hkey
      exact .release hpending (by simpa using hkey)
    · rw [if_neg hpending]
      exact .advance (.refl _) trivial
  | getOrderedBlocks | setState | consumeEpochChange | initEpoch => exact .advance (.refl _) trivial

variable {s : BlockStateMachine}

omit [Crypto] [OnChainConfig] in
theorem namesOwnBlock_of_puts {op : Operation} (h : op.puts s key) : op.NamesOwnBlock s := by
  cases op with
  | setOrderedBlocks => trivial
  | _ => cases h

/-- An operation moves every entry along exactly when it does not settle a block under another
block's identifier. -/
theorem step_entriesAdvance_iff (s : BlockStateMachine) (op : Operation) :
    EntriesAdvance s.blocks (step s op).2.blocks ↔ op.NamesOwnBlock s := by
  cases step_blocks s op with
  | advance h hnames => exact iff_of_true h.entriesAdvance hnames
  | order block new hputs hnone h =>
    refine iff_of_true ?_ (namesOwnBlock_of_puts hputs)
    rw [h]
    intro key state state' hstate hstate'
    have hkey : key ≠ block.key := by
      rintro rfl
      simp [hnone] at hstate
    rw [Table.get_put_of_ne hkey, hstate] at hstate'
    obtain rfl := Option.some.inj hstate'
    exact .refl
  | settle block parentId round id num epoch result hop hget hsuffix h =>
    subst hop
    rw [h]
    constructor
    · intro hadvance block' parentId' round' hget' _
      exact (hadvance _ _ _ hget' Table.get_put_self).getBlockId_eq
    · intro hnames
      obtain rfl := hnames block parentId round hget hsuffix
      exact (BlocksAdvance.put hget (.single (.compute _ _ _ _))).entriesAdvance
  | retain p hnames _ h =>
    rw [h]
    exact iff_of_true (entriesAdvance_retain s.blocks p) hnames

/-- As long as its key stays, an entry keeps its identifier and only moves from ordered to computed
to committed. -/
def LifecycleHolds (s : BlockStateMachine) (ops : List Operation) : Prop :=
  ∀ pre mid post, ops = pre ++ mid ++ post → ∀ key,
    (∀ done todo, mid = done ++ todo → ((after s (pre ++ done)).blocks.get key).isSome) →
    ∀ state state', (after s pre).blocks.get key = some state →
      (after s (pre ++ mid)).blocks.get key = some state' → state.Advances state'

theorem after_append (s : BlockStateMachine) (ops ops' : List Operation) :
    after s (ops ++ ops') = after (after s ops) ops' := by
  unfold after
  rw [run_append]

/-- An entry advances along a part of a run if every step moves every entry along. -/
theorem advances_of_steps {ops : List Operation}
    (hsteps : AlongRun step (fun s op => op.NamesOwnBlock s) s ops)
    (hpresent : ∀ done todo, ops = done ++ todo → ((after s done).blocks.get key).isSome)
    {state state' : BlockState} (hstate : s.blocks.get key = some state)
    (hstate' : (after s ops).blocks.get key = some state') : state.Advances state' := by
  induction ops generalizing s state with
  | nil =>
    have heq : some state = some state' := hstate.symm.trans hstate'
    obtain rfl := Option.some.inj heq
    exact .refl
  | cons op rest ih =>
    obtain ⟨hop, hrest⟩ := hsteps
    have hnext := hpresent [op] rest rfl
    obtain ⟨next, hget⟩ := Option.isSome_iff_exists.mp hnext
    have hmove : state.Advances next :=
      (step_entriesAdvance_iff s op).mpr hop key state next hstate hget
    refine hmove.trans (ih hrest ?_ hget hstate')
    intro done todo heq
    exact hpresent (op :: done) todo (by rw [heq]; rfl)

/-- Entries keep their identity and lifecycle along a run exactly when every call of
`get_executed_res` that settles a block names the block that is there. -/
theorem lifecycle_iff (s : BlockStateMachine) (ops : List Operation) :
    LifecycleHolds s ops ↔ AlongRun step (fun s op => op.NamesOwnBlock s) s ops := by
  rw [alongRun_iff]
  constructor
  · intro h pre op post heq
    rw [← step_entriesAdvance_iff]
    intro key state state' hstate hstate'
    have hafter : after s (pre ++ [op]) = (step (after s pre) op).2 := by
      rw [after_append]
      rfl
    refine h pre [op] post (by simpa using heq) key ?_ state state' hstate (hafter ▸ hstate')
    intro done todo hsplit
    rcases List.append_eq_singleton_iff.mp hsplit.symm with ⟨rfl, -⟩ | ⟨rfl, -⟩
    · rw [List.append_nil]
      exact Option.isSome_of_eq_some hstate
    · rw [hafter]
      exact Option.isSome_of_eq_some hstate'
  · intro h pre mid post heq key hpresent state state' hstate hstate'
    rw [after_append] at hstate'
    refine advances_of_steps ?_ ?_ hstate hstate'
    · rw [alongRun_iff]
      intro pre' op post' hmid
      have hop := h (pre ++ pre') op (post' ++ post) (by rw [heq, hmid]; simp)
      rw [run_append] at hop
      exact hop
    · intro done todo hsplit
      have hsome := hpresent done todo hsplit
      rw [after_append] at hsome
      exact hsome

end Run

namespace Example

@[reducible] def crypto : Crypto := Permissive.crypto (·.proposed.round) (·.round)

/-- Every validator set decodes to the empty one. -/
@[reducible] def config : OnChainConfig where
  ValidatorSet := Unit
  fromBytes _ := .ok ()
  convertValidatorSet _ := .ok { validatorInfos := [] }

attribute [local instance] crypto config

/-- An empty block. -/
def block (epoch number id : Nat) : ExternalBlock where
  blockMeta :=
    { blockId := id, blockNumber := number, usecs := 0, epoch := epoch, randomness := none }
  txns := []

/-- A result that announces an epoch. -/
def announce (epoch number id newEpoch : Nat) : Operation :=
  .setComputeRes id 7 number epoch none [.newEpoch newEpoch []]

/-- Block 1 changes the epoch, block 2 is ordered after it. -/
def suffixOrdered : List Operation :=
  [.setOrderedBlocks 0 (block 1 1 11) 1, announce 1 1 11 2, .setOrderedBlocks 11 (block 1 2 12) 2]

/-- Block 2 is asked for under the identifier of another block. -/
def otherId : Operation := .getExecutedRes 99 2 1

end Example

attribute [local instance] Example.crypto Example.config

/-- Asking for the result of a block after the one that changes the epoch replaces its identifier by
the one that was asked for. -/
theorem suffix_block_settled_under_other_id : ∃ s, init 0 [] 1 = .ok s ∧
      ¬ LifecycleHolds s (Example.suffixOrdered ++ [Example.otherId]) := by
  refine ⟨_, rfl, ?_⟩
  intro h
  have hadvance := h Example.suffixOrdered [Example.otherId] [] rfl ⟨1, 2⟩ ?_ _ _ rfl rfl
  · have hid := hadvance.getBlockId_eq
    exact absurd hid (by decide)
  · intro done todo hsplit
    rcases List.append_eq_singleton_iff.mp hsplit.symm with ⟨rfl, -⟩ | ⟨rfl, -⟩
    · rfl
    · rfl

end Liquent.BlockBuffer
