import Liquent.BlockBuffer.Lifecycle

/-!
# Epoch changes in the buffer

A change of epoch is announced by the result of a block, adopted by `release_inflight_blocks` and
handed to the execution layer by `consume_epoch_change`.  Four fields of the state hold it in
between.  `step_effect` says once what an operation can do to these fields; the results about whole
runs follow from it.
-/

namespace Liquent.BlockBuffer

open Misc BlockStateMachine

/-! ## What an operation does to a pending change -/

/-- A change of epoch, with the block whose result announced it. -/
structure Change where
  epoch : Nat
  number : Nat
  blockId : HashValue
  newEpoch : Nat
deriving DecidableEq

/-- The fields that hold the epoch and a pending change are the same. -/
structure SameControl (s s' : BlockStateMachine) : Prop where
  currentEpoch : s'.currentEpoch = s.currentEpoch
  nextEpoch : s'.nextEpoch = s.nextEpoch
  latest : s'.latestEpochChangeBlockNumber = s.latestEpochChangeBlockNumber
  info : s'.epochChangeBlockInfo = s.epochChangeBlockInfo
  ready : s'.epochChangeReady = s.epochChangeReady

theorem SameControl.refl (s : BlockStateMachine) : SameControl s s := ⟨rfl, rfl, rfl, rfl, rfl⟩

theorem sameControl_blocks (s : BlockStateMachine) (blocks : Table BlockKey BlockState) :
    SameControl s { s with blocks := blocks } := ⟨rfl, rfl, rfl, rfl, rfl⟩

variable {t : Table BlockKey BlockState} {t' : Table BlockKey BlockState} {key : BlockKey}

theorem mem_keys_of_blocksAdvance (h : BlocksAdvance t t') (hkey : key ∈ t'.keys) :
    key ∈ t.keys := by
  rw [Table.mem_keys_iff] at hkey ⊢
  have hrel := h key
  cases hget : t.get key with
  | none =>
    rw [hget] at hrel
    generalize ht' : t'.get key = entry at *
    cases hrel with
    | none => cases hkey
  | some state => rfl

theorem computeSuffix_self [Crypto] (epoch number : Nat) (epochState : EpochState) (id : HashValue)
    (result : StateComputeResult) (t : Table BlockKey BlockState) :
    ((t.put ⟨epoch, number⟩ (.computed id result)).mapValues
      (computeSuffix epoch number epochState)).get ⟨epoch, number⟩ =
        some (.computed id result) := by
  rw [Table.get_mapValues, Table.get_put_self]
  rfl

variable {s : BlockStateMachine} {epoch : Nat} {number : Nat}

section Runs

variable [Crypto] [OnChainConfig]

/-- The change that an operation announces: it stores a result with a new-epoch event. -/
def announces (s : BlockStateMachine) (op : Operation) : Option Change :=
  match op, (step s op).1 with
  | .setComputeRes blockId _ blockNum epoch _ events, .done (.ok ()) =>
    (findNewEpoch events).map fun event =>
      { epoch := epoch, number := blockNum, blockId := blockId, newEpoch := event.1 }
  | _, _ => none

/-- What storing a result with a new-epoch event does. -/
structure Announcement (s : BlockStateMachine) (op : Operation) (s' : BlockStateMachine)
    (c : Change) : Prop where
  announces : announces s op = some c
  call : ∃ blockHash txnStatus events bytes,
    op = .setComputeRes c.blockId blockHash c.number c.epoch txnStatus events ∧
      findNewEpoch events = some (c.newEpoch, bytes)
  ordered : ∃ block parentId round,
    s.blocks.get ⟨c.epoch, c.number⟩ = some (.ordered block parentId round) ∧
      block.blockMeta.blockId = c.blockId
  computed : ∃ result, s'.blocks.get ⟨c.epoch, c.number⟩ = some (.computed c.blockId result)
  currentEpoch : s'.currentEpoch = s.currentEpoch
  nextEpoch : s'.nextEpoch = some c.newEpoch
  latest : s'.latestEpochChangeBlockNumber = c.number
  info : ∃ cache, s'.epochChangeBlockInfo = some cache ∧ cache.epochBlockInfo.blockNumber = c.number
  ready : s'.epochChangeReady = s.epochChangeReady
  keys : ∀ key, key ∈ s'.blocks.keys ↔ key ∈ s.blocks.keys

/-- What an operation that neither announces, hands out nor adopts a change does. -/
structure Quiet (s : BlockStateMachine) (op : Operation) (s' : BlockStateMachine) : Prop where
  control : SameControl s s'
  announces : announces s op = none
  notRelease : op ≠ .releaseInflightBlocks
  keys : ∀ key ∈ s'.blocks.keys, key ∈ s.blocks.keys ∨
    s.epochChangeReady = false ∧ key.epoch = s.currentEpoch

/-- The effect of an operation. -/
inductive Effect (s : BlockStateMachine) (op : Operation) (s' : BlockStateMachine) : Prop
  | quiet (h : Quiet s op s')
  | announce (c : Change) (h : Announcement s op s' c)
  | consume (hop : op = .consumeEpochChange) (h : s' = s.consumeEpochChange.2)
  | release (hop : op = .releaseInflightBlocks) (h : s' = s.releaseInflightBlocks)
  | initEpoch (epoch : Nat) (hop : op = .initEpoch epoch) (h : s' = s.initEpoch epoch)

/-- A new key is that of a block that is put into the buffer. -/
theorem mem_keys_step {op : Operation} (hkey : key ∈ (step s op).2.blocks.keys) :
    key ∈ s.blocks.keys ∨ op.puts s key := by
  cases step_blocks s op with
  | advance h => exact .inl (mem_keys_of_blocksAdvance h hkey)
  | order block state hputs _ h =>
    rw [h, Table.mem_keys_put] at hkey
    rcases hkey with rfl | hkey
    · exact .inr hputs
    · exact .inl hkey
  | settle block parentId round id num epoch result _ hordered _ h =>
    rw [h, Table.mem_keys_put] at hkey
    rcases hkey with rfl | hkey
    · exact .inl (Table.mem_keys_iff_get.mpr ⟨_, hordered⟩)
    · exact .inl hkey
  | retain p _ _ h =>
    rw [h] at hkey
    exact .inl (Table.mem_keys_retain.mp hkey).1

theorem keys_step (s : BlockStateMachine) (op : Operation) :
    ∀ key ∈ (step s op).2.blocks.keys, key ∈ s.blocks.keys ∨
      s.epochChangeReady = false ∧ key.epoch = s.currentEpoch := by
  intro key hkey
  rcases mem_keys_step hkey with hold | hputs
  · exact .inl hold
  · cases op with
    | setOrderedBlocks => exact .inr hputs.2
    | _ => cases hputs

theorem setComputeRes_effect (s : BlockStateMachine) (blockId blockHash : HashValue)
    (blockNum epoch : Nat) (txnStatus : Option (List TxnStatus)) (events : List LiquentEvent) :
    Effect s (.setComputeRes blockId blockHash blockNum epoch txnStatus events)
      (s.setComputeRes blockId blockHash blockNum epoch txnStatus events).2 := by
  have hkeys := keys_step s (.setComputeRes blockId blockHash blockNum epoch txnStatus events)
  dsimp only [step] at hkeys
  rcases s.setComputeRes_stores blockId blockHash blockNum epoch txnStatus events with
    ⟨e, h⟩ | ⟨block, parentId, round, result, hget, hid,
      ⟨hnew, -, h⟩ | ⟨newEpoch, bytes, cache, hnew, -, hnumber, -, h⟩⟩
  · refine .quiet ⟨?_, ?_, nofun, hkeys⟩
    · rw [h]
      exact .refl s
    · simp [announces, step, h]
  · refine .quiet ⟨?_, ?_, nofun, hkeys⟩
    · rw [h]
      exact sameControl_blocks s _
    · simp [announces, step, h, hnew]
  · rw [h]
    have hpresent : (⟨epoch, blockNum⟩ : BlockKey) ∈ s.blocks.keys :=
      Table.mem_keys_iff_get.mpr ⟨_, hget⟩
    refine .announce
      { epoch := epoch, number := blockNum, blockId := blockId, newEpoch := newEpoch } ?_
    refine
      { announces := by simp [announces, step, h, hnew]
        call := ⟨blockHash, txnStatus, events, bytes, rfl, hnew⟩
        ordered := ⟨block, parentId, round, hget, hid⟩
        computed := ⟨result, computeSuffix_self _ _ _ _ _ _⟩
        currentEpoch := rfl
        nextEpoch := rfl
        latest := rfl
        info := ⟨cache, rfl, hnumber⟩
        ready := rfl
        keys := ?_ }
    intro key
    rw [Table.keys_mapValues, Table.mem_keys_put]
    constructor
    · rintro (rfl | hkey)
      · exact hpresent
      · exact hkey
    · exact .inr

/-- The operations that are about the blocks alone. -/
def Operation.isOfBlocks : Operation → Bool
  | .setComputeRes .. | .setState .. | .consumeEpochChange | .releaseInflightBlocks | .initEpoch
    _ =>
    false
  | _ => true

theorem step_of_blocks (op : Operation) (h : op.isOfBlocks = true) :
    (step s op).2 = { s with blocks := (step s op).2.blocks } := by
  cases op with
  | setOrderedBlocks parentId block round =>
    dsimp only [step]
    rcases s.setOrderedBlocks_cases parentId block round with h | ⟨-, -, -, h⟩
    · rw [h]
    · rw [h]
  | getExecutedRes blockId blockNum epoch =>
    dsimp only [step]
    rcases s.getExecutedRes_cases blockId blockNum epoch with ⟨h, -⟩ | ⟨_, _, _, _, -, -, -, h⟩
    · rw [h]
    · rw [h]
  | setCommitBlocks blockIds epoch => exact (s.setCommitBlocks_spec blockIds epoch).1
  | removeCommittedBlocks =>
    dsimp only [step]
    unfold removeCommittedBlocks
    split
    · rfl
    · rfl
  | getOrderedBlocks | getCommittedBlocks => rfl
  | _ => cases h

theorem step_effect (s : BlockStateMachine) (op : Operation) : Effect s op (step s op).2 := by
  cases op with
  | setComputeRes blockId blockHash blockNum epoch txnStatus events =>
    exact setComputeRes_effect s blockId blockHash blockNum epoch txnStatus events
  | setOrderedBlocks | getOrderedBlocks | getExecutedRes | setCommitBlocks | getCommittedBlocks
  | removeCommittedBlocks =>
    refine .quiet ⟨?_, rfl, nofun, keys_step s _⟩
    rw [step_of_blocks _ rfl]
    exact sameControl_blocks s _
  | setState => exact .quiet ⟨⟨rfl, rfl, rfl, rfl, rfl⟩, rfl, nofun, keys_step s _⟩
  | consumeEpochChange => exact .consume rfl rfl
  | releaseInflightBlocks => exact .release rfl rfl
  | initEpoch epoch => exact .initEpoch epoch rfl rfl

variable {op : Operation} {ops : List Operation} {c : Change}

theorem announcement_of_announces
    (hannounce : announces s op = some c) : Announcement s op (step s op).2 c := by
  cases step_effect s op with
  | announce c' h =>
    rw [h.announces] at hannounce
    obtain rfl := Option.some.inj hannounce
    exact h
  | quiet h =>
    rw [h.announces] at hannounce
    cases hannounce
  | consume heq | release heq | initEpoch e heq =>
    rw [heq] at hannounce
    cases hannounce

/-! ## From an announcement to its adoption -/

/-- No operation of a run announces a change. -/
def NoAnnouncement (s : BlockStateMachine) (ops : List Operation) : Prop :=
  AlongRun step (fun s op => announces s op = none) s ops

def Operation.isInitEpoch : Operation → Bool
  | .initEpoch _ => true
  | _ => false

def Operation.setsOrdered : Operation → Bool
  | .setOrderedBlocks _ _ _ => true
  | _ => false

section

omit [Crypto] [OnChainConfig]

theorem releaseInflightBlocks_nextEpoch (s : BlockStateMachine) :
    s.releaseInflightBlocks.nextEpoch = none := by
  unfold releaseInflightBlocks
  by_cases hpending : s.hasPendingEpochChange = true
  · rw [if_pos hpending]
  · rw [if_neg hpending]
    simp only [hasPendingEpochChange, Bool.or_eq_true, not_or] at hpending
    simpa using hpending.1.2

theorem releaseInflightBlocks_latest (s : BlockStateMachine) :
    s.releaseInflightBlocks.latestEpochChangeBlockNumber = s.latestEpochChangeBlockNumber := by
  unfold releaseInflightBlocks
  split
  · rfl
  · rfl

/-- The epoch that a pending change leads to is the same before and after its adoption. -/
theorem releaseInflightBlocks_leadsTo (s : BlockStateMachine) :
    s.releaseInflightBlocks.nextEpoch.getD s.releaseInflightBlocks.currentEpoch =
      s.nextEpoch.getD s.currentEpoch := by
  unfold releaseInflightBlocks
  split
  · rfl
  · rfl

theorem exists_next_of_adopted (h : s.releaseInflightBlocks.currentEpoch ≠ s.currentEpoch) :
    ∃ next, s.nextEpoch = some next := by
  cases hnext : s.nextEpoch with
  | some next => exact ⟨next, rfl⟩
  | none =>
    have hleads := releaseInflightBlocks_leadsTo s
    rw [releaseInflightBlocks_nextEpoch, hnext] at hleads
    exact absurd hleads h

/-- With a pending change, its epoch is adopted and the blocks after it are dropped. -/
theorem releaseInflightBlocks_of_next (h : s.nextEpoch = some epoch) :
    s.releaseInflightBlocks = { s with
      currentEpoch := epoch
      nextEpoch := none
      blocks := s.blocks.retain (·.blockNumber ≤ s.latestEpochChangeBlockNumber)
      epochChangeBlockInfo := none
      epochChangeReady := true } := by
  have hpending : s.hasPendingEpochChange = true := by
    simp [hasPendingEpochChange, h]
  unfold releaseInflightBlocks
  rw [if_pos hpending, h]
  rfl

end

/-- While a change is pending, operations that do not announce another one leave it and the epoch
alone, except that its number may be taken. -/
theorem pending_of_noAnnouncement (hquiet : NoAnnouncement s ops)
    (hinit : ∀ op ∈ ops, op.isInitEpoch = false) (hnext : (after s ops).nextEpoch = some epoch) :
    s.nextEpoch = some epoch ∧ (after s ops).currentEpoch = s.currentEpoch ∧
      (after s ops).epochChangeBlockInfo = s.epochChangeBlockInfo ∧
      ((after s ops).latestEpochChangeBlockNumber = s.latestEpochChangeBlockNumber ∨
        (after s ops).latestEpochChangeBlockNumber = 0) ∧
      .releaseInflightBlocks ∉ ops := by
  induction ops generalizing s with
  | nil => exact ⟨hnext, rfl, rfl, .inl rfl, by simp⟩
  | cons op rest ih =>
    obtain ⟨hop, hrest⟩ := hquiet
    have hinitRest : ∀ op ∈ rest, op.isInitEpoch = false :=
      (List.forall_mem_cons.mp hinit).2
    obtain ⟨hnext', hcurrent', hinfo', hlatest', hnot⟩ := ih hrest hinitRest hnext
    change (after (step s op).2 rest).currentEpoch = (step s op).2.currentEpoch at hcurrent'
    cases step_effect s op with
    | quiet h =>
      rw [h.control.nextEpoch] at hnext'
      rw [h.control.currentEpoch] at hcurrent'
      rw [h.control.info] at hinfo'
      rw [h.control.latest] at hlatest'
      refine ⟨hnext', hcurrent', hinfo', hlatest', ?_⟩
      intro hmem
      rcases List.mem_cons.mp hmem with hmem | hmem
      · exact h.notRelease hmem.symm
      · exact hnot hmem
    | announce c h =>
      rw [h.announces] at hop
      cases hop
    | consume heq h =>
      subst heq
      refine ⟨hnext', hcurrent', hinfo', .inr ?_, ?_⟩
      · rcases hlatest' with hzero | hzero
        · exact hzero
        · exact hzero
      · intro hmem
        rcases List.mem_cons.mp hmem with hmem | hmem
        · cases hmem
        · exact hnot hmem
    | release heq h =>
      rw [h, releaseInflightBlocks_nextEpoch] at hnext'
      cases hnext'
    | initEpoch e heq h =>
      have hfalse := hinit op List.mem_cons_self
      rw [heq] at hfalse
      cases hfalse

theorem after_cons (s : BlockStateMachine) (op : Operation) (ops : List Operation) :
    after s (op :: ops) = after (step s op).2 ops := rfl

theorem after_snoc (s : BlockStateMachine) (ops : List Operation) (op : Operation) :
    after s (ops ++ [op]) = (step (after s ops) op).2 := by
  rw [after_append]
  rfl

theorem noAnnouncement_snoc (hops : NoAnnouncement s ops)
    (hop : announces (after s ops) op = none) :
    NoAnnouncement s (ops ++ [op]) :=
  alongRun_append.mpr ⟨hops, hop, trivial⟩

/-- A pending change has been announced, and no other one has been announced since. -/
theorem exists_announcement (hs : s.nextEpoch = none) :
    ∀ {ops : List Operation}, (after s ops).nextEpoch = some epoch →
      ∃ before op later c, ops = before ++ op :: later ∧ announces (after s before) op = some c ∧
        NoAnnouncement (after s (before ++ [op])) later := by
  intro ops
  induction ops using List.reverseRecOn with
  | nil =>
    intro hnext
    have hnone : s.nextEpoch = some epoch := hnext
    rw [hs] at hnone
    cases hnone
  | append_singleton ops op ih =>
    intro hnext
    rw [after_snoc] at hnext
    -- an operation that announces nothing belongs to the part after the announcement
    have hextend (hop : announces (after s ops) op = none)
        (hnext' : (after s ops).nextEpoch = some epoch) :
        ∃ before op' later c, ops ++ [op] = before ++ op' :: later ∧
          announces (after s before) op' = some c ∧
          NoAnnouncement (after s (before ++ [op'])) later := by
      obtain ⟨before, op', later, c, heq, hannounce, hquiet⟩ := ih hnext'
      refine ⟨before, op', later ++ [op], c, by rw [heq]; simp, hannounce, ?_⟩
      refine noAnnouncement_snoc hquiet ?_
      rw [← after_append]
      have hlist : before ++ [op'] ++ later = ops := by rw [heq]; simp
      rw [hlist]
      exact hop
    cases step_effect (after s ops) op with
    | quiet h =>
      rw [h.control.nextEpoch] at hnext
      exact hextend h.announces hnext
    | announce c h => exact ⟨ops, op, [], c, rfl, h.announces, trivial⟩
    | consume heq h | initEpoch e heq h =>
      rw [h] at hnext
      exact hextend (by rw [heq]; rfl) hnext
    | release heq h =>
      rw [h, releaseInflightBlocks_nextEpoch] at hnext
      cases hnext

/-! ## Ordered blocks come from `set_ordered_blocks` -/

omit [Crypto] [OnChainConfig] in
theorem BlockState.Advances.eq_of_ordered {a : BlockState}
    {block : ExternalBlock} {parentId : HashValue} {round : Nat}
    (h : a.Advances (.ordered block parentId round)) : a = .ordered block parentId round := by
  cases Relation.ReflTransGen.cases_tail h with
  | inl heq => exact heq.symm
  | inr hstep =>
    obtain ⟨b, -, hlast⟩ := hstep
    cases hlast

/-- Every ordered entry of `t'` is an entry of `t`. -/
def OrderedFrom (t t' : Table BlockKey BlockState) : Prop :=
  ∀ key block parentId round, t'.get key = some (.ordered block parentId round) →
    t.get key = some (.ordered block parentId round)

section

omit [Crypto] [OnChainConfig]

theorem BlocksAdvance.orderedFrom (h : BlocksAdvance t t') : OrderedFrom t t' := by
  intro key block parentId round hget
  have hkey := h key
  rw [hget] at hkey
  generalize t.get key = entry at *
  cases hkey with
  | some hadvance => rw [hadvance.eq_of_ordered]

theorem orderedFrom_put {id : HashValue}
    {result : StateComputeResult} : OrderedFrom t (t.put key (.computed id result)) := by
  intro other block parentId round hget
  rcases Table.of_get_put hget with ⟨-, heq⟩ | hget
  · cases heq
  · exact hget

theorem orderedFrom_retain {p : BlockKey → Bool} : OrderedFrom t (t.retain p) :=
  fun _ _ _ _ => Table.of_get_retain

end

theorem orderedFrom_step (hop : op.setsOrdered = false) :
    OrderedFrom s.blocks (step s op).2.blocks := by
  cases step_blocks s op with
  | advance h => exact h.orderedFrom
  | order block state hputs =>
    cases op with
    | setOrderedBlocks => cases hop
    | _ => cases hputs
  | settle block parentId round id num epoch result _ _ _ h =>
    rw [h]
    exact orderedFrom_put
  | retain p _ _ h =>
    rw [h]
    exact orderedFrom_retain

/-- In a state without ordered blocks, an announcement needs an ordered block first. -/
theorem exists_setsOrdered
    (hs : ∀ key block parentId round, s.blocks.get key ≠ some (.ordered block parentId round))
    (hannounce : announces (after s ops) op = some c) : ∃ op ∈ ops, op.setsOrdered = true := by
  by_contra hnone
  simp only [not_exists, not_and] at hnone
  have hrun : AlongRun step (fun _ op => op.setsOrdered = false) s ops := by
    rw [alongRun_iff]
    intro pre i post heq
    have hi := hnone i (by rw [heq]; simp)
    simpa using hi
  have hfree := AlongRun.invariant (I := fun s => ∀ key block parentId round,
      s.blocks.get key ≠ some (.ordered block parentId round))
    (fun s op hop hinv key block parentId round hget =>
      hinv key block parentId round (orderedFrom_step hop key block parentId round hget)) hrun hs
  obtain ⟨block, parentId, round, hget, -⟩ := (announcement_of_announces hannounce).ordered
  exact hfree _ _ _ _ hget

/-! ## After an adoption -/

/-- Every new-epoch event of a result names a later epoch. -/
def Operation.NamesLaterEpoch (s : BlockStateMachine) : Operation → Prop
  | .setComputeRes _ _ _ _ _ events =>
    ∀ epoch bytes, .newEpoch epoch bytes ∈ events → s.currentEpoch < epoch
  | _ => True

/-- A result with a new-epoch event comes when no adopted change waits for the execution layer, and
not for block zero. -/
def Operation.AnnouncesWhenIdle (s : BlockStateMachine) : Operation → Prop
  | .setComputeRes _ _ blockNum _ _ events =>
    (findNewEpoch events).isSome → s.epochChangeReady = false ∧ blockNum ≠ 0
  | _ => True

/-- A `consume_epoch_change` that finds no change pending is not made while the latest committed
block is that of a change of `known`. -/
def Operation.AsksApart (known : List Change) (s : BlockStateMachine) : Operation → Prop
  | .consumeEpochChange =>
    s.latestEpochChangeBlockNumber = 0 → ∀ c ∈ known, s.latestCommitBlockNumber ≠ c.number
  | _ => True

omit [Crypto] [OnChainConfig] in
theorem mem_of_findNewEpoch {events : List LiquentEvent} {bytes : List UInt8}
    (h : findNewEpoch events = some (epoch, bytes)) : .newEpoch epoch bytes ∈ events := by
  fun_induction findNewEpoch events with
  | case1 => cases h
  | case2 epoch' bytes' rest =>
    obtain ⟨rfl, rfl⟩ := Prod.mk.inj (Option.some.inj h)
    exact List.mem_cons_self
  | case3 event rest hne ih => exact List.mem_cons_of_mem _ (ih h)

variable {s' : BlockStateMachine}

theorem Announcement.later
    (h : Announcement s op s' c) (hop : op.NamesLaterEpoch s) : s.currentEpoch < c.newEpoch := by
  obtain ⟨blockHash, txnStatus, events, bytes, rfl, hfind⟩ := h.call
  exact hop c.newEpoch bytes (mem_of_findNewEpoch hfind)

theorem Announcement.idle (h : Announcement s op s' c) (hop : op.AnnouncesWhenIdle s) :
    s.epochChangeReady = false ∧ c.number ≠ 0 := by
  obtain ⟨blockHash, txnStatus, events, bytes, rfl, hfind⟩ := h.call
  exact hop (Option.isSome_of_eq_some hfind)

/-- From the adoption of a change on, `epoch` has been reached, only later ones are announced, and
no block of an earlier one has a number above `number`. -/
structure LeftBehind (epoch number : Nat) (s : BlockStateMachine) : Prop where
  currentEpoch : epoch ≤ s.currentEpoch
  nextEpoch : ∀ next, s.nextEpoch = some next → s.currentEpoch < next
  keys : ∀ key ∈ s.blocks.keys, key.epoch < epoch → key.blockNumber ≤ number

omit [Crypto] [OnChainConfig] in
theorem releaseInflightBlocks_keys
    (h : key ∈ s.releaseInflightBlocks.blocks.keys) : key ∈ s.blocks.keys := by
  unfold releaseInflightBlocks at h
  split at h
  · exact (Table.mem_keys_retain
      (p := fun key => key.blockNumber ≤ s.latestEpochChangeBlockNumber) |>.mp h).1
  · exact h

omit [Crypto] [OnChainConfig] in
theorem le_releaseInflightBlocks_currentEpoch
    (hnext : ∀ next, s.nextEpoch = some next → s.currentEpoch < next) :
    s.currentEpoch ≤ s.releaseInflightBlocks.currentEpoch := by
  unfold releaseInflightBlocks
  split
  · cases h : s.nextEpoch with
    | none => exact le_refl _
    | some next => exact le_of_lt (hnext next h)
  · exact le_refl _

theorem le_step_currentEpoch (hop : op.isInitEpoch = false)
    (hnext : ∀ next, s.nextEpoch = some next → s.currentEpoch < next) :
    s.currentEpoch ≤ (step s op).2.currentEpoch := by
  cases step_effect s op with
  | quiet h => rw [h.control.currentEpoch]
  | announce c h => rw [h.currentEpoch]
  | consume heq h =>
    rw [h]
    exact le_refl _
  | release heq h =>
    rw [h]
    exact le_releaseInflightBlocks_currentEpoch hnext
  | initEpoch e heq h =>
    rw [heq] at hop
    cases hop

theorem LeftBehind.step
    (hop : op.isInitEpoch = false) (hlater : op.NamesLaterEpoch s) (h : LeftBehind epoch number s) :
    LeftBehind epoch number (step s op).2 := by
  have hcurrent : epoch ≤ (BlockBuffer.step s op).2.currentEpoch :=
    h.currentEpoch.trans (le_step_currentEpoch hop h.nextEpoch)
  cases step_effect s op with
  | quiet hquiet =>
    refine ⟨hcurrent, ?_, ?_⟩
    · intro next hnext
      rw [hquiet.control.nextEpoch] at hnext
      rw [hquiet.control.currentEpoch]
      exact h.nextEpoch next hnext
    · intro key hkey hepoch
      rcases hquiet.keys key hkey with hkey | ⟨-, hnew⟩
      · exact h.keys key hkey hepoch
      · have hleft := h.currentEpoch
        omega
  | announce c hannounce =>
    refine ⟨hcurrent, ?_, ?_⟩
    · intro next hnext
      rw [hannounce.nextEpoch] at hnext
      obtain rfl := Option.some.inj hnext
      rw [hannounce.currentEpoch]
      exact hannounce.later hlater
    · intro key hkey hepoch
      exact h.keys key ((hannounce.keys key).mp hkey) hepoch
  | consume heq heffect =>
    rw [heffect]
    exact ⟨h.currentEpoch, h.nextEpoch, h.keys⟩
  | release heq heffect =>
    refine ⟨hcurrent, ?_, ?_⟩
    · intro next hnext
      rw [heffect, releaseInflightBlocks_nextEpoch] at hnext
      cases hnext
    · intro key hkey hepoch
      rw [heffect] at hkey
      exact h.keys key (releaseInflightBlocks_keys hkey) hepoch
  | initEpoch e heq heffect =>
    rw [heq] at hop
    cases hop

/-- Nothing is left to adopt. -/
structure Settled (s : BlockStateMachine) : Prop where
  nextEpoch : s.nextEpoch = none
  info : s.epochChangeBlockInfo = none
  latest : s.latestEpochChangeBlockNumber ≠ 0 → s.epochChangeReady = true ∧
    ∀ key ∈ s.blocks.keys, key.blockNumber ≤ s.latestEpochChangeBlockNumber

omit [Crypto] [OnChainConfig] in
theorem Settled.releaseInflightBlocks (h : Settled s) : s.releaseInflightBlocks = s := by
  unfold BlockStateMachine.releaseInflightBlocks
  by_cases hlatest : s.latestEpochChangeBlockNumber = 0
  · have hpending : ¬ s.hasPendingEpochChange = true := by
      simp [hasPendingEpochChange, hlatest, h.nextEpoch, h.info]
    rw [if_neg hpending]
  · obtain ⟨hready, hkeys⟩ := h.latest hlatest
    have hpending : s.hasPendingEpochChange = true := by
      simp [hasPendingEpochChange, hlatest]
    have hretain : s.blocks.retain (·.blockNumber ≤ s.latestEpochChangeBlockNumber) = s.blocks :=
      Table.retain_eq_self fun key hkey => by simpa using hkeys key hkey
    rw [if_pos hpending, hretain, h.nextEpoch, Option.getD_none]
    have hnext := h.nextEpoch
    have hinfo := h.info
    cases s
    simp_all

theorem Settled.step (hop : announces s op = none) (h : Settled s) : Settled (step s op).2 := by
  cases step_effect s op with
  | quiet hquiet =>
    refine ⟨hquiet.control.nextEpoch.trans h.nextEpoch, hquiet.control.info.trans h.info, ?_⟩
    rw [hquiet.control.latest, hquiet.control.ready]
    intro hlatest
    obtain ⟨hready, hkeys⟩ := h.latest hlatest
    refine ⟨hready, ?_⟩
    intro key hkey
    rcases hquiet.keys key hkey with hkey | ⟨hidle, -⟩
    · exact hkeys key hkey
    · rw [hready] at hidle
      cases hidle
  | announce c hannounce =>
    rw [hannounce.announces] at hop
    cases hop
  | consume heq heffect =>
    rw [heffect]
    exact ⟨h.nextEpoch, h.info, fun hne => absurd rfl hne⟩
  | release heq heffect =>
    rw [heffect, h.releaseInflightBlocks]
    exact h
  | initEpoch e heq heffect =>
    rw [heffect]
    exact ⟨h.nextEpoch, h.info, h.latest⟩

omit [Crypto] [OnChainConfig] in
theorem settled_releaseInflightBlocks
    (h : s.nextEpoch = some epoch) : Settled s.releaseInflightBlocks := by
  rw [releaseInflightBlocks_of_next h]
  refine ⟨rfl, rfl, fun _ => ⟨rfl, ?_⟩⟩
  intro key hkey
  have hmem := (Table.mem_keys_retain
    (p := fun key : BlockKey => key.blockNumber ≤ s.latestEpochChangeBlockNumber)).mp hkey
  simpa using hmem.2

/-! ## Handing a change out -/

/-- The change waits to be handed out. -/
structure Waiting (c : Change) (s : BlockStateMachine) : Prop where
  latest : s.latestEpochChangeBlockNumber = c.number
  leadsTo : s.nextEpoch.getD s.currentEpoch = c.newEpoch

theorem Waiting.consume (h : Waiting c s) (hnumber : c.number ≠ 0) :
    (step s .consumeEpochChange).1 = .epochChange c.newEpoch c.number := by
  simp [step, consumeEpochChange, hnumber, h.leadsTo, h.latest]

theorem Waiting.step (hop : op.isInitEpoch = false) (hconsume : op ≠ .consumeEpochChange)
    (hannounce : announces s op = none) (h : Waiting c s) : Waiting c (step s op).2 := by
  cases step_effect s op with
  | quiet hquiet =>
    refine ⟨hquiet.control.latest.trans h.latest, ?_⟩
    rw [hquiet.control.nextEpoch, hquiet.control.currentEpoch]
    exact h.leadsTo
  | announce c' hannounce' =>
    rw [hannounce'.announces] at hannounce
    cases hannounce
  | consume heq heffect => exact absurd heq hconsume
  | release heq heffect =>
    rw [heffect]
    exact ⟨(releaseInflightBlocks_latest s).trans h.latest,
      (releaseInflightBlocks_leadsTo s).trans h.leadsTo⟩
  | initEpoch e heq heffect =>
    rw [heq] at hop
    cases hop

/-- An adopted change that nobody has asked for stays marked as ready. -/
theorem ready_step (hconsume : op ≠ .consumeEpochChange)
    (h : s.epochChangeReady = true) : (step s op).2.epochChangeReady = true := by
  cases step_effect s op with
  | quiet hquiet => rw [hquiet.control.ready, h]
  | announce c hannounce => rw [hannounce.ready, h]
  | consume heq heffect => exact absurd heq hconsume
  | release heq heffect =>
    rw [heffect]
    unfold releaseInflightBlocks
    split
    · rfl
    · exact h
  | initEpoch e heq heffect =>
    rw [heffect]
    exact h

/-- Nothing is left to hand out but changes to epochs after `epoch`. -/
def HandedOut (epoch : Nat) (s : BlockStateMachine) : Prop :=
  s.latestEpochChangeBlockNumber = 0 ∨ epoch < s.nextEpoch.getD s.currentEpoch

theorem HandedOut.consume (h : HandedOut c.newEpoch s)
    (hapart : s.latestEpochChangeBlockNumber = 0 → s.latestCommitBlockNumber ≠ c.number) :
    (step s .consumeEpochChange).1 ≠ .epochChange c.newEpoch c.number := by
  intro hreply
  obtain ⟨hepoch, hnumber⟩ := Reply.epochChange.inj hreply
  rcases h with hzero | hbeyond
  · rw [hzero, if_pos rfl] at hnumber
    exact hapart hzero hnumber
  · exact hbeyond.ne' hepoch

/-- Once it has been handed out and its epoch is reached, a change gives way to later ones only. -/
theorem HandedOut.step (hop : op.isInitEpoch = false) (hlater : op.NamesLaterEpoch s)
    (hreached : announces s op = none ∨ epoch ≤ s.currentEpoch) (h : HandedOut epoch s) :
    HandedOut epoch (step s op).2 := by
  cases step_effect s op with
  | quiet hquiet =>
    unfold HandedOut
    rw [hquiet.control.latest, hquiet.control.nextEpoch, hquiet.control.currentEpoch]
    exact h
  | announce c hannounce =>
    rcases hreached with hnone | hreached
    · rw [hannounce.announces] at hnone
      cases hnone
    · right
      rw [hannounce.nextEpoch]
      exact hreached.trans_lt (hannounce.later hlater)
  | consume heq heffect =>
    rw [heffect]
    exact .inl rfl
  | release heq heffect =>
    unfold HandedOut
    rw [heffect, releaseInflightBlocks_latest, releaseInflightBlocks_leadsTo]
    exact h
  | initEpoch e heq heffect =>
    rw [heq] at hop
    cases hop

/-! ## Clean epoch changes -/

/-- A change has been announced, leaving `announced`, and adopted after the operations `between`,
leaving `epoch` for the state `adopted`; the operations `later` follow. -/
structure CleanChange (epoch : Nat) (c : Change) (announced adopted : BlockStateMachine)
    (between later : List Operation) : Prop where
  newEpoch : adopted.currentEpoch = c.newEpoch ∧ epoch < c.newEpoch
  noStaleBlock : ∀ done todo, later = done ++ todo → ∀ key ∈ (after adopted done).blocks.keys,
    key.epoch ≤ epoch → key.blockNumber ≤ c.number
  epochIncreases : ∀ done op todo, later = done ++ op :: todo →
    (after adopted done).currentEpoch ≤ (step (after adopted done) op).2.currentEpoch
  /-- The first call after the announcement hands the change out. -/
  handedOut : ∀ done todo,
    between ++ .releaseInflightBlocks :: later = done ++ .consumeEpochChange :: todo →
    .consumeEpochChange ∉ done →
    (step (after announced done) .consumeEpochChange).1 = .epochChange c.newEpoch c.number
  /-- No further call does. -/
  handedOutOnce : ∀ done more todo,
    between ++ .releaseInflightBlocks :: later =
      done ++ .consumeEpochChange :: (more ++ .consumeEpochChange :: todo) →
    (step (after announced (done ++ .consumeEpochChange :: more)) .consumeEpochChange).1 ≠
      .epochChange c.newEpoch c.number
  releaseIdle : ∀ done todo, later = done ++ .releaseInflightBlocks :: todo →
    NoAnnouncement adopted done →
    (step (after adopted done) .releaseInflightBlocks).2 = after adopted done

/-- Every adoption of a new epoch in a run is the clean adoption of the change announced last. -/
def EpochChangesClean (s : BlockStateMachine) (ops : List Operation) : Prop :=
  ∀ pre post, ops = pre ++ .releaseInflightBlocks :: post →
    (step (after s pre) .releaseInflightBlocks).2.currentEpoch ≠ (after s pre).currentEpoch →
    ∃ before op between c, pre = before ++ op :: between ∧ announces (after s before) op = some c ∧
      NoAnnouncement (after s (before ++ [op])) between ∧
      CleanChange (after s pre).currentEpoch c (after s (before ++ [op]))
        (after s (pre ++ [.releaseInflightBlocks])) between post

/-- `init_epoch` is not called after the first `set_ordered_blocks`. -/
def InitEpochFirst (ops : List Operation) : Prop :=
  ∀ pre op post, ops = pre ++ op :: post → op.isInitEpoch = true →
    ∀ op' ∈ pre, op'.setsOrdered = false

omit [Crypto] [OnChainConfig] in
theorem InitEpochFirst.later {pre post : List Operation} (h : InitEpochFirst (pre ++ post))
    (hpre : ∃ op ∈ pre, op.setsOrdered = true) : ∀ op ∈ post, op.isInitEpoch = false := by
  intro op hop
  by_contra hinit
  obtain ⟨first, second, rfl⟩ := List.append_of_mem hop
  obtain ⟨op', hop', hsets⟩ := hpre
  have hfalse := h (pre ++ first) op second (by simp) (by simpa using hinit) op'
    (List.mem_append_left _ hop')
  rw [hsets] at hfalse
  cases hfalse

theorem noAnnouncement_of_ready (hconsume : .consumeEpochChange ∉ ops)
    (hidle : AlongRun step (fun s op => op.AnnouncesWhenIdle s) s ops)
    (hready : s.epochChangeReady = true) : NoAnnouncement s ops := by
  induction ops generalizing s with
  | nil => trivial
  | cons op rest ih =>
    obtain ⟨hop, hrest⟩ := hidle
    have hne : op ≠ .consumeEpochChange := by
      rintro rfl
      exact hconsume List.mem_cons_self
    have hrestConsume : .consumeEpochChange ∉ rest :=
      fun hmem => hconsume (List.mem_cons_of_mem _ hmem)
    refine ⟨?_, ih hrestConsume hrest (ready_step hne hready)⟩
    cases hannounce : announces s op with
    | none => exact hannounce
    | some c =>
      have hfalse := ((announcement_of_announces hannounce).idle hop).1
      rw [hready] at hfalse
      cases hfalse

/-- A change waits until it is handed out. -/
theorem Waiting.after (hinit : ∀ op ∈ ops, op.isInitEpoch = false)
    (hconsume : .consumeEpochChange ∉ ops)
    (hquiet : NoAnnouncement s ops) (h : Waiting c s) : Waiting c (after s ops) := by
  have hne : ∀ op ∈ ops, op ≠ .consumeEpochChange := by
    rintro op hmem rfl
    exact hconsume hmem
  have hrun := (alongRun_of_forall (s := s) hinit).and ((alongRun_of_forall hne).and hquiet)
  exact AlongRun.invariant (fun _ _ hop hs => hs.step hop.1 hop.2.1 hop.2.2) hrun h

theorem LeftBehind.after (hinit : ∀ op ∈ ops, op.isInitEpoch = false)
    (hlater : AlongRun BlockBuffer.step (fun s op => op.NamesLaterEpoch s) s ops)
    (h : LeftBehind epoch number s) : LeftBehind epoch number (after s ops) :=
  AlongRun.invariant (fun _ _ hop hs => hs.step hop.1 hop.2)
    ((alongRun_of_forall hinit).and hlater) h

theorem Settled.after (hquiet : NoAnnouncement s ops) (h : Settled s) : Settled (after s ops) :=
  AlongRun.invariant (fun _ _ hop hs => hs.step hop) hquiet h

section Adoption

variable {s : BlockStateMachine} {op : Operation} {c : Change} {between later : List Operation}
  {epoch : Nat} (hannounce : Announcement s op (step s op).2 c)
  (hquiet : NoAnnouncement (step s op).2 between)

include hannounce hquiet

/-- The epoch is left behind as soon as the change is adopted. -/
theorem leftBehind_of_announcement
    (hinit : ∀ op' ∈ between, op'.isInitEpoch = false) (hlater : op.NamesLaterEpoch s)
    (hnext : (after (step s op).2 between).nextEpoch = some epoch) :
    epoch = c.newEpoch ∧ (after (step s op).2 between).currentEpoch < c.newEpoch ∧
      LeftBehind c.newEpoch c.number (after (step s op).2 between).releaseInflightBlocks := by
  obtain ⟨hpending, hcurrent, -, hlatest, -⟩ := pending_of_noAnnouncement hquiet hinit hnext
  rw [hannounce.nextEpoch] at hpending
  obtain rfl := Option.some.inj hpending
  rw [hannounce.latest] at hlatest
  have hless : (after (step s op).2 between).currentEpoch < c.newEpoch := by
    rw [hcurrent, hannounce.currentEpoch]
    exact hannounce.later hlater
  refine ⟨rfl, hless, ?_⟩
  rw [releaseInflightBlocks_of_next hnext]
  refine ⟨le_rfl, (fun next h => by cases h), ?_⟩
  intro key hkey _
  have hmem := (Table.mem_keys_retain (p := fun key : BlockKey =>
    key.blockNumber ≤ (after (step s op).2 between).latestEpochChangeBlockNumber)).mp hkey
  have hle : key.blockNumber ≤ (after (step s op).2 between).latestEpochChangeBlockNumber := by
    simpa using hmem.2
  rcases hlatest with hlatest | hlatest <;> omega

variable (hinit : ∀ op' ∈ between ++ .releaseInflightBlocks :: later, op'.isInitEpoch = false)

include hinit

/-- The first `consume_epoch_change` after the announcement finds the change waiting. -/
theorem waiting_of_announcement
    (hidle : AlongRun step (fun s op => op.AnnouncesWhenIdle s) (step s op).2
      (between ++ .releaseInflightBlocks :: later))
    (hnext : (after (step s op).2 between).nextEpoch = some epoch) {done todo : List Operation}
    (hsplit : between ++ .releaseInflightBlocks :: later = done ++ .consumeEpochChange :: todo)
    (hconsume : .consumeEpochChange ∉ done) : Waiting c (after (step s op).2 done) := by
  have hstart : Waiting c (step s op).2 :=
    ⟨hannounce.latest, by rw [hannounce.nextEpoch, Option.getD_some]⟩
  rcases List.append_eq_append_iff.mp hsplit with ⟨more, hdone, hrest⟩ | ⟨more, hdone, hrest⟩
  · -- the call comes after the adoption
    cases more with
    | nil => cases (List.cons.inj hrest).1
    | cons first more =>
      obtain ⟨rfl, hlater⟩ := List.cons.inj hrest
      subst hdone
      have hbetween : .consumeEpochChange ∉ between :=
        fun hmem => hconsume (List.mem_append_left _ hmem)
      have hmore : .consumeEpochChange ∉ more :=
        fun hmem => hconsume (List.mem_append_right _ (List.mem_cons_of_mem _ hmem))
      have hadopted : Waiting c (after (step s op).2 between) :=
        hstart.after (fun op' hmem => hinit op' (List.mem_append_left _ hmem)) hbetween hquiet
      have hrelease : Waiting c (step (after (step s op).2 between) .releaseInflightBlocks).2 :=
        hadopted.step rfl nofun rfl
      have hready : (after (step s op).2 between).releaseInflightBlocks.epochChangeReady =
        true := by
        rw [releaseInflightBlocks_of_next hnext]
      have hidleMore : AlongRun step (fun s op => op.AnnouncesWhenIdle s)
          (after (step s op).2 between).releaseInflightBlocks more := by
        have hrest := (alongRun_append.mp hidle).2.2
        rw [hlater] at hrest
        exact (alongRun_append.mp hrest).1
      have hquietMore := noAnnouncement_of_ready hmore hidleMore hready
      have hinitMore : ∀ op' ∈ more, op'.isInitEpoch = false := by
        intro op' hmem
        refine hinit op' (List.mem_append_right _ (List.mem_cons_of_mem _ ?_))
        rw [hlater]
        exact List.mem_append_left _ hmem
      rw [after_append, after_cons]
      exact hrelease.after hinitMore hmore hquietMore
  · -- the call comes before the adoption
    subst hdone
    have hquietDone := (alongRun_append.mp hquiet).1
    refine hstart.after ?_ hconsume hquietDone
    intro op' hmem
    exact hinit op' (List.mem_append_left _ (List.mem_append_left _ hmem))

omit hannounce in
/-- A further call does not hand the change out again. -/
theorem not_handedOut_again (hlater : AlongRun step (fun s op => op.NamesLaterEpoch s) (step s op).2
      (between ++ .releaseInflightBlocks :: later))
    (hleft : ∀ done todo, later = done ++ todo → LeftBehind c.newEpoch c.number
      (after (after (step s op).2 between).releaseInflightBlocks done))
    {done more todo : List Operation}
    (hsplit : between ++ .releaseInflightBlocks :: later =
      done ++ .consumeEpochChange :: (more ++ todo)) :
    HandedOut c.newEpoch (after (step s op).2 (done ++ .consumeEpochChange :: more)) := by
  -- another change is announced only once the epoch has been reached
  have hreached : AlongRun step (fun s op => announces s op = none ∨ c.newEpoch ≤ s.currentEpoch)
      (step s op).2 (between ++ .releaseInflightBlocks :: later) := by
    refine alongRun_append.mpr ⟨?_, .inl rfl, ?_⟩
    · exact alongRun_iff.mpr fun pre i post heq => .inl (alongRun_iff.mp hquiet pre i post heq)
    · exact alongRun_iff.mpr fun pre i post heq => .inr (hleft pre (i :: post) heq).currentEpoch
  have hrun := (alongRun_of_forall hinit).and (hlater.and hreached)
  rw [hsplit] at hrun
  have hmore := (alongRun_append.mp (alongRun_append.mp hrun).2.2).1
  rw [after_append, after_cons]
  exact AlongRun.invariant (fun _ _ hop hs => hs.step hop.1 hop.2.1 hop.2.2) hmore (.inl rfl)

/-- An announced change is adopted cleanly when later ones come only after it has been handed out.
-/
theorem cleanChange_of_announcement (hlater : AlongRun step (fun s op => op.NamesLaterEpoch s) s
      (op :: (between ++ .releaseInflightBlocks :: later)))
    (hidle : AlongRun step (fun s op => op.AnnouncesWhenIdle s) s
      (op :: (between ++ .releaseInflightBlocks :: later)))
    (hapart : ∀ done todo,
      between ++ .releaseInflightBlocks :: later = done ++ .consumeEpochChange :: todo →
      (after (step s op).2 done).latestEpochChangeBlockNumber = 0 →
      (after (step s op).2 done).latestCommitBlockNumber ≠ c.number)
    (hnext : (after (step s op).2 between).nextEpoch = some epoch) :
    CleanChange (after (step s op).2 between).currentEpoch c (step s op).2
      (after (step s op).2 between).releaseInflightBlocks between later := by
  have hinitBetween : ∀ op' ∈ between, op'.isInitEpoch = false :=
    fun op' hmem => hinit op' (List.mem_append_left _ hmem)
  have hinitLater : ∀ op' ∈ later, op'.isInitEpoch = false :=
    fun op' hmem => hinit op' (List.mem_append_right _ (List.mem_cons_of_mem _ hmem))
  obtain ⟨rfl, hless, hleft⟩ :=
    leftBehind_of_announcement hannounce hquiet hinitBetween hlater.1 hnext
  have hlaterRest : AlongRun step (fun s op => op.NamesLaterEpoch s)
      (after (step s op).2 between).releaseInflightBlocks later :=
    (alongRun_append.mp hlater.2).2.2
  have hleftAfter : ∀ done todo, later = done ++ todo → LeftBehind c.newEpoch c.number
      (after (after (step s op).2 between).releaseInflightBlocks done) := by
    rintro done todo rfl
    exact hleft.after (fun op' hmem => hinitLater op' (List.mem_append_left _ hmem))
      (alongRun_append.mp hlaterRest).1
  refine
    { newEpoch := ⟨?_, hless⟩
      noStaleBlock := fun done todo heq key hkey hepoch =>
        (hleftAfter done todo heq).keys key hkey (hepoch.trans_lt hless)
      epochIncreases := ?_
      handedOut := ?_
      handedOutOnce := ?_
      releaseIdle := ?_ }
  · rw [releaseInflightBlocks_of_next hnext]
  · intro done op' todo heq
    refine le_step_currentEpoch (hinitLater op' (by rw [heq]; simp)) ?_
    exact (hleftAfter done _ heq).nextEpoch
  · intro done todo hsplit hconsume
    have hwaiting :=
      waiting_of_announcement hannounce hquiet hinit hidle.2 hnext hsplit hconsume
    exact hwaiting.consume (hannounce.idle hidle.1).2
  · intro done more todo hsplit
    have hhanded := not_handedOut_again hquiet hinit hlater.2 hleftAfter hsplit
    exact hhanded.consume (hapart (done ++ .consumeEpochChange :: more) todo (by rw [hsplit]; simp))
  · intro done todo heq hquietDone
    exact ((settled_releaseInflightBlocks hnext).after hquietDone).releaseInflightBlocks

end Adoption

theorem asksApart_of_announces {known : List Change} {rest : List Operation}
    (hannounce : announces s op = some c)
    (h : AlongRecord step (fun s op => (announces s op).toList)
      (fun known s op => op.AsksApart known s) known s (op :: rest)) :
    ∀ done todo, rest = done ++ .consumeEpochChange :: todo →
      (after (step s op).2 done).latestEpochChangeBlockNumber = 0 →
      (after (step s op).2 done).latestCommitBlockNumber ≠ c.number := by
  rintro done todo rfl hzero
  refine (alongRecord_append.mp h.2).2.1 hzero c ?_
  simp [hannounce]

/-- The state that `init` leaves has no ordered block and no pending change. -/
structure Fresh (s : BlockStateMachine) : Prop where
  nextEpoch : s.nextEpoch = none
  info : s.epochChangeBlockInfo = none
  blocks : ∀ key block parentId round, s.blocks.get key ≠ some (.ordered block parentId round)

omit [Crypto] [OnChainConfig] in
theorem fresh_of_init {latestCommit : Nat} {blockIds : Table Nat (Nat × HashValue)}
    (h : init latestCommit blockIds epoch = .ok s) : Fresh s := by
  unfold init at h
  cases hcommit : initCommitBlock latestCommit blockIds with
  | error e =>
    rw [hcommit] at h
    cases h
  | ok entry =>
    rw [hcommit] at h
    obtain rfl := Except.ok.inj h
    refine ⟨rfl, rfl, ?_⟩
    intro key block parentId round hget
    cases entry with
    | none => cases hget
    | some entry =>
      have hmem := Table.mem_of_get hget
      simp at hmem

end Runs

namespace Example

/-- The state that `init` leaves in epoch 1 before the first block. -/
def start : BlockStateMachine where
  currentEpoch := 1

theorem init_start : init 0 [] 1 = .ok start := rfl

/-- Block 1 changes the epoch; the change is adopted and handed out before the next block. -/
def oneChange : List Operation :=
  [.setOrderedBlocks 0 (block 1 1 11) 1, announce 1 1 11 2, .setOrderedBlocks 11 (block 1 2 12) 2,
    .releaseInflightBlocks, .consumeEpochChange, .setOrderedBlocks 11 (block 2 2 21) 1]

/-- Block 2 announces epoch 2; after its adoption, the result of block 1 announces epoch 3. -/
def twoChanges : List Operation :=
  [.setOrderedBlocks 0 (block 1 1 11) 1, .setOrderedBlocks 11 (block 1 2 12) 2, announce 1 2 12 2,
    .releaseInflightBlocks, announce 1 1 11 3, .consumeEpochChange]

theorem initEpochFirst_of_none {ops : List Operation}
    (h : ∀ op ∈ ops, op.isInitEpoch = false) : InitEpochFirst ops := by
  intro pre op post heq hop
  have hfalse := h op (by rw [heq]; simp)
  rw [hop] at hfalse
  cases hfalse

theorem namesLaterEpoch_announce {id newEpoch : Nat}
    (h : s.currentEpoch < newEpoch) : (announce epoch number id newEpoch).NamesLaterEpoch s := by
  intro named bytes hmem
  simp only [List.mem_singleton, LiquentEvent.newEpoch.injEq] at hmem
  rw [hmem.1]
  exact h

end Example

attribute [local instance] Example.crypto Example.config

/-- A redundant call hands a change out again when its block is the latest committed one. -/
example : ((run step Example.start (Example.oneChange.take 4 ++
    [.setState 1 1, .consumeEpochChange, .consumeEpochChange])).1.drop 5).map (·.2) =
      [.epochChange 2 1, .epochChange 2 1] := rfl

end Liquent.BlockBuffer
