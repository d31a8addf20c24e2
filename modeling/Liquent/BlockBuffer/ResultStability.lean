import Liquent.BlockBuffer.CommittedChange

/-!
# Results that stay the same

Consensus may ask for the result of a block more than once, and gets it from one of three places:
the entry of the block, the dummy of a block after the one that changes the epoch, or the dummy of a
block of an old epoch that is not in the buffer.  An entry that has a result keeps it for as long as
it stays, but cleaning up and a reset remove entries, and the answer for a block that has gone is
not the result it had.  This module records the results along a run and says when they agree.
-/

namespace Liquent.BlockBuffer

open Misc BlockStateMachine

/-! ## The result of an entry -/

/-- The result that an entry has, with the identifier under which it is found. -/
def BlockState.result : BlockState → Option (HashValue × StateComputeResult)
  | .ordered _ _ _ => none
  | .computed id result => some (id, result)
  | .committed _ result id _ => some (id, result)
  | .historical _ => none

variable {found : HashValue × StateComputeResult}

theorem BlockState.Advances.result_eq {a b : BlockState} (h : a.Advances b)
    (ha : a.result = some found) :
    b.result = some found := by
  induction h with
  | refl => exact ha
  | tail _ hstep ih =>
    cases hstep with
    | compute => cases ih
    | commit | notify => exact ih

section Runs

variable [Crypto] [OnChainConfig] {s : BlockStateMachine} {op : Operation}

/-- An operation keeps the result of every entry that it leaves in the map. -/
theorem result_step {key : BlockKey} {state state' : BlockState}
    (hget : s.blocks.get key = some state) (hresult : state.result = some found)
    (hget' : (step s op).2.blocks.get key = some state') : state'.result = some found := by
  by_cases hnames : op.NamesOwnBlock s
  · exact ((step_entriesAdvance_iff s op).mpr hnames key state state' hget hget').result_eq hresult
  · -- only a call that settles an ordered block can name another one, and this entry has a result
    cases op with
    | getExecutedRes blockId blockNum epoch =>
      change (s.getExecutedRes blockId blockNum epoch).2.blocks.get key = _ at hget'
      rcases s.getExecutedRes_cases blockId blockNum epoch with
        ⟨h, -⟩ | ⟨block, parentId, round, cache, hordered, -, -, h⟩
      · rw [h, hget] at hget'
        obtain rfl := Option.some.inj hget'
        exact hresult
      · have hne : key ≠ ⟨epoch, blockNum⟩ := by
          intro heq
          rw [heq, hordered] at hget
          obtain rfl := Option.some.inj hget
          cases hresult
        rw [h] at hget'
        have hsame := (Table.get_put_of_ne hne).symm.trans hget'
        rw [hget] at hsame
        obtain rfl := Option.some.inj hsame
        exact hresult
    | _ => exact absurd trivial hnames

theorem absent_step {key : BlockKey} (hget : s.blocks.get key = none) (hputs : ¬ op.puts s key) :
    (step s op).2.blocks.get key = none := by
  apply Table.get_eq_none
  intro hkey
  rcases mem_keys_step hkey with hold | hnew
  · simp [Table.mem_keys_iff, hget] at hold
  · exact hputs hnew

/-! ## Results along a run -/

/-- A result that an operation stores or returns for a block. -/
structure BlockResult where
  id : HashValue
  key : BlockKey
  result : StateComputeResult
  /-- Whether the block is in the buffer; the result of any other is the dummy of an old epoch. -/
  held : Bool

/-- The result that a successful `set_compute_res` stores or `get_executed_res` returns. -/
def Operation.resultOf (s : BlockStateMachine) (op : Operation) : Option BlockResult :=
  match op, (step s op).1 with
  | .setComputeRes blockId _ blockNum epoch _ _, .done (.ok ()) =>
    (((step s op).2.blocks.get ⟨epoch, blockNum⟩).bind BlockState.result).map fun found =>
      { id := blockId, key := ⟨epoch, blockNum⟩, result := found.2, held := true }
  | .getExecutedRes blockId blockNum epoch, .executed (.ok (some result)) =>
    some
      { id := blockId
        key := ⟨epoch, blockNum⟩
        result := result
        held := (s.blocks.get ⟨epoch, blockNum⟩).isSome }
  | _, _ => none

/-- The results stored or returned in a run, in this order. -/
def resultsInRun (s : BlockStateMachine) (ops : List Operation) : List BlockResult :=
  gather step (fun s op => (op.resultOf s).toList) s ops

/-- All results for one block are equal. -/
def ResultsAgree (known : List BlockResult) : Prop :=
  ∀ a ∈ known, ∀ b ∈ known, a.id = b.id → a.key = b.key → a.result = b.result

/-- A block with a result does not enter the buffer again, and once it has left the buffer its
result is not asked for. -/
def Operation.LeavesResults (known : List BlockResult) (s : BlockStateMachine) : Operation → Prop
  | .setOrderedBlocks _ block _ =>
    s.epochChangeReady = false → block.blockMeta.epoch = s.currentEpoch →
      s.blocks.get block.key = none → ∀ a ∈ known, a.key ≠ block.key
  | .getExecutedRes blockId blockNum epoch =>
    s.blocks.get ⟨epoch, blockNum⟩ = none → epoch < s.currentEpoch →
      ∀ a ∈ known, a.id = blockId → a.key = ⟨epoch, blockNum⟩ → a.held = false
  | _ => True

instance decidableLeavesResults (known : List BlockResult) (s : BlockStateMachine) :
    (op : Operation) → Decidable (op.LeavesResults known s)
  | .setOrderedBlocks _ block _ =>
    inferInstanceAs (Decidable (s.epochChangeReady = false →
      block.blockMeta.epoch = s.currentEpoch →
      s.blocks.get block.key = none → ∀ a ∈ known, a.key ≠ block.key))
  | .getExecutedRes blockId blockNum epoch =>
    inferInstanceAs (Decidable (s.blocks.get ⟨epoch, blockNum⟩ = none → epoch < s.currentEpoch →
      ∀ a ∈ known, a.id = blockId → a.key = ⟨epoch, blockNum⟩ → a.held = false))
  | .getOrderedBlocks .. | .setComputeRes .. | .setCommitBlocks .. | .getCommittedBlocks ..
  | .setState .. | .removeCommittedBlocks | .consumeEpochChange | .releaseInflightBlocks
  | .initEpoch _ => isTrue trivial

/-- Every operation of a run leaves the results before it alone. -/
def LeavesResults (s : BlockStateMachine) (ops : List Operation) : Prop :=
  AlongRecord step (fun s op => (op.resultOf s).toList) (fun known s op => op.LeavesResults known s)
    [] s ops

instance decidableLeavesResultsRun (s : BlockStateMachine) (ops : List Operation) :
    Decidable (LeavesResults s ops) :=
  decidableAlongRecord step _ (fun known s op => op.LeavesResults known s) [] s ops

/-- A result comes from the entry that the operation leaves, or from the bypass for a block of an
old epoch that is not there. -/
inductive Source (s : BlockStateMachine) (op : Operation) (a : BlockResult) : Prop
  | entry (state : BlockState) (held : a.held = true)
      (get : (step s op).2.blocks.get a.key = some state)
      (result : state.result = some (a.id, a.result))
  | bypass (held : a.held = false)
      (call : op = .getExecutedRes a.id a.key.blockNumber a.key.epoch)
      (absent : s.blocks.get a.key = none) (old : a.key.epoch < s.currentEpoch)
      (result : a.result = newDummy)

variable {a : BlockResult}

theorem source_setComputeRes {blockId blockHash : HashValue}
    {blockNum epoch : Nat} {txnStatus : Option (List TxnStatus)} {events : List LiquentEvent}
    (h : (Operation.setComputeRes blockId blockHash blockNum epoch txnStatus events).resultOf s =
      some a) :
    Source s (.setComputeRes blockId blockHash blockNum epoch txnStatus events) a := by
  have hentry : ∀ result,
      (s.setComputeRes blockId blockHash blockNum epoch txnStatus events).1 = .ok () →
      (s.setComputeRes blockId blockHash blockNum epoch txnStatus events).2.blocks.get
        ⟨epoch, blockNum⟩ = some (.computed blockId result) →
      Source s (.setComputeRes blockId blockHash blockNum epoch txnStatus events) a := by
    intro result hok hget
    simp only [Operation.resultOf, step, hok, hget, Option.bind_some, BlockState.result,
      Option.map_some, Option.some.injEq] at h
    subst h
    exact .entry (.computed blockId result) rfl hget rfl
  rcases s.setComputeRes_stores blockId blockHash blockNum epoch txnStatus events with
    ⟨e, hres⟩ | ⟨_, _, _, result, -, -, ⟨-, -, hres⟩ | ⟨_, _, _, -, -, -, -, hres⟩⟩
  · simp [Operation.resultOf, step, hres] at h
  · apply hentry result
    · rw [hres]
    · rw [hres]
      exact Table.get_put_self
  · apply hentry result
    · rw [hres]
    · rw [hres]
      exact computeSuffix_self _ _ _ _ _ _

theorem source_getExecutedRes {blockId : HashValue} {blockNum epoch : Nat}
    (h : (Operation.getExecutedRes blockId blockNum epoch).resultOf s = some a) :
    Source s (.getExecutedRes blockId blockNum epoch) a := by
  rcases s.getExecutedRes_cases blockId blockNum epoch with
    ⟨hsame, hnot⟩ | ⟨block, parentId, round, cache, hget, -, -, hres⟩
  · have hentry : ∀ state result, s.blocks.get ⟨epoch, blockNum⟩ = some state →
        (s.getExecutedRes blockId blockNum epoch).1 = .ok (some result) →
        state.result = some (blockId, result) →
        Source s (.getExecutedRes blockId blockNum epoch) a := by
      intro state result hget hok hresult
      simp only [Operation.resultOf, step, hok, hget, Option.some.injEq] at h
      subst h
      refine .entry state rfl ?_ hresult
      dsimp only [step]
      rw [hsame]
      exact hget
    cases hget : s.blocks.get ⟨epoch, blockNum⟩ with
    | none =>
      by_cases hold : epoch < s.currentEpoch
      · have hok : (s.getExecutedRes blockId blockNum epoch).1 = .ok (some newDummy) := by
          simp [getExecutedRes, hget, hold]
        simp only [Operation.resultOf, step, hok, hget, Option.some.injEq] at h
        subst h
        exact .bypass rfl rfl hget hold rfl
      · simp [Operation.resultOf, step, getExecutedRes, hget, hold] at h
    | some state =>
      cases state with
      | ordered block parentId round =>
        have hsuffix := hnot block parentId round hget
        cases hinfo : s.epochChangeBlockInfo with
        | none => simp [Operation.resultOf, step, getExecutedRes, hget, hinfo] at h
        | some cache => simp [Operation.resultOf, step, getExecutedRes, hget, hinfo, hsuffix] at h
      | historical id => simp [Operation.resultOf, step, getExecutedRes, hget] at h
      | computed id result | committed hash result id notifier =>
        by_cases hid : id = blockId
        · subst hid
          exact hentry _ result hget (by simp [getExecutedRes, hget]) rfl
        · simp [Operation.resultOf, step, getExecutedRes, hget, hid] at h
  · simp only [Operation.resultOf, step, hres, hget, Option.some.injEq] at h
    subst h
    refine .entry (.computed blockId (newDummyWithEpochState cache.epochState)) rfl ?_ rfl
    dsimp only [step]
    rw [hres]
    exact Table.get_put_self

theorem source_of_resultOf (h : op.resultOf s = some a) : Source s op a := by
  cases op with
  | setComputeRes => exact source_setComputeRes h
  | getExecutedRes => exact source_getExecutedRes h
  | _ => cases h

/-- An entry that is still there has the result that was seen, and a block that was bypassed is not
there. -/
structure Remembers (known : List BlockResult) (s : BlockStateMachine) : Prop where
  held : ∀ a ∈ known, a.held = true → ∀ state, s.blocks.get a.key = some state →
    state.result = some (a.id, a.result)
  bypassed : ∀ a ∈ known, a.held = false → s.blocks.get a.key = none ∧ a.result = newDummy
  agree : ResultsAgree known

variable {known : List BlockResult}

omit [Crypto] [OnChainConfig] in
theorem Operation.LeavesResults.not_puts (h : op.LeavesResults known s) (ha : a ∈ known)
    (habsent : s.blocks.get a.key = none) : ¬ op.puts s a.key := by
  intro hputs
  cases op with
  | setOrderedBlocks parentId block round =>
    obtain ⟨hkey, hready, hepoch⟩ := hputs
    rw [← hkey] at habsent hepoch
    exact h hready hepoch habsent a ha hkey.symm
  | _ => exact hputs

section

variable (hop : op.LeavesResults known s)

include hop

/-- The results before an operation are remembered after it. -/
theorem Remembers.step (h : Remembers known s) : Remembers known (step s op).2 := by
  refine ⟨?_, ?_, h.agree⟩
  · intro a ha hheld state' hget'
    cases hget : s.blocks.get a.key with
    | none => simp [absent_step hget (hop.not_puts ha hget)] at hget'
    | some state => exact result_step hget (h.held a ha hheld state hget) hget'
  · intro a ha hheld
    obtain ⟨habsent, hdummy⟩ := h.bypassed a ha hheld
    exact ⟨absent_step habsent (hop.not_puts ha habsent), hdummy⟩

/-- A new result agrees with those that are remembered. -/
theorem Remembers.agrees (h : Remembers known (BlockBuffer.step s op).2)
    {new : BlockResult} (hnew : Source s op new) (ha : a ∈ known)
    (hid : a.id = new.id) (hkey : a.key = new.key) : a.result = new.result := by
  cases hnew with
  | entry state _ hget hresult =>
    rw [← hkey] at hget
    cases hheld : a.held with
    | true =>
      have hsame := (h.held a ha hheld state hget).symm.trans hresult
      exact congrArg Prod.snd (Option.some.inj hsame)
    | false => simp [(h.bypassed a ha hheld).1] at hget
  | bypass _ hcall habsent hold hdummy =>
    subst hcall
    have hheld := hop habsent hold a ha hid hkey
    rw [(h.bypassed a ha hheld).2, hdummy]

theorem Remembers.record (h : Remembers known s) :
    Remembers (known ++ (op.resultOf s).toList) (BlockBuffer.step s op).2 := by
  have hafter := h.step hop
  cases hnew : op.resultOf s with
  | none => simpa using hafter
  | some new =>
    have hsource := source_of_resultOf hnew
    have hmem : ∀ a ∈ known ++ (some new).toList, a ∈ known ∨ a = new := by simp
    refine ⟨?_, ?_, ?_⟩
    · intro a ha hheld state hget
      rcases hmem a ha with ha | rfl
      · exact hafter.held a ha hheld state hget
      · cases hsource with
        | entry state' _ hget' hresult =>
          rw [hget] at hget'
          obtain rfl := Option.some.inj hget'
          exact hresult
        | bypass hnot => simp [hnot] at hheld
    · intro a ha hheld
      rcases hmem a ha with ha | rfl
      · exact hafter.bypassed a ha hheld
      · cases hsource with
        | entry _ hnot => simp [hnot] at hheld
        | bypass _ hcall habsent _ hdummy =>
          subst hcall
          exact ⟨absent_step habsent nofun, hdummy⟩
    · intro a ha b hb hid hkey
      rcases hmem a ha with hknown | rfl
      · rcases hmem b hb with hknown' | rfl
        · exact hafter.agree a hknown b hknown' hid hkey
        · exact hafter.agrees hop hsource hknown hid hkey
      · rcases hmem b hb with hknown | rfl
        · exact (hafter.agrees hop hsource hknown hid.symm hkey.symm).symm
        · rfl

end

/-- In every run in which no block for which there has been a result enters the buffer again or is
asked for after it has left the buffer, all results for a block are equal: those that
`get_executed_res` returns and those that `set_compute_res` stores. -/
theorem results_stable (s : BlockStateMachine) (ops : List Operation)
    (hops : LeavesResults s ops) : ResultsAgree (resultsInRun s ops) := by
  have hstart : Remembers [] s := ⟨nofun, nofun, nofun⟩
  exact (hops.invariant (fun _ _ _ hop h => h.record hop) hstart).agree

end Runs

namespace Example

/-- Block 1 changes the epoch; its result is asked for before and after the reset, that of a block
of the old epoch that never was in the buffer twice. -/
def askedAgain : List Operation :=
  [.setOrderedBlocks 0 (block 1 1 11) 1, announce 1 1 11 2, .getExecutedRes 11 1 1,
    .setCommitBlocks [{ blockId := 11, num := 1, hash := some 7 }] 1, .releaseInflightBlocks,
    .consumeEpochChange, .getExecutedRes 11 1 1, .getExecutedRes 13 3 1, .getExecutedRes 13 3 1]

/-- The result of block 2, after the one that changes the epoch, is asked for before and after the
reset. -/
def askedAfterReset : List Operation :=
  [.setOrderedBlocks 0 (block 1 1 11) 1, .setOrderedBlocks 11 (block 1 2 12) 2, announce 1 1 11 2,
    .getExecutedRes 12 2 1, .releaseInflightBlocks, .getExecutedRes 12 2 1]

end Example

attribute [local instance] Example.crypto Example.config

/-- A result that is asked for again after the reset. -/
theorem results_stable_askedAgain : ResultsAgree (resultsInRun Example.start Example.askedAgain) ∧
      (resultsInRun Example.start Example.askedAgain).length = 5 := by
  exact ⟨results_stable Example.start Example.askedAgain (by decide), by decide⟩

/-- The reset removes the block after the one that changes the epoch; before it the result had the
new epoch state, after it it has none. -/
theorem result_differs_after_reset : init 0 [] 1 = .ok Example.start ∧
      ¬ ResultsAgree (resultsInRun Example.start Example.askedAfterReset) := by
  refine ⟨rfl, ?_⟩
  unfold ResultsAgree
  decide

end Liquent.BlockBuffer
