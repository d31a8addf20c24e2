import Mathlib.Data.List.TakeWhile
import Liquent.Pipeline.EpochGenesis
import Liquent.Pipeline.PersistOrder

/-!
# Commit ledger infos and the chain

All nodes execute the same chain of blocks, in batches of their own and in an order of their own,
and are to sign the same ledger info for a block.  The ledger info depends on the time at which the
manager saw the epoch end, on what the block buffer manager answers about the end of the epoch, and,
before the fork, on whether the votes for the batch had arrived before its execution.

`canonicalLedgerInfo` is the ledger info as a function of the chain.  A node builds it as long as
the block that changes the epoch is executed before or together with the suffix blocks, the answers
are those of the chain, and the fork is active for the suffix blocks.
-/

namespace Liquent.Pipeline

open Misc

variable {event : Event}

section Canonical

variable [Crypto]

/-! ## The chain -/

/-- The chain from the block that changes the epoch on. -/
def epochSuffix (chain : List PipelinedBlock) : List PipelinedBlock :=
  chain.dropWhile fun block => !block.blockInfo.hasReconfiguration

/-- A block as the end of the epoch. -/
def endInfo (block : PipelinedBlock) : EpochBlockInfo where
  blockId := block.id
  blockNumber := block.block.blockNumber.getD 0
  epochStartRound := block.block.round
  epochStartTimestampUsecs := block.block.timestampUsecs
  blockHash := block.stateComputeResult.rootHash

/-- What the block buffer manager knows about the end of the epoch: the block that changes it, for
the suffix blocks. -/
def epochChangeAnswer (chain : List PipelinedBlock) (block : PipelinedBlock) :
    Option EpochBlockInfo :=
  match epochSuffix chain with
  | [] => none
  | change :: suffix => if block ∈ suffix then some (endInfo change) else none

/-- The commit info of a block of the chain. -/
def canonicalCommitInfo (chain : List PipelinedBlock) (block : PipelinedBlock) : BlockInfo :=
  match epochSuffix chain with
  | [] => block.blockInfo
  | change :: suffix =>
    if block ∈ change :: suffix then
      { block.blockInfo with
        timestampUsecs := change.block.timestampUsecs, epochBlockInfo := some (endInfo change) }
    else block.blockInfo

/-- The ledger info that commits a block of the chain. -/
def canonicalLedgerInfo (chain : List PipelinedBlock) (block : PipelinedBlock) : LedgerInfo :=
  .newWithBlockInfo (canonicalCommitInfo chain block) HashValue.zero
    block.stateComputeResult.rootHash (block.block.blockNumber.getD 0)

variable {chain blocks : List PipelinedBlock} {block change : PipelinedBlock}
  {suffix : List PipelinedBlock}

theorem head_epochSuffix (h : epochSuffix chain = change :: suffix) :
    change.blockInfo.hasReconfiguration = true := by
  have hhead := List.head?_dropWhile_not (fun b : PipelinedBlock => !b.blockInfo.hasReconfiguration)
    chain
  unfold epochSuffix at h
  rw [h] at hhead
  simpa using hhead

theorem mem_epochSuffix (hblock : block ∈ chain)
    (hchange : block.blockInfo.hasReconfiguration = true) : block ∈ epochSuffix chain := by
  induction chain with
  | nil => cases hblock
  | cons first rest ih =>
    unfold epochSuffix
    cases hfirst : first.blockInfo.hasReconfiguration with
    | true =>
      rw [List.dropWhile_cons_of_neg (by simp [hfirst])]
      exact hblock
    | false =>
      rw [List.dropWhile_cons_of_pos (by simp [hfirst])]
      refine ih ((List.mem_cons.mp hblock).resolve_left ?_)
      rintro rfl
      simp [hfirst] at hchange

/-- The last block of a part is in the suffix when the part has a block of it. -/
theorem last_mem_epochSuffix {other : PipelinedBlock} (hblocks : blocks <:+: chain)
    (hlast : blocks.getLast? = some block) (hother : other ∈ blocks)
    (hchange : other.blockInfo.hasReconfiguration = true) : block ∈ epochSuffix chain := by
  obtain ⟨before, after, rfl⟩ := hblocks
  have hmem : other ∈ epochSuffix (before ++ blocks) :=
    mem_epochSuffix (List.mem_append_right _ hother) hchange
  have hne : epochSuffix (before ++ blocks) ≠ [] := List.ne_nil_of_mem hmem
  obtain ⟨dropped, hdropped⟩ : epochSuffix (before ++ blocks) <:+ before ++ blocks :=
    List.dropWhile_suffix _
  have hlast' : (epochSuffix (before ++ blocks)).getLast? = some block := by
    have hall : (dropped ++ epochSuffix (before ++ blocks)).getLast? = some block := by
      rw [hdropped, List.getLast?_append, hlast, Option.some_or]
    obtain ⟨last, hl⟩ := Option.isSome_iff_exists.mp (List.getLast?_isSome.mpr hne)
    rw [List.getLast?_append, hl, Option.some_or] at hall
    rw [hl, hall]
  have hwhole : epochSuffix (before ++ blocks ++ after) =
      epochSuffix (before ++ blocks) ++ after := by
    unfold epochSuffix at hne ⊢
    rw [List.dropWhile_append]
    simp [hne]
  rw [hwhole]
  exact List.mem_append_left _ (List.mem_of_getLast? hlast')

/-- The first block of a part that changes the epoch is the one that ends it, when the part contains
that one. -/
theorem find_change {first : PipelinedBlock}
    (hnodup : (ids chain).Nodup) (hblocks : blocks <:+: chain)
    (hsuffix : epochSuffix chain = change :: suffix) (hchange : change ∈ blocks)
    (hfind : blocks.find? (·.blockInfo.hasReconfiguration) = some first) : first = change := by
  have hchain : chain.find? (·.blockInfo.hasReconfiguration) = some change := by
    rw [List.find?_eq_head?_dropWhile_not]
    exact congrArg List.head? hsuffix
  obtain ⟨before, after, rfl⟩ := hblocks
  rw [List.append_assoc, List.find?_append, List.find?_append, hfind, Option.some_or] at hchain
  cases hbefore : before.find? (·.blockInfo.hasReconfiguration) with
  | none =>
    rw [hbefore, Option.none_or] at hchain
    exact Option.some.inj hchain
  | some earlier =>
    -- the block that ends the epoch would be in the chain twice
    rw [hbefore, Option.some_or] at hchain
    obtain rfl := Option.some.inj hchain
    rw [List.append_assoc, ids_append, List.nodup_append] at hnodup
    have hmem := List.mem_map_of_mem (f := PipelinedBlock.id) (List.mem_of_find?_eq_some hbefore)
    refine absurd rfl (hnodup.2.2 _ hmem _ ?_)
    rw [ids_append]
    exact List.mem_append_left _ (List.mem_map_of_mem hchange)

/-! ## Items -/

variable {info : Option EpochBlockInfo} {commitInfo : BlockInfo} {epochEnd : Option Nat}

/-- The commit info of an executed batch, from the last block, the time of the end of the epoch and
the block that ended it. -/
theorem executedCommitInfo_eq
    (h : BufferItem.executedCommitInfo block epochEnd info = .ok commitInfo) :
    commitInfo = { block.blockInfo with
        timestampUsecs := epochEnd.getD block.block.timestampUsecs, epochBlockInfo := info } ∧
      ∀ timestamp ∈ epochEnd, timestamp ≠ block.block.timestampUsecs →
        block.blockInfo.hasReconfiguration = true := by
  unfold BufferItem.executedCommitInfo at h
  obtain ⟨corrected, hcorrected, rfl⟩ := except_map_ok_iff.mp h
  -- the info of the block itself never names the end of the epoch
  have hinfo (c : BlockInfo) (hc : c.epochBlockInfo = none) :
      { c with epochBlockInfo := info.or c.epochBlockInfo } =
        { c with epochBlockInfo := info } := by
    rw [hc, Option.or_none]
  cases epochEnd with
  | none =>
    obtain rfl := Except.ok.inj hcorrected
    exact ⟨hinfo block.blockInfo rfl, nofun⟩
  | some timestamp =>
    simp only at hcorrected
    by_cases hsame : block.blockInfo.timestampUsecs = timestamp
    · rw [if_neg (not_not.mpr hsame)] at hcorrected
      obtain rfl := Except.ok.inj hcorrected
      refine ⟨?_, ?_⟩
      · rw [Option.getD_some, ← hsame]
        exact hinfo block.blockInfo rfl
      · intro timestamp' htimestamp' hne
        obtain rfl := Option.some.inj htimestamp'
        exact absurd hsame.symm hne
    · rw [if_pos hsame] at hcorrected
      split at hcorrected
      · rename_i hchange
        obtain rfl := Except.ok.inj hcorrected
        exact ⟨hinfo _ rfl, fun _ _ _ => hchange⟩
      · cases hcorrected

/-- The ledger info that `advance_to_executed_or_aggregated` builds; none for an item with a commit
proof. -/
def ledgerInfoBuilt : BufferItem → BufferItem → Option LedgerInfo
  | .ordered _, .executed executed => some executed.partialCommitProof.ledgerInfo
  | .ordered ordered, .aggregated aggregated =>
    if ordered.commitProof.isNone then some aggregated.commitProof.ledgerInfo else none
  | _, _ => none

variable [PipelineApi] {v : ValidatorVerifier} {item executed : BufferItem}

/-- With order votes, the ledger info depends on the commit info and the last block alone, if both
ways to build it use the same time. -/
theorem ledgerInfoBuilt_eq {li : LedgerInfo}
    (h : item.advanceToExecutedOrAggregated blocks v epochEnd true info = .ok executed)
    (hbuilt : ledgerInfoBuilt item executed = some li) (hlast : blocks.getLast? = some block)
    (htime : ∀ commitInfo, BufferItem.executedCommitInfo block epochEnd info = .ok commitInfo →
      PipelineApi.isConsensusForkActive block.block.timestampUsecs = true ∨
        commitInfo.timestampUsecs = block.block.timestampUsecs) :
    ∃ commitInfo, BufferItem.executedCommitInfo block epochEnd info = .ok commitInfo ∧
      li = .newWithBlockInfo commitInfo HashValue.zero block.stateComputeResult.rootHash
        (block.block.blockNumber.getD 0) := by
  cases item with
  | ordered item =>
    simp only [BufferItem.advanceToExecutedOrAggregated, except_bind_ok_iff, expect_ok_iff] at h
    obtain ⟨-, -, last, hlast', commitInfo, hcommit, h⟩ := h
    rw [hlast] at hlast'
    obtain rfl := Option.some.inj hlast'
    refine ⟨commitInfo, hcommit, ?_⟩
    cases hproof : item.commitProof with
    | some proof =>
      simp only [hproof, except_seq_ok_iff, except_pure_ok_iff] at h
      obtain ⟨-, rfl⟩ := h
      simp [ledgerInfoBuilt, hproof] at hbuilt
    | none =>
      simp only [hproof, except_bind_ok_iff, expect_ok_iff] at h
      obtain ⟨number, hnumber, h⟩ := h
      obtain ⟨-, hversion⟩ := executedCommitInfo_timestamp hcommit
      rw [hnumber, Option.getD_some] at hversion ⊢
      simp only [BufferItem.advanceWithVotes] at h
      split at h
      · obtain ⟨proof, haggregate, rfl⟩ := except_map_ok_iff.mp h
        obtain ⟨_, -, rfl⟩ := except_map_ok_iff.mp haggregate
        simp only [ledgerInfoBuilt, hproof, Option.isNone_none, if_true] at hbuilt
        exact (Option.some.inj hbuilt).symm
      · rw [generateExecutedItem_eq (htime commitInfo hcommit) hversion] at h
        obtain rfl := Except.ok.inj h
        exact (Option.some.inj hbuilt).symm
  | executed | signed | aggregated => cases h

/-! ## One execution response -/

/-- The ledger info that the manager builds while it handles an event, with its block. -/
def BufferManager.built (m : BufferManager) : Event → Option (PipelinedBlock × LedgerInfo)
  | .executionResponse response answer => do
    guard (m.stop = false)
    let key ← m.buffer.findElemByKey m.executionRoot response.blockId
    let executedBlocks ← response.inner.toOption
    let block ← executedBlocks.getLast?
    let item ← m.buffer.get (some key)
    guard (item.blockId = response.blockId)
    let noted := m.noteEndOfEpoch executedBlocks
    let executed ← (item.advanceToExecutedOrAggregated executedBlocks noted.epochState.verifier
      noted.endEpochTimestamp noted.orderVoteEnabled
      (noted.resolveEpochBlockInfo block answer)).toOption
    let li ← ledgerInfoBuilt item executed
    some (block, li)
  | _ => none

/-- The block buffer manager answers for the chain, and a batch that ends with the block that
changes the epoch, or after it, is executed when that block is in it or has been seen, and with the
fork active or at the same time. -/
def Event.Canonical (chain : List PipelinedBlock) (m : BufferManager) : Event → Prop
  | .executionResponse response answer =>
    m.buffer.findElemByKey m.executionRoot response.blockId = some response.blockId →
      ∀ blocks ∈ response.inner.toOption, ∀ block ∈ blocks.getLast?,
        answer = epochChangeAnswer chain block ∧
        ∀ change ∈ (epochSuffix chain).head?, block ∈ epochSuffix chain →
          (m.endEpochTimestamp.isSome = true ∨ change ∈ blocks) ∧
          (PipelineApi.isConsensusForkActive block.block.timestampUsecs = true ∨
            change.block.timestampUsecs = block.block.timestampUsecs)
  | _ => True

instance (m : BufferManager) : (event : Event) → Decidable (event.Canonical chain m)
  | .executionResponse response _ =>
    inferInstanceAs (Decidable (_ → ∀ blocks ∈ response.inner.toOption,
      ∀ block ∈ blocks.getLast?, _ ∧ ∀ change ∈ (epochSuffix chain).head?, _ → _))
  | .ordered _ | .reset _ | .executionScheduleRetry | .signingResponse _ | .persistingResponse _
  | .commitMessage _ => isTrue trivial

/-- The settings that every ledger info of the epoch depends on. -/
structure EndRight (chain : List PipelinedBlock) (m : BufferManager) : Prop where
  orderVote : m.orderVoteEnabled = true
  timestamp : ∀ timestamp ∈ m.endEpochTimestamp, ∃ change ∈ (epochSuffix chain).head?,
    timestamp = change.block.timestampUsecs

variable {m : BufferManager}

omit [PipelineApi] in
/-- The time of the end of the epoch, once a response has been looked at. -/
theorem EndRight.noteEndOfEpoch (h : EndRight chain m) (hnodup : (ids chain).Nodup)
    (hblocks : blocks <:+: chain) (hlast : blocks.getLast? = some block)
    (hseen : ∀ change ∈ (epochSuffix chain).head?, block ∈ epochSuffix chain →
      m.endEpochTimestamp.isSome = true ∨ change ∈ blocks) :
    EndRight chain (m.noteEndOfEpoch blocks) ∧
      (block ∈ epochSuffix chain → (m.noteEndOfEpoch blocks).endEpochTimestamp.isSome = true) := by
  have hend : (m.noteEndOfEpoch blocks).endEpochTimestamp = m.endEpochTimestamp.or
    ((blocks.find? (·.blockInfo.hasReconfiguration)).map (·.block.timestampUsecs)) := rfl
  cases hset : m.endEpochTimestamp with
  | some timestamp =>
    rw [hset, Option.some_or] at hend
    refine ⟨⟨h.orderVote, ?_⟩, ?_⟩
    · rw [hend, ← hset]
      exact h.timestamp
    · rw [hend]
      exact fun _ => rfl
  | none =>
    rw [hset, Option.none_or] at hend
    cases hfind : blocks.find? (·.blockInfo.hasReconfiguration) with
    | none =>
      rw [hfind, Option.map_none] at hend
      refine ⟨⟨h.orderVote, by rw [hend]; exact nofun⟩, ?_⟩
      intro hsuffix
      -- the block that changes the epoch would have been found
      cases heq : epochSuffix chain with
      | nil => simp [heq] at hsuffix
      | cons change suffix =>
        rw [heq] at hseen
        have hmem := (hseen change rfl (heq ▸ hsuffix)).resolve_left (by simp [hset])
        have hnot := List.find?_eq_none.mp hfind change hmem
        exact absurd (head_epochSuffix heq) hnot
    | some first =>
      have hfirst := List.mem_of_find?_eq_some hfind
      have hchange : first.blockInfo.hasReconfiguration = true := by
        simpa using List.find?_some hfind
      have hsuffix := last_mem_epochSuffix hblocks hlast hfirst hchange
      rw [hfind, Option.map_some] at hend
      refine ⟨⟨h.orderVote, ?_⟩, fun _ => by rw [hend]; rfl⟩
      cases heq : epochSuffix chain with
      | nil => simp [heq] at hsuffix
      | cons change suffix =>
        rw [heq] at hseen
        have hmem := (hseen change rfl (heq ▸ hsuffix)).resolve_left (by simp [hset])
        obtain rfl := find_change hnodup hblocks heq hmem hfind
        rw [hend]
        intro timestamp htimestamp
        obtain rfl := Option.some.inj htimestamp
        exact ⟨first, rfl, rfl⟩

section

variable (h : EndRight chain m)
  (hset : block ∈ epochSuffix chain → m.endEpochTimestamp.isSome = true) (hblock : block ∈ chain)

include h hset hblock

omit [PipelineApi] in
/-- The block that ended the epoch, as the manager resolves it. -/
theorem resolveEpochBlockInfo_eq : m.resolveEpochBlockInfo block (epochChangeAnswer chain block) =
      (canonicalCommitInfo chain block).epochBlockInfo := by
  unfold BufferManager.resolveEpochBlockInfo epochChangeAnswer canonicalCommitInfo
  have hchanges : block.stateComputeResult.hasReconfiguration =
    block.blockInfo.hasReconfiguration := rfl
  cases heq : epochSuffix chain with
  | nil =>
    have hnot : block.blockInfo.hasReconfiguration = false := by
      by_contra hyes
      have hmem := mem_epochSuffix hblock (by simpa using hyes)
      simp [heq] at hmem
    simp only [hchanges, hnot]
    rfl
  | cons change suffix =>
    by_cases hsuffix : block ∈ suffix
    · simp only [if_pos hsuffix, if_pos (List.mem_cons_of_mem change hsuffix)]
    · by_cases hchange : block = change
      · subst hchange
        have hyes := head_epochSuffix heq
        obtain ⟨timestamp, htimestamp⟩ := Option.isSome_iff_exists.mp
          (hset (heq ▸ List.mem_cons_self))
        obtain ⟨change', hchange', rfl⟩ := h.timestamp timestamp htimestamp
        rw [heq] at hchange'
        obtain rfl := Option.some.inj hchange'
        simp only [if_neg hsuffix, if_pos List.mem_cons_self, hchanges, hyes, if_true,
          htimestamp, Option.getD_some]
        rfl
      · have hnot : block ∉ change :: suffix := by simp [hsuffix, hchange]
        have hno : block.blockInfo.hasReconfiguration = false := by
          by_contra hyes
          exact hnot (heq ▸ mem_epochSuffix hblock (by simpa using hyes))
        simp only [if_neg hsuffix, if_neg hnot, hchanges, hno]
        rfl

omit [PipelineApi] in
/-- The commit info of a batch whose last block is a block of the chain. -/
theorem executedCommitInfo_canonical
    (hcommit : BufferItem.executedCommitInfo block m.endEpochTimestamp
      (m.resolveEpochBlockInfo block (epochChangeAnswer chain block)) = .ok commitInfo) :
    commitInfo = canonicalCommitInfo chain block := by
  obtain ⟨rfl, hchanged⟩ := executedCommitInfo_eq hcommit
  rw [resolveEpochBlockInfo_eq h hset hblock]
  have htime : m.endEpochTimestamp.getD block.block.timestampUsecs =
      (canonicalCommitInfo chain block).timestampUsecs := by
    unfold canonicalCommitInfo
    by_cases hsuffix : block ∈ epochSuffix chain
    · obtain ⟨timestamp, htimestamp⟩ := Option.isSome_iff_exists.mp (hset hsuffix)
      obtain ⟨change, hchange, rfl⟩ := h.timestamp timestamp htimestamp
      cases heq : epochSuffix chain with
      | nil => simp [heq] at hsuffix
      | cons change' suffix =>
        rw [heq] at hchange hsuffix
        obtain rfl := Option.some.inj hchange
        simp only [if_pos hsuffix, htimestamp, Option.getD_some]
    · -- a time that is not its own is only given to a block of the suffix
      have hown : m.endEpochTimestamp.getD block.block.timestampUsecs =
          block.block.timestampUsecs := by
        cases htimestamp : m.endEpochTimestamp with
        | none => rfl
        | some timestamp =>
          by_contra hne
          exact hsuffix (mem_epochSuffix hblock (hchanged timestamp htimestamp hne))
      rw [hown]
      cases heq : epochSuffix chain with
      | nil => rfl
      | cons change suffix =>
        rw [heq] at hsuffix
        simp only [if_neg hsuffix]
        rfl
  rw [htime]
  unfold canonicalCommitInfo
  cases epochSuffix chain with
  | nil => rfl
  | cons change suffix =>
    simp only
    split
    · rfl
    · rfl

end

/-- The blocks of a successful response are a part of the chain. -/
def Event.FromChain (chain : List PipelinedBlock) : Event → Prop
  | .executionResponse response _ => ∀ blocks ∈ response.inner.toOption, blocks <:+: chain
  | _ => True

/-- The ledger info that a step builds is the one of the chain. -/
theorem built_canonical {li : LedgerInfo} (h : EndRight chain m)
    (hnodup : (ids chain).Nodup) (hfrom : event.FromChain chain)
    (hcanonical : event.Canonical chain m) (hbuilt : m.built event = some (block, li)) :
    block ∈ chain ∧ li = canonicalLedgerInfo chain block := by
  cases event with
  | executionResponse response answer =>
    simp only [BufferManager.built, Option.bind_eq_bind, Option.bind_eq_some_iff] at hbuilt
    obtain ⟨-, -, key, hkey, blocks, hblocks, last, hlast, item, hitem, -, -, executed, hexecuted,
      li', hli, heq⟩ := hbuilt
    obtain ⟨rfl, rfl⟩ := Prod.mk.inj (Option.some.inj heq)
    obtain rfl := Buffer.findElemByKey_eq hkey
    have hpart := hfrom blocks hblocks
    have hmem : last ∈ chain := hpart.subset (List.mem_of_getLast? hlast)
    obtain ⟨rfl, hsuffix⟩ := hcanonical hkey blocks hblocks last hlast
    obtain ⟨hend, hset⟩ := h.noteEndOfEpoch hnodup hpart hlast
      fun change hchange hlastSuffix => (hsuffix change hchange hlastSuffix).1
    have hadvance : item.advanceToExecutedOrAggregated blocks
        (m.noteEndOfEpoch blocks).epochState.verifier (m.noteEndOfEpoch blocks).endEpochTimestamp
        true ((m.noteEndOfEpoch blocks).resolveEpochBlockInfo last
          (epochChangeAnswer chain last)) = .ok executed := by
      rw [← hend.orderVote]
      cases hresult : item.advanceToExecutedOrAggregated blocks
        (m.noteEndOfEpoch blocks).epochState.verifier (m.noteEndOfEpoch blocks).endEpochTimestamp
        (m.noteEndOfEpoch blocks).orderVoteEnabled
        ((m.noteEndOfEpoch blocks).resolveEpochBlockInfo last (epochChangeAnswer chain last)) with
      | ok result =>
        rw [hresult] at hexecuted
        rw [Option.some.inj hexecuted]
      | error e =>
        rw [hresult] at hexecuted
        cases hexecuted
    obtain ⟨commitInfo, hcommit, rfl⟩ := ledgerInfoBuilt_eq hadvance hli hlast (by
      intro commitInfo hcommit
      rw [executedCommitInfo_canonical hend hset hmem hcommit]
      unfold canonicalCommitInfo
      cases hchain : epochSuffix chain with
      | nil => exact .inr rfl
      | cons change suffix =>
        simp only
        split
        · rename_i hin
          rw [hchain] at hsuffix
          exact (hsuffix change rfl hin).2
        · exact .inr rfl)
    rw [executedCommitInfo_canonical hend hset hmem hcommit]
    exact ⟨hmem, rfl⟩
  | ordered | reset | executionScheduleRetry | signingResponse | persistingResponse
  | commitMessage => cases hbuilt

/-! ## Events -/

omit [PipelineApi] in
theorem endRight_untouched : Untouched (EndRight chain) where
  work h := ⟨h.orderVote, h.timestamp⟩
  drain h := BufferManager.drainCachedCommitVotes_of fun _ => ⟨h.orderVote, h.timestamp⟩

section Handlers

variable [LedgerApi]

/-- Only an execution response that is taken up changes the settings: it notes the end of the epoch.
-/
theorem EndRight.handle (h : EndRight chain m) (hnodup : (ids chain).Nodup)
    (hfrom : event.FromChain chain) (hcanonical : event.Canonical chain m) :
    Ensures (m.handle event) (EndRight chain) (fun panic => EndRight chain panic.manager) := by
  refine endRight_untouched.handle h ?_ ?_ ?_ ?_
  · exact fun vote _ => BufferManager.cacheCommitVote_of fun _ => ⟨h.orderVote, h.timestamp⟩
  · rintro response answer blocks item rfl hfinds
    obtain ⟨last, hlast⟩ := hfinds.last
    have hblocks : blocks ∈ response.inner.toOption := by
      rw [hfinds.inner]
      rfl
    have hsuffix := (hcanonical hfinds.key blocks hblocks last hlast).2
    exact (h.noteEndOfEpoch hnodup (hfrom blocks hblocks) hlast
      fun change hchange hin => (hsuffix change hchange hin).1).1
  · intro signal _
    cases signal with
    | stop | targetRound => exact ⟨h.orderVote, h.timestamp⟩
  · intro result _
    cases result with
    | ok | error => exact ⟨h.orderVote, h.timestamp⟩

/-! ## Runs -/

/-- The ledger infos that are built in a run, with the blocks that they commit. -/
def builtInRun : Outcome BufferManager → List Event → List (PipelinedBlock × LedgerInfo)
  | _, [] => []
  | .ok m, event :: rest =>
    (m.built event).toList ++ builtInRun (BufferManager.step (.ok m) event).2 rest
  | .error _, _ => []

/-- A step that finds the manager running is canonical. -/
def CanonicalStep (chain : List PipelinedBlock) : Outcome BufferManager → Event → Prop
  | .ok m, event => event.Canonical chain m
  | .error _, _ => True

instance : (m : Outcome BufferManager) → (event : Event) → Decidable (CanonicalStep chain m event)
  | .ok m, event => inferInstanceAs (Decidable (event.Canonical chain m))
  | .error _, _ => isTrue trivial

/-- Every ledger info that a node builds is the one of the chain. -/
theorem builtInRun_canonical {events : List Event} (h : EndRight chain m)
    (hnodup : (ids chain).Nodup) (hfrom : ∀ event ∈ events, event.FromChain chain)
    (hcanonical : AlongRun BufferManager.step (CanonicalStep chain) (.ok m) events) :
    ∀ built ∈ builtInRun (.ok m) events,
      built.1 ∈ chain ∧ built.2 = canonicalLedgerInfo chain built.1 := by
  induction events generalizing m with
  | nil =>
    intro built hbuilt
    cases hbuilt
  | cons event rest ih =>
    obtain ⟨hfirst, hrest⟩ := hcanonical
    have hfromFirst := hfrom event List.mem_cons_self
    intro built hbuilt
    rw [builtInRun, List.mem_append] at hbuilt
    rcases hbuilt with hbuilt | hbuilt
    · exact built_canonical h hnodup hfromFirst hfirst (by simpa using hbuilt)
    · have hstep := h.handle hnodup hfromFirst hfirst
      have hnext : (BufferManager.step (.ok m) event).2 = m.handle event := rfl
      rw [hnext] at hbuilt hrest
      cases hhandle : m.handle event with
      | ok m' =>
        rw [hhandle] at hstep hbuilt hrest
        exact ih hstep (List.forall_mem_cons.mp hfrom).2 hrest built hbuilt
      | error panic =>
        rw [hhandle] at hbuilt
        cases rest with
        | nil | cons => cases hbuilt

/-- Two nodes that execute the same chain, each in batches and in an order of its own, build the
same ledger info for a block, when all their steps are canonical. -/
theorem ledgerInfos_agree (chain : List PipelinedBlock) (hnodup : (ids chain).Nodup)
    (author author' : Author) (epochState : EpochState)
    (highestCommittedRound highestCommittedRound' maxPendingRounds maxPendingRounds' : Nat)
    (events events' : List Event) (hfrom : ∀ event ∈ events, event.FromChain chain)
    (hfrom' : ∀ event ∈ events', event.FromChain chain)
    (hcanonical : AlongRun BufferManager.step (CanonicalStep chain)
      (.ok (.new author epochState true highestCommittedRound maxPendingRounds)) events)
    (hcanonical' : AlongRun BufferManager.step (CanonicalStep chain)
      (.ok (.new author' epochState true highestCommittedRound' maxPendingRounds')) events')
    (block block' : PipelinedBlock) (li li' : LedgerInfo) (hbuilt : (block, li) ∈ builtInRun
      (.ok (.new author epochState true highestCommittedRound maxPendingRounds)) events)
    (hbuilt' : (block', li') ∈ builtInRun
      (.ok (.new author' epochState true highestCommittedRound' maxPendingRounds')) events')
    (hid : block.id = block'.id) : li = li' := by
  have hstart (author : Author) (round pending : Nat) :
      EndRight chain (.new author epochState true round pending) := ⟨rfl, nofun⟩
  obtain ⟨hmem, hli⟩ := builtInRun_canonical (hstart ..) hnodup hfrom hcanonical _ hbuilt
  obtain ⟨hmem', hli'⟩ := builtInRun_canonical (hstart ..) hnodup hfrom' hcanonical' _ hbuilt'
  have hblock : block = block' := List.inj_on_of_nodup_map hnodup hmem hmem' hid
  calc li = canonicalLedgerInfo chain block := hli
    _ = canonicalLedgerInfo chain block' := by rw [hblock]
    _ = li' := hli'.symm

end Handlers

end Canonical

/-! ## Two nodes at the end of an epoch -/

namespace EpochEnd

attribute [local instance] crypto FourValidators.ledgerApi FourValidators.pipelineApi

/-- The block that changes the epoch and a suffix block. -/
def chain : List PipelinedBlock := [executedAt 1, executedAt 2]

/-- The blocks of some rounds as an ordered batch. -/
def ordered (rounds : List Nat) : Event :=
  .ordered
    { orderedBlocks := rounds.map fun round => .newOrdered (blockAt round)
      orderedProof :=
        { ledgerInfo := .new (PipelinedBlock.newOrdered (blockAt (rounds.getLastD 0))).blockInfo 0
          signatures := { signers := [0, 1, 2], sig := some 1 } } }

/-- The response for a batch that has been executed. -/
def executed (rounds : List Nat) (answer : Option EpochBlockInfo) : Event :=
  .executionResponse
    { blockId := rounds.getLastD 0, inner := .ok (rounds.map executedAt) } answer

/-- The two blocks in one batch. -/
def together : List Event := [ordered [1, 2], executed [1, 2] (some epochBlockInfo)]

/-- The two blocks in batches of their own. -/
def inTurn : List Event :=
  [ordered [1], ordered [2], executed [1] none, executed [2] (some epochBlockInfo)]

/-- The first execution of the block that changes the epoch fails, and it is executed again after
the suffix block. -/
def outOfTurn : List Event :=
  [ordered [1], ordered [2], .executionResponse { blockId := 1, inner := .error "not found" } none,
    executed [2] (some epochBlockInfo), executed [1] none]

def start : Outcome BufferManager := .ok (.new 0 FourValidators.epochState true 0 100)

theorem fromChain_of_mem (h : event ∈ together ++ inTurn ++ outOfTurn) : event.FromChain chain := by
  simp only [together, inTurn, outOfTurn, List.cons_append, List.nil_append, List.mem_cons,
    List.not_mem_nil, or_false] at h
  rcases h with rfl | rfl | rfl | rfl | rfl | rfl | rfl | rfl | rfl | rfl | rfl
  all_goals first
    | exact trivial
    | (intro blocks hblocks
       obtain rfl := Option.some.inj hblocks
       decide)
    | (intro blocks hblocks
       cases hblocks)

end EpochEnd

open EpochEnd

attribute [local instance] EpochEnd.crypto FourValidators.ledgerApi FourValidators.pipelineApi

/-- A node that gets both blocks in one batch and a node that gets them in two sign the same ledger
info for the suffix block. -/
theorem ledgerInfos_agree_batches : ∃ li li', (executedAt 2, li) ∈ builtInRun start together ∧
      (executedAt 2, li') ∈ builtInRun start inTurn ∧ li = li' := by
  have hbuilt : (executedAt 2, ledgerInfo 2) ∈ builtInRun start together := by decide
  have hbuilt' : (executedAt 2, ledgerInfo 2) ∈ builtInRun start inTurn := by decide
  refine ⟨ledgerInfo 2, ledgerInfo 2, hbuilt, hbuilt', ?_⟩
  exact ledgerInfos_agree chain (by decide) 0 0 FourValidators.epochState 0 0 100 100 together
    inTurn (fun event h => fromChain_of_mem (by simp [h]))
    (fun event h => fromChain_of_mem (by simp [h])) (by decide)
      (by decide) _ _ _ _ hbuilt hbuilt' rfl

/-- One node executes the block that changes the epoch first; on the other its execution fails, and
the suffix block, whose time is then taken for the end of the epoch, comes before it. -/
theorem ledgerInfos_differ_outOfTurn :
    (ids EpochEnd.chain).Nodup ∧ (∀ event ∈ inTurn ++ outOfTurn, event.FromChain EpochEnd.chain) ∧
      ∃ li li', (executedAt 2, li) ∈ builtInRun start inTurn ∧
        (executedAt 2, li') ∈ builtInRun start outOfTurn ∧
        li.commitInfo.timestampUsecs ≠ li'.commitInfo.timestampUsecs := by
  let li' : LedgerInfo :=
    { ledgerInfo 2 with commitInfo := { (ledgerInfo 2).commitInfo with timestampUsecs := 6 } }
  refine ⟨by decide, fun event h => fromChain_of_mem ?_, ledgerInfo 2, li', by decide, by decide,
    by decide⟩
  rcases List.mem_append.mp h with h | h
  · simp [h]
  · simp [h]

end Liquent.Pipeline
