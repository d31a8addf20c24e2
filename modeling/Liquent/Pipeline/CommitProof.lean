import Liquent.Pipeline.HandlerRule
import Liquent.Misc.Run

/-!
# Commit proofs

A commit proof that leaves the pipeline is to be signed by a quorum, over exactly the ledger info
that it carries.  A share is collected for a batch by comparing commit infos, and only the shares
that were collected before the execution are verified against the ledger info.  So the proofs are
right as long as the votes for an executed batch are votes for its ledger info and the execution
does not change the ledger info after the check.
-/

namespace Liquent.Pipeline

open Misc BufferManager

variable {sig : Signature}

section Proofs

variable [Crypto]

/-- A multi-signature aggregated from shares of a quorum verifies if and only if each share is a
signature of the message. -/
structure BlsAggregation [PipelineApi] (v : ValidatorVerifier) : Prop where
  verifies : ∀ {sigs aggregated m},
    PipelineApi.aggregateSignatures v sigs = .ok aggregated →
    PipelineApi.checkVotingPower v sigs.keys = .ok () →
    (Crypto.verifyMultiSignatures v m aggregated = .ok () ↔
      ∀ e ∈ sigs, Crypto.verify v e.1 m e.2 = .ok ())

/-- Each share is a signature of the ledger info. -/
def SharesVerify (v : ValidatorVerifier) (p : LedgerInfoWithVerifiedSignatures) : Prop :=
  ∀ e ∈ p.partialSigs.signatures, Crypto.verify v e.1 (.ledgerInfo p.ledgerInfo) e.2 = .ok ()

/-- What the manager relies on for an item. -/
def ItemSound (v : ValidatorVerifier) : BufferItem → Prop
  | .ordered item => ∀ proof, item.commitProof = some proof → proof.verifySignatures v = .ok ()
  | .executed item => SharesVerify v item.partialCommitProof ∧
      item.commitInfo = item.partialCommitProof.commitInfo
  | .signed item => SharesVerify v item.partialCommitProof
  | .aggregated item => item.commitProof.verifySignatures v = .ok ()

/-- The ledger info for which an executed item collects shares. -/
def collectsFor : BufferItem → Option LedgerInfo
  | .executed item => some item.partialCommitProof.ledgerInfo
  | .signed item => some item.partialCommitProof.ledgerInfo
  | _ => none

/-- A vote that an executed item would count is a vote for the item's own ledger info. -/
def VoteFor (item : BufferItem) (vote : CommitVote) : Prop :=
  ∀ li ∈ collectsFor item, vote.commitInfo = li.commitInfo → vote.ledgerInfo = li

instance (item : BufferItem) (vote : CommitVote) : Decidable (VoteFor item vote) :=
  inferInstanceAs (Decidable (∀ li ∈ collectsFor item, _))

variable {v : ValidatorVerifier} {item item' : BufferItem}

/-! ## Items -/

variable {vote : CommitVote}

theorem verify_of_commitVote (h : vote.verify v = .ok ()) :
    Crypto.verify v vote.author (.ledgerInfo vote.ledgerInfo) vote.signature = .ok () := by
  simpa [CommitVote.verify] using h

variable {p : LedgerInfoWithVerifiedSignatures} {author : Author}

theorem SharesVerify.addSignature (h : SharesVerify v p)
    (hsig : Crypto.verify v author (.ledgerInfo p.ledgerInfo) sig = .ok ()) :
    SharesVerify v (p.addSignature author sig) :=
  Table.forall_mem_put h hsig

theorem sharesVerify_verifySignatures (unverified : PartialSignatures) (li : LedgerInfo) :
    SharesVerify v ⟨li, BufferItem.verifySignatures unverified v li⟩ := by
  intro e he
  have hok := (List.mem_filter.mp he).2
  cases hverify : Crypto.verify v e.1 (.ledgerInfo li) e.2 with
  | ok u => rfl
  | error err =>
    simp only [hverify] at hok
    cases hok

variable {proof : LedgerInfoWithSignatures}

section Ledger

variable [LedgerApi]

theorem ItemSound.addSignatureIfMatched (h : ItemSound v item)
    (hvote : vote.verify v = .ok ()) (hfor : VoteFor item vote)
    (hadd : item.addSignatureIfMatched vote = .ok item') :
    ItemSound v item' ∧ collectsFor item' = collectsFor item := by
  have hsig := verify_of_commitVote hvote
  cases item with
  | ordered item | aggregated item =>
    simp only [BufferItem.addSignatureIfMatched] at hadd
    split at hadd
    · obtain rfl := Except.ok.inj hadd
      exact ⟨h, rfl⟩
    · cases hadd
  | executed item =>
    obtain ⟨hshares, hinfo⟩ := h
    simp only [BufferItem.addSignatureIfMatched] at hadd
    by_cases hmatch : item.commitInfo = vote.commitInfo
    · simp only [hmatch, if_true] at hadd
      obtain rfl := Except.ok.inj hadd
      have hli := hfor item.partialCommitProof.ledgerInfo rfl (hmatch.symm.trans hinfo)
      rw [hli] at hsig
      exact ⟨⟨hshares.addSignature hsig, hmatch ▸ hinfo⟩, rfl⟩
    · simp only [hmatch, if_false] at hadd
      cases hadd
  | signed item =>
    simp only [BufferItem.addSignatureIfMatched] at hadd
    by_cases hmatch : item.partialCommitProof.commitInfo = vote.commitInfo
    · rw [if_pos hmatch] at hadd
      obtain rfl := Except.ok.inj hadd
      have hli := hfor item.partialCommitProof.ledgerInfo rfl hmatch.symm
      rw [hli] at hsig
      exact ⟨SharesVerify.addSignature h hsig, rfl⟩
    · simp [if_neg hmatch] at hadd

omit [Crypto] in
theorem addSignatures_cons (item : BufferItem) (vote : CommitVote) (rest : List CommitVote) :
    addSignatures item (vote :: rest) =
      addSignatures ((item.addSignatureIfMatched vote).toOption.getD item) rest := rfl

theorem ItemSound.addSignatures {votes : List CommitVote} (h : ItemSound v item)
    (hvotes : ∀ vote ∈ votes, vote.verify v = .ok ()) (hfor : ∀ vote ∈ votes, VoteFor item vote) :
    ItemSound v (addSignatures item votes) ∧
      collectsFor (addSignatures item votes) = collectsFor item := by
  induction votes generalizing item with
  | nil => exact ⟨h, rfl⟩
  | cons vote rest ih =>
    obtain ⟨hvote, hrest⟩ := List.forall_mem_cons.mp hvotes
    obtain ⟨hfirst, hothers⟩ := List.forall_mem_cons.mp hfor
    rw [addSignatures_cons]
    cases hadd : item.addSignatureIfMatched vote with
    | error e => exact ih h hrest hothers
    | ok item' =>
      obtain ⟨hitem', hcollects⟩ := h.addSignatureIfMatched hvote hfirst hadd
      have hfor' : ∀ vote ∈ rest, VoteFor item' vote := by
        unfold VoteFor
        rw [hcollects]
        exact hothers
      obtain ⟨hsound, hsame⟩ := ih hitem' hrest hfor'
      exact ⟨hsound, hsame.trans hcollects⟩

theorem ItemSound.tryAdvanceWithLedgerInfo
    (h : ItemSound v item) (hproof : proof.verifySignatures v = .ok ())
    (hadvance : item.tryAdvanceToAggregatedWithLedgerInfo proof = .ok item') :
    ItemSound v item' := by
  cases item with
  | ordered item =>
    simp only [BufferItem.tryAdvanceToAggregatedWithLedgerInfo, except_seq_ok_iff,
      except_pure_ok_iff] at hadvance
    obtain ⟨-, rfl⟩ := hadvance
    intro other hother
    obtain rfl := Option.some.inj hother
    exact hproof
  | executed item | signed item =>
    simp only [BufferItem.tryAdvanceToAggregatedWithLedgerInfo, except_seq_ok_iff,
      except_pure_ok_iff] at hadvance
    obtain ⟨-, rfl⟩ := hadvance
    exact hproof
  | aggregated item => cases hadvance

end Ledger

theorem ItemSound.advanceToSigned (h : ItemSound v item)
    (hadvance : item.advanceToSigned author sig = .ok item') : ItemSound v item' := by
  cases item with
  | executed item =>
    obtain rfl := Except.ok.inj hadvance
    exact h.1
  | ordered | signed | aggregated => cases hadvance

variable {info : Option EpochBlockInfo} {blocks : List PipelinedBlock}

section Api

variable [PipelineApi] (hbls : BlsAggregation v)

include hbls

/-- A proof aggregated from verified shares of a quorum verifies. -/
theorem verifySignatures_of_aggregate (hshares : SharesVerify v p)
    (hpower : PipelineApi.checkVotingPower v p.partialSigs.authors = .ok ())
    (hproof : BufferItem.aggregateCommitProof p.ledgerInfo p.partialSigs v = .ok proof) :
    proof.verifySignatures v = .ok () := by
  unfold BufferItem.aggregateCommitProof at hproof
  cases haggregate : PipelineApi.aggregateSignatures v p.partialSigs.signatures with
  | error e =>
    rw [haggregate] at hproof
    cases hproof
  | ok aggregated =>
    rw [haggregate] at hproof
    obtain rfl := Except.ok.inj hproof
    exact (hbls.verifies haggregate hpower).mpr hshares

theorem ItemSound.tryAdvanceToAggregated (h : ItemSound v item)
    (hadvance : item.tryAdvanceToAggregated v = .ok item') : ItemSound v item' := by
  have hcollected {p : LedgerInfoWithVerifiedSignatures} {blocks : List PipelinedBlock}
      (hshares : SharesVerify v p)
      (hadvance : BufferItem.aggregateIfEnough item blocks p v = .ok item') :
      ItemSound v item' := by
    unfold BufferItem.aggregateIfEnough at hadvance
    cases hpower : PipelineApi.checkVotingPower v p.partialSigs.authors with
    | error e =>
      rw [hpower] at hadvance
      obtain rfl := Except.ok.inj hadvance
      exact h
    | ok u =>
      simp only [hpower] at hadvance
      obtain ⟨proof, hproof, rfl⟩ := except_map_ok_iff.mp hadvance
      exact verifySignatures_of_aggregate hbls hshares hpower hproof
  cases item with
  | ordered item | aggregated item =>
    obtain rfl := Except.ok.inj hadvance
    exact h
  | executed item => exact hcollected h.1 hadvance
  | signed item => exact hcollected h hadvance

/-- The execution of a batch gives its commit info the time of its last block, or the fork that
keeps the corrected time is active. -/
def TimestampKept (block : PipelinedBlock) (epochEndTimestamp : Option Nat) : Prop :=
  PipelineApi.isConsensusForkActive block.block.timestampUsecs = true ∨
    ∀ timestamp ∈ epochEndTimestamp, timestamp = block.block.timestampUsecs

omit hbls in
instance (block : PipelinedBlock) (epochEndTimestamp : Option Nat) :
    Decidable (TimestampKept block epochEndTimestamp) :=
  inferInstanceAs (Decidable (_ ∨ ∀ timestamp ∈ epochEndTimestamp, _))

variable {block : PipelinedBlock} {commitInfo : BlockInfo} {epochEnd : Option Nat}

omit hbls [PipelineApi] in
/-- The time in the commit info of an executed batch. -/
theorem executedCommitInfo_timestamp
    (h : BufferItem.executedCommitInfo block epochEnd info = .ok commitInfo) :
    commitInfo.timestampUsecs = epochEnd.getD block.block.timestampUsecs ∧
      commitInfo.version = block.block.blockNumber.getD 0 := by
  unfold BufferItem.executedCommitInfo at h
  obtain ⟨corrected, hcorrected, rfl⟩ := except_map_ok_iff.mp h
  cases epochEnd with
  | none =>
    obtain rfl := Except.ok.inj hcorrected
    exact ⟨rfl, rfl⟩
  | some timestamp =>
    simp only at hcorrected
    split at hcorrected
    · split at hcorrected
      · obtain rfl := Except.ok.inj hcorrected
        exact ⟨rfl, rfl⟩
      · cases hcorrected
    · rename_i hsame
      obtain rfl := Except.ok.inj hcorrected
      exact ⟨not_not.mp hsame, rfl⟩

omit hbls [Crypto] [PipelineApi] in
/-- With the time kept, the executed item collects shares for the ledger info they were checked
against. -/
theorem generateExecutedItem_eq {number : Nat} {verified : PartialSignatures}
    {orderedProof : LedgerInfoWithSignatures} {orderVoteEnabled useCorrected : Bool}
    (htime : useCorrected = true ∨ commitInfo.timestampUsecs = block.block.timestampUsecs)
    (hversion : commitInfo.version = number) :
    BufferItem.generateExecutedItemFromOrdered commitInfo blocks block number verified orderedProof
        orderVoteEnabled useCorrected =
      .executed
        { executedBlocks := blocks
          partialCommitProof :=
            ⟨generateCommitLedgerInfo commitInfo orderedProof orderVoteEnabled
              block.stateComputeResult.rootHash number, verified⟩
          commitInfo := commitInfo
          orderedProof := orderedProof } := by
  have hsame : executedCommitTimestampUsecs commitInfo.timestampUsecs block.block.timestampUsecs
      useCorrected = commitInfo.timestampUsecs := by
    unfold executedCommitTimestampUsecs
    rcases htime with rfl | htime
    · rfl
    · rw [htime]
      exact ite_self _
  unfold BufferItem.generateExecutedItemFromOrdered
  rw [hsame, ← hversion]

theorem ItemSound.advanceToExecutedOrAggregated {orderVoteEnabled : Bool} (h : ItemSound v item)
    (hkept : ∀ block, blocks.getLast? = some block → TimestampKept block epochEnd)
    (hadvance : item.advanceToExecutedOrAggregated blocks v epochEnd orderVoteEnabled info =
      .ok item') : ItemSound v item' := by
  cases item with
  | ordered item =>
    simp only [BufferItem.advanceToExecutedOrAggregated, except_bind_ok_iff,
      expect_ok_iff] at hadvance
    obtain ⟨-, -, block, hblock, commitInfo, hcommit, hadvance⟩ := hadvance
    cases hproof : item.commitProof with
    | some proof =>
      simp only [hproof, except_seq_ok_iff, except_pure_ok_iff] at hadvance
      obtain ⟨-, rfl⟩ := hadvance
      exact h proof hproof
    | none =>
      simp only [hproof, except_bind_ok_iff, expect_ok_iff] at hadvance
      obtain ⟨number, hnumber, hadvance⟩ := hadvance
      obtain ⟨htimestamp, hversion⟩ := executedCommitInfo_timestamp hcommit
      rw [hnumber, Option.getD_some] at hversion
      have hshares := sharesVerify_verifySignatures (v := v) item.unverifiedSignatures
        (generateCommitLedgerInfo commitInfo item.orderedProof orderVoteEnabled
          block.stateComputeResult.rootHash number)
      simp only [BufferItem.advanceWithVotes] at hadvance
      split at hadvance
      · rename_i hpower
        obtain ⟨proof, hproof, rfl⟩ := except_map_ok_iff.mp hadvance
        exact verifySignatures_of_aggregate hbls hshares hpower hproof
      · have htime : PipelineApi.isConsensusForkActive block.block.timestampUsecs = true ∨
            commitInfo.timestampUsecs = block.block.timestampUsecs := by
          rcases hkept block hblock with hfork | htime
          · exact .inl hfork
          · right
            rw [htimestamp]
            cases epochEnd with
            | none => rfl
            | some timestamp => exact htime timestamp rfl
        rw [generateExecutedItem_eq htime hversion] at hadvance
        obtain rfl := Except.ok.inj hadvance
        exact ⟨hshares, rfl⟩
  | executed | signed | aggregated => cases hadvance

end Api

/-! ## The manager -/

/-- Every commit proof that was sent verifies. -/
def ProofsVerify (v : ValidatorVerifier) (m : BufferManager) : Prop :=
  ∀ request ∈ m.persisted, request.commitLedgerInfo.verifySignatures v = .ok ()

structure ManagerSound (v : ValidatorVerifier) (m : BufferManager) : Prop where
  verifier : m.epochState.verifier = v
  items : m.buffer.Holds (ItemSound v)
  cached : ∀ e ∈ m.commitVoteCache, ∀ f ∈ e.2, ∀ g ∈ f.2, g.2.verify v = .ok ()
  pending : ∀ e ∈ m.pendingCommitProofs, e.2.verifySignatures v = .ok ()
  persisted : ProofsVerify v m

/-- Between two events the manager is sound, or has panicked and sent nothing wrong. -/
def OutcomeSound (v : ValidatorVerifier) (m : Outcome BufferManager) : Prop :=
  Ensures m (ManagerSound v) (fun panic => ProofsVerify v panic.manager)

variable {m : BufferManager}

section

variable (h : ManagerSound v m)

include h

theorem ManagerSound.send {request : Request} (hrequest : ∀ r, request.persistingRequest = some r →
      r.commitLedgerInfo.verifySignatures v = .ok ()) : ManagerSound v (m.send request) := by
  refine { h with persisted := ?_ }
  rw [ProofsVerify, persisted_send]
  exact List.forall_mem_append.mpr ⟨h.persisted, by simpa using hrequest⟩

theorem ManagerSound.drainCachedCommitVotes (round : Nat) (blockId : HashValue) :
    (∀ vote ∈ (m.drainCachedCommitVotes round blockId).1, vote.verify v = .ok ()) ∧
      ManagerSound v (m.drainCachedCommitVotes round blockId).2 := by
  unfold BufferManager.drainCachedCommitVotes
  cases hround : m.commitVoteCache.get round with
  | none => exact ⟨by simp, h⟩
  | some roundCache =>
    have hcache := h.cached _ (Table.mem_of_get hround)
    refine ⟨List.forall_mem_map.mpr (Table.forall_mem_getD hcache blockId), { h with cached := ?_ }⟩
    change ∀ e ∈ if roundCache.retain (fun key => decide (key ≠ blockId)) = [] then _ else _, _
    split
    · exact fun e he => h.cached e (List.mem_of_mem_filter he)
    · exact Table.forall_mem_put h.cached fun f hf => hcache f (List.mem_of_mem_filter hf)

theorem ManagerSound.cacheCommitVote
    (hvote : vote.verify v = .ok ()) : ManagerSound v (m.cacheCommitVote vote) := by
  have hretain (p : Nat → Bool) : ∀ e ∈ m.commitVoteCache.retain p, ∀ f ∈ e.2, ∀ g ∈ f.2,
      g.2.verify v = .ok () := fun e he => h.cached e (List.mem_of_mem_filter he)
  unfold BufferManager.cacheCommitVote
  simp only
  split
  · generalize hcache : m.commitVoteCache.retain _ = cache
    have hcached : ∀ e ∈ cache, ∀ f ∈ e.2, ∀ g ∈ f.2, g.2.verify v = .ok () :=
      hcache ▸ hretain _
    have hround := Table.forall_mem_getD hcached vote.commitInfo.round
    split
    · refine { h with cached := Table.forall_mem_put hcached (Table.forall_mem_put hround ?_) }
      exact Table.forall_mem_put (Table.forall_mem_getD hround _) hvote
    · exact { h with cached := Table.forall_mem_put hcached hround }
  · exact { h with cached := fun e he => h.cached e (List.mem_of_mem_filter he) }

theorem ManagerSound.tryAddPendingCommitProof (hproof : proof.verifySignatures v = .ok ()) :
    ManagerSound v (m.tryAddPendingCommitProof proof) := by
  unfold BufferManager.tryAddPendingCommitProof
  simp only
  split
  · split
    · rename_i proofs hroom
      have hproofs : ∀ e ∈ proofs, e ∈ m.pendingCommitProofs := by
        intro e he
        unfold makeRoom at hroom
        split at hroom
        · split at hroom
          · split at hroom
            · cases hroom
            · obtain rfl := Option.some.inj hroom
              exact List.mem_of_mem_filter he
          · exact Option.some.inj hroom ▸ he
        · exact Option.some.inj hroom ▸ he
      have hold : ∀ e ∈ proofs, _ := fun e he => h.pending e (hproofs e he)
      exact { h with pending := Table.forall_mem_put hold hproof }
    · exact h
  · exact h

theorem ManagerSound.replace {buffer : Buffer BufferItem} {key : HashValue}
    (hreplaces : Replaces m.buffer key item item' buffer)
    (hitem : ItemSound v item → ItemSound v item') : ManagerSound v { m with buffer := buffer } :=
  { h with items := hreplaces.holdsAt (P := fun _ => ItemSound v) h.items hitem }

end

theorem managerSound_rule (v : ValidatorVerifier) :
    HandlerRule (ManagerSound v) (ManagerSound v) (fun panic => ProofsVerify v panic.manager) where
  weak h := h
  panic h _ := h.persisted
  executionRoot h _ := { h with }
  signingRoot h _ := { h with }
  send h hrequest := h.send (by rw [hrequest]; exact nofun)
  latestRound h := { h with }
  drain h := (h.drainCachedCommitVotes _ _).2

section Handlers

variable [LedgerApi] [PipelineApi]

omit [LedgerApi] [PipelineApi] in
/-- The proof that is sent is that of the aggregated item at which the loop ends. -/
theorem ManagerSound.advanceHead (h : ManagerSound v m) (target : HashValue) :
    OutcomeSound v (m.advanceHead target) := by
  refine ensures_popUntil (fun h _ => h.persisted) ?_ ?_ h
  · intro m item buffer h hpop
    exact { h with items := (h.items.popFront hpop).2 }
  · intro m item buffer blocks h hpop
    obtain ⟨hfront, hbuffer⟩ := h.items.popFront hpop
    have hpopped : ManagerSound v (m.popped (.aggregated item) buffer) :=
      { h with items := hbuffer }
    apply hpopped.send
    intro r hr
    obtain rfl := Option.some.inj hr
    exact hfront _ rfl

omit [PipelineApi] in
theorem ManagerSound.handleOrdered (h : ManagerSound v m) (blocks : OrderedBlocks) :
    OutcomeSound v (m.handleOrdered blocks) := by
  refine (managerSound_rule v).handleOrdered (managerSound_rule v) h ?_
  intro last sent round blockId m' votes buffer _ hsent hdrain hm' hpush
  have hvotes := (hsent.drainCachedCommitVotes round blockId).1
  rw [hdrain] at hvotes
  have hnew : ItemSound v (.newOrdered blocks.orderedBlocks blocks.orderedProof) := nofun
  -- an ordered item takes any vote, so nothing is asked of the cached ones
  have hitem := (hnew.addSignatures hvotes (fun _ _ => nofun)).1
  exact .inr { hm' with items := hm'.items.pushBack hpush hitem }

omit [LedgerApi] [PipelineApi] in
theorem ManagerSound.handleSigningResponse (h : ManagerSound v m) (response : SigningResponse) :
    OutcomeSound v (m.handleSigningResponse response) := by
  refine (managerSound_rule v).handleSigningResponse h response ?_
  intro key item item' buffer signature hreplaces hsign
  refine h.replace hreplaces fun hitem => ?_
  split at hsign
  · exact hitem.advanceToSigned hsign
  · obtain rfl := Except.ok.inj hsign
    exact hitem

/-- A vote that is counted for an executed batch, the cached ones included, is for the batch's
ledger info; and the time that an execution response puts into the commit info is kept. -/
def Event.Regular (m : BufferManager) : Event → Prop
  | .commitMessage (.vote vote) =>
    ∀ item ∈ m.buffer.get (some vote.commitInfo.id),
      ∀ other ∈ vote :: (m.drainCachedCommitVotes vote.commitInfo.round vote.commitInfo.id).1,
        VoteFor item other
  | .executionResponse response _ =>
    ∀ blocks ∈ response.inner.toOption, ∀ block ∈ blocks.getLast?,
      TimestampKept block (m.noteEndOfEpoch blocks).endEpochTimestamp
  | _ => True

instance (m : BufferManager) : (event : Event) → Decidable (event.Regular m)
  | .commitMessage (.vote vote) =>
    inferInstanceAs (Decidable (∀ item ∈ m.buffer.get (some vote.commitInfo.id), _))
  | .executionResponse response _ =>
    inferInstanceAs (Decidable (∀ blocks ∈ response.inner.toOption, _))
  | .commitMessage (.decision _) | .ordered _ | .reset _ | .executionScheduleRetry
  | .signingResponse _ | .persistingResponse _ => isTrue trivial

theorem ManagerSound.processVote (hbls : BlsAggregation v)
    (h : ManagerSound v m) (hvote : vote.verify v = .ok ())
    (hregular : Event.Regular m (.commitMessage (.vote vote))) :
    Ensures (m.processVote vote)
      (HandlerRule.Completed (ManagerSound v) (ManagerSound v) vote.commitInfo.id)
      (fun panic => ProofsVerify v panic.manager) := by
  refine (managerSound_rule v).processVote h (h.cacheCommitVote hvote) ?_
  intro cache item item' buffer votes m' hdrain hm' hreplaces hcount
  obtain ⟨rest, htake, hset⟩ := hreplaces
  obtain ⟨hitem, hrest⟩ := h.items.take htake
  have hvotes := (h.drainCachedCommitVotes vote.commitInfo.round vote.commitInfo.id).1
  have hfor := hregular item (Buffer.get_of_take htake)
  rw [hdrain] at hvotes hfor
  have hitem' : ItemSound v item' := by
    obtain ⟨hcached, hcollects⟩ := hitem.addSignatures hvotes
      (List.forall_mem_cons.mp hfor).2
    have hforVote : VoteFor (addSignatures item votes) vote := by
      unfold VoteFor
      rw [hcollects]
      exact hfor vote List.mem_cons_self
    simp only [countVotes] at hcount
    split at hcount
    · rename_i added hadded
      rw [hm'.verifier] at hcount
      exact (hcached.addSignatureIfMatched hvote hforVote hadded).1.tryAdvanceToAggregated
        hbls hcount
    · obtain rfl := Except.ok.inj hcount
      exact hcached
  exact .of { hm' with items := hrest.set hset hitem' }

omit [PipelineApi] in
theorem verifySignatures_of_decision
    (h : verifyCommitDecision proof v = .ok ()) : proof.verifySignatures v = .ok () := by
  simp only [verifyCommitDecision, except_seq_ok_iff, except_mapError_ok_iff] at h
  exact h.2

theorem ManagerSound.handleCommitMessage (hbls : BlsAggregation v) {message : CommitMessage}
    (h : ManagerSound v m) (hregular : Event.Regular m (.commitMessage message)) :
    OutcomeSound v (m.handleCommitMessage message) := by
  have hverify (hok : (message.verify m.epochState.verifier).isOk = true) :
      message.verify v = .ok () := by
    rw [h.verifier] at hok
    obtain ⟨u, hu⟩ := except_isOk_iff.mp hok
    exact hu
  refine (managerSound_rule v).handleCommitMessage (ManagerSound v) h ?_ ?_
  · intro hok
    cases message with
    | vote vote => exact h.processVote hbls (hverify hok) hregular
    | decision proof =>
      have hproof := verifySignatures_of_decision (hverify hok)
      refine (managerSound_rule v).processDecision h (h.tryAddPendingCommitProof hproof)
        (fun _ _ => h.persisted) ?_
      intro item item' buffer hreplaces hdecide
      exact .of (h.replace hreplaces fun hitem => hitem.tryAdvanceWithLedgerInfo hproof hdecide)
  · intro m' hm'
    exact (hm'.advanceHead _).imp fun _ hm => .inr hm

theorem ManagerSound.handleExecutionResponse (hbls : BlsAggregation v)
    {response : ExecutionResponse} (h : ManagerSound v m)
    (hregular : Event.Regular m (.executionResponse response info)) :
    OutcomeSound v (m.handleExecutionResponse response info) := by
  have hdrained (blocks : List PipelinedBlock) (bound : Nat) :
      ManagerSound v (HandlerRule.drained m blocks bound) :=
    { h with pending := fun e he => h.pending e (List.mem_of_mem_filter he) }
  refine (managerSound_rule v).handleExecutionResponse (ManagerSound v) h (fun _ => { h with })
    (fun _ _ => h.persisted) (fun _ _ => hdrained ..) ?_ (fun m' hm' => hm'.advanceHead _)
  intro blocks bound item executed item' buffer hexecuted
  refine .of ((hdrained blocks bound).replace hexecuted.replaces fun hitem => ?_)
  obtain ⟨info', hexecutes⟩ := hexecuted.executes
  have hkept : ∀ block, blocks.getLast? = some block →
      TimestampKept block (m.noteEndOfEpoch blocks).endEpochTimestamp := by
    intro block hblock
    refine hregular blocks ?_ block hblock
    rw [hexecuted.finds.inner]
    rfl
  have hv : (m.noteEndOfEpoch blocks).epochState.verifier = v := h.verifier
  unfold HandlerRule.executedItem at hexecutes
  rw [hv] at hexecutes
  have hsound := hitem.advanceToExecutedOrAggregated hbls hkept hexecutes
  have happlies := hexecuted.applies
  unfold applyPendingCommitProof at happlies
  split at happlies
  · rename_i proof hproof
    split at happlies
    · obtain ⟨e, he, rfl⟩ := Option.map_eq_some_iff.mp hproof
      have hpending := h.pending e (List.mem_of_mem_filter (Table.mem_of_last he))
      exact hsound.tryAdvanceWithLedgerInfo hpending happlies
    · obtain rfl := Except.ok.inj happlies
      exact hsound
  · obtain rfl := Except.ok.inj happlies
    exact hsound

omit [LedgerApi] [PipelineApi] in
theorem ManagerSound.processResetRequest (h : ManagerSound v m) (signal : ResetSignal) :
    ManagerSound v (m.processResetRequest signal) := by
  cases signal with
  | stop | targetRound =>
    exact { h with items := Buffer.holds_empty, cached := nofun, pending := nofun }

omit [LedgerApi] [PipelineApi] in
theorem ManagerSound.handlePersistingResponse (h : ManagerSound v m) (result : Except String Nat) :
    ManagerSound v (m.handlePersistingResponse result) := by
  cases result with
  | ok round => exact { h with cached := fun e he => h.cached e (List.mem_of_mem_filter he) }
  | error e => exact h

theorem ManagerSound.handle (hbls : BlsAggregation v) {event : Event} (h : ManagerSound v m)
    (hregular : event.Regular m) :
    OutcomeSound v (m.handle event) := by
  refine (managerSound_rule v).handle (managerSound_rule v) h (fun _ => h) ?_
  intro full _ _
  cases event with
  | ordered blocks =>
    cases full with
    | true => exact h
    | false => exact h.handleOrdered blocks
  | reset signal => exact h.processResetRequest signal
  | executionResponse response info => exact h.handleExecutionResponse hbls hregular
  | executionScheduleRetry => exact (managerSound_rule v).retryFrom h
  | signingResponse response => exact h.handleSigningResponse response
  | persistingResponse result => exact h.handlePersistingResponse result
  | commitMessage message => exact h.handleCommitMessage hbls hregular

/-! ## Runs -/

/-- A step is regular when it finds the manager running and the event is regular. -/
def RegularStep : Outcome BufferManager → Event → Prop
  | .ok m, event => event.Regular m
  | .error _, _ => True

instance : (m : Outcome BufferManager) → (event : Event) → Decidable (RegularStep m event)
  | .ok m, event => inferInstanceAs (Decidable (event.Regular m))
  | .error _, _ => isTrue trivial

variable {m : Outcome BufferManager}

theorem OutcomeSound.step (hbls : BlsAggregation v) {event : Event}
    (hregular : RegularStep m event) (h : OutcomeSound v m) :
    OutcomeSound v (step m event).2 := by
  cases m with
  | ok m => exact ManagerSound.handle hbls h hregular
  | error panic => exact h

omit [LedgerApi] [PipelineApi] in
theorem OutcomeSound.proofsVerify (h : OutcomeSound v m) :
    ProofsVerify v (last m) := by
  cases m with
  | ok m => exact h.persisted
  | error panic => exact h

omit [LedgerApi] [PipelineApi] in
theorem managerSound_new (author : Author) (epochState : EpochState) (orderVoteEnabled : Bool)
    (highestCommittedRound maxPendingRounds : Nat) :
    ManagerSound epochState.verifier (new author epochState orderVoteEnabled
      highestCommittedRound maxPendingRounds) where
  verifier := rfl
  items := Buffer.holds_empty
  cached := nofun
  pending := nofun
  persisted := nofun

/-- In every run whose steps are regular, every commit proof that is sent to the persisting phase is
signed by a quorum over its own ledger info. -/
theorem commitProofs_verify (author : Author) (epochState : EpochState) (orderVoteEnabled : Bool)
    (highestCommittedRound maxPendingRounds : Nat) (events : List Event)
    (hbls : BlsAggregation epochState.verifier) (hquorum : QuorumSignatures epochState.verifier)
    (hregular : AlongRun step RegularStep
      (.ok (.new author epochState orderVoteEnabled highestCommittedRound maxPendingRounds))
        events) :
    ∀ request ∈ (last (run step
        (.ok (.new author epochState orderVoteEnabled highestCommittedRound maxPendingRounds))
        events).2).persisted,
      request.commitLedgerInfo.verifySignatures epochState.verifier = .ok () ∧
        epochState.verifier.IsQuorum
          (epochState.verifier.signersOf request.commitLedgerInfo.signatures).toFinset := by
  have hstart := managerSound_new author epochState orderVoteEnabled highestCommittedRound
    maxPendingRounds
  have hlast : OutcomeSound epochState.verifier _ :=
    hregular.invariant (fun m event => OutcomeSound.step hbls) hstart
  intro request hrequest
  have hverify := hlast.proofsVerify request hrequest
  exact ⟨hverify, hquorum.multi hverify⟩

end Handlers

end Proofs

/-! ## A batch of one block and four validators -/

namespace FourValidators

open Permissive

/-- The signature of a message, which is the same for every signer. -/
def signatureOf : Message → Signature
  | .ledgerInfo li => li.consensusDataHash + 1
  | _ => 0

/-- The value that all shares have in common, if there is one. -/
def common : List (Author × Signature) → Option Signature
  | [] => none
  | (_, sig) :: rest => if ∀ e ∈ rest, e.2 = sig then some sig else none

def validators : ValidatorVerifier where
  validatorInfos := [⟨0, 0, 1⟩, ⟨1, 1, 1⟩, ⟨2, 2, 1⟩, ⟨3, 3, 1⟩]

@[reducible] def crypto : Crypto :=
  { quorumCrypto (fun _ => 0) (·.round) with
    sign := fun _ m => .ok (signatureOf m)
    verify := fun _ _ m sig => accept (sig = signatureOf m)
    verifyMultiSignatures := fun v m s =>
      accept (v.IsQuorum (v.signersOf s).toFinset ∧ s.sig = some (signatureOf m)) }

@[reducible] def ledgerApi : LedgerApi :=
  { ledger with
    isOrderedOnly := fun info => decide (info.executedStateId = 0)
    matchOrderedOnly := fun a b => decide (a.id = b.id) }

/-- The address of a validator is its position. -/
@[reducible] def pipelineApi : PipelineApi where
  checkVotingPower v authors := accept (v.IsQuorum authors.toFinset)
  aggregateSignatures _ sigs := .ok { signers := sigs.keys, sig := common sigs }
  isConsensusForkActive _ := true

attribute [local instance] crypto ledgerApi pipelineApi

theorem common_eq_some_iff {sigs : List (Author × Signature)}
    (hne : sigs ≠ []) : common sigs = some sig ↔ ∀ e ∈ sigs, e.2 = sig := by
  cases sigs with
  | nil => exact absurd rfl hne
  | cons e rest =>
    simp only [common, Option.ite_none_right_eq_some, Option.some.injEq, List.mem_cons,
      forall_eq_or_imp]
    constructor
    · rintro ⟨h, rfl⟩
      exact ⟨rfl, h⟩
    · rintro ⟨rfl, h⟩
      exact ⟨h, rfl⟩

theorem signersOf_keys {keys : List Author} (h : keys.toFinset ⊆ validators.members)
    (sig : Option Signature) : validators.signersOf { signers := keys, sig := sig } = keys := by
  have hget : ∀ key ∈ keys, validators.getOrderedAccountAddresses[key]? = some key := by
    intro key hkey
    have hmem : key ∈ ({0, 1, 2, 3} : Finset Author) := h (List.mem_toFinset.mpr hkey)
    simp only [Finset.mem_insert, Finset.mem_singleton] at hmem
    rcases hmem with rfl | rfl | rfl | rfl <;> rfl
  clear h
  induction keys with
  | nil => rfl
  | cons key rest ih =>
    have hrest := ih (List.forall_mem_cons.mp hget).2
    change List.filterMap _ (key :: rest) = _
    rw [List.filterMap_cons, hget key List.mem_cons_self]
    exact congrArg _ hrest

theorem quorumSignatures : QuorumSignatures validators where
  multi h := (accept_ok_iff.mp h).1
  aggregate h := accept_ok_iff.mp h

theorem blsAggregation : BlsAggregation validators where
  verifies := by
    intro sigs aggregated m haggregate hpower
    obtain rfl := Except.ok.inj haggregate
    have hquorum : validators.IsQuorum sigs.keys.toFinset := accept_ok_iff.mp hpower
    have hne : sigs ≠ [] := by
      rintro rfl
      revert hquorum
      decide
    have hsigners := signersOf_keys hquorum.1 (common sigs)
    change accept (validators.IsQuorum (validators.signersOf ⟨sigs.keys, common sigs⟩).toFinset ∧
      common sigs = some (signatureOf m)) = .ok () ↔
        ∀ e ∈ sigs, accept (e.2 = signatureOf m) = .ok ()
    simp only [accept_ok_iff, hsigners, hquorum, true_and]
    exact common_eq_some_iff hne

def epochState : EpochState where
  epoch := 1
  verifier := validators

def qc : QuorumCert where
  voteData := { proposed := .empty, parent := .empty }
  signedLedgerInfo := { ledgerInfo := .new .empty 0, signatures := { signers := [], sig := none } }

def block : Block where
  blockData :=
    { epoch := 1, round := 1, timestampUsecs := 5, quorumCert := qc, blockType := .nilBlock [] }
  signature := none
  blockNumber := some 1

def orderedBlock : PipelinedBlock := .newOrdered block

def executedBlock : PipelinedBlock :=
  { orderedBlock with stateComputeResult := { rootHash := 77, epochState := none } }

def commitLedgerInfo : LedgerInfo := .newWithBlockInfo executedBlock.blockInfo 0 77 1

def orderedProof : LedgerInfoWithSignatures where
  ledgerInfo := .new orderedBlock.blockInfo 0
  signatures := { signers := [0, 1, 2], sig := some 1 }

/-- A vote that its author has signed. -/
def vote (author : Author) (li : LedgerInfo) : CommitVote where
  author := author
  ledgerInfo := li
  signature := signatureOf (.ledgerInfo li)

/-- A batch is ordered and executed, and three validators vote, the last for the given ledger
info. -/
def events (li : LedgerInfo) : List Event :=
  [.ordered { orderedBlocks := [orderedBlock], orderedProof := orderedProof },
    .executionResponse { blockId := 1, inner := .ok [executedBlock] } none,
    .commitMessage (.vote (vote 0 commitLedgerInfo)),
    .commitMessage (.vote (vote 1 commitLedgerInfo)),
    .commitMessage (.vote (vote 2 li))]

def start : Outcome BufferManager := .ok (.new 0 epochState true 0 100)

end FourValidators

open FourValidators

attribute [local instance] crypto ledgerApi pipelineApi

/-- Three votes for one ledger info give a commit proof that verifies. -/
theorem commitProofs_verify_threeVotes :
    ∃ request, (last (run step start (events commitLedgerInfo)).2).persisted
        = [request] ∧
      request.commitLedgerInfo.verifySignatures validators = .ok () ∧
      validators.IsQuorum (validators.signersOf request.commitLedgerInfo.signatures).toFinset := by
  refine ⟨⟨[executedBlock], ⟨commitLedgerInfo, ⟨[2, 1, 0], some 1⟩⟩⟩, by decide, ?_⟩
  exact commitProofs_verify 0 epochState true 0 100 (events commitLedgerInfo) blsAggregation
    quorumSignatures (by decide) _ (by decide)

/-- A vote for a ledger info with the same commit info but another hash of the consensus data
verifies and is counted; the commit proof does not verify. -/
theorem commitProof_mixesLedgerInfos :
    BlsAggregation validators ∧ QuorumSignatures validators ∧
      (vote 2 { commitLedgerInfo with consensusDataHash := 9 }).verify validators = .ok () ∧
      ∃ request, (last (run step start
          (events { commitLedgerInfo with consensusDataHash := 9 })).2).persisted = [request] ∧
        request.commitLedgerInfo.verifySignatures validators ≠ .ok () := by
  refine ⟨blsAggregation, quorumSignatures, by decide, ?_⟩
  exact ⟨⟨[executedBlock], ⟨commitLedgerInfo, ⟨[2, 1, 0], none⟩⟩⟩, by decide, by decide⟩

end Liquent.Pipeline
