import Liquent.Pipeline.PendingDecision

/-!
# Commit votes in any order

Commit votes for a batch are kept in three places: before the batch arrives in the cache of the
manager, until it is executed unverified with the item, and then with the collected shares.  Whether
the batch is aggregated in the end does not depend on when the votes arrive.  Which of them are in
the commit proof does: the item leaves the buffer as soon as the shares are enough.
-/

namespace Liquent.Pipeline

open Misc BufferManager BufferItem

/-! ## Work that does not fail -/

variable {item' : BufferItem}

section Succeeds

/-- Only the roots have moved, and nothing has been sent to the persisting phase. -/
structure Rests (m m' : BufferManager) : Prop where
  same : m' = { m with
    executionRoot := m'.executionRoot, signingRoot := m'.signingRoot, sent := m'.sent }
  persisted : m'.persisted = m.persisted

theorem Rests.refl (m : BufferManager) : Rests m m := ⟨rfl, rfl⟩

theorem Rests.trans {m m' m'' : BufferManager} (h : Rests m m') (h' : Rests m' m'') :
    Rests m m'' := by
  refine ⟨?_, h'.persisted.trans h.persisted⟩
  rw [h'.same, h.same]

variable [Crypto] {seen : List HashValue} {m : BufferManager} {l pre post : List BufferItem}

/-- The buffer and its roots are in order, and only the roots have moved. -/
def Settled (seen : List HashValue) (l : List BufferItem) (m m' : BufferManager) : Prop :=
  Held seen m' l ∧ Rooted m' l ∧ Rests m m'

/-- The move of a root that finds what it looks for. -/
theorem settled_of_rests {x : Outcome BufferManager} {E : Panic → Prop}
    (hheld : Ensures x (fun m' => ∃ l', Held seen m' l' ∧ Rooted m' l' ∧ l' = l) E)
    (hrests : Succeeds x (Rests m)) : Succeeds x (Settled seen l m) := by
  refine (hheld.and hrests).mono ?_ fun _ hp => hp.2
  rintro m' ⟨⟨_, hheld', hroot', rfl⟩, hrests'⟩
  exact ⟨hheld', hroot', hrests'⟩

theorem Held.advanceExecutionRoot_succeeds (h : Held seen m l) (hroot : RootNotAfter m l) :
    Succeeds m.advanceExecutionRoot (Settled seen l m) := by
  have hsome := h.represents.findElemFrom_isSome (m.executionRoot.or m.buffer.head)
    isOrdered
  obtain ⟨root, hfind⟩ := Option.isSome_iff_exists.mp hsome
  refine settled_of_rests
    (((held_rule seen).handlerRule (· = l)).advanceExecutionRoot ⟨l, h, hroot, rfl⟩) ?_
  unfold advanceExecutionRoot
  rw [hfind]
  exact ⟨rfl, rfl⟩

theorem Held.advanceExecutionRootIfNone_succeeds (h : Held seen m l)
    (hroot : m.executionRoot = none ∨ Rooted m l) :
    Succeeds m.advanceExecutionRootIfNone (Settled seen l m) := by
  unfold advanceExecutionRootIfNone
  cases hcursor : m.executionRoot with
  | none => exact h.advanceExecutionRoot_succeeds (.inl hcursor)
  | some key =>
    rcases hroot with hnone | hroot
    · simp [hcursor] at hnone
    · exact ⟨h, hroot, .refl m⟩

theorem Held.advanceSigningRoot_succeeds (h : Held seen m l) (hroot : Rooted m l) :
    Succeeds m.advanceSigningRoot (Settled seen l m) := by
  have hsome := h.represents.findElemFrom_isSome (m.signingRoot.or m.buffer.head)
    isExecuted
  obtain ⟨root, hfind⟩ := Option.isSome_iff_exists.mp hsome
  refine settled_of_rests
    (((held_rule seen).handlerRule (· = l)).advanceSigningRoot ⟨l, h, hroot, rfl⟩) ?_
  unfold advanceSigningRoot
  rw [hfind]
  change Succeeds (requestSigning { m with signingRoot := root }) (Rests m)
  unfold requestSigning
  cases root with
  | none => exact ⟨rfl, rfl⟩
  | some key =>
    -- the search has found an executed item
    obtain ⟨item, hitem, hid⟩ := List.mem_map.mp (h.represents.findElemFrom_mem hfind)
    obtain ⟨pre, post, rfl⟩ := List.append_of_mem hitem
    obtain ⟨index, hget⟩ := h.represents.linked.get
    rw [hid] at hget
    have hexecuted := Buffer.findElemFrom_compare hfind key _ item hget rfl rfl
    have hbuffer : m.buffer.get (some key) = some item := by
      simp [Buffer.get, hget]
    simp only [hbuffer, expect, orPanic, except_mapError_ok, bind, Except.bind]
    cases item with
    | executed item =>
      refine ⟨rfl, ?_⟩
      rw [persisted_send]
      exact List.append_nil _
    | ordered | signed | aggregated => cases hexecuted

theorem Held.advanceSigningRootIfNone_succeeds (h : Held seen m l) (hroot : Rooted m l) :
    Succeeds m.advanceSigningRootIfNone (Settled seen l m) := by
  unfold advanceSigningRootIfNone
  split
  · exact h.advanceSigningRoot_succeeds hroot
  · exact ⟨h, hroot, .refl m⟩

theorem Held.advanceHead_succeeds {item : AggregatedItem}
    (h : Held seen m (pre ++ .aggregated item :: post)) :
    Succeeds (m.advanceHead (aggregated item).blockId)
      (fun m' => Held seen m' post ∧
        m'.executionRoot = rootAfter m.executionRoot (pre ++ [.aggregated item]) ∧
        m'.persisted = m.persisted ++
          [{ blocks := blocksOf pre ++ item.executedBlocks
             commitLedgerInfo := item.commitProof }]) := by
  have hlength := h.represents.length_le
  rw [List.length_append, List.length_cons] at hlength
  have hpersists : Succeeds (m.advanceHead (aggregated item).blockId) _ :=
    popUntil_persists h.represents (by omega)
  refine (((held_rule seen).advanceHead rfl h).and hpersists).mono ?_ fun _ hp => hp.2
  rintro m' ⟨⟨hheld, hroot⟩, hpersisted⟩
  exact ⟨hheld, hroot, by simpa using hpersisted⟩

theorem Held.get {item : BufferItem}
    (h : Held seen m (pre ++ item :: post)) : m.buffer.get (some item.blockId) = some item := by
  obtain ⟨index, hget⟩ := h.represents.linked.get
  simp [Buffer.get, hget]

theorem Held.putBack_succeeds {item : BufferItem}
    (h : Held seen m (pre ++ item :: post)) (hid : item'.blockId = item.blockId) :
    ∃ rest buffer, m.buffer.take (some item.blockId) = some (item, rest) ∧
      rest.set (some item.blockId) item' = some buffer ∧
      Held seen { m with buffer := buffer } (pre ++ item' :: post) := by
  obtain ⟨rest, buffer, htake, hset⟩ := Buffer.take_set_of_get item' h.get
  have hreplaces : Replaces m.buffer item.blockId item item' buffer := ⟨rest, htake, hset⟩
  obtain ⟨pre', post', hsplit, -, hbuffer⟩ := hreplaces.split h.represents hid
  refine ⟨rest, buffer, htake, hset, ?_⟩
  -- the keys are distinct, so there is one place for the item
  have hnodup := List.Nodup.of_map _ h.represents.nodup
  rw [List.nodup_append, List.nodup_cons] at hnodup
  have hpre : item ∉ pre := fun hmem => hnodup.2.2 item hmem item (by simp) rfl
  obtain ⟨rfl, -, rfl⟩ := (List.append_cons_inj_of_notMem hpre hnodup.2.1.1).mp hsplit
  exact h.replace hid hreplaces hbuffer

end Succeeds

/-! ## The cache -/

section Cache

variable {m : BufferManager} {round : Nat} {id : HashValue}

/-- The cached votes for a block. -/
def cachedVotes (m : BufferManager) (round : Nat) (id : HashValue) : Table Author CommitVote :=
  (((m.commitVoteCache.get round).getD []).get id).getD []

theorem drained_eq (m : BufferManager) (round : Nat) (id : HashValue) :
    (m.drainCachedCommitVotes round id).1 = (cachedVotes m round id).map (·.2) := by
  unfold drainCachedCommitVotes cachedVotes
  split
  · rename_i roundCache hget
    rw [hget]
    rfl
  · rename_i hget
    rw [hget]
    rfl

theorem cachedVotes_drain (m : BufferManager) (round : Nat) (id : HashValue) :
    cachedVotes (m.drainCachedCommitVotes round id).2 round id = [] := by
  unfold drainCachedCommitVotes cachedVotes
  split
  · dsimp only
    split
    · rw [Table.get_retain, if_neg (by simp)]
      rfl
    · rw [Table.get_put_self, Option.getD_some, Table.get_retain, if_neg (by simp)]
      rfl
  · rename_i hget
    rw [hget]
    rfl

/-- A vote in the window that does not exceed the limit is cached. -/
theorem cacheCommitVote_eq {vote : CommitVote}
    (hwindow : m.highestCommittedRound < vote.commitInfo.round ∧ vote.commitInfo.round <
      min (m.highestCommittedRound + m.maxPendingRoundsInCommitVoteCache) u64Max)
    (hlimit : canCacheCommitVoteForBlock ((m.commitVoteCache.get vote.commitInfo.round).getD [])
      vote.commitInfo.id vote.author = true) :
    ∃ cache : CommitVoteCache, m.cacheCommitVote vote = { m with commitVoteCache := cache } ∧
      (cache.get vote.commitInfo.round).getD [] =
        ((m.commitVoteCache.get vote.commitInfo.round).getD []).put vote.commitInfo.id
          ((cachedVotes m vote.commitInfo.round vote.commitInfo.id).put vote.author vote) := by
  have hclass : classifyCommitVoteRound vote.commitInfo.round m.highestCommittedRound
      (min (m.highestCommittedRound + m.maxPendingRoundsInCommitVoteCache) u64Max) = .inWindow := by
    unfold classifyCommitVoteRound
    rw [if_neg (by omega), if_neg (by omega)]
  have hget : (m.commitVoteCache.retain fun cached => m.highestCommittedRound < cached &&
      cached < min (m.highestCommittedRound + m.maxPendingRoundsInCommitVoteCache) u64Max).get
      vote.commitInfo.round = m.commitVoteCache.get vote.commitInfo.round := by
    rw [Table.get_retain, if_pos (by simpa using hwindow)]
  unfold cacheCommitVote
  simp only [hclass, hget, if_pos hlimit]
  refine ⟨_, rfl, ?_⟩
  rw [Table.get_put_self]
  rfl

end Cache

/-! ## Shares -/

section Shares

/-- The shares are those of the votes, one for each author. -/
structure SharesOf (shares : Table Author Signature) (votes : List CommitVote) : Prop where
  nodup : shares.keys.Nodup
  mem : ∀ author sig, (author, sig) ∈ shares ↔
    ∃ vote ∈ votes, vote.author = author ∧ vote.signature = sig

/-- No author has cast two votes. -/
def OneEach (votes : List CommitVote) : Prop :=
  ∀ vote ∈ votes, ∀ vote' ∈ votes, vote.author = vote'.author → vote = vote'

variable {shares : Table Author Signature} {cast all : List CommitVote} {vote : CommitVote}

theorem sharesOf_nil : SharesOf [] [] := ⟨List.nodup_nil, by simp⟩

theorem SharesOf.put (h : SharesOf shares cast) (hone : OneEach all) (hcast : cast ⊆ all)
    (hvote : vote ∈ all) :
    SharesOf (shares.put vote.author vote.signature) (cast ++ [vote]) := by
  refine ⟨Table.nodup_keys_put h.nodup _ _, ?_⟩
  intro author sig
  have hput : (author, sig) ∈ shares.put vote.author vote.signature ↔
      (author = vote.author ∧ sig = vote.signature) ∨
        (author, sig) ∈ shares ∧ author ≠ vote.author := by
    simp [Table.put, List.mem_filter]
  rw [hput, h.mem author sig]
  constructor
  · rintro (⟨rfl, rfl⟩ | ⟨⟨vote', hvote', hauthor, hsig⟩, -⟩)
    · exact ⟨vote, by simp, rfl, rfl⟩
    · exact ⟨vote', by simp [hvote'], hauthor, hsig⟩
  · rintro ⟨vote', hmem, rfl, rfl⟩
    rcases List.mem_append.mp hmem with hmem | hmem
    · by_cases heq : vote'.author = vote.author
      · left
        obtain rfl := hone vote' (hcast hmem) vote hvote heq
        exact ⟨rfl, rfl⟩
      · exact .inr ⟨⟨vote', hmem, rfl, rfl⟩, heq⟩
    · obtain rfl := List.mem_singleton.mp hmem
      exact .inl ⟨rfl, rfl⟩

theorem SharesOf.congr {cast' : List CommitVote} (h : SharesOf shares cast)
    (hsame : ∀ vote, vote ∈ cast ↔ vote ∈ cast') : SharesOf shares cast' := by
  refine ⟨h.nodup, ?_⟩
  intro author sig
  simp only [h.mem author sig, hsame]

theorem SharesOf.authors (h : SharesOf shares cast) :
    shares.keys.toFinset = (cast.map CommitVote.author).toFinset := by
  ext author
  simp only [List.mem_toFinset, Table.keys, List.mem_map, Prod.exists, exists_and_right,
    exists_eq_right]
  constructor
  · rintro ⟨sig, hmem⟩
    obtain ⟨vote, hvote, hauthor, -⟩ := (h.mem author sig).mp hmem
    exact ⟨vote, hvote, hauthor⟩
  · rintro ⟨vote, hvote, rfl⟩
    exact ⟨vote.signature, (h.mem _ _).mpr ⟨vote, hvote, rfl, rfl⟩⟩

/-- Shares for the right ledger info all pass the check. -/
theorem SharesOf.verifySignatures_eq [Crypto] {v : ValidatorVerifier} {li : LedgerInfo}
    {unverified : PartialSignatures} (h : SharesOf unverified.signatures cast)
    (hverified : ∀ vote ∈ cast, Crypto.verify v vote.author (.ledgerInfo li) vote.signature =
      .ok ()) :
    verifySignatures unverified v li = unverified := by
  unfold verifySignatures
  rw [List.filter_eq_self.mpr]
  rintro ⟨author, sig⟩ hmem
  obtain ⟨vote, hvote, rfl, rfl⟩ := (h.mem author sig).mp hmem
  simp only [hverified vote hvote]
  rfl

/-- Votes that match are all added to an item that waits. -/
theorem SharesOf.addSignatures [LedgerApi] {item : OrderedItem} {votes : List CommitVote}
    (h : SharesOf item.unverifiedSignatures.signatures cast) (hone : OneEach all)
    (hcast : cast ⊆ all) (hvotes : votes ⊆ all)
    (hmatch : ∀ vote ∈ votes, LedgerApi.matchOrderedOnly item.orderedProof.ledgerInfo.commitInfo
      vote.commitInfo = true) :
    ∃ unverified, addSignatures (.ordered item) votes =
        .ordered { item with unverifiedSignatures := unverified } ∧
      SharesOf unverified.signatures (cast ++ votes) := by
  induction votes generalizing item cast with
  | nil => exact ⟨item.unverifiedSignatures, rfl, by simpa using h⟩
  | cons vote rest ih =>
    have hvote : vote ∈ all := hvotes List.mem_cons_self
    have hadd : (ordered item).addSignatureIfMatched vote =
        .ok (.ordered { item with
          unverifiedSignatures :=
            item.unverifiedSignatures.addSignature vote.author vote.signature }) := by
      simp only [addSignatureIfMatched, if_pos (hmatch vote List.mem_cons_self)]
    have hput := h.put hone hcast hvote
    have hnext : cast ++ [vote] ⊆ all := by simp [hcast, hvote]
    rw [addSignatures_cons, hadd]
    obtain ⟨unverified, hitem, hshares⟩ := @ih (cast ++ [vote])
      { item with
        unverifiedSignatures := item.unverifiedSignatures.addSignature vote.author vote.signature }
      hput hnext (fun vote' hmem => hvotes (List.mem_cons_of_mem _ hmem))
      (List.forall_mem_cons.mp hmatch).2
    refine ⟨unverified, hitem, ?_⟩
    rw [List.append_assoc] at hshares
    exact hshares

end Shares

/-! ## The votes for one batch -/

/-- What the crate does with shares of validators. -/
structure CountsVotes [PipelineApi] (v : ValidatorVerifier) : Prop where
  power : ∀ authors : List Author, authors.Nodup →
    ((PipelineApi.checkVotingPower v authors).isOk = true ↔ v.IsQuorum authors.toFinset)
  aggregate : ∀ shares : Table Author Signature, shares ≠ [] → shares.keys.Nodup →
    shares.keys.toFinset ⊆ v.members → (PipelineApi.aggregateSignatures v shares).isOk = true

section Race

variable [Crypto] [LedgerApi] [PipelineApi]

/-- A batch that is about to arrive, its execution, and votes for the ledger info that the manager
builds from it. The votes are in the window and can be cached; there is no commit decision for the
batch. -/
structure CommitRace where
  author : Author
  epochState : EpochState
  orderVoteEnabled : Bool
  highestCommittedRound : Nat
  maxPendingRounds : Nat
  before : List Event
  start : BufferManager
  reached : (run step
    (.ok (.new author epochState orderVoteEnabled highestCommittedRound maxPendingRounds))
    before).2 = .ok start
  running : start.stop = false
  batch : OrderedBlocks
  executed : List PipelinedBlock
  block : PipelinedBlock
  number : Nat
  info : Option EpochBlockInfo
  ledgerInfo : LedgerInfo
  /-- The batch is new and is received. -/
  fresh : (batchesInRun
    (.ok (.new author epochState orderVoteEnabled highestCommittedRound maxPendingRounds))
    before ++ [block.id]).Nodup
  received : start.needBackpressure = .ok false
  room : start.buffer.count < u64Max
  /-- Its execution gives the ledger info. -/
  sameBlocks : ids batch.orderedBlocks = ids executed
  last : executed.getLast? = some block
  numbered : block.block.blockNumber = some number
  commitInfo : executedCommitInfo block (start.noteEndOfEpoch executed).endEpochTimestamp
    ((start.noteEndOfEpoch executed).resolveEpochBlockInfo block info) = .ok ledgerInfo.commitInfo
  builds : generateCommitLedgerInfo ledgerInfo.commitInfo batch.orderedProof start.orderVoteEnabled
    block.stateComputeResult.rootHash number = ledgerInfo
  /-- The commit info keeps its time, which before the fork it may not. -/
  timeKept : executedItemInfo block number ledgerInfo.commitInfo = ledgerInfo.commitInfo
  orderedMatches : LedgerApi.matchOrderedOnly batch.orderedProof.ledgerInfo.commitInfo
    ledgerInfo.commitInfo = true
  sameRound : batch.orderedProof.ledgerInfo.commitInfo.round = ledgerInfo.commitInfo.round
  roundBound : ledgerInfo.commitInfo.round < u64Max
  undecided : ∀ e ∈ start.pendingCommitProofs, e.2.ledgerInfo.commitInfo.id ≠ block.id
  /-- The votes of distinct validators. -/
  votes : List CommitVote
  distinct : (votes.map CommitVote.author).Nodup
  forLedgerInfo : ∀ vote ∈ votes, vote.ledgerInfo = ledgerInfo
  verified : ∀ vote ∈ votes, Crypto.verify start.epochState.verifier vote.author
    (.ledgerInfo ledgerInfo) vote.signature = .ok ()
  members : ∀ vote ∈ votes, vote.author ∈ start.epochState.verifier.members
  inWindow : start.highestCommittedRound < ledgerInfo.commitInfo.round ∧
    ledgerInfo.commitInfo.round <
      min (start.highestCommittedRound + start.maxPendingRoundsInCommitVoteCache) u64Max
  uncached : cachedVotes start ledgerInfo.commitInfo.round block.id = []
  underLimit : ∀ vote ∈ votes, canCacheCommitVoteForBlock
    ((start.commitVoteCache.get ledgerInfo.commitInfo.round).getD []) block.id vote.author = true
  /-- What the signing phase answers. -/
  signature : Except String Signature

namespace CommitRace

variable (race : CommitRace)

def verifier : ValidatorVerifier := race.start.epochState.verifier

def round : Nat := race.ledgerInfo.commitInfo.round

/-- The batches that the manager has received before. -/
abbrev known : List HashValue :=
  batchesInRun (.ok (.new race.author race.epochState race.orderVoteEnabled
    race.highestCommittedRound race.maxPendingRounds)) race.before

/-- The batches that the manager has received in the end. -/
def seen : List HashValue :=
  batchesInRun (.ok (.new race.author race.epochState race.orderVoteEnabled
    race.highestCommittedRound race.maxPendingRounds)) race.before ++ [race.block.id]

/-- What happens to the batch, in this order. -/
def batchEvents : List Event :=
  [.ordered race.batch,
    .executionResponse { blockId := race.block.id, inner := .ok race.executed } race.info,
    .signingResponse { signatureResult := race.signature, commitLedgerInfo := race.ledgerInfo }]

/-- What the execution phase and the signing phase answer. -/
abbrev response : ExecutionResponse := { blockId := race.block.id, inner := .ok race.executed }

abbrev signing : SigningResponse :=
  { signatureResult := race.signature, commitLedgerInfo := race.ledgerInfo }

/-- The authors of votes have enough voting power. -/
def Enough (cast : List CommitVote) : Prop :=
  race.verifier.IsQuorum (cast.map CommitVote.author).toFinset

end CommitRace

/-- The vote that an event brings. -/
def Event.commitVote : Event → Option CommitVote
  | .commitMessage (.vote vote) => some vote
  | _ => none

/-- The votes and what happens to the batch, interleaved in any way. -/
def CommitRace.Interleaves (race : CommitRace) (events : List Event) : Prop :=
  (events.filterMap Event.commitVote).Perm race.votes ∧
    events.filter (fun event => event.commitVote.isNone) = race.batchEvents

/-- The shares that have been collected for an executed batch. -/
def BufferItem.collected : BufferItem → Option LedgerInfoWithVerifiedSignatures
  | .executed item => some item.partialCommitProof
  | .signed item => some item.partialCommitProof
  | _ => none

/-! ### Stages -/

namespace CommitRace

variable (race : CommitRace) {cast : List CommitVote} {vote : CommitVote} {m : BufferManager}

/-- The batch has not arrived; the votes are in the cache. -/
structure Waiting (cast : List CommitVote) (m : BufferManager) : Prop where
  start : ∃ cache, m = { race.start with commitVoteCache := cache }
  cached : ∀ vote, vote ∈ (cachedVotes m race.round race.block.id).map (·.2) ↔ vote ∈ cast
  keyed : ∀ e ∈ cachedVotes m race.round race.block.id, e.1 = e.2.author
  underLimit : ∀ vote ∈ race.votes, canCacheCommitVoteForBlock
    ((m.commitVoteCache.get race.round).getD []) race.block.id vote.author = true

/-- The batch is the last item of the buffer. -/
structure InPlace (m : BufferManager) (l : List BufferItem) (item : BufferItem) : Prop where
  held : Held race.seen m (l ++ [item])
  rooted : Rooted m (l ++ [item])
  id : item.blockId = race.block.id
  drained : cachedVotes m race.round race.block.id = []
  stop : m.stop = false
  epochState : m.epochState = race.start.epochState
  persisted : m.persisted = race.start.persisted

/-- The batch waits for its execution; the votes are with the item. -/
def Received (cast : List CommitVote) (m : BufferManager) : Prop :=
  ∃ l item, race.InPlace m l (.ordered item) ∧ item.orderedBlocks = race.batch.orderedBlocks ∧
    item.orderedProof = race.batch.orderedProof ∧ item.commitProof = none ∧
    SharesOf item.unverifiedSignatures.signatures cast ∧
    m.orderVoteEnabled = race.start.orderVoteEnabled ∧
    m.endEpochTimestamp = race.start.endEpochTimestamp ∧
    m.pendingCommitProofs = race.start.pendingCommitProofs

/-- The batch has been executed, and the votes are not enough. -/
def Counting (cast : List CommitVote) (m : BufferManager) : Prop :=
  ∃ l item collected, race.InPlace m l item ∧ item.collected = some collected ∧
    collected.ledgerInfo = race.ledgerInfo ∧ item.commitInfo = race.ledgerInfo.commitInfo ∧
    item.getBlocks = race.executed ∧ SharesOf collected.partialSigs.signatures cast ∧
    ¬ race.Enough cast

/-- The batch has been aggregated with enough of the votes. -/
def Complete (cast : List CommitVote) (m : BufferManager) : Prop :=
  Held race.seen m [] ∧ Rooted m [] ∧ ∃ earlier used shares signatures, used ⊆ cast ∧
    SharesOf shares used ∧ race.Enough used ∧
    PipelineApi.aggregateSignatures race.verifier shares = .ok signatures ∧
    m.persisted = race.start.persisted ++
      [{ blocks := earlier ++ race.executed
         commitLedgerInfo := { ledgerInfo := race.ledgerInfo, signatures := signatures } }]

variable {race}

theorem commitInfo_id : race.ledgerInfo.commitInfo.id = race.block.id :=
  executedCommitInfo_id race.commitInfo

theorem vote_commitInfo (h : vote ∈ race.votes) : vote.commitInfo = race.ledgerInfo.commitInfo := by
  unfold CommitVote.commitInfo
  rw [race.forLedgerInfo vote h]

theorem vote_id (h : vote ∈ race.votes) : vote.commitInfo.id = race.block.id := by
  rw [vote_commitInfo h]
  exact commitInfo_id

theorem vote_round (h : vote ∈ race.votes) : vote.commitInfo.round = race.round := by
  rw [vote_commitInfo h]
  rfl

theorem oneEach : OneEach race.votes := by
  intro vote hvote vote' hvote' heq
  exact List.inj_on_of_nodup_map race.distinct hvote hvote' heq

/-- A vote is verified before it reaches the loop. -/
theorem vote_verifies (h : vote ∈ race.votes) (hepoch : m.epochState = race.start.epochState) :
    (CommitMessage.verify m.epochState.verifier (.vote vote)).isOk = true := by
  have hverified := race.verified vote h
  rw [← race.forLedgerInfo vote h] at hverified
  simp only [CommitMessage.verify, CommitVote.verify, hepoch, hverified]
  rfl

theorem tracked : Tracked race.known race.start := by
  have hnew : Tracked [] (.new race.author race.epochState race.orderVoteEnabled
      race.highestCommittedRound race.maxPendingRounds) := Tracked.empty [] rfl rfl rfl
  have hrun := hnew.run (List.nodup_append.mp race.fresh).1
  rw [race.reached] at hrun
  exact hrun

theorem not_seen : race.block.id ∉ race.known := by
  intro hmem
  exact (List.nodup_append.mp race.fresh).2.2 _ hmem _ (List.mem_singleton_self _) rfl

theorem waiting_start : race.Waiting [] race.start := by
  have huncached : cachedVotes race.start race.round race.block.id = [] := race.uncached
  refine ⟨⟨race.start.commitVoteCache, rfl⟩, ?_, ?_, race.underLimit⟩
  · rw [huncached]
    simp
  · rw [huncached]
    exact List.forall_mem_nil _

theorem Waiting.handleVote (h : race.Waiting cast m) (hvote : vote ∈ race.votes)
    (hcast : cast ⊆ race.votes) :
    Succeeds (m.handleCommitMessage (.vote vote)) (race.Waiting (cast ++ [vote])) := by
  obtain ⟨cache, rfl⟩ := h.start
  have hid := vote_id hvote
  have hround := vote_round hvote
  -- the batch is not in the buffer
  obtain ⟨l, hheld, -, -⟩ := race.tracked
  have habsent : race.block.id ∉ l.map blockId := by
    intro hmem
    obtain ⟨item, hitem, heq⟩ := List.mem_map.mp hmem
    exact not_seen (heq ▸ hheld.known item hitem)
  have hfind : race.start.buffer.findElemByKey race.start.buffer.head vote.commitInfo.id =
    none := by
    rw [hid]
    exact hheld.represents.findElemByKey_of_not_mem habsent _
  have hverify := vote_verifies (m := { race.start with commitVoteCache := cache }) hvote rfl
  have hhandle : handleCommitMessage { race.start with commitVoteCache := cache } (.vote vote) =
      .ok (cacheCommitVote { race.start with commitVoteCache := cache } vote) := by
    simp only [handleCommitMessage, if_pos hverify, processCommitMessage,
      processVote, hfind, bind, Except.bind, pure, Except.pure]
  rw [hhandle]
  have hwindow := race.inWindow
  have hlimit := h.underLimit vote hvote
  obtain ⟨cache', hcached, hroundCache⟩ :=
    @cacheCommitVote_eq { race.start with commitVoteCache := cache } vote
      (by rw [hround]; exact hwindow) (by rw [hround, hid]; exact hlimit)
  rw [hround, hid] at hroundCache
  rw [hcached]
  have hvotes : cachedVotes { race.start with commitVoteCache := cache' } race.round race.block.id =
      (cachedVotes { race.start with commitVoteCache := cache } race.round race.block.id).put
        vote.author vote := by
    unfold cachedVotes
    rw [hroundCache, Table.get_put_self]
    rfl
  refine ⟨⟨cache', rfl⟩, ?_, ?_, ?_⟩
  · intro vote'
    rw [hvotes, List.mem_append, List.mem_singleton, ← h.cached vote']
    simp only [Table.put, List.mem_map, List.mem_cons, List.mem_filter, Prod.exists]
    constructor
    · rintro ⟨author, vote'', heq | ⟨hmem, -⟩, rfl⟩
      · exact .inr (Prod.mk.inj heq).2
      · exact .inl ⟨author, vote'', hmem, rfl⟩
    · rintro (⟨author, vote'', hmem, rfl⟩ | rfl)
      · by_cases hauthor : author = vote.author
        · -- the author has cast the same vote before
          have hkey := h.keyed _ hmem
          have hold : vote'' ∈ race.votes :=
            hcast ((h.cached vote'').mp (List.mem_map.mpr ⟨_, hmem, rfl⟩))
          obtain rfl := oneEach vote'' hold vote hvote (hkey.symm.trans hauthor)
          exact ⟨vote''.author, vote'', .inl rfl, rfl⟩
        · exact ⟨author, vote'', .inr ⟨hmem, by simpa using hauthor⟩, rfl⟩
      · exact ⟨vote'.author, vote', .inl rfl, rfl⟩
  · rw [hvotes]
    exact Table.forall_mem_put h.keyed rfl
  · intro vote' _
    change canCacheCommitVoteForBlock ((cache'.get race.round).getD []) _ _ = true
    rw [hroundCache]
    simp [canCacheCommitVoteForBlock, Table.get_put_self]

theorem batch_last : race.batch.orderedBlocks.getLast?.map PipelinedBlock.id =
    some race.block.id := by
  have hids : race.batch.orderedBlocks.map PipelinedBlock.id =
      race.executed.map PipelinedBlock.id := race.sameBlocks
  rw [← List.getLast?_map, hids, List.getLast?_map, race.last]
  rfl

/-- The item of the batch when it arrives, with the given shares. -/
def item (race : CommitRace) (unverified : PartialSignatures) : OrderedItem where
  unverifiedSignatures := unverified
  orderedBlocks := race.batch.orderedBlocks
  orderedProof := race.batch.orderedProof

theorem item_blockId (unverified : PartialSignatures) :
    (ordered (race.item unverified)).blockId = race.block.id := by
  change (race.batch.orderedBlocks.getLast?.map PipelinedBlock.id).getD HashValue.zero = _
  rw [batch_last]
  rfl

theorem Waiting.processOrderedBlocks (h : race.Waiting cast m) (hcast : cast ⊆ race.votes)
    (latestRound : Nat) :
    Succeeds (processOrderedBlocks { m with latestRound } race.batch)
      fun m' => ∃ l unverified, SharesOf unverified.signatures cast ∧
        Held race.seen m' (l ++ [.ordered (race.item unverified)]) ∧
        (m'.executionRoot = none ∨ Rooted m' (l ++ [.ordered (race.item unverified)])) ∧
        cachedVotes m' race.round race.block.id = [] ∧ m'.persisted = race.start.persisted ∧
        m' = { race.start with
          buffer := m'.buffer, latestRound, commitVoteCache := m'.commitVoteCache
          sent := m'.sent } := by
  obtain ⟨cache, rfl⟩ := h.start
  obtain ⟨l, hheld, hroot, -⟩ := race.tracked
  let sent : BufferManager := send
    { race.start with commitVoteCache := cache, latestRound } (.execution race.batch.orderedBlocks)
  -- the votes are drained from the cache
  have hvotes := drained_eq sent race.round race.block.id
  have hdrained := cachedVotes_drain sent race.round race.block.id
  obtain ⟨cache', hcache'⟩ := sent.drainCachedCommitVotes_eq race.round race.block.id
  rw [hcache'] at hdrained
  have hmem : ∀ vote, vote ∈ (sent.drainCachedCommitVotes race.round race.block.id).1 ↔
      vote ∈ cast := by
    intro vote
    rw [hvotes]
    exact h.cached vote
  generalize hdrain : (sent.drainCachedCommitVotes race.round race.block.id).1 = votes at hmem
  -- all of them match
  have hsub : votes ⊆ race.votes := fun vote hvote => hcast ((hmem vote).mp hvote)
  have hmatch : ∀ vote ∈ votes, LedgerApi.matchOrderedOnly
      (race.item {}).orderedProof.ledgerInfo.commitInfo vote.commitInfo = true := by
    intro vote hvote
    rw [vote_commitInfo (hsub hvote)]
    exact race.orderedMatches
  obtain ⟨unverified, hadd, hshares⟩ :=
    SharesOf.addSignatures sharesOf_nil oneEach (List.nil_subset _) hsub hmatch
  have hshares : SharesOf unverified.signatures cast := hshares.congr hmem
  -- the item is pushed
  have hfresh : (ordered (race.item unverified)).blockId ∉ race.known := by
    rw [item_blockId]
    exact not_seen
  obtain ⟨buffer, hpush⟩ := hheld.represents.pushBack_isSome race.room
    (ordered (race.item unverified))
  have hpushed := hheld.push hfresh hpush
  rw [item_blockId] at hpushed
  have hprocess : processOrderedBlocks
      { race.start with commitVoteCache := cache, latestRound } race.batch =
      .ok { sent with commitVoteCache := cache', buffer := buffer } := by
    have hround : (newOrdered race.batch.orderedBlocks
        race.batch.orderedProof).commitInfo.round = race.round := race.sameRound
    have hid : (newOrdered race.batch.orderedBlocks
        race.batch.orderedProof).blockId = race.block.id := item_blockId {}
    unfold processOrderedBlocks
    dsimp only
    rw [hround, hid]
    rw [show BufferManager.drainCachedCommitVotes (send _ _) race.round race.block.id =
      (votes, { sent with commitVoteCache := cache' }) from Prod.ext hdrain hcache']
    dsimp only
    rw [show newOrdered _ _ = .ordered (race.item {}) from rfl, hadd]
    change ((orPanic _ (expect (race.start.buffer.pushBack blockId
      (.ordered (race.item unverified))) unwrapNone)) >>= _) = _
    rw [hpush]
    rfl
  rw [hprocess]
  refine ⟨l, unverified, hshares, ?_, hroot.push rfl, ?_, ?_, rfl⟩
  · exact { hpushed with }
  · exact hdrained
  · change sent.persisted = _
    rw [persisted_send]
    exact List.append_nil _

theorem Waiting.needBackpressure (h : race.Waiting cast m) : m.needBackpressure = .ok false := by
  obtain ⟨cache, rfl⟩ := h.start
  have hreceived := race.received
  unfold BufferManager.needBackpressure at hreceived ⊢
  cases hbound : checkedAdd race.start.highestCommittedRound 20 with
  | error e =>
    rw [hbound] at hreceived
    cases hreceived
  | ok bound =>
    rw [hbound] at hreceived
    exact hreceived

theorem Waiting.handleOrdered (h : race.Waiting cast m) (hcast : cast ⊆ race.votes) :
    Succeeds (m.handleOrdered race.batch) (race.Received cast) := by
  obtain ⟨last, hlast, -⟩ := Option.map_eq_some_iff.mp (@batch_last _ _ _ race)
  have hhandle : m.handleOrdered race.batch =
      (BufferManager.processOrderedBlocks { m with latestRound := last.block.round } race.batch >>=
        (·.advanceExecutionRootIfNone)) := by
    simp only [BufferManager.handleOrdered, hlast, expect, BufferManager.orPanic,
      except_mapError_ok, bind, Except.bind]
  rw [hhandle]
  apply (h.processOrderedBlocks hcast last.block.round).bind
  rintro m₁ _ ⟨l, unverified, hshares, hheld, hroot, hdrained, hpersisted, hm₁⟩
  refine (hheld.advanceExecutionRootIfNone_succeeds hroot).imp ?_
  rintro m₂ ⟨hheld₂, hroot₂, hrests⟩
  have hsame := hrests.same
  rw [hm₁] at hsame
  refine ⟨l, race.item unverified, ⟨hheld₂, hroot₂, item_blockId unverified, ?_, ?_, ?_, ?_⟩, rfl,
    rfl, rfl, hshares, ?_, ?_, ?_⟩
  · unfold cachedVotes at hdrained ⊢
    rw [hrests.same]
    exact hdrained
  · rw [hsame]
    exact race.running
  · rw [hsame]
  · exact hrests.persisted.trans hpersisted
  · rw [hsame]
  · rw [hsame]
  · rw [hsame]

variable {l : List BufferItem}

/-- The item of the batch has changed, and the roots have been moved. -/
theorem InPlace.settle {item : BufferItem} {m₁ m' : BufferManager}
    (h : race.InPlace m l item) (hid : item'.blockId = item.blockId)
    (hm₁ : ∃ time pending buffer, m₁ = { m with
      endEpochTimestamp := time, pendingCommitProofs := pending, buffer := buffer })
    (hsettled : Settled race.seen (l ++ [item']) m₁ m') : race.InPlace m' l item' := by
  obtain ⟨time, pending, buffer, rfl⟩ := hm₁
  obtain ⟨hheld, hroot, hrests⟩ := hsettled
  refine ⟨hheld, hroot, hid.trans h.id, ?_, ?_, ?_, hrests.persisted.trans h.persisted⟩
  · have hdrained := h.drained
    unfold cachedVotes at hdrained ⊢
    rw [hrests.same]
    exact hdrained
  · rw [hrests.same]
    exact h.stop
  · rw [hrests.same]
    exact h.epochState

theorem InPlace.handleVote {item : BufferItem}
    (h : race.InPlace m l item) (hvote : vote ∈ race.votes)
    (hcount : ∀ m' : BufferManager, m'.epochState = m.epochState →
      m'.countVotes item [] vote = .ok item') :
    ∃ buffer cache, race.InPlace { m with commitVoteCache := cache, buffer := buffer } l item' ∧
      m.handleCommitMessage (.vote vote) =
        if item'.isAggregated then do
          let m ← advanceHead { m with commitVoteCache := cache, buffer := buffer }
            race.block.id
          let m ← m.advanceExecutionRootIfNone
          m.advanceSigningRootIfNone
        else .ok { m with commitVoteCache := cache, buffer := buffer } := by
  have hkept := Kept.countVotes (hcount m rfl)
  have hfind : m.buffer.findElemByKey m.buffer.head race.block.id = some race.block.id := by
    rw [← h.id]
    exact h.held.represents.findElemByKey_head h.held.indexed (by simp)
  -- no votes are left in the cache
  have hvotes := drained_eq m race.round race.block.id
  rw [h.drained, List.map_nil] at hvotes
  have hdrained := cachedVotes_drain m race.round race.block.id
  obtain ⟨cache, hcache⟩ := m.drainCachedCommitVotes_eq race.round race.block.id
  rw [hcache] at hdrained
  have hdrain : m.drainCachedCommitVotes race.round race.block.id =
      ([], { m with commitVoteCache := cache }) := Prod.ext hvotes hcache
  obtain ⟨rest, buffer, htake, hset, hheld⟩ := h.held.putBack_succeeds hkept.blockId
  have hroot : Rooted { m with buffer := buffer } (l ++ [item']) := h.rooted.replace hkept
  refine ⟨buffer, cache, ⟨{ hheld with }, hroot, hkept.blockId.trans h.id, hdrained, h.stop,
    h.epochState, h.persisted⟩, ?_⟩
  rw [h.id] at htake hset
  have hprocess : m.processVote vote = .ok (if item'.isAggregated then some race.block.id else none,
      { m with commitVoteCache := cache, buffer := buffer }) := by
    simp only [processVote, vote_id hvote, vote_round hvote, hfind, htake, expect,
      orPanic, except_mapError_ok, bind, Except.bind, hdrain,
      hcount { m with commitVoteCache := cache } rfl, putBack, hset, pure, Except.pure]
  have hverify := vote_verifies (m := m) hvote h.epochState
  simp only [handleCommitMessage, if_pos hverify, processCommitMessage, hprocess, bind,
    Except.bind, pure, Except.pure]
  cases item'.isAggregated with
  | true | false => rfl

theorem Received.handleVote (h : race.Received cast m) (hvote : vote ∈ race.votes)
    (hcast : cast ⊆ race.votes) :
    Succeeds (m.handleCommitMessage (.vote vote)) (race.Received (cast ++ [vote])) := by
  obtain ⟨l, item, hplace, hblocks, hproof, hnone, hshares, hrest⟩ := h
  have hmatch : LedgerApi.matchOrderedOnly item.orderedProof.ledgerInfo.commitInfo
      vote.commitInfo = true := by
    rw [hproof, vote_commitInfo hvote]
    exact race.orderedMatches
  let item' : OrderedItem :=
    { item with
      unverifiedSignatures := item.unverifiedSignatures.addSignature vote.author vote.signature }
  have hcount : ∀ m' : BufferManager, m'.epochState = m.epochState →
      m'.countVotes (.ordered item) [] vote = .ok (.ordered item') := by
    intro m' _
    simp only [countVotes, addSignatures, List.foldl_nil,
      addSignatureIfMatched, if_pos hmatch, tryAdvanceToAggregated, item']
  obtain ⟨buffer, cache, hplace', hhandle⟩ := hplace.handleVote hvote hcount
  rw [hhandle]
  exact ⟨l, item', hplace', hblocks, hproof, hnone, hshares.put oneEach hcast hvote, hrest⟩

theorem authors_subset (hcast : cast ⊆ race.votes) :
    (cast.map CommitVote.author).toFinset ⊆ race.verifier.members := by
  intro author hauthor
  obtain ⟨vote, hvote, rfl⟩ := List.mem_map.mp (List.mem_toFinset.mp hauthor)
  exact race.members vote (hcast hvote)

theorem aggregate_shares (hcounts : CountsVotes race.verifier) {shares : Table Author Signature}
    (hshares : SharesOf shares cast) (hcast : cast ⊆ race.votes) (henough : race.Enough cast) :
    ∃ signatures, PipelineApi.aggregateSignatures race.verifier shares = .ok signatures := by
  have hmembers := authors_subset hcast
  rw [← hshares.authors] at hmembers
  refine except_isOk_iff.mp (hcounts.aggregate shares ?_ hshares.nodup hmembers)
  rintro rfl
  unfold Enough at henough
  rw [← hshares.authors] at henough
  exact Misc.not_isQuorum_empty henough

variable {shares : PartialSignatures}

section

variable (hcounts : CountsVotes race.verifier) (hshares : SharesOf shares.signatures cast)

include hcounts hshares

theorem checkVotingPower_isOk :
    (PipelineApi.checkVotingPower race.verifier shares.authors).isOk = true ↔ race.Enough cast := by
  have hpower := hcounts.power shares.authors hshares.nodup
  rw [show shares.authors.toFinset = _ from hshares.authors] at hpower
  exact hpower

theorem checkVotingPower_ok (henough : race.Enough cast) :
    PipelineApi.checkVotingPower race.verifier shares.authors = .ok () := by
  obtain ⟨_, hok⟩ := except_isOk_iff.mp ((checkVotingPower_isOk hcounts hshares).mpr henough)
  exact hok

theorem checkVotingPower_error (hfew : ¬ race.Enough cast) :
    ∃ e, PipelineApi.checkVotingPower race.verifier shares.authors = .error e := by
  cases hpower : PipelineApi.checkVotingPower race.verifier shares.authors with
  | error e => exact ⟨e, rfl⟩
  | ok u =>
    exact absurd ((checkVotingPower_isOk hcounts hshares).mp (except_isOk_iff.mpr ⟨u, hpower⟩)) hfew

end

variable (race) in
/-- What the execution makes of the batch, with the shares that are with the item. -/
def Made (cast : List CommitVote) (shares : PartialSignatures) (newItem : BufferItem) : Prop :=
  (race.Enough cast → ∃ signatures, newItem = .aggregated
      { executedBlocks := race.executed
        commitProof := { ledgerInfo := race.ledgerInfo, signatures := signatures } } ∧
    PipelineApi.aggregateSignatures race.verifier shares.signatures = .ok signatures) ∧
  (¬ race.Enough cast → newItem.isAggregated = false ∧
    newItem.collected = some { ledgerInfo := race.ledgerInfo, partialSigs := shares } ∧
    newItem.commitInfo = race.ledgerInfo.commitInfo ∧ newItem.getBlocks = race.executed)

theorem advance_eq (hcounts : CountsVotes race.verifier) {item : OrderedItem}
    (hblocks : item.orderedBlocks = race.batch.orderedBlocks)
    (hproof : item.orderedProof = race.batch.orderedProof) (hnone : item.commitProof = none)
    (hshares : SharesOf item.unverifiedSignatures.signatures cast) (hcast : cast ⊆ race.votes) :
    ∃ newItem, (ordered item).advanceToExecutedOrAggregated race.executed race.verifier
        (race.start.noteEndOfEpoch race.executed).endEpochTimestamp race.start.orderVoteEnabled
        ((race.start.noteEndOfEpoch race.executed).resolveEpochBlockInfo race.block race.info) =
        .ok newItem ∧
      race.Made cast item.unverifiedSignatures newItem := by
  have hids : item.orderedBlocks.map PipelinedBlock.id = race.executed.map PipelinedBlock.id := by
    rw [hblocks]
    exact race.sameBlocks
  have hverified : verifySignatures item.unverifiedSignatures race.verifier
      race.ledgerInfo = item.unverifiedSignatures :=
    hshares.verifySignatures_eq fun vote hvote => race.verified vote (hcast hvote)
  simp only [advanceToExecutedOrAggregated, ensure, if_pos hids, race.last, expect,
    race.commitInfo, hnone, race.numbered, advanceWithVotes, hproof, race.builds, hverified,
    bind, Except.bind]
  by_cases henough : race.Enough cast
  · obtain ⟨signatures, haggregate⟩ := aggregate_shares hcounts hshares hcast henough
    rw [checkVotingPower_ok hcounts hshares henough]
    simp only [aggregateCommitProof, haggregate, except_mapError_ok, Except.map]
    refine ⟨_, rfl, ?_, fun hfew => absurd henough hfew⟩
    intro _
    exact ⟨signatures, rfl, haggregate⟩
  · obtain ⟨e, hpower⟩ := checkVotingPower_error hcounts hshares henough
    rw [hpower]
    refine ⟨_, rfl, fun h => absurd h henough, ?_⟩
    intro _
    refine ⟨rfl, ?_, race.timeKept, rfl⟩
    change some (LedgerInfoWithVerifiedSignatures.mk (generateCommitLedgerInfo
      (executedItemInfo race.block race.number race.ledgerInfo.commitInfo) _ _ _ _) _) = _
    rw [race.timeKept, race.builds]

/-- A pending decision for another block is dropped. -/
theorem drain_other {item : BufferItem}
    (hround : m.pendingCommitProofs = race.start.pendingCommitProofs)
    (newItem : BufferItem) (hsmall : item.commitInfo.round < u64Max) :
    ∃ proof m', m.drainPendingCommitProofTill item.commitInfo.round = .ok (proof, m') ∧
      applyPendingCommitProof newItem proof race.block.id = .ok newItem ∧
      m' = { m with pendingCommitProofs := m'.pendingCommitProofs } := by
  have hbound : checkedAdd item.commitInfo.round 1 = .ok (item.commitInfo.round + 1) :=
    if_pos (by omega)
  unfold drainPendingCommitProofTill
  rw [hbound]
  refine ⟨_, _, rfl, ?_, rfl⟩
  cases hlast : (m.pendingCommitProofs.retain (· < item.commitInfo.round + 1)).last with
  | none => rfl
  | some e =>
    have hmem := (List.mem_filter.mp (Table.mem_of_last hlast)).1
    rw [hround] at hmem
    have hother := race.undecided e hmem
    simp [applyPendingCommitProof, hother]

/-- The aggregated batch leaves the buffer with everything before it. -/
theorem complete_of_head {item : AggregatedItem} {signatures : AggregateSignature}
    {shares : Table Author Signature} {moveRoot : BufferManager → Outcome BufferManager}
    (hheld : Held race.seen m (l ++ [.aggregated item]))
    (hid : (aggregated item).blockId = race.block.id)
    (hblocks : item.executedBlocks = race.executed)
    (hproof : item.commitProof = { ledgerInfo := race.ledgerInfo, signatures := signatures })
    (hpersisted : m.persisted = race.start.persisted)
    (hmove : ∀ m', Held race.seen m' [] →
      m'.executionRoot = rootAfter m.executionRoot (l ++ [.aggregated item]) →
      Succeeds (moveRoot m') (Settled race.seen [] m'))
    (hshares : SharesOf shares cast) (henough : race.Enough cast)
    (haggregate : PipelineApi.aggregateSignatures race.verifier shares = .ok signatures) :
    Succeeds (m.advanceHead race.block.id >>= fun m => moveRoot m >>= (·.advanceSigningRootIfNone))
      (race.Complete cast) := by
  rw [← hid]
  apply hheld.advanceHead_succeeds.bind
  rintro m₁ _ ⟨hheld₁, hroot₁, hpersisted₁⟩
  apply (hmove m₁ hheld₁ hroot₁).bind
  rintro m₂ _ ⟨hheld₂, hroot₂, hrests₂⟩
  refine (hheld₂.advanceSigningRootIfNone_succeeds hroot₂).imp ?_
  rintro m₃ ⟨hheld₃, hroot₃, hrests₃⟩
  refine ⟨hheld₃, hroot₃, blocksOf l, cast, shares, signatures, fun _ hv => hv, hshares, henough,
    haggregate, ?_⟩
  rw [hrests₃.persisted, hrests₂.persisted, hpersisted₁, hpersisted, hblocks, hproof]

theorem processExecutionResponse_eq {item : OrderedItem}
    (hplace : race.InPlace m l (.ordered item)) :
    m.processExecutionResponse race.response race.info =
      (m.noteEndOfEpoch race.executed).advanceExecuted
        (some race.block.id) race.block.id race.executed
        ((m.noteEndOfEpoch race.executed).resolveEpochBlockInfo race.block race.info) := by
  have hmem : ordered item ∈ l ++ [.ordered item] := by simp
  have hfind := hplace.held.find_ordered hplace.rooted hmem rfl
  rw [hplace.id] at hfind
  have hitem := hplace.held.get
  rw [hplace.id] at hitem
  simp only [processExecutionResponse, hfind, race.last, hitem, expect,
    orPanic, except_mapError_ok, bind, Except.bind]
  rw [if_neg (not_not.mpr hplace.id)]

/-- The item is executed and put back; if it is aggregated, it leaves the buffer. -/
theorem Received.response_eq (hcounts : CountsVotes race.verifier)
    {item : OrderedItem} (hplace : race.InPlace m l (.ordered item))
    (hblocks : item.orderedBlocks = race.batch.orderedBlocks)
    (hproof : item.orderedProof = race.batch.orderedProof) (hnone : item.commitProof = none)
    (hshares : SharesOf item.unverifiedSignatures.signatures cast)
    (horder : m.orderVoteEnabled = race.start.orderVoteEnabled)
    (htime : m.endEpochTimestamp = race.start.endEpochTimestamp)
    (hpending : m.pendingCommitProofs = race.start.pendingCommitProofs)
    (hcast : cast ⊆ race.votes) :
    ∃ newItem m₁, newItem.blockId = (ordered item).blockId ∧
      Held race.seen m₁ (l ++ [newItem]) ∧
      (∃ time pending buffer, m₁ = { m with
        endEpochTimestamp := time, pendingCommitProofs := pending, buffer := buffer }) ∧
      m.handleExecutionResponse race.response race.info =
        ((if newItem.isAggregated then m₁.advanceHead race.block.id else .ok m₁) >>= fun m => do
          let m ← m.advanceExecutionRoot
          m.advanceSigningRootIfNone) ∧
      race.Made cast item.unverifiedSignatures newItem := by
  obtain ⟨newItem, hadvance, hnew⟩ := advance_eq hcounts hblocks hproof hnone hshares hcast
  have hexec := Executes.advance hadvance
  obtain ⟨rest, buffer, htake, hset, hheld⟩ := hplace.held.putBack_succeeds hexec.blockId
  have hround : (ordered item).commitInfo.round < u64Max := by
    change item.orderedProof.ledgerInfo.commitInfo.round < u64Max
    rw [hproof, race.sameRound]
    exact race.roundBound
  obtain ⟨proof, m₁, hdrain, happly, hm₁⟩ :=
    drain_other (m := m.noteEndOfEpoch race.executed) hpending newItem hround
  refine ⟨newItem, { m₁ with buffer := buffer }, hexec.blockId, ?_, ?_, ?_, hnew⟩
  · rw [hm₁]
    exact { hheld with }
  · rw [hm₁]
    exact ⟨_, _, _, rfl⟩
  · rw [hplace.id] at htake hset
    have hput : m₁.putBack rest (some race.block.id) newItem =
      .ok { m₁ with buffer := buffer } := by
      unfold putBack
      rw [hset]
      rfl
    have hend : (m.noteEndOfEpoch race.executed).endEpochTimestamp =
        (race.start.noteEndOfEpoch race.executed).endEpochTimestamp := by
      simp only [noteEndOfEpoch, htime]
    have hresolve : (m.noteEndOfEpoch race.executed).resolveEpochBlockInfo race.block race.info =
        (race.start.noteEndOfEpoch race.executed).resolveEpochBlockInfo race.block race.info := by
      simp only [resolveEpochBlockInfo, hend]
    have hadvance' : (ordered item).advanceToExecutedOrAggregated race.executed
        (m.noteEndOfEpoch race.executed).epochState.verifier
        (m.noteEndOfEpoch race.executed).endEpochTimestamp
        (m.noteEndOfEpoch race.executed).orderVoteEnabled
        ((m.noteEndOfEpoch race.executed).resolveEpochBlockInfo race.block race.info) =
        .ok newItem := by
      change (ordered item).advanceToExecutedOrAggregated race.executed
        m.epochState.verifier _ m.orderVoteEnabled _ = _
      rw [hplace.epochState, horder, hend, hresolve]
      exact hadvance
    rw [← advanceExecuted_eq (m := m.noteEndOfEpoch race.executed) htake hadvance' hdrain
      happly hput, ← processExecutionResponse_eq hplace]
    rfl

/-- The execution of the batch completes it, if the votes are enough. -/
theorem Received.handleResponse (hcounts : CountsVotes race.verifier) (h : race.Received cast m)
    (hcast : cast ⊆ race.votes) :
    Succeeds (m.handleExecutionResponse race.response race.info)
      fun m' => race.Complete cast m' ∨ race.Counting cast m' := by
  obtain ⟨l, item, hplace, hblocks, hproof, hnone, hshares, horder, htime, hpending⟩ := h
  obtain ⟨newItem, m₁, hid, hheld, hm₁, hhandle, henough, hfew⟩ :=
    Received.response_eq hcounts hplace hblocks hproof hnone hshares horder htime hpending hcast
  obtain ⟨time, pending, buffer, rfl⟩ := id hm₁
  rw [hhandle]
  by_cases hquorum : race.Enough cast
  · obtain ⟨signatures, rfl, haggregate⟩ := henough hquorum
    refine (complete_of_head hheld (hid.trans hplace.id) rfl rfl hplace.persisted ?_ hshares hquorum
      haggregate).imp fun _ hm => .inl hm
    intro m₂ hheld₂ hroot₂
    refine hheld₂.advanceExecutionRoot_succeeds (.inl ?_)
    rw [hroot₂]
    exact hplace.rooted.rootAfter_eq_none rfl hid
  · obtain ⟨hopen, hcollected, hcommit, hnewBlocks⟩ := hfew hquorum
    rw [hopen]
    have hnotAfter : RootNotAfter { m with
        endEpochTimestamp := time, pendingCommitProofs := pending, buffer := buffer }
        (l ++ [newItem]) := hplace.rooted.execute rfl hid rfl
    apply (hheld.advanceExecutionRoot_succeeds hnotAfter).bind
    rintro m₂ _ ⟨hheld₂, hroot₂, hrests₂⟩
    refine (hheld₂.advanceSigningRootIfNone_succeeds hroot₂).imp ?_
    rintro m₃ ⟨hheld₃, hroot₃, hrests₃⟩
    exact .inr ⟨l, newItem, _, hplace.settle hid hm₁ ⟨hheld₃, hroot₃, hrests₂.trans hrests₃⟩,
      hcollected, rfl, hcommit, hnewBlocks, hshares, hquorum⟩

variable {collected : LedgerInfoWithVerifiedSignatures}

/-- A vote is added to the shares of an executed item. -/
theorem collected_addSignature {item : BufferItem}
    (hcollected : item.collected = some collected)
    (hledger : collected.ledgerInfo = race.ledgerInfo)
    (hcommit : item.commitInfo = race.ledgerInfo.commitInfo) (hvote : vote ∈ race.votes) :
    ∃ item', item.addSignatureIfMatched vote = .ok item' ∧
      item'.collected = some (collected.addSignature vote.author vote.signature) ∧
      item'.commitInfo = race.ledgerInfo.commitInfo := by
  have hinfo := vote_commitInfo hvote
  cases item with
  | ordered item | aggregated item => cases hcollected
  | executed item =>
    obtain rfl := Option.some.inj hcollected
    have hmatch : item.commitInfo = vote.commitInfo := hcommit.trans hinfo.symm
    simp only [addSignatureIfMatched, if_pos hmatch]
    exact ⟨_, rfl, rfl, hcommit⟩
  | signed item =>
    obtain rfl := Option.some.inj hcollected
    have hmatch : item.partialCommitProof.commitInfo = vote.commitInfo := hcommit.trans hinfo.symm
    simp only [addSignatureIfMatched, if_pos hmatch]
    exact ⟨_, rfl, rfl, hcommit⟩

omit [Crypto] [LedgerApi] in
theorem tryAdvance_of_collected {item : BufferItem}
    (hcollected : item.collected = some collected) (v : ValidatorVerifier) :
    item.tryAdvanceToAggregated v = aggregateIfEnough item item.getBlocks collected v := by
  cases item with
  | ordered item | aggregated item => cases hcollected
  | executed item | signed item =>
    obtain rfl := Option.some.inj hcollected
    rfl

omit [Crypto] [LedgerApi] [PipelineApi] in
theorem isAggregated_of_collected {item : BufferItem}
    (hcollected : item.collected = some collected) :
    item.isAggregated = false := by
  cases item with
  | executed item | signed item => rfl
  | ordered item | aggregated item => cases hcollected

theorem countVotes_eq {item added : BufferItem} (hplace : race.InPlace m l item)
    (hadd : item.addSignatureIfMatched vote = .ok added)
    (hcollected : added.collected = some collected)
    (hitem' : aggregateIfEnough added added.getBlocks collected race.verifier = .ok item') :
    ∀ m' : BufferManager, m'.epochState = m.epochState →
      m'.countVotes item [] vote = .ok item' := by
  intro m' hepoch
  have hv : m'.epochState.verifier = race.verifier := by
    rw [hepoch, hplace.epochState]
    rfl
  simp only [countVotes, addSignatures, List.foldl_nil, hadd, hv,
    tryAdvance_of_collected hcollected, hitem']

/-- A vote is counted, and completes the batch if it makes the shares enough. -/
theorem Counting.handleVote (hcounts : CountsVotes race.verifier) (h : race.Counting cast m)
    (hvote : vote ∈ race.votes) (hcast : cast ⊆ race.votes) :
    Succeeds (m.handleCommitMessage (.vote vote))
      fun m' => race.Complete (cast ++ [vote]) m' ∨ race.Counting (cast ++ [vote]) m' := by
  obtain ⟨l, item, collected, hplace, hcollected, hledger, hcommit, hblocks, hshares, -⟩ := h
  obtain ⟨added, hadd, hcollected', hcommit'⟩ :=
    collected_addSignature hcollected hledger hcommit hvote
  have hblocks' : added.getBlocks = race.executed :=
    (Kept.addSignatureIfMatched hadd).blocks.trans hblocks
  generalize hnow : collected.addSignature vote.author vote.signature = now at hcollected'
  have hledger' : now.ledgerInfo = race.ledgerInfo := hnow ▸ hledger
  have hshares' : SharesOf now.partialSigs.signatures (cast ++ [vote]) :=
    hnow ▸ hshares.put oneEach hcast hvote
  by_cases hquorum : race.Enough (cast ++ [vote])
  · obtain ⟨signatures, haggregate⟩ :=
      aggregate_shares hcounts hshares' (by simp [hcast, hvote]) hquorum
    have henough : aggregateIfEnough added added.getBlocks now race.verifier =
        .ok (.aggregated { executedBlocks := added.getBlocks, commitProof :=
          { ledgerInfo := race.ledgerInfo, signatures := signatures } }) := by
      simp only [aggregateIfEnough, checkVotingPower_ok hcounts hshares' hquorum,
        aggregateCommitProof, haggregate, except_mapError_ok, Except.map, hledger']
    obtain ⟨buffer, cache, hplace', hhandle⟩ :=
      hplace.handleVote hvote (countVotes_eq hplace hadd hcollected' henough)
    rw [hhandle]
    refine (complete_of_head hplace'.held hplace'.id hblocks' rfl hplace'.persisted ?_
      hshares' hquorum
      haggregate).imp fun _ hm => .inl hm
    intro m₂ hheld₂ hroot₂
    exact hheld₂.advanceExecutionRootIfNone_succeeds
      (hplace'.rooted.afterPop hplace'.held.represents.nodup hroot₂)
  · obtain ⟨e, hpower⟩ := checkVotingPower_error hcounts hshares' hquorum
    have hfew : aggregateIfEnough added added.getBlocks now race.verifier = .ok added := by
      simp only [aggregateIfEnough, hpower]
    obtain ⟨buffer, cache, hplace', hhandle⟩ :=
      hplace.handleVote hvote (countVotes_eq hplace hadd hcollected' hfew)
    rw [hhandle, isAggregated_of_collected hcollected']
    exact .inr ⟨l, added, now, hplace', hcollected', hledger', hcommit', hblocks',
      hshares', hquorum⟩

theorem Counting.handleSigning (h : race.Counting cast m) :
    Succeeds (m.handleSigningResponse race.signing) (race.Counting cast) := by
  obtain ⟨l, item, collected, hplace, hcollected, hledger, hcommit, hblocks, hshares, hfew⟩ := h
  -- the item after the response, signed or not
  have hprocess : Succeeds (m.processSigningResponse race.signing)
      fun m₁ => ∃ item' buffer, m₁ = { m with buffer := buffer } ∧ Kept item item' ∧
        Held race.seen m₁ (l ++ [item']) ∧ item'.collected = some collected ∧
        item'.commitInfo = race.ledgerInfo.commitInfo := by
    unfold processSigningResponse
    dsimp only
    split
    · exact ⟨item, m.buffer, rfl, .refl item, hplace.held, hcollected, hcommit⟩
    · rename_i signature _
      rw [commitInfo_id]
      split
      · exact ⟨item, m.buffer, rfl, .refl item, hplace.held, hcollected, hcommit⟩
      · rename_i key hfind
        obtain rfl := Buffer.findElemByKey_eq hfind
        obtain ⟨item', hsign, hkept, hcollected', hcommit'⟩ : ∃ item',
            (if item.isExecuted then item.advanceToSigned m.author signature else .ok item) =
              .ok item' ∧ Kept item item' ∧ item'.collected = some collected ∧
            item'.commitInfo = race.ledgerInfo.commitInfo := by
          cases item with
          | ordered item | aggregated item => cases hcollected
          | signed item => exact ⟨_, rfl, .refl _, hcollected, hcommit⟩
          | executed item =>
            refine ⟨_, rfl, .advanceToSigned rfl, hcollected, ?_⟩
            obtain rfl := Option.some.inj hcollected
            change item.partialCommitProof.ledgerInfo.commitInfo = _
            rw [hledger]
        obtain ⟨rest, buffer, htake, hset, hheld⟩ := hplace.held.putBack_succeeds hkept.blockId
        rw [hplace.id] at htake hset
        simp only [htake, expect, orPanic, except_mapError_ok, bind, Except.bind, hsign,
          putBack, hset]
        exact ⟨item', buffer, rfl, hkept, hheld, hcollected', hcommit'⟩
  apply hprocess.bind
  rintro m₁ _ ⟨item', buffer, rfl, hkept, hheld, hcollected', hcommit'⟩
  have hroot : Rooted { m with buffer := buffer } (l ++ [item']) := hplace.rooted.replace hkept
  refine (hheld.advanceSigningRoot_succeeds hroot).imp ?_
  intro m₂ hsettled
  exact ⟨l, item', collected, hplace.settle hkept.blockId ⟨_, _, buffer, rfl⟩ hsettled, hcollected',
    hledger, hcommit', hkept.blocks.trans hblocks, hshares, hfew⟩

theorem Complete.handleVote (h : race.Complete cast m) :
    Succeeds (m.handleCommitMessage (.vote vote)) (race.Complete (cast ++ [vote])) := by
  have hmore : ∀ {m'}, race.Complete cast m' → race.Complete (cast ++ [vote]) m' := by
    rintro m' ⟨hheld, hroot, earlier, used, shares, signatures, hused, hrest⟩
    exact ⟨hheld, hroot, earlier, used, shares, signatures,
      fun _ hv => List.mem_append_left _ (hused hv), hrest⟩
  unfold handleCommitMessage
  split
  · have hfind : m.buffer.findElemByKey m.buffer.head vote.commitInfo.id = none :=
      h.1.represents.findElemByKey_of_not_mem (by simp) _
    have hcached : race.Complete cast (m.cacheCommitVote vote) := by
      obtain ⟨hheld, hroot, hproof⟩ := h
      exact cacheCommitVote_of fun _ => ⟨{ hheld with }, hroot, hproof⟩
    simp only [processCommitMessage, processVote, hfind, bind, Except.bind, pure, Except.pure]
    exact hmore hcached
  · exact hmore h

theorem Complete.handleSigning (h : race.Complete cast m) :
    Succeeds (m.handleSigningResponse race.signing) (race.Complete cast) := by
  obtain ⟨hheld, hroot, hproof⟩ := h
  have hprocess : m.processSigningResponse race.signing = .ok m := by
    unfold processSigningResponse
    dsimp only
    split
    · rfl
    · rw [hheld.represents.findElemByKey_of_not_mem (by simp)]
  unfold handleSigningResponse
  rw [hprocess]
  refine (hheld.advanceSigningRoot_succeeds hroot).imp ?_
  rintro m' ⟨hheld', hroot', hrests⟩
  refine ⟨hheld', hroot', ?_⟩
  rw [hrests.persisted]
  exact hproof

/-! ### Runs -/

variable (race) in
/-- How far the batch is, with what is still to happen to it. -/
inductive Stage (cast : List CommitVote) (m : BufferManager) : List Event → Prop
  | waiting : race.Waiting cast m → Stage cast m race.batchEvents
  | received : race.Received cast m → Stage cast m race.batchEvents.tail
  | counting {rest : List Event} : rest <:+ race.batchEvents.tail.tail → race.Counting cast m →
    Stage cast m rest
  | complete {rest : List Event} : rest <:+ race.batchEvents.tail.tail → race.Complete cast m →
    Stage cast m rest

theorem Stage.event_mem {event : Event} {rest : List Event}
    (h : race.Stage cast m (event :: rest)) : event ∈ race.batchEvents := by
  generalize hevents : event :: rest = events at h
  have hmem : event ∈ events := by simp [← hevents]
  cases h with
  | waiting => exact hmem
  | received => exact List.mem_of_mem_tail hmem
  | counting hrest | complete hrest =>
    exact List.mem_of_mem_tail (List.mem_of_mem_tail (hrest.subset hmem))

theorem Stage.handleVote (hcounts : CountsVotes race.verifier) {rest : List Event}
    (h : race.Stage cast m rest) (hvote : vote ∈ race.votes) (hcast : cast ⊆ race.votes) :
    Succeeds (m.handleCommitMessage (.vote vote)) fun m' => race.Stage
      (cast ++ [vote]) m' rest := by
  cases h with
  | waiting h => exact (h.handleVote hvote hcast).imp fun _ hm => .waiting hm
  | received h => exact (h.handleVote hvote hcast).imp fun _ hm => .received hm
  | counting hrest h =>
    refine (Counting.handleVote hcounts h hvote hcast).imp ?_
    rintro m' (hm' | hm')
    · exact .complete hrest hm'
    · exact .counting hrest hm'
  | complete hrest h =>
    exact (Complete.handleVote h).imp fun _ hm => .complete hrest hm

theorem Stage.handleBatch (hcounts : CountsVotes race.verifier) {event : Event} {rest : List Event}
    {full : Bool} (h : race.Stage cast m (event :: rest)) (hcast : cast ⊆ race.votes)
    (hfull : m.needBackpressure = .ok full) :
    Succeeds (m.selectBranch full event) fun m' => race.Stage cast m' rest := by
  generalize hevents : event :: rest = events at h
  have hsigning : ∀ {signing}, (event :: rest) <:+ [signing] → event = signing ∧ rest = [] := by
    intro signing hsuffix
    have hlength := hsuffix.length_le
    simp only [List.length_cons, List.length_nil] at hlength
    have hrest : rest = [] := List.length_eq_zero_iff.mp (by omega)
    rw [hrest] at hsuffix
    exact ⟨(List.cons.inj (hsuffix.eq_of_length rfl)).1, hrest⟩
  cases h with
  | waiting h =>
    obtain ⟨rfl, rfl⟩ := List.cons.inj hevents
    obtain rfl := Except.ok.inj (hfull.symm.trans h.needBackpressure)
    exact (h.handleOrdered hcast).imp fun _ hm => .received hm
  | received h =>
    obtain ⟨rfl, rfl⟩ := List.cons.inj hevents
    refine (Received.handleResponse hcounts h hcast).imp ?_
    rintro m' (hm' | hm')
    · exact .complete (List.suffix_refl _) hm'
    · exact .counting (List.suffix_refl _) hm'
  | counting hrest h =>
    rw [← hevents] at hrest
    obtain ⟨rfl, rfl⟩ := hsigning hrest
    exact (Counting.handleSigning h).imp fun _ hm => .counting (List.nil_suffix) hm
  | complete hrest h =>
    rw [← hevents] at hrest
    obtain ⟨rfl, rfl⟩ := hsigning hrest
    exact (Complete.handleSigning h).imp fun _ hm => .complete (List.nil_suffix) hm

variable (race) in
/-- The manager goes on, and its guard stays where it was. -/
def Going (m : BufferManager) : Prop :=
  m.stop = false ∧ m.highestCommittedRound = race.start.highestCommittedRound

theorem Going.guarded (h : race.Going m) : Guarded m := by
  obtain ⟨full, hstart⟩ : Guarded race.start := ⟨_, race.received⟩
  unfold Guarded
  unfold BufferManager.needBackpressure at hstart ⊢
  rw [h.2]
  cases hbound : checkedAdd race.start.highestCommittedRound 20 with
  | error e =>
    rw [hbound] at hstart
    cases hstart
  | ok bound => exact ⟨_, rfl⟩

theorem going_untouched : Untouched race.Going where
  work h := h
  drain h := drainCachedCommitVotes_of (P := race.Going) fun _ => h

theorem Going.handle {event : Event} (h : race.Going m) (hreset : ∀ signal, event ≠ .reset signal)
    (hpersist : ∀ result, event ≠ .persistingResponse result) {Q : BufferManager → Prop}
    (hbranch : ∀ full, m.needBackpressure = .ok full → Succeeds (m.selectBranch full event) Q) :
    Succeeds (m.handle event) fun m' => Q m' ∧ race.Going m' := by
  -- a panic of the guard would leave a manager that does not go on
  have hhandle : Ensures (m.handle event) _ fun panic => ¬ Guarded panic.manager :=
    ensures_handle (fun hstop => by simp [h.1] at hstop) (fun hnot _ => hnot)
      (fun full _ hfull => (hbranch full hfull).mono (fun _ hm => hm) fun _ hp => hp.elim)
      fun _ hnot _ => hnot
  have hgoing : Ensures (m.handle event) race.Going fun panic => race.Going panic.manager := by
    refine going_untouched.handle h ?_ (fun _ _ _ _ _ _ => h) ?_ ?_
    · exact fun vote _ => cacheCommitVote_of (P := race.Going) fun _ => h
    · exact fun signal heq => absurd heq (hreset signal)
    · exact fun result heq => absurd heq (hpersist result)
  exact (hhandle.and hgoing).mono (fun _ hm => ⟨hm.1.1, hm.2⟩) fun _ hp => hp.1 hp.2.guarded

theorem Stage.run (hcounts : CountsVotes race.verifier) {events : List Event}
    (hgoing : race.Going m)
    (h : race.Stage cast m (events.filter fun event => event.commitVote.isNone))
    (hcast : cast ++ events.filterMap Event.commitVote ⊆ race.votes) :
    Succeeds (Misc.run step (.ok m) events).2
      fun m' => race.Stage (cast ++ events.filterMap Event.commitVote) m' [] := by
  induction events generalizing m cast with
  | nil =>
    rw [List.filterMap_nil, List.append_nil]
    exact h
  | cons event rest ih =>
    have hcast' : cast ⊆ race.votes := fun _ hv => hcast (List.mem_append_left _ hv)
    have hsucceeds {Q : BufferManager → Prop} {R : BufferManager → Prop}
        (hx : Succeeds (m.handle event) Q)
        (hrest : ∀ m', Q m' → Succeeds (Misc.run step (.ok m') rest).2 R) :
        Succeeds (Misc.run step (.ok m) (event :: rest)).2 R := by
      rw [run_cons]
      change Succeeds (Misc.run step (m.handle event) rest).2 R
      cases hhandle : m.handle event with
      | error panic =>
        rw [hhandle] at hx
        exact hx.elim
      | ok m' =>
        rw [hhandle] at hx
        exact hrest m' hx
    cases hcommit : event.commitVote with
    | some vote =>
      obtain rfl : event = .commitMessage (.vote vote) := by
        unfold Event.commitVote at hcommit
        split at hcommit
        · obtain rfl := Option.some.inj hcommit
          rfl
        · cases hcommit
      rw [List.filterMap_cons_some hcommit] at hcast ⊢
      rw [List.filter_cons_of_neg (by simp [hcommit])] at h
      have hvote : vote ∈ race.votes := hcast (by simp)
      rw [List.append_cons] at hcast ⊢
      refine hsucceeds (hgoing.handle ?_ ?_ fun _ _ => h.handleVote hcounts hvote hcast')
        fun m' hm' => ih hm'.2 hm'.1 hcast
      · nofun
      · nofun
    | none =>
      rw [List.filterMap_cons_none hcommit] at hcast ⊢
      rw [List.filter_cons_of_pos (by simp [hcommit])] at h
      have hevent := h.event_mem
      refine hsucceeds (hgoing.handle ?_ ?_ fun _ hfull => h.handleBatch hcounts hcast' hfull)
        fun m' hm' => ih hm'.2 hm'.1 hcast
      · rintro signal rfl
        simp [batchEvents] at hevent
      · rintro result rfl
        simp [batchEvents] at hevent

theorem Enough.mono {used : List CommitVote} (h : race.Enough used) (hused : used ⊆ race.votes) :
    race.Enough race.votes := by
  have hauthors : (used.map CommitVote.author).toFinset ⊆
      (race.votes.map CommitVote.author).toFinset := by
    intro author hauthor
    obtain ⟨vote, hvote, rfl⟩ := List.mem_map.mp (List.mem_toFinset.mp hauthor)
    exact List.mem_toFinset.mpr (List.mem_map_of_mem (hused hvote))
  exact Misc.IsQuorum.mono h hauthors (authors_subset fun _ hv => hv)

end CommitRace

/-- The votes for a batch may arrive in any order, before the batch, before its execution, before or
after its signing. If they are enough, the batch is aggregated with enough of them; if not, it is
never aggregated, and all their shares are collected. -/
theorem votes_any_order (race : CommitRace) (hcounts : CountsVotes race.verifier)
    (events : List Event) (h : race.Interleaves events) :
    ∃ m, (run step (.ok race.start) events).2 = .ok m ∧
      (race.Enough race.votes → ∃ earlier used shares signatures, used ⊆ race.votes ∧
        SharesOf shares used ∧ race.Enough used ∧
        PipelineApi.aggregateSignatures race.verifier shares = .ok signatures ∧
        m.persisted = race.start.persisted ++
          [{ blocks := earlier ++ race.executed
             commitLedgerInfo := { ledgerInfo := race.ledgerInfo, signatures := signatures } }]) ∧
      (¬ race.Enough race.votes → ∃ item collected,
        m.buffer.get (some race.block.id) = some item ∧ item.isAggregated = false ∧
        item.collected = some collected ∧ collected.ledgerInfo = race.ledgerInfo ∧
        SharesOf collected.partialSigs.signatures race.votes ∧
        m.persisted = race.start.persisted) := by
  obtain ⟨hvotes, hbatch⟩ := h
  have hstart : race.Stage [] race.start (events.filter fun event => event.commitVote.isNone) := by
    rw [hbatch]
    exact .waiting CommitRace.waiting_start
  have hmem : ∀ vote, vote ∈ events.filterMap Event.commitVote ↔ vote ∈ race.votes :=
    fun vote => hvotes.mem_iff
  have hrun :=
    hstart.run hcounts ⟨race.running, rfl⟩ fun vote hvote => (hmem vote).mp (by simpa using hvote)
  rw [List.nil_append] at hrun
  cases hend : (run step (.ok race.start) events).2 with
  | error panic =>
    rw [hend] at hrun
    exact hrun.elim
  | ok m =>
    rw [hend] at hrun
    refine ⟨m, rfl, ?_⟩
    have hstage : race.Counting (events.filterMap Event.commitVote) m ∨
        race.Complete (events.filterMap Event.commitVote) m := by
      generalize hnil : ([] : List Event) = rest at hrun
      cases hrun with
      | waiting _ | received _ => cases hnil
      | counting _ hm => exact .inl hm
      | complete _ hm => exact .inr hm
    have hsame : race.Enough (events.filterMap Event.commitVote) ↔ race.Enough race.votes := by
      have hauthors : ((events.filterMap Event.commitVote).map CommitVote.author).toFinset =
          (race.votes.map CommitVote.author).toFinset := by
        ext author
        simp only [List.mem_toFinset, List.mem_map, hmem]
      unfold CommitRace.Enough
      rw [hauthors]
    rcases hstage with hcounting | hcomplete
    · obtain ⟨l, item, collected, hplace, hcollected, hledger, -, -, hshares, hfew⟩ := hcounting
      refine ⟨fun henough => absurd (hsame.mpr henough) hfew, fun _ => ?_⟩
      have hitem := hplace.held.get
      rw [hplace.id] at hitem
      exact ⟨item, collected, hitem, CommitRace.isAggregated_of_collected hcollected, hcollected,
        hledger, hshares.congr hmem, hplace.persisted⟩
    · obtain ⟨-, -, earlier, used, shares, signatures, hused, hshares, henough, haggregate,
        hpersisted⟩ := hcomplete
      have hused' : used ⊆ race.votes := fun vote hvote => (hmem vote).mp (hused hvote)
      refine ⟨fun _ => ?_, fun hfew => absurd (CommitRace.Enough.mono henough hused') hfew⟩
      exact ⟨earlier, used, shares, signatures, hused', hshares, henough, haggregate, hpersisted⟩

end Race

/-! ## Four votes -/

namespace FourValidators

attribute [local instance] crypto ledgerApi pipelineApi

theorem countsVotes : CountsVotes validators where
  power authors _ := by
    change (Permissive.accept _).isOk = true ↔ _
    unfold Permissive.accept
    split
    · simpa [Except.isOk, Except.toBool]
    · simpa [Except.isOk, Except.toBool]
  aggregate _ _ _ _ := rfl

/-- The votes of the first validators for a batch. -/
def raceVotes (count : Nat) : List CommitVote :=
  (List.range count).map fun author => vote author commitLedgerInfo

/-- A batch and the votes of four validators, or of two. -/
def race (all : Bool) : CommitRace where
  author := 0
  epochState := epochState
  orderVoteEnabled := true
  highestCommittedRound := 0
  maxPendingRounds := 100
  before := []
  start := .new 0 epochState true 0 100
  reached := rfl
  running := rfl
  batch := { orderedBlocks := [orderedBlock], orderedProof := orderedProof }
  executed := [executedBlock]
  block := executedBlock
  number := 1
  info := none
  ledgerInfo := commitLedgerInfo
  fresh := by decide
  received := rfl
  room := by decide
  sameBlocks := rfl
  last := rfl
  numbered := rfl
  commitInfo := rfl
  builds := rfl
  timeKept := rfl
  orderedMatches := by decide
  sameRound := rfl
  roundBound := by decide
  undecided := nofun
  votes := raceVotes (if all then 4 else 2)
  distinct := by cases all <;> decide
  forLedgerInfo := by cases all <;> decide
  verified := by cases all <;> decide
  members := by cases all <;> decide
  inWindow := by decide
  uncached := rfl
  underLimit := by cases all <;> decide
  signature := .error "not signed"

def voteEvents (votes : List CommitVote) : List Event :=
  votes.map fun vote => .commitMessage (.vote vote)

/-- The votes arrive before the batch. -/
def votesFirst : List Event := voteEvents (raceVotes 4) ++ (race true).batchEvents

/-- The votes arrive after the execution. -/
def votesLast : List Event := (race true).batchEvents ++ voteEvents (raceVotes 4)

theorem votesFirst_interleaves : (race true).Interleaves votesFirst := ⟨.refl _, rfl⟩

theorem votesLast_interleaves : (race true).Interleaves votesLast := ⟨.refl _, rfl⟩

end FourValidators

open FourValidators

attribute [local instance] crypto ledgerApi pipelineApi

/-- With the votes of all four validators, the batch is aggregated. -/
theorem votes_any_order_four :
    ∃ m, (run step (.ok (race true).start) votesLast).2 = .ok m ∧
      ∃ request, m.persisted = [request] ∧
        request.commitLedgerInfo.ledgerInfo = commitLedgerInfo := by
  obtain ⟨m, hm, henough, -⟩ :=
    votes_any_order (race true) countsVotes votesLast votesLast_interleaves
  have hquorum : (race true).Enough (race true).votes := by
    change validators.IsQuorum _
    decide
  obtain ⟨earlier, used, shares, signatures, -, -, -, -, hpersisted⟩ := henough hquorum
  exact ⟨m, hm, _, hpersisted, rfl⟩

/-- Four votes that arrive first are all in the commit proof; when they arrive after the execution,
the first three are. -/
theorem signers_depend_on_order :
    (race true).Interleaves votesFirst ∧ (race true).Interleaves votesLast ∧
      CountsVotes (race true).verifier ∧
      (last (run step (.ok (race true).start) votesFirst).2).persisted.map
        (·.commitLedgerInfo.signatures.signers.length) = [4] ∧
      (last (run step (.ok (race true).start) votesLast).2).persisted.map
        (·.commitLedgerInfo.signatures.signers.length) = [3] := by
  exact ⟨votesFirst_interleaves, votesLast_interleaves, countsVotes, by decide, by decide⟩

end Liquent.Pipeline
