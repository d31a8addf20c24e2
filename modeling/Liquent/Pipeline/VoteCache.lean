import Liquent.Pipeline.CommitProof

/-!
# The cache of commit votes

Votes for blocks that are not in the buffer yet are kept by round, block and author
(`commit_vote_cache`).  An author may open two blocks of a round; a block that is open takes the
votes of all authors.  So every block of a round can be charged to the author who opened it, and the
validators bound the blocks of a round, as long as the persisted rounds do not fall.
-/

namespace Liquent.Pipeline

open Misc

/-- The votes for one block, each under its author. -/
structure VotesOk (votes : Table Author CommitVote) : Prop where
  nodup : votes.keys.Nodup
  authors : ∀ e ∈ votes, e.2.author = e.1

/-- The votes of one round. Every block is charged to an author who voted for it, none with more
than two. -/
structure RoundCacheOk (validators : Finset Author)
    (roundCache : Table HashValue (Table Author CommitVote)) : Prop where
  nodup : roundCache.keys.Nodup
  votes : ∀ id votes, roundCache.get id = some votes → VotesOk votes
  charged : ∃ opener : HashValue → Author,
    (∀ id votes, roundCache.get id = some votes → opener id ∈ votes.keys ∧ opener id ∈ validators) ∧
    ∀ author, {id ∈ roundCache.keys.toFinset | opener id = author}.card ≤
      maxCachedBlockIdsPerAuthorPerCommitVoteRound

/-- The invariant of the cache. -/
structure CacheOk (validators : Finset Author) (m : BufferManager) : Prop where
  window : ∀ round ∈ m.commitVoteCache.keys, m.highestCommittedRound < round ∧
    round < m.highestCommittedRound + m.maxPendingRoundsInCommitVoteCache
  rounds : ∀ round roundCache, m.commitVoteCache.get round = some roundCache →
    RoundCacheOk validators roundCache

/-- Cached rounds are in the window, a round has so many blocks at most, and a block one vote of an
author. -/
structure CacheBounded (validators : Finset Author) (m : BufferManager) : Prop where
  window : ∀ round ∈ m.commitVoteCache.keys, m.highestCommittedRound < round ∧
    round < m.highestCommittedRound + m.maxPendingRoundsInCommitVoteCache
  blockIds : ∀ round roundCache, m.commitVoteCache.get round = some roundCache →
    roundCache.length ≤ validators.card * maxCachedBlockIdsPerAuthorPerCommitVoteRound
  oneVote : ∀ round roundCache, m.commitVoteCache.get round = some roundCache →
    ∀ id votes, roundCache.get id = some votes → (votes.map (·.2.author)).Nodup

section

variable {validators : Finset Author} {roundCache : Table HashValue (Table Author CommitVote)}
  {id : HashValue} {vote : CommitVote} {m : BufferManager}

/-! ## One round -/

variable {votes : Table Author CommitVote}

theorem VotesOk.put (h : VotesOk votes) (vote : CommitVote) :
    VotesOk (votes.put vote.author vote) :=
  ⟨Table.nodup_keys_put h.nodup _ _, Table.forall_mem_put h.authors rfl⟩

theorem VotesOk.nodup_authors (h : VotesOk votes) : (votes.map (·.2.author)).Nodup := by
  have heq : votes.map (·.2.author) = votes.keys := by
    apply List.map_congr_left
    exact h.authors
  rw [heq]
  exact h.nodup

theorem roundCacheOk_empty : RoundCacheOk validators [] := by
  refine ⟨List.nodup_nil, ?_, fun _ => 0, ?_, ?_⟩
  · intro id votes hget
    cases hget
  · intro id votes hget
    cases hget
  · intro author
    simp [Table.keys]

/-- A round has two blocks for each validator at most. -/
theorem RoundCacheOk.length_le (h : RoundCacheOk validators roundCache) :
    roundCache.length ≤ validators.card * maxCachedBlockIdsPerAuthorPerCommitVoteRound := by
  obtain ⟨opener, hopener, hcount⟩ := h.charged
  have hmaps : ∀ id ∈ roundCache.keys.toFinset, opener id ∈ validators := by
    intro id hid
    obtain ⟨votes, hvotes⟩ := Table.mem_keys_iff_get.mp (List.mem_toFinset.mp hid)
    exact (hopener id votes hvotes).2
  have hcard := Finset.card_le_mul_card_image_of_maps_to hmaps _ fun author _ => hcount author
  rw [List.toFinset_card_of_nodup h.nodup] at hcard
  simpa [Table.keys, Nat.mul_comm] using hcard

theorem RoundCacheOk.addVote (h : RoundCacheOk validators roundCache)
    (hget : roundCache.get id = some votes) (vote : CommitVote) :
    RoundCacheOk validators (roundCache.put id (votes.put vote.author vote)) := by
  have hkeys : (roundCache.put id (votes.put vote.author vote)).keys.toFinset =
      roundCache.keys.toFinset := by
    ext key
    simp only [List.mem_toFinset, Table.mem_keys_put]
    constructor
    · rintro (rfl | hold)
      · exact Table.mem_keys_iff_get.mpr ⟨votes, hget⟩
      · exact hold
    · exact .inr
  obtain ⟨opener, hopener, hcount⟩ := h.charged
  refine ⟨Table.nodup_keys_put h.nodup _ _, ?_, opener, ?_, ?_⟩
  · exact Table.forall_get_put h.votes ((h.votes id votes hget).put vote)
  · obtain ⟨hmem, hvalidator⟩ := hopener id votes hget
    exact Table.forall_get_put hopener ⟨Table.mem_keys_put.mpr (.inr hmem), hvalidator⟩
  · rw [hkeys]
    exact hcount

/-- The blocks charged to an author have a vote of the author. -/
theorem card_charged_le {opener : HashValue → Author} {author : Author}
    (hopener : ∀ id votes, roundCache.get id = some votes → opener id ∈ votes.keys) :
    {id ∈ roundCache.keys.toFinset | opener id = author}.card ≤
      (roundCache.filter fun entry => (entry.2.get author).isSome).length := by
  have hsub : {id ∈ roundCache.keys.toFinset | opener id = author} ⊆
      ((roundCache.filter fun entry => (entry.2.get author).isSome).map (·.1)).toFinset := by
    intro id hid
    obtain ⟨hkey, hauthor⟩ := Finset.mem_filter.mp hid
    obtain ⟨votes, hvotes⟩ := Table.mem_keys_iff_get.mp (List.mem_toFinset.mp hkey)
    have hvoted := Table.mem_keys_iff.mp (hopener id votes hvotes)
    rw [hauthor] at hvoted
    apply List.mem_toFinset.mpr
    exact List.mem_map.mpr ⟨(id, votes), List.mem_filter.mpr ⟨Table.mem_of_get hvotes, hvoted⟩, rfl⟩
  calc _ ≤ _ := Finset.card_le_card hsub
    _ ≤ _ := List.toFinset_card_le _
    _ = _ := List.length_map _

/-- The author of a vote that opens a block has voted for less than two. -/
theorem RoundCacheOk.openBlock (h : RoundCacheOk validators roundCache)
    (hget : roundCache.get id = none)
    (hroom : (roundCache.filter fun entry => (entry.2.get vote.author).isSome).length <
      maxCachedBlockIdsPerAuthorPerCommitVoteRound) (hauthor : vote.author ∈ validators) :
    RoundCacheOk validators (roundCache.put id (Table.put [] vote.author vote)) := by
  have hfresh : id ∉ roundCache.keys := by
    intro hmem
    have hsome := Table.mem_keys_iff.mp hmem
    rw [hget] at hsome
    cases hsome
  obtain ⟨opener, hopener, hcount⟩ := h.charged
  refine ⟨Table.nodup_keys_put h.nodup _ _, ?_, Function.update opener id vote.author, ?_, ?_⟩
  · have hnil : VotesOk [] := ⟨List.nodup_nil, List.forall_mem_nil _⟩
    exact Table.forall_get_put h.votes (hnil.put vote)
  · intro key votes hvotes
    rw [Table.get_put] at hvotes
    split at hvotes
    · rename_i hkey
      obtain rfl := Option.some.inj hvotes
      rw [hkey, Function.update_self]
      exact ⟨List.mem_cons_self, hauthor⟩
    · rename_i hkey
      rw [Function.update_of_ne hkey]
      exact hopener key votes hvotes
  · intro author
    have hold : ∀ key ∈ roundCache.keys.toFinset,
        Function.update opener id vote.author key = opener key := by
      intro key hkey
      apply Function.update_of_ne
      rintro rfl
      exact hfresh (List.mem_toFinset.mp hkey)
    rw [Table.keys_put_new hfresh, List.toFinset_cons, Finset.filter_insert,
      Finset.filter_congr fun key hkey => by rw [hold key hkey], Function.update_self]
    split
    · rename_i hsame
      subst hsame
      have hle : {key ∈ roundCache.keys.toFinset | opener key = vote.author}.card ≤ _ :=
        card_charged_le fun id votes hvotes => (hopener id votes hvotes).1
      have hinsert :=
        Finset.card_insert_le id {key ∈ roundCache.keys.toFinset | opener key = vote.author}
      omega
    · exact hcount author

theorem RoundCacheOk.drop (h : RoundCacheOk validators roundCache) (id : HashValue) :
    RoundCacheOk validators (roundCache.retain (· ≠ id)) := by
  have hget : ∀ key votes, (roundCache.retain (· ≠ id)).get key = some votes →
      roundCache.get key = some votes := fun _ _ => Table.of_get_retain
  have hsub : (roundCache.retain (· ≠ id)).keys.toFinset ⊆ roundCache.keys.toFinset := by
    intro key hkey
    rw [List.mem_toFinset] at hkey ⊢
    exact (Table.mem_keys_retain.mp hkey).1
  obtain ⟨opener, hopener, hcount⟩ := h.charged
  refine ⟨?_, fun key votes hvotes => h.votes key votes (hget key votes hvotes), opener,
    fun key votes hvotes => hopener key votes (hget key votes hvotes), ?_⟩
  · exact h.nodup.sublist (List.Sublist.map _ List.filter_sublist)
  · intro author
    exact (Finset.card_le_card (Finset.filter_subset_filter _ hsub)).trans (hcount author)

/-! ## The manager -/

theorem CacheOk.bounded (h : CacheOk validators m) : CacheBounded validators m where
  window := h.window
  blockIds round roundCache hget := (h.rounds round roundCache hget).length_le
  oneVote round roundCache hget id votes hvotes :=
    ((h.rounds round roundCache hget).votes id votes hvotes).nodup_authors

theorem cacheOk_of_empty (h : m.commitVoteCache = []) : CacheOk validators m := by
  constructor
  · rw [h]
    exact List.forall_mem_nil _
  · intro round roundCache hget
    rw [h] at hget
    cases hget

section

variable (h : CacheOk validators m)

include h

theorem CacheOk.retain (keep : Nat → Bool) :
    CacheOk validators { m with commitVoteCache := m.commitVoteCache.retain keep } := by
  constructor
  · exact fun round hround => h.window round (Table.mem_keys_retain.mp hround).1
  · exact fun round roundCache hget => h.rounds round roundCache (Table.of_get_retain hget)

theorem CacheOk.put {round : Nat} (hwindow : m.highestCommittedRound < round ∧
      round < m.highestCommittedRound + m.maxPendingRoundsInCommitVoteCache)
    (hround : RoundCacheOk validators roundCache) :
    CacheOk validators { m with commitVoteCache := m.commitVoteCache.put round roundCache } := by
  constructor
  · intro round' hmem
    rcases Table.mem_keys_put.mp hmem with rfl | hold
    · exact hwindow
    · exact h.window round' hold
  · exact Table.forall_get_put h.rounds hround

theorem CacheOk.drainCachedCommitVotes (round : Nat) (id : HashValue) :
    CacheOk validators (m.drainCachedCommitVotes round id).2 := by
  unfold BufferManager.drainCachedCommitVotes
  split
  · rename_i roundCache hget
    have hmem : round ∈ m.commitVoteCache.keys := Table.mem_keys_iff_get.mpr ⟨_, hget⟩
    dsimp only
    split
    · exact h.retain _
    · exact h.put (h.window round hmem) ((h.rounds round roundCache hget).drop id)
  · exact h

theorem CacheOk.cacheCommitVote (hauthor : vote.author ∈ validators) :
    CacheOk validators (m.cacheCommitVote vote) := by
  unfold BufferManager.cacheCommitVote
  dsimp only
  generalize hcache : m.commitVoteCache.retain _ = cache
  have hretained : CacheOk validators { m with commitVoteCache := cache } := hcache ▸ h.retain _
  split
  · rename_i hclass
    have hwindow : m.highestCommittedRound < vote.commitInfo.round ∧ vote.commitInfo.round <
        m.highestCommittedRound + m.maxPendingRoundsInCommitVoteCache := by
      unfold classifyCommitVoteRound at hclass
      split_ifs at hclass
      omega
    have hround : RoundCacheOk validators ((cache.get vote.commitInfo.round).getD []) := by
      cases hget : cache.get vote.commitInfo.round with
      | none => exact roundCacheOk_empty
      | some roundCache => exact hretained.rounds _ roundCache hget
    generalize (cache.get vote.commitInfo.round).getD [] = roundCache at hround ⊢
    split
    · rename_i hcan
      refine hretained.put hwindow ?_
      cases hget : roundCache.get vote.commitInfo.id with
      | some votes => exact hround.addVote hget vote
      | none =>
        simp only [canCacheCommitVoteForBlock, hget, Option.isSome_none, Bool.false_or,
          decide_eq_true_eq] at hcan
        exact hround.openBlock hget hcan hauthor
    · exact hretained.put hwindow hround
  · exact hretained

end

theorem cacheOk_untouched : Untouched (CacheOk validators) where
  work h := ⟨h.window, h.rounds⟩
  drain h := h.drainCachedCommitVotes _ _

/-- A persisted round is not below the highest committed round. -/
def PersistsForward : Outcome BufferManager → Event → Prop
  | .ok m, .persistingResponse (.ok round) => m.highestCommittedRound ≤ round
  | _, _ => True

theorem CacheOk.handlePersistingResponse (h : CacheOk validators m) {result : Except String Nat}
    (hforward : PersistsForward (.ok m) (.persistingResponse result)) :
    CacheOk validators (m.handlePersistingResponse result) := by
  cases result with
  | error e => exact h
  | ok round =>
    have hretained := h.retain (round < ·)
    refine ⟨?_, hretained.rounds⟩
    intro cached hmem
    change cached ∈ (m.commitVoteCache.retain (round < ·)).keys at hmem
    obtain ⟨hmem, hlt⟩ := Table.mem_keys_retain.mp hmem
    have hwindow := h.window cached hmem
    have hle : m.highestCommittedRound ≤ round := hforward
    change round < cached ∧ cached < round + m.maxPendingRoundsInCommitVoteCache
    have hlt' : round < cached := by simpa using hlt
    omega

variable [Crypto] [LedgerApi] [PipelineApi]

theorem CacheOk.handle (h : CacheOk validators m) {event : Event}
    (hauthors : ∀ vote, event = .commitMessage (.vote vote) → vote.author ∈ validators)
    (hforward : PersistsForward (.ok m) event) :
    Ensures (m.handle event) (CacheOk validators) fun panic =>
      CacheOk validators panic.manager := by
  refine cacheOk_untouched.handle h ?_ ?_ ?_ ?_
  · exact fun vote hvote => h.cacheCommitVote (hauthors vote hvote)
  · exact fun _ _ blocks _ _ _ => ⟨h.window, h.rounds⟩
  · intro signal _
    cases signal with
    | stop | targetRound round => exact cacheOk_of_empty rfl
  · rintro result rfl
    exact h.handlePersistingResponse hforward

/-- In every run in which the persisted rounds do not fall, the cache stays bounded. -/
theorem commitVoteCache_bounded (hcache : m.commitVoteCache = []) {events : List Event}
    (hauthors : ∀ vote, .commitMessage (.vote vote) ∈ events → vote.author ∈ validators)
    (hforward : AlongRun BufferManager.step PersistsForward (.ok m) events) :
    CacheBounded validators (BufferManager.last (run BufferManager.step (.ok m) events).2) := by
  have hmembers : AlongRun BufferManager.step
      (fun _ event => ∀ vote, event = .commitMessage (.vote vote) → vote.author ∈ validators)
      (.ok m) events := by
    apply alongRun_of_forall
    rintro event hevent vote rfl
    exact hauthors vote hevent
  have hstep : ∀ (x : Outcome BufferManager) event, (PersistsForward x event ∧
        ∀ vote, event = .commitMessage (.vote vote) → vote.author ∈ validators) →
      CacheOk validators (BufferManager.last x) →
      CacheOk validators (BufferManager.last (BufferManager.step x event).2) := by
    rintro x event ⟨hforward, hvalidators⟩ hx
    cases x with
    | error panic => exact hx
    | ok m =>
      have hm : CacheOk validators m := hx
      have hhandled := hm.handle hvalidators hforward
      change CacheOk validators (BufferManager.last (m.handle event))
      generalize m.handle event = result at hhandled ⊢
      cases result with
      | ok | error => exact hhandled
  exact (AlongRun.invariant (I := fun x => CacheOk validators (BufferManager.last x)) hstep
    (hforward.and hmembers) (cacheOk_of_empty hcache)).bounded

end

/-! ## Votes ahead of the batches -/

namespace FourValidators

local instance : Crypto := crypto

/-- A vote for the block of a round. -/
def voteAt (author : Author) (round : Nat) : Event :=
  .commitMessage (.vote (vote author
    (.newWithBlockInfo { executedBlock.blockInfo with round := round, id := round } 0 77 1)))

end FourValidators

open FourValidators

attribute [local instance] crypto ledgerApi pipelineApi

/-- Two validators vote for the block of round 5, and round 3 is persisted. -/
theorem commitVoteCache_bounded_twoVotes : CacheBounded {0, 1, 2, 3}
      (BufferManager.last (run BufferManager.step (.ok (.new 0 epochState true 0 10))
      [voteAt 0 5, voteAt 1 5, .persistingResponse (.ok 3)]).2) := by
  refine commitVoteCache_bounded rfl ?_ ⟨trivial, trivial, Nat.zero_le _, trivial⟩
  intro vote hvote
  simp only [voteAt, List.mem_cons, List.not_mem_nil, or_false, Event.commitMessage.injEq,
    CommitMessage.vote.injEq, reduceCtorEq] at hvote
  rcases hvote with rfl | rfl
  · decide
  · decide

/-- After a reset to round 10 a vote for round 15 is cached. A late response to a request for round
3 then moves the window below the vote. -/
theorem cachedVote_outsideWindow :
    let m := BufferManager.last (run BufferManager.step (.ok (.new 0 epochState true 0 10))
      [.reset (.targetRound 10), voteAt 0 15, .persistingResponse (.ok 3)]).2
    m.commitVoteCache.keys = [15] ∧ m.highestCommittedRound = 3 ∧
      m.maxPendingRoundsInCommitVoteCache = 10 ∧ ¬ CacheBounded {0, 1, 2, 3} m := by
  refine ⟨rfl, rfl, rfl, ?_⟩
  intro hbounded
  exact absurd (hbounded.window 15 (by decide)).2 (by decide)

end Liquent.Pipeline
