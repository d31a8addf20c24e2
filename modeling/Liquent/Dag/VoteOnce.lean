import Liquent.Dag.RbHandler
import Liquent.Misc.Lists

/-!
# One vote for a slot

Whatever the order in which the sections of the calls run, a validator signs one node for a slot,
and the row into which it inserts its vote is there, as long as no garbage collection removes a
round while a call for a node of that round is between the check of the window and the insertion of
its vote.  Without that condition both fail: the check, the search for an earlier vote and the
insertion are sections of their own, and the votes of a round that has left the window can be gone
by the time a call that passed the check looks for them.
-/

namespace Liquent.Dag

open Misc

/-- The call has passed the check of the window, and its vote is not among the votes yet. -/
def ProcessStage.isVoting : ProcessStage → Bool
  | .locked => false
  | .validated => true
  | .unanswered => true
  | .stored _ => true
  | .inserted _ => false

namespace NodeBroadcastHandler

/-- No slot has votes for two nodes, and the row for a vote has always been there. -/
structure VotesOnce (h : NodeBroadcastHandler) : Prop where
  onePerSlot : ∀ v ∈ h.signed, ∀ v' ∈ h.signed, v.metadata.nodeId = v'.metadata.nodeId →
    v.metadata.digest = v'.metadata.digest
  mustExist : h.mustExistFailed = false

/-- Garbage collection does not remove the round of a call that is voting, and a restart does not
move the window back. -/
def KeepsVoters (h : NodeBroadcastHandler) : Section → Prop
  | .resumeGc call _ =>
    match h.gcs.get call with
    | some (.lowestRound minRound) =>
      ∀ e ∈ h.calls, e.2.stage.isVoting = true → minRound ≤ e.2.node.round
    | _ => True
  | .restart dag => h.dag.lowestRound ≤ dag.lowestRound
  | _ => True

/-- What is known of a call at each stage, when votes of rounds below `collected` may have been
removed. -/
def CallSound (h : NodeBroadcastHandler) (collected : Nat) (node : Node) : ProcessStage → Prop
  | .locked => True
  | .validated => node.epoch = h.config.epochState.epoch ∧ collected ≤ node.round
  | .unanswered =>
    node.epoch = h.config.epochState.epoch ∧ collected ≤ node.round ∧
      (Table.get h.votesByRoundPeer node.round).isSome ∧
      ∀ v ∈ h.signed, v.metadata.nodeId ≠ node.id
  | .stored vote =>
    collected ≤ node.round ∧ (Table.get h.votesByRoundPeer node.round).isSome ∧
      vote ∈ h.signed ∧ vote.metadata = node.metadata
  | .inserted _ => True

/-- A signed vote is in storage, and in memory unless its call is about to put it there. -/
structure Remembered (h : NodeBroadcastHandler) (v : Vote) : Prop where
  epoch : v.metadata.nodeId.epoch = h.config.epochState.epoch
  storage : ∃ v', h.storage.get v.metadata.nodeId = some v' ∧ v'.metadata.digest = v.metadata.digest
  memory :
    (∃ v', h.votesByRoundPeer.vote v.metadata.nodeId.round v.metadata.nodeId.author = some v' ∧
      v'.metadata.digest = v.metadata.digest) ∨
    ∃ i c v', h.calls.get i = some c ∧ c.stage = .stored v' ∧ c.node.id = v.metadata.nodeId

/-- What is known of a garbage collection under way. -/
def GcSound (h : NodeBroadcastHandler) (collected : Nat) : GcStage → Prop
  | .lowestRound minRound => minRound ≤ h.dag.lowestRound
  | .removed ids => ∀ id ∈ ids, id.round < collected

structure Sound (h : NodeBroadcastHandler) (collected : Nat) : Prop where
  window : collected ≤ h.dag.lowestRound
  gcs : ∀ i stage, h.gcs.get i = some stage → h.GcSound collected stage
  locks : ∀ i c, h.calls.get i = some c → c.key ∈ h.votesFineGrainedLock
  exclusive : ∀ i c i' c', h.calls.get i = some c → h.calls.get i' = some c' → c.key = c'.key →
    i = i'
  calls : ∀ i c, h.calls.get i = some c → h.CallSound collected c.node c.stage
  remembered : ∀ v ∈ h.signed, collected ≤ v.metadata.nodeId.round → h.Remembered v
  once : h.VotesOnce

section Steps

variable {h h' : NodeBroadcastHandler} {collected collected' : Nat} {call : Nat} {node : Node}
  {stage : ProcessStage}

/-- What a call knows is kept when no row goes away and no other vote is signed for its slot. -/
theorem CallSound.mono (hs : h.CallSound collected node stage) (hconfig : h'.config = h.config)
    (hround : stage.isVoting = true → collected' ≤ node.round)
    (hrow : stage.isVoting = true → (Table.get h.votesByRoundPeer node.round).isSome →
      (Table.get h'.votesByRoundPeer node.round).isSome)
    (hsigned : ∀ v ∈ h.signed, v ∈ h'.signed)
    (hnew : ∀ v ∈ h'.signed, v ∈ h.signed ∨ v.metadata.nodeId ≠ node.id) :
    h'.CallSound collected' node stage := by
  cases stage with
  | locked | inserted vote => trivial
  | validated => exact ⟨by rw [hconfig]; exact hs.1, hround rfl⟩
  | unanswered =>
    obtain ⟨hepoch, -, hsome, hfresh⟩ := hs
    refine ⟨by rw [hconfig]; exact hepoch, hround rfl, hrow rfl hsome, ?_⟩
    intro v hv
    rcases hnew v hv with hold | hne
    · exact hfresh v hold
    · exact hne
  | stored vote =>
    obtain ⟨-, hsome, hmem, hmeta⟩ := hs
    exact ⟨hround rfl, hrow rfl hsome, hsigned vote hmem, hmeta⟩

/-- The round of a call that is voting has not been collected. -/
theorem CallSound.collected_le (hs : h.CallSound collected node stage)
    (hvoting : stage.isVoting = true) : collected ≤ node.round := by
  cases stage with
  | locked | inserted vote => cases hvoting
  | validated => exact hs.2
  | unanswered => exact hs.2.1
  | stored vote => exact hs.1

/-- A vote stays remembered when the call that is about to put it in memory goes on. -/
theorem Remembered.of_calls {v : Vote} (hv : h.Remembered v) (hconfig : h'.config = h.config)
    (hstorage : h'.storage.get v.metadata.nodeId = h.storage.get v.metadata.nodeId)
    (hmemory : h'.votesByRoundPeer.vote v.metadata.nodeId.round v.metadata.nodeId.author =
      h.votesByRoundPeer.vote v.metadata.nodeId.round v.metadata.nodeId.author)
    (hcalls : ∀ i c v', h.calls.get i = some c → c.stage = .stored v' → h'.calls.get i = some c) :
    h'.Remembered v := by
  obtain ⟨hepoch, hstored, hvote⟩ := hv
  refine ⟨hconfig ▸ hepoch, hstorage ▸ hstored, hvote.imp (fun hvote => hmemory ▸ hvote) ?_⟩
  rintro ⟨i, c, v', hi, hstage, hid⟩
  exact ⟨i, c, v', hcalls i c v' hi hstage, hstage, hid⟩

/-- Calls that are voting keep their rows, and rounds that have not been collected their votes. -/
theorem Sound.of_sameCalls (hs : h.Sound collected)
    (hsame : (h'.config, h'.votesFineGrainedLock, h'.calls, h'.signed, h'.mustExistFailed) =
      (h.config, h.votesFineGrainedLock, h.calls, h.signed, h.mustExistFailed))
    (hle : collected ≤ collected') (hwindow : collected' ≤ h'.dag.lowestRound)
    (hdag : h.dag.lowestRound ≤ h'.dag.lowestRound)
    (hgcs : ∀ i gc, h'.gcs.get i = some gc → h.gcs.get i = some gc ∨ h'.GcSound collected' gc)
    (hrows : ∀ e ∈ h.calls, e.2.stage.isVoting = true → collected ≤ e.2.node.round →
      collected' ≤ e.2.node.round ∧ ((Table.get h.votesByRoundPeer e.2.node.round).isSome →
        (Table.get h'.votesByRoundPeer e.2.node.round).isSome))
    (hvotes : ∀ id : NodeId, collected' ≤ id.round → h'.storage.get id = h.storage.get id ∧
      h'.votesByRoundPeer.vote id.round id.author = h.votesByRoundPeer.vote id.round id.author) :
    h'.Sound collected' := by
  cases h'
  simp only [Prod.mk.injEq] at hsame
  obtain ⟨rfl, rfl, rfl, rfl, rfl⟩ := hsame
  refine ⟨hwindow, ?_, hs.locks, hs.exclusive, ?_, ?_, hs.once.onePerSlot, hs.once.mustExist⟩
  · intro i gc hi
    rcases hgcs i gc hi with hi | hgc
    · have hold := hs.gcs i gc hi
      cases gc with
      | lowestRound minRound => exact le_trans hold hdag
      | removed ids => exact fun id hid => (hold id hid).trans_le hle
    · exact hgc
  · intro i c hi
    have hold := hs.calls i c hi
    have hrow :=
      fun hvoting => hrows (i, c) (Table.mem_of_get hi) hvoting (hold.collected_le hvoting)
    exact hold.mono rfl (fun hvoting => (hrow hvoting).1) (fun hvoting => (hrow hvoting).2)
      (fun v hv => hv) fun v hv => .inl hv
  · intro v hv hround
    obtain ⟨hstorage, hmemory⟩ := hvotes v.metadata.nodeId hround
    exact (hs.remembered v hv (hle.trans hround)).of_calls rfl hstorage hmemory
      fun i c v' hi _ => hi

/-! ## Calls of `process` -/

theorem Sound.lock (hs : h.Sound collected) (hcall : h.calls.get call = none)
    (hfree : (node.round, node.author) ∉ h.votesFineGrainedLock) :
    ({ h with votesFineGrainedLock := (node.round, node.author) :: h.votesFineGrainedLock }.setStage
      call node .locked).Sound collected := by
  refine ⟨hs.window, hs.gcs, ?_, ?_, ?_, ?_, ⟨hs.once.onePerSlot, hs.once.mustExist⟩⟩
  · exact Table.forall_get_put (fun i c hi => List.mem_cons_of_mem _ (hs.locks i c hi))
      List.mem_cons_self
  · intro i c i' c' hi hi' hkey
    simp only [setStage, Table.get_put] at hi hi'
    split_ifs at hi hi' with heq heq' heq'
    · rw [heq, heq']
    · obtain rfl := Option.some.inj hi
      have := hs.locks i' c' hi'
      rw [← hkey] at this
      exact absurd this hfree
    · obtain rfl := Option.some.inj hi'
      have := hs.locks i c hi
      rw [hkey] at this
      exact absurd this hfree
    · exact hs.exclusive i c i' c' hi hi' hkey
  · refine Table.forall_get_put (fun i c hi => ?_) trivial
    have hold := hs.calls i c hi
    exact hold.mono rfl hold.collected_le (fun _ hrow => hrow) (fun v hv => hv) fun v hv => .inl hv
  · intro v hv hround
    refine (hs.remembered v hv hround).of_calls rfl rfl rfl fun i c v' hi _ => ?_
    have hne : i ≠ call := by
      rintro rfl
      simp [hcall] at hi
    exact (Table.get_put_of_ne hne).trans hi

/-- A call that holds the lock ends, having put its vote in memory if it made one. -/
theorem Sound.finish (hs : h.Sound collected)
    (hcall : h.calls.get call = some ⟨node, stage⟩) (hstage : ∀ v, stage ≠ .stored v) :
    (h.finish call node).Sound collected := by
  have hget : ∀ {i c}, (h.finish call node).calls.get i = some c →
      i ≠ call ∧ h.calls.get i = some c := by
    intro i c hi
    simp only [NodeBroadcastHandler.finish, Table.get_retain] at hi
    by_cases heq : i = call
    · simp [heq] at hi
    · exact ⟨heq, by simpa [heq] using hi⟩
  refine ⟨hs.window, hs.gcs, ?_, ?_, ?_, ?_, ⟨hs.once.onePerSlot, hs.once.mustExist⟩⟩
  · intro i c hi
    obtain ⟨hne, hi⟩ := hget hi
    apply List.mem_filter.mpr
    refine ⟨hs.locks i c hi, ?_⟩
    have hkey : c.key ≠ (node.round, node.author) :=
      fun heq => hne (hs.exclusive i c call _ hi hcall heq)
    simpa using hkey
  · intro i c i' c' hi hi' hkey
    exact hs.exclusive i c i' c' (hget hi).2 (hget hi').2 hkey
  · intro i c hi
    have hold := hs.calls i c (hget hi).2
    exact hold.mono rfl hold.collected_le (fun _ hrow => hrow) (fun v hv => hv) fun v hv => .inl hv
  · intro v hv hround
    refine (hs.remembered v hv hround).of_calls rfl rfl rfl fun i c v' hi hstored => ?_
    have hne : i ≠ call := by
      rintro rfl
      rw [hcall] at hi
      obtain rfl := Option.some.inj hi
      exact hstage v' hstored
    simp only [NodeBroadcastHandler.finish, Table.get_retain]
    simpa [hne] using hi

/-- The sections of a call that touch nothing but votes. -/
structure OnlyVotes (h h' : NodeBroadcastHandler) : Prop where
  config : h'.config = h.config
  dag : h'.dag = h.dag
  gcs : h'.gcs = h.gcs
  locks : h'.votesFineGrainedLock = h.votesFineGrainedLock
  calls : h'.calls = h.calls

/-- A call moves on, possibly after it has changed what is known of its slot. -/
theorem Sound.setStage {old : ProcessStage} (hs : h.Sound collected)
    (hcall : h.calls.get call = some ⟨node, old⟩) (honly : OnlyVotes h h')
    (hrow : ∀ round, (Table.get h.votesByRoundPeer round).isSome →
      (Table.get h'.votesByRoundPeer round).isSome)
    (hsigned : ∀ v ∈ h.signed, v ∈ h'.signed)
    (hnew : ∀ v ∈ h'.signed, v ∈ h.signed ∨ v.metadata.nodeId = node.id)
    (hstage : (h'.setStage call node stage).CallSound collected node stage)
    (hremembered : ∀ v ∈ h'.signed, collected ≤ v.metadata.nodeId.round →
      (h'.setStage call node stage).Remembered v)
    (honce : h'.VotesOnce) : (h'.setStage call node stage).Sound collected := by
  cases h'
  obtain ⟨rfl, rfl, rfl, rfl, rfl⟩ := honly
  have hget : ∀ {i c}, (h.calls.put call ⟨node, stage⟩).get i = some c →
      (i = call ∧ c = ⟨node, stage⟩) ∨ (i ≠ call ∧ h.calls.get i = some c) := by
    intro i c hi
    rw [Table.get_put] at hi
    split_ifs at hi with heq
    · exact .inl ⟨heq, (Option.some.inj hi).symm⟩
    · exact .inr ⟨heq, hi⟩
  have hkey : ∀ {i c}, (h.calls.put call ⟨node, stage⟩).get i = some c →
      ∃ c', h.calls.get i = some c' ∧ c'.key = c.key := by
    intro i c hi
    rcases hget hi with ⟨rfl, rfl⟩ | ⟨-, hi⟩
    · exact ⟨_, hcall, rfl⟩
    · exact ⟨c, hi, rfl⟩
  refine ⟨hs.window, hs.gcs, ?_, ?_, ?_, hremembered, ⟨honce.onePerSlot, honce.mustExist⟩⟩
  · intro i c hi
    obtain ⟨c', hi', hc'⟩ := hkey hi
    rw [← hc']
    exact hs.locks i c' hi'
  · intro i c i' c' hi hi' hsame
    obtain ⟨c₁, hi₁, hc₁⟩ := hkey hi
    obtain ⟨c₂, hi₂, hc₂⟩ := hkey hi'
    exact hs.exclusive i c₁ i' c₂ hi₁ hi₂ (by rw [hc₁, hc₂, hsame])
  · intro i c hi
    rcases hget hi with ⟨-, rfl⟩ | ⟨hne, hi⟩
    · exact hstage
    · have hold := hs.calls i c hi
      refine hold.mono rfl hold.collected_le (fun _ => hrow c.node.round) hsigned ?_
      intro v hv
      rcases hnew v hv with hv | hv
      · exact .inl hv
      · -- a new vote is for the slot of the call that moves, which no other call holds
        right
        intro heq
        apply hne
        have hid : c.node.id = node.id := by rw [← heq, hv]
        apply hs.exclusive i c call _ hi hcall
        have hround : c.node.round = node.round := congrArg NodeId.round hid
        have hauthor : c.node.author = node.author := congrArg NodeId.author hid
        simp only [ProcessCall.key, hround, hauthor]

/-- A vote stays remembered while a call other than the one that made it moves on. -/
theorem Remembered.setStage {v : Vote} {old : ProcessStage} (hv : h.Remembered v)
    (hcall : h.calls.get call = some ⟨node, old⟩) (hold : ∀ v', old ≠ .stored v')
    (honly : OnlyVotes h h')
    (hstorage : h'.storage.get v.metadata.nodeId = h.storage.get v.metadata.nodeId)
    (hmemory : h'.votesByRoundPeer.vote v.metadata.nodeId.round v.metadata.nodeId.author =
      h.votesByRoundPeer.vote v.metadata.nodeId.round v.metadata.nodeId.author) :
    (h'.setStage call node stage).Remembered v := by
  refine hv.of_calls honly.config hstorage hmemory fun i c v' hi hstored => ?_
  have hne : i ≠ call := by
    rintro rfl
    rw [hcall] at hi
    obtain rfl := Option.some.inj hi
    exact hold v' hstored
  simp only [NodeBroadcastHandler.setStage, Table.get_put, if_neg hne, honly.calls]
  exact hi

theorem OnlyVotes.refl (h : NodeBroadcastHandler) : OnlyVotes h h := ⟨rfl, rfl, rfl, rfl, rfl⟩

section

variable (hs : h.Sound collected)

include hs

theorem Sound.orDefault (round : Nat) :
    { h with votesByRoundPeer := h.votesByRoundPeer.orDefault round }.Sound collected := by
  refine hs.of_sameCalls rfl le_rfl hs.window le_rfl (fun _ _ hi => .inl hi) ?_
    fun id _ => ⟨rfl, VotesByRoundPeer.vote_orDefault ..⟩
  intro e _ _ hle
  refine ⟨hle, fun hsome => ?_⟩
  simp only [VotesByRoundPeer.orDefault, Table.get_put]
  split_ifs
  · rfl
  · exact hsome

theorem Sound.withDag {dag : InMemDag}
    (hwindow : h.dag.lowestRound ≤ dag.lowestRound) : { h with dag }.Sound collected := by
  exact hs.of_sameCalls rfl le_rfl (hs.window.trans hwindow) hwindow (fun _ _ hi => .inl hi)
    (fun _ _ _ hle => ⟨hle, id⟩) fun _ _ => ⟨rfl, rfl⟩

/-- A slot that has not been collected and for which no vote is found has none. -/
theorem Sound.not_signed (hcall : h.calls.get call = some ⟨node, .validated⟩)
    (hvote : h.votesByRoundPeer.vote node.round node.author = none) :
    ∀ v ∈ h.signed, v.metadata.nodeId ≠ node.id := by
  intro v hv heq
  have hround : collected ≤ v.metadata.nodeId.round := by
    rw [heq]
    exact (hs.calls call _ hcall).2
  rcases (hs.remembered v hv hround).memory with ⟨v', hmemory, -⟩ | ⟨i, c, v', hi, hstored, hid⟩
  · simp [heq, Node.id_round, Node.id_author, hvote] at hmemory
  · -- the call that has stored the vote would hold the same lock
    have hnode : c.node.id = node.id := hid.trans heq
    have hkey : c.key = (node.round, node.author) :=
      Prod.ext (congrArg NodeId.round hnode) (congrArg NodeId.author hnode)
    obtain rfl := hs.exclusive i c call _ hi hcall hkey
    rw [hcall] at hi
    obtain rfl := Option.some.inj hi
    cases hstored

theorem Sound.start (hcall : h.calls.get call = none)
    (stopVoting : Bool) : (h.start call node stopVoting).2.Sound collected := by
  unfold NodeBroadcastHandler.start
  split_ifs with hstop hheld
  · exact hs
  · exact hs
  · exact hs.lock hcall hheld

end

/-! ## Garbage collection and restarts -/

variable {storageOk : Bool}

section

variable (hs : h.Sound collected)

include hs

theorem Sound.readWindow :
    { h with gcs := h.gcs.put call (.lowestRound h.dag.lowestRound) }.Sound collected := by
  refine hs.of_sameCalls rfl le_rfl hs.window le_rfl ?_ (fun _ _ _ hle => ⟨hle, id⟩)
    fun _ _ => ⟨rfl, rfl⟩
  exact Table.forall_get_put (fun _ _ hi => .inl hi) (.inr (le_refl h.dag.lowestRound))

/-- Votes before the window are removed from memory, if no call is voting for one of them. -/
theorem Sound.collect {minRound : Nat} (hgc : h.gcs.get call = some (.lowestRound minRound))
    (hvoters : ∀ e ∈ h.calls, e.2.stage.isVoting = true → minRound ≤ e.2.node.round) :
    (h.continueGc call storageOk (.lowestRound minRound)).Sound (max collected minRound) := by
  have hmin : minRound ≤ h.dag.lowestRound := hs.gcs call _ hgc
  refine hs.of_sameCalls rfl (le_max_left _ _) (max_le hs.window hmin) le_rfl ?_ ?_ ?_
  · exact Table.forall_get_put (fun _ _ hi => .inl hi)
      (.inr fun id hid => lt_max_of_lt_right (VotesByRoundPeer.round_lt_of_mem_toDelete hid))
  · intro e he hvoting hle
    refine ⟨max_le hle (hvoters e he hvoting), fun hsome => ?_⟩
    exact (VotesByRoundPeer.get_retained (hvoters e he hvoting)).symm ▸ hsome
  · intro id hround
    exact ⟨rfl, VotesByRoundPeer.vote_retained ((le_max_right _ _).trans hround)⟩

/-- The votes that were removed from memory are removed from storage. -/
theorem Sound.deleteVotes {ids : List NodeId} (hgc : h.gcs.get call = some (.removed ids)) :
    (h.continueGc call storageOk (.removed ids)).Sound collected := by
  have hids : ∀ id ∈ ids, id.round < collected := hs.gcs call _ hgc
  refine hs.of_sameCalls rfl le_rfl hs.window le_rfl ?_
    (fun _ _ _ hle => ⟨hle, fun hrow => hrow⟩) ?_
  · intro i gc hi
    simp only [continueGc, Table.get_retain] at hi
    split_ifs at hi with hne
    exact .inl hi
  · intro id hround
    refine ⟨?_, rfl⟩
    have hkept : id ∉ ids := fun hmem => absurd (hids id hmem) (not_lt.mpr hround)
    cases storageOk with
    | false => rfl
    | true =>
      simp only [continueGc, if_true, Table.get_retain, hkept, not_false_eq_true, decide_true]

/-- After a restart the votes of the epoch are read back. -/
theorem Sound.restart {dag : InMemDag}
    (hwindow : h.dag.lowestRound ≤ dag.lowestRound) : (h.restart dag).Sound collected := by
  refine ⟨hs.window.trans hwindow, by rintro _ _ ⟨⟩, by rintro _ _ ⟨⟩, by rintro _ _ _ _ ⟨⟩,
    by rintro _ _ ⟨⟩, ?_, ⟨hs.once.onePerSlot, hs.once.mustExist⟩⟩
  intro v hv hround
  obtain ⟨hepoch, ⟨v', hget, hdigest⟩, -⟩ := hs.remembered v hv hround
  refine ⟨hepoch, ⟨v', ?_, hdigest⟩, .inl ⟨v', ?_, hdigest⟩⟩
  · simp only [NodeBroadcastHandler.restart, new, readVotesFromStorage, Table.get_retain, hepoch,
      decide_true, if_true]
    exact hget
  · exact (readVotesFromStorage_vote hepoch).trans hget

end

/-! ## The sections of `process` -/

variable [DagApi] (hs : h.Sound collected)

include hs

theorem Sound.fromLocked (hcall : h.calls.get call = some ⟨node, .locked⟩) :
    (h.continueFrom call node storageOk .locked).2.Sound collected := by
  have hstage : ∀ v, ProcessStage.locked ≠ .stored v := nofun
  simp only [continueFrom]
  cases hvalid : h.config.validate h.dag node with
  | error e => exact hs.finish hcall hstage
  | ok u =>
    obtain ⟨hepoch, hround⟩ := HandlerConfig.validate_ok hvalid
    apply hs.setStage hcall (.refl h) (fun _ hrow => hrow) (fun v hv => hv) (fun v hv => .inl hv)
    · exact ⟨hepoch, hs.window.trans hround⟩
    · intro v hv hv'
      exact (hs.remembered v hv hv').setStage hcall hstage (.refl h) rfl rfl
    · exact hs.once

theorem Sound.fromValidated (hcall : h.calls.get call = some ⟨node, .validated⟩) :
    (h.continueFrom call node storageOk .validated).2.Sound collected := by
  have hstage : ∀ v, ProcessStage.validated ≠ .stored v := nofun
  have hlooked := hs.orDefault node.round
  simp only [continueFrom]
  cases hvote : h.votesByRoundPeer.vote node.round node.author with
  | some ack => exact hlooked.finish hcall hstage
  | none =>
    obtain ⟨hepoch, hround⟩ := hs.calls call _ hcall
    apply hlooked.setStage hcall (.refl _) (fun _ hrow => hrow) (fun v hv => hv)
      (fun v hv => .inl hv)
    · refine ⟨hepoch, hround, ?_, hs.not_signed hcall hvote⟩
      simp [NodeBroadcastHandler.setStage, VotesByRoundPeer.orDefault, Table.get_put_self]
    · intro v hv hv'
      exact (hlooked.remembered v hv hv').setStage hcall hstage (.refl _) rfl rfl
    · exact hlooked.once

theorem Sound.fromUnanswered (hcall : h.calls.get call = some ⟨node, .unanswered⟩) :
    (h.continueFrom call node storageOk .unanswered).2.Sound collected := by
  have hstage : ∀ v, ProcessStage.unanswered ≠ .stored v := nofun
  obtain ⟨hepoch, hround, hrow, hfresh⟩ := hs.calls call _ hcall
  simp only [continueFrom]
  cases hsign : node.signVote h.config.signer with
  | error e => exact hs.finish hcall hstage
  | ok signature =>
    cases storageOk with
    | false => exact hs.finish hcall hstage
    | true =>
      simp only [if_true]
      refine hs.setStage hcall ⟨rfl, rfl, rfl, rfl, rfl⟩ (fun _ hsome => hsome)
        (fun v hv => List.mem_append_left _ hv) ?_ ?_ ?_ ?_
      · exact forall_mem_snoc (fun _ hv => .inl hv) (.inr rfl)
      · exact ⟨hround, hrow, List.mem_append_right _ (List.mem_singleton_self _), rfl⟩
      · refine forall_mem_snoc (fun v hv hv' => ?_) fun _ =>
          ⟨hepoch, ⟨_, Table.get_put_self, rfl⟩, .inr ⟨call, _, _, Table.get_put_self, rfl, rfl⟩⟩
        refine (hs.remembered v hv hv').setStage hcall hstage ⟨rfl, rfl, rfl, rfl, rfl⟩ ?_ rfl
        exact Table.get_put_of_ne (hfresh v hv)
      · refine ⟨forall_mem_snoc ?_ ?_, hs.once.mustExist⟩
        · intro v hv
          exact forall_mem_snoc (hs.once.onePerSlot v hv) fun hslot => absurd hslot (hfresh v hv)
        · exact forall_mem_snoc (fun v hv hslot => absurd hslot.symm (hfresh v hv)) fun _ => rfl

theorem Sound.fromStored {vote : Vote} (hcall : h.calls.get call = some ⟨node, .stored vote⟩) :
    (h.continueFrom call node storageOk (.stored vote)).2.Sound collected := by
  obtain ⟨hround, hrow, hsigned, hmeta⟩ := hs.calls call _ hcall
  have hvoteId : vote.metadata.nodeId = node.id := congrArg NodeMetadata.nodeId hmeta
  have hvote := hs.remembered vote hsigned (by rw [hvoteId]; exact hround)
  simp only [continueFrom]
  obtain ⟨row, hget⟩ := Option.isSome_iff_exists.mp hrow
  have hput : Table.put h.votesByRoundPeer node.round (row.put node.author vote) =
      h.votesByRoundPeer.insert node.round node.author vote := by
    simp only [VotesByRoundPeer.insert]
    rw [show Table.get h.votesByRoundPeer node.round = some row from hget]
    rfl
  rw [show Table.get h.votesByRoundPeer node.round = some row from hget]
  simp only [hput]
  refine hs.setStage hcall ⟨rfl, rfl, rfl, rfl, rfl⟩ ?_ (fun v hv => hv) (fun v hv => .inl hv)
    trivial ?_ ⟨hs.once.onePerSlot, hs.once.mustExist⟩
  · intro round hsome
    simp only [VotesByRoundPeer.insert, Table.get_put]
    split_ifs
    · rfl
    · exact hsome
  · intro v hv hv'
    have hold := hs.remembered v hv hv'
    refine ⟨hold.epoch, hold.storage, ?_⟩
    by_cases hslot : v.metadata.nodeId.round = node.round ∧ v.metadata.nodeId.author = node.author
    · -- the vote that is inserted is for the same slot, hence for the same node
      refine .inl ⟨vote, ?_, ?_⟩
      · rw [hslot.1, hslot.2]
        exact VotesByRoundPeer.vote_insert_self vote
      · apply hs.once.onePerSlot vote hsigned v hv
        rcases hid : v.metadata.nodeId with ⟨epoch, round, author⟩
        have hepoch := hold.epoch.trans hvote.epoch.symm
        rw [hid] at hslot hepoch
        rw [hvoteId] at hepoch ⊢
        obtain ⟨rfl, rfl⟩ := hslot
        simp only [Node.id_epoch] at hepoch
        rw [hepoch]
        rfl
    · rcases hold.memory with ⟨v', hmemory, hdigest⟩ | ⟨i, c, v', hi, hstored, hid⟩
      · exact .inl ⟨v', (VotesByRoundPeer.vote_insert_of_ne hslot).trans hmemory, hdigest⟩
      · refine .inr ⟨i, c, v', ?_, hstored, hid⟩
        have hne : i ≠ call := by
          rintro rfl
          rw [hcall] at hi
          obtain rfl := Option.some.inj hi
          exact hslot ⟨congrArg NodeId.round hid.symm, congrArg NodeId.author hid.symm⟩
        exact (Table.get_put_of_ne hne).trans hi

theorem Sound.fromInserted {vote : Vote} (hcall : h.calls.get call = some ⟨node, .inserted vote⟩) :
    (h.continueFrom call node storageOk (.inserted vote)).2.Sound collected := by
  have hstage : ∀ v, ProcessStage.inserted vote ≠ .stored v := nofun
  simp only [continueFrom]
  have hwindow := (InMemDag.updateVotes_moves node false h.dag).startRound.ge
  cases hvotes : InMemDag.updateVotes node false h.dag with
  | ok _ dag | error _ dag =>
    rw [hvotes] at hwindow
    exact (hs.withDag hwindow).finish hcall hstage

theorem Sound.continueFrom (hcall : h.calls.get call = some ⟨node, stage⟩) :
    (h.continueFrom call node storageOk stage).2.Sound collected := by
  cases stage with
  | locked => exact hs.fromLocked hcall
  | validated => exact hs.fromValidated hcall
  | unanswered => exact hs.fromUnanswered hcall
  | stored vote => exact hs.fromStored hcall
  | inserted vote => exact hs.fromInserted hcall

theorem Sound.step (s : Section) (hkeeps : h.KeepsVoters s) :
    ∃ collected', (h.step s).2.Sound collected' := by
  cases s with
  | process call node stopVoting =>
    simp only [NodeBroadcastHandler.step]
    split_ifs with hcall
    · exact ⟨collected, hs⟩
    · exact ⟨collected, hs.start (by simpa using hcall) stopVoting⟩
  | resume call storageOk =>
    simp only [NodeBroadcastHandler.step]
    split
    · exact ⟨collected, hs⟩
    · rename_i c hcall
      exact ⟨collected, hs.continueFrom hcall⟩
  | gc call =>
    simp only [NodeBroadcastHandler.step]
    split_ifs with hcall
    · exact ⟨collected, hs⟩
    · exact ⟨collected, hs.readWindow⟩
  | resumeGc call storageOk =>
    cases hgc : h.gcs.get call with
    | none =>
      simp only [NodeBroadcastHandler.step, hgc]
      exact ⟨collected, hs⟩
    | some gc =>
      simp only [NodeBroadcastHandler.step, hgc]
      cases gc with
      | lowestRound minRound =>
        simp only [KeepsVoters, hgc] at hkeeps
        exact ⟨max collected minRound, hs.collect hgc hkeeps⟩
      | removed ids => exact ⟨collected, hs.deleteVotes hgc⟩
  | commitCallback commitRound =>
    exact ⟨collected, hs.withDag (InMemDag.lowestRound_le_commitCallback commitRound)⟩
  | validateNewNode node =>
    simp only [NodeBroadcastHandler.step]
    split
    · rename_i dag hvalid
      exact ⟨collected, hs.withDag (InMemDag.validateNewNode_sameNodes hvalid).startRound.ge⟩
    · exact ⟨collected, hs⟩
  | addValidatedNode node =>
    exact ⟨collected, hs.withDag (InMemDag.addValidatedNode_startRound h.dag node).ge⟩
  | restart dag => exact ⟨collected, hs.restart hkeeps⟩

end Steps

theorem new_sound (config : HandlerConfig) (dag : InMemDag) (storage : Table NodeId Vote) :
    (new config dag storage).Sound 0 where
  window := Nat.zero_le _
  gcs := by rintro _ _ ⟨⟩
  locks := by rintro _ _ ⟨⟩
  exclusive := by rintro _ _ _ _ ⟨⟩
  calls := by rintro _ _ ⟨⟩
  remembered := by rintro _ ⟨⟩
  once := ⟨List.forall_mem_nil _, rfl⟩

/-- In every run from a freshly made handler, whatever the interleaving, in which garbage collection
leaves the rounds of calls that are voting and restarts do not move the window back, there is one
vote for a slot and the row for a vote is there. -/
theorem run_votesOnce [DagApi] (config : HandlerConfig) (dag : InMemDag)
    (storage : Table NodeId Vote) (sections : List Section)
    (hkeeps : AlongRun step KeepsVoters (new config dag storage) sections) :
    (run step (new config dag storage) sections).2.VotesOnce := by
  have hsound : ∃ collected, (run step (new config dag storage) sections).2.Sound collected := by
    refine hkeeps.invariant (I := fun h => ∃ collected, h.Sound collected) ?_
      ⟨0, new_sound config dag storage⟩
    rintro h s hs ⟨collected, hsound⟩
    exact hsound.step s hs
  obtain ⟨collected, hsound⟩ := hsound
  exact hsound.once

end NodeBroadcastHandler

/-! ## A garbage collection that comes in between -/

namespace LateGc

open NodeBroadcastHandler

local instance api : DagApi where
  hashNode _ _ _ _ parents := parents.length
  sign signer _ := .ok signer.privateKey
  verifyMultiSignatures _ _ _ := .ok ()
  checkVotingPower _ _ _ := .ok ()
  validatorTransactionKind _ := .dkgResult
  validatorTransactionSize := List.length
  rawTxnBytesLen _ := 1

def config : HandlerConfig where
  epochState := ⟨1, ⟨[⟨7, 70, 1⟩]⟩⟩
  signer := ⟨9, 90⟩
  maxReceivingTxnsPerRound := 10
  maxReceivingSizePerRoundBytes := 10
  perBlockLimitTxnCount := 10
  perBlockLimitTotalBytes := 10
  randomnessEnabled := true
  jwkConsensusEnabled := true

/-- Author 7 sends nodes with different digests for round 10. -/
def node (digest : HashValue) : Node := ⟨⟨⟨1, 10, 7⟩, 0, digest⟩, [], .directMempool [], []⟩

def start : NodeBroadcastHandler := new config (.newEmpty config.epochState 10 1) []

/-- A call of `process` for a node, section by section. -/
def answer (call : Nat) (digest : HashValue) : List Section :=
  [.process call (node digest) false, .resume call true, .resume call true, .resume call true,
    .resume call true, .resume call true]

/-- The window moves past round 10 and the votes before it are collected. -/
def collect : List Section := [.commitCallback 14, .gc 0, .resumeGc 0 true]

/-- A second node passes the check of the window, then the first vote is collected. -/
def secondNode : List Section :=
  answer 0 1 ++ [.process 1 (node 2) false, .resume 1 true] ++ collect ++
    [.resume 1 true, .resume 1 true]

/-- The round is collected between the search for a vote and the insertion. -/
def lostRow : List Section :=
  [.process 0 (node 1) false, .resume 0 true, .resume 0 true, .resume 0 true] ++ collect ++
    [.resume 0 true]

/-- In one interleaving votes for two nodes of a slot are signed, in another the row is gone when
the vote is to be inserted. -/
theorem votes_twice_and_lost_row :
    (run step start secondNode).2.signed.map (fun v => (v.metadata.nodeId, v.metadata.digest)) =
        [(⟨1, 10, 7⟩, 1), (⟨1, 10, 7⟩, 2)] ∧
      ¬ (run step start secondNode).2.VotesOnce ∧
      (run step start lostRow).2.mustExistFailed = true := by
  have hsigned : (run step start secondNode).2.signed = [⟨(node 1).metadata, 90⟩,
      ⟨(node 2).metadata, 90⟩] := rfl
  refine ⟨by rw [hsigned]; rfl, ?_, rfl⟩
  intro honce
  have hdigest := honce.onePerSlot ⟨(node 1).metadata, 90⟩ (by rw [hsigned]; simp)
    ⟨(node 2).metadata, 90⟩ (by rw [hsigned]; simp) rfl
  exact absurd hdigest (by decide)

/-- The second node is answered while the first vote is there, then the round is collected and the
validator restarts. -/
def inTurn : List Section :=
  answer 0 1 ++ answer 1 2 ++ collect ++
    [.resumeGc 0 true, .restart (.newEmpty config.epochState 12 1)]

theorem votesOnce_inTurn :
    AlongRun step KeepsVoters start inTurn ∧ (run step start inTurn).2.VotesOnce := by
  have hkeeps : AlongRun step KeepsVoters start inTurn := by
    refine ⟨trivial, trivial, trivial, trivial, trivial, trivial, trivial, trivial, trivial,
      trivial, trivial, trivial, trivial, trivial, ?_, trivial, ?_, trivial⟩
    · intro e he
      cases he
    · show 11 ≤ 12
      decide
  exact ⟨hkeeps, run_votesOnce config _ [] inTurn hkeeps⟩

end LateGc

end Liquent.Dag
