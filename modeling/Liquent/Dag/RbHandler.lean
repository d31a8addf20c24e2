import Liquent.Dag.DagStore
import Liquent.Misc.Run

/-!
# Voting for nodes

`NodeBroadcastHandler` of `rb_handler.rs` (cited by line): a validator answers a node with its vote
and remembers, in memory and in storage, the vote that it has given for the slot.  Calls of
`process` run concurrently with each other, with garbage collection and with commits that move the
window of the DAG, so they are modelled section by section: a step of the handler is one section
under a lock or one write to storage, and a call keeps its place in between.
-/

namespace Liquent.Dag

open Misc

/-- `NodeBroadcastHandleError`, and the errors without a type. -/
inductive HandleError where
  | invalidParent
  | missingParents
  | staleRound (round : Nat)
  | voteRefused
  | other (message : String)
deriving DecidableEq

structure HandlerConfig where
  epochState : EpochState
  signer : ValidatorSigner
  maxReceivingTxnsPerRound : Nat
  maxReceivingSizePerRoundBytes : Nat
  perBlockLimitTxnCount : Nat
  perBlockLimitTotalBytes : Nat
  randomnessEnabled : Bool
  jwkConsensusEnabled : Bool

/-- The votes given so far, by round and author. -/
abbrev VotesByRoundPeer := Table Nat (Table Author Vote)

namespace VotesByRoundPeer

variable {votes : VotesByRoundPeer} {round : Nat} {author : Author}

/-- The vote given for a slot. -/
def vote (votes : VotesByRoundPeer) (round : Nat) (author : Author) : Option Vote :=
  (Table.get votes round).bind (Table.get · author)

/-- `entry(round).or_default()`. -/
def orDefault (votes : VotesByRoundPeer) (round : Nat) : VotesByRoundPeer :=
  Table.put votes round ((Table.get votes round).getD [])

/-- `entry(round).or_default().insert(author, vote)`. -/
def insert (votes : VotesByRoundPeer) (round : Nat) (author : Author) (v : Vote) :
    VotesByRoundPeer :=
  Table.put votes round (((Table.get votes round).getD []).put author v)

/-- `split_off`: the rounds that are kept. -/
def retained (votes : VotesByRoundPeer) (minRound : Nat) : VotesByRoundPeer :=
  Table.retain votes (minRound ≤ ·)

/-- The slots of the rounds that are not kept. -/
def toDelete (votes : VotesByRoundPeer) (epoch minRound : Nat) : List NodeId :=
  (Table.retain votes (· < minRound)).flatMap fun row => row.2.map fun e => ⟨epoch, row.1, e.1⟩

@[simp] theorem vote_orDefault (r : Nat) :
    (votes.orDefault r).vote round author = votes.vote round author := by
  unfold vote orDefault
  by_cases hr : round = r
  · subst hr
    rw [Table.get_put_self]
    cases h : Table.get votes round with
    | none => simp [Table.get_nil]
    | some row => simp
  · rw [Table.get_put_of_ne hr]

theorem vote_insert_self (v : Vote) : (votes.insert round author v).vote round author = some v := by
  simp [vote, insert, Table.get_put_self]

theorem vote_insert_of_ne {r : Nat} {a : Author} {v : Vote} (h : ¬ (round = r ∧ author = a)) :
    (votes.insert r a v).vote round author = votes.vote round author := by
  unfold vote insert
  by_cases hr : round = r
  · subst hr
    have ha : author ≠ a := fun heq => h ⟨rfl, heq⟩
    rw [Table.get_put_self]
    cases hrow : Table.get votes round with
    | none => simp [Table.get_put_of_ne ha, Table.get_nil]
    | some row => simp [Table.get_put_of_ne ha]
  · rw [Table.get_put_of_ne hr]

theorem vote_retained {minRound : Nat} (h : minRound ≤ round) :
    (votes.retained minRound).vote round author = votes.vote round author := by
  simp [vote, retained, Table.get_retain, h]

theorem get_retained {minRound : Nat} (h : minRound ≤ round) :
    Table.get (votes.retained minRound) round = Table.get votes round := by
  simp [retained, Table.get_retain, h]

theorem round_lt_of_mem_toDelete {epoch minRound : Nat} {id : NodeId}
    (h : id ∈ votes.toDelete epoch minRound) : id.round < minRound := by
  simp only [toDelete, List.mem_flatMap, List.mem_map] at h
  obtain ⟨row, hrow, e, -, rfl⟩ := h
  simpa using (List.mem_filter.mp hrow).2

end VotesByRoundPeer

/-- `read_votes_from_storage` (182): the votes of the epoch, the only ones left in storage. -/
def readVotesFromStorage (stored : Table NodeId Vote) (epoch : Nat) :
    VotesByRoundPeer × Table NodeId Vote :=
  let kept := stored.retain (·.epoch = epoch)
  (kept.foldr (fun e (votes : VotesByRoundPeer) => votes.insert e.1.round e.1.author e.2) [], kept)

theorem readVotesFromStorage_vote {stored : Table NodeId Vote} {epoch : Nat} {id : NodeId}
    (hepoch : id.epoch = epoch) :
    (readVotesFromStorage stored epoch).1.vote id.round id.author = stored.get id := by
  have hkept : (stored.retain (·.epoch = epoch)).get id = stored.get id := by
    simp [Table.get_retain, hepoch]
  have hall : ∀ e ∈ stored.retain (·.epoch = epoch), e.1.epoch = epoch := by
    intro e he
    simpa using (List.mem_filter.mp he).2
  rw [← hkept]
  simp only [readVotesFromStorage]
  generalize stored.retain (·.epoch = epoch) = kept at hall
  -- the entry that is found first is inserted last
  induction kept with
  | nil => rfl
  | cons e rest ih =>
    rw [List.foldr_cons, Table.get_cons]
    have hrest := ih (List.forall_mem_cons.mp hall).2
    have hhead := hall e List.mem_cons_self
    by_cases hid : e.1 = id
    · subst hid
      rw [if_pos rfl]
      exact VotesByRoundPeer.vote_insert_self _
    · rw [if_neg hid]
      rw [VotesByRoundPeer.vote_insert_of_ne, hrest]
      rintro ⟨hround, hauthor⟩
      apply hid
      rcases he : e.1 with ⟨epoch', round', author'⟩
      rcases id with ⟨epoch'', round'', author''⟩
      rw [he] at hround hauthor hhead
      simp_all

/-! ## The sections of a call -/

section

variable [DagApi]

/-- `is_vtxn_expected` (`util/mod.rs:15`). -/
def HandlerConfig.isVtxnExpected (cfg : HandlerConfig) (vtxn : ValidatorTransaction) : Bool :=
  match DagApi.validatorTransactionKind vtxn with
  | .dkgResult => cfg.randomnessEnabled
  | .observedJwkUpdate => cfg.jwkConsensusEnabled

/-- `NodeBroadcastHandler::validate` (114). The DAG is read once: the window, and which parents
there are. -/
def HandlerConfig.validate (cfg : HandlerConfig) (dag : InMemDag) (node : Node) :
    Except HandleError Unit := do
  ensure (node.epoch = cfg.epochState.epoch) (.other "different epoch")
  let numVtxns := node.validatorTxns.length
  ensure (numVtxns ≤ cfg.perBlockLimitTxnCount) (.other "too many validator transactions")
  ensure (∀ vtxn ∈ node.validatorTxns, cfg.isVtxnExpected vtxn)
    (.other "unexpected validator transaction")
  let vtxnTotalBytes := (node.validatorTxns.map DagApi.validatorTransactionSize).sum
  ensure (vtxnTotalBytes ≤ cfg.perBlockLimitTotalBytes) (.other "validator transactions too large")
  let numTxns := numVtxns + node.payload.len
  let txnBytes := vtxnTotalBytes + node.payload.size DagApi.rawTxnBytesLen
  ensure (numTxns ≤ cfg.maxReceivingTxnsPerRound) (.other "too many transactions")
  ensure (txnBytes ≤ cfg.maxReceivingSizePerRoundBytes) (.other "transactions too large")
  ensure (dag.lowestRound ≤ node.round) (.staleRound node.round)
  let missingParents := node.parents.filter fun parent => !dag.exists parent.metadata
  if missingParents = [] then
    pure ()
  else do
    ensure (∀ parent ∈ missingParents, parent.verify cfg.epochState.verifier = .ok ())
      .invalidParent
    -- the parents of the lowest round are gone already
    ensure (¬ dag.lowestRound < node.round) .missingParents

/-- A node that passes is of the epoch and within the window. -/
theorem HandlerConfig.validate_ok {cfg : HandlerConfig} {dag : InMemDag} {node : Node}
    (h : cfg.validate dag node = .ok ()) :
    node.epoch = cfg.epochState.epoch ∧ dag.lowestRound ≤ node.round := by
  simp only [validate, except_seq_ok_iff, ensure_ok_iff] at h
  exact ⟨h.1, h.2.2.2.2.2.2.1⟩

end

/-- How far a call of `process` has come. -/
inductive ProcessStage where
  /-- It holds the lock of the slot. -/
  | locked
  /-- The node has passed `validate`. -/
  | validated
  /-- No earlier vote was found; the row of the round was there. -/
  | unanswered
  /-- The vote is signed and stored. -/
  | stored (vote : Vote)
  /-- The vote is among the votes in memory. -/
  | inserted (vote : Vote)
deriving DecidableEq

structure ProcessCall where
  node : Node
  stage : ProcessStage

/-- The key of `votes_fine_grained_lock`. -/
def ProcessCall.key (c : ProcessCall) : Nat × Author := (c.node.round, c.node.author)

/-- How far a call of `gc` has come. -/
inductive GcStage where
  | lowestRound (minRound : Nat)
  | removed (ids : List NodeId)

/-- A validator's handler with what it shares with other components, and the calls under way.
`signed` records the votes that were signed and stored, `mustExistFailed` whether the row of a round
was gone when a vote was to be inserted. -/
structure NodeBroadcastHandler where
  config : HandlerConfig
  dag : InMemDag
  votesByRoundPeer : VotesByRoundPeer
  votesFineGrainedLock : List (Nat × Author)
  storage : Table NodeId Vote
  calls : Table Nat ProcessCall := []
  gcs : Table Nat GcStage := []
  signed : List Vote := []
  mustExistFailed : Bool := false

/-- How a call of `process` ends. -/
inductive Response where
  | vote (vote : Vote)
  | error (e : HandleError)
  | panic (message : String)

/-- One section of one of the calls.  The flags say whether a write to storage succeeds. -/
inductive Section where
  | process (call : Nat) (node : Node) (stopVoting : Bool)
  | resume (call : Nat) (storageOk : Bool)
  | gc (call : Nat)
  | resumeGc (call : Nat) (storageOk : Bool)
  | commitCallback (commitRound : Nat)
  | validateNewNode (node : CertifiedNode)
  | addValidatedNode (node : CertifiedNode)
  | restart (dag : InMemDag)

namespace NodeBroadcastHandler

/-- `NodeBroadcastHandler::new` (57), over what storage holds. -/
def new (config : HandlerConfig) (dag : InMemDag) (storage : Table NodeId Vote) :
    NodeBroadcastHandler :=
  let (votes, kept) := readVotesFromStorage storage config.epochState.epoch
  { config, dag, votesByRoundPeer := votes, votesFineGrainedLock := [], storage := kept }

section

variable (h : NodeBroadcastHandler)

/-- A call moves on. -/
def setStage (call : Nat) (node : Node) (stage : ProcessStage) : NodeBroadcastHandler :=
  { h with calls := h.calls.put call ⟨node, stage⟩ }

/-- A call ends and gives back the lock of its slot. -/
def finish (call : Nat) (node : Node) : NodeBroadcastHandler :=
  { h with
    calls := h.calls.retain (· ≠ call)
    votesFineGrainedLock := h.votesFineGrainedLock.filter (· ≠ (node.round, node.author)) }

/-- The first section of `process`. -/
def start (call : Nat) (node : Node) (stopVoting : Bool) : Option Response × NodeBroadcastHandler :=
  if stopVoting then (some (.error .voteRefused), h)
  else if (node.round, node.author) ∈ h.votesFineGrainedLock then
    (some (.error (.other "concurrent insertion")), h)
  else
    let locks := (node.round, node.author) :: h.votesFineGrainedLock
    (none, { h with votesFineGrainedLock := locks }.setStage call node .locked)

/-- The sections of `gc` (90) after the window has been read. -/
def continueGc (call : Nat) (storageOk : Bool) : GcStage → NodeBroadcastHandler
  | .lowestRound minRound =>
    { h with
      votesByRoundPeer := h.votesByRoundPeer.retained minRound
      gcs := h.gcs.put call
        (.removed (h.votesByRoundPeer.toDelete h.config.epochState.epoch minRound)) }
  | .removed ids =>
    { h with
      storage := if storageOk then h.storage.retain (· ∉ ids) else h.storage
      gcs := h.gcs.retain (· ≠ call) }

/-- A restart over another DAG: what was in memory is gone and the votes are read back. -/
def restart (dag : InMemDag) : NodeBroadcastHandler :=
  let fresh := new h.config dag h.storage
  { fresh with signed := h.signed, mustExistFailed := h.mustExistFailed }

end

section

variable [DagApi] (h : NodeBroadcastHandler)

/-- The section after `stage`. -/
def continueFrom (call : Nat) (node : Node) (storageOk : Bool) :
    ProcessStage → Option Response × NodeBroadcastHandler
  | .locked =>
    match h.config.validate h.dag node with
    | .ok () => (none, h.setStage call node .validated)
    | .error e => (some (.error e), h.finish call node)
  | .validated =>
    let looked := { h with votesByRoundPeer := h.votesByRoundPeer.orDefault node.round }
    match h.votesByRoundPeer.vote node.round node.author with
    | some ack => (some (.vote ack), looked.finish call node)
    | none => (none, looked.setStage call node .unanswered)
  | .unanswered =>
    match node.signVote h.config.signer with
    | .error e => (some (.error (.other e)), h.finish call node)
    | .ok signature =>
      let vote : Vote := ⟨node.metadata, signature⟩
      if storageOk then
        let written :=
          { h with storage := h.storage.put node.id vote, signed := h.signed ++ [vote] }
        (none, written.setStage call node (.stored vote))
      else (some (.error (.other "storage")), h.finish call node)
  | .stored vote =>
    match Table.get h.votesByRoundPeer node.round with
    | none =>
      (some (.panic "must exist"), { h with mustExistFailed := true }.finish call node)
    | some row =>
      let votes := Table.put h.votesByRoundPeer node.round (row.put node.author vote)
      (none, { h with votesByRoundPeer := votes }.setStage call node (.inserted vote))
  | .inserted vote =>
    match InMemDag.updateVotes node false h.dag with
    | .ok _ dag => (some (.vote vote), { h with dag }.finish call node)
    | .error _ dag => (some (.panic "update_votes"), { h with dag }.finish call node)

/-- One section, with the answer of the call of `process` (212) that it ends. -/
def step : Section → Option Response × NodeBroadcastHandler
  | .process call node stopVoting =>
    if (h.calls.get call).isSome then (none, h) else h.start call node stopVoting
  | .resume call storageOk =>
    match h.calls.get call with
    | none => (none, h)
    | some c => h.continueFrom call c.node storageOk c.stage
  | .gc call =>
    if (h.gcs.get call).isSome then (none, h)
    else (none, { h with gcs := h.gcs.put call (.lowestRound h.dag.lowestRound) })
  | .resumeGc call storageOk =>
    match h.gcs.get call with
    | none => (none, h)
    | some stage => (none, h.continueGc call storageOk stage)
  | .commitCallback commitRound => (none, { h with dag := h.dag.commitCallback commitRound })
  | .validateNewNode node =>
    match h.dag.validateNewNode node with
    | .ok dag => (none, { h with dag })
    | .error _ => (none, h)
  | .addValidatedNode node =>
    (none, { h with dag := finalState (InMemDag.addValidatedNode node h.dag) })
  | .restart dag => (none, h.restart dag)

end

end NodeBroadcastHandler

end Liquent.Dag
