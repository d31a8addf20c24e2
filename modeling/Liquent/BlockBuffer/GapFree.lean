import Liquent.Misc.Lists
import Liquent.BlockBuffer.RethCli

/-!
# The blocks that reth executes

Whatever the order in which the parties take their steps, the blocks that `start_execution` pushes
to reth form one chain without gaps.  Within an epoch the numbers are consecutive, and the first
block of a later epoch follows the block whose result announced that epoch.

From the first block that is handed out, the node goes round four stages: no change is pending, a
change is announced, it is adopted, it is taken by `start_execution`.  A stage fixes the fields of
the buffer that hold the change.  The results that reth returns keep the stages in order: none comes
between the announcement of an epoch and the first block pushed in it.
-/

namespace Liquent.BlockBuffer

open Misc BlockStateMachine

/-! ## The chain -/

/-- The order in which blocks are to be executed. -/
def ExternalBlock.Before (a b : ExternalBlock) : Prop :=
  a.blockMeta.epoch < b.blockMeta.epoch ∨
    a.blockMeta.epoch = b.blockMeta.epoch ∧ a.blockMeta.blockNumber < b.blockMeta.blockNumber

/-- `b` is the block to push after `a`. -/
def Follows (announced : List Change) (a b : ExternalBlock) : Prop :=
  b.blockMeta.epoch = a.blockMeta.epoch ∧ b.blockMeta.blockNumber = a.blockMeta.blockNumber + 1 ∨
    a.blockMeta.epoch < b.blockMeta.epoch ∧
      ∃ c ∈ announced, c.newEpoch = b.blockMeta.epoch ∧ b.blockMeta.blockNumber = c.number + 1

/-- One chain without gaps, after the block with number `lastCommitted`. -/
structure GapFree (lastCommitted : Nat) (announced : List Change) (pushed : List ExternalBlock) :
    Prop where
  increasing : pushed.Pairwise ExternalBlock.Before
  consecutive : ∀ pre a b post, pushed = pre ++ a :: b :: post →
    a.blockMeta.epoch = b.blockMeta.epoch →
    b.blockMeta.blockNumber = a.blockMeta.blockNumber + 1
  first : ∀ b post, pushed = b :: post → b.blockMeta.blockNumber = lastCommitted + 1
  /-- An epoch is announced by one block, and the first block pushed in the epoch comes next. -/
  firstOfEpoch : ∀ pre b post, pushed = pre ++ b :: post → pre ≠ [] →
    (∀ a ∈ pre, a.blockMeta.epoch ≠ b.blockMeta.epoch) →
    ∃! c, c ∈ announced ∧ c.newEpoch = b.blockMeta.epoch ∧ b.blockMeta.blockNumber = c.number + 1

theorem ExternalBlock.Before.trans {a b c : ExternalBlock} (h : a.Before b) (h' : b.Before c) :
    a.Before c := by
  unfold ExternalBlock.Before at *
  omega

instance : IsTrans ExternalBlock ExternalBlock.Before := ⟨fun _ _ _ => .trans⟩

variable {announced : List Change}

theorem Follows.before {a b : ExternalBlock} (h : Follows announced a b) : a.Before b := by
  rcases h with ⟨hepoch, hnumber⟩ | ⟨hepoch, -⟩
  · exact .inr ⟨hepoch.symm, by omega⟩
  · exact .inl hepoch

theorem Follows.mono {announced' : List Change} (hsub : announced ⊆ announced')
    {a b : ExternalBlock} (h : Follows announced a b) : Follows announced' a b := by
  rcases h with h | ⟨hepoch, c, hc, hchange⟩
  · exact .inl h
  · exact .inr ⟨hepoch, c, hsub hc, hchange⟩

theorem eq_of_newEpoch_eq (h : announced.Pairwise fun c d => c.newEpoch < d.newEpoch) {c d : Change}
    (hc : c ∈ announced) (hd : d ∈ announced) (heq : c.newEpoch = d.newEpoch) : c = d := by
  by_contra hne
  have hdistinct : announced.Pairwise fun c d => c.newEpoch ≠ d.newEpoch :=
    h.imp fun hlt => ne_of_lt hlt
  have hsymm : Std.Symm fun c d : Change => c.newEpoch ≠ d.newEpoch := ⟨fun _ _ h => h.symm⟩
  exact hdistinct.forall hc hd hne heq

variable {lastCommitted : Nat}

theorem gapFree_of_isChain
    {pushed : List ExternalBlock} (hchain : pushed.IsChain (Follows announced))
    (hfirst : ∀ b ∈ pushed.head?, b.blockMeta.blockNumber = lastCommitted + 1)
    (hannounced : announced.Pairwise fun c d => c.newEpoch < d.newEpoch) :
    GapFree lastCommitted announced pushed where
  increasing := List.isChain_iff_pairwise.mp (hchain.imp fun _ _ h => h.before)
  consecutive := by
    rintro pre a b post rfl hepoch
    have hfollows := (List.isChain_append_cons_cons.mp hchain).2.1
    rcases hfollows with ⟨-, hnumber⟩ | ⟨hless, -⟩
    · exact hnumber
    · omega
  first := by
    rintro b post rfl
    exact hfirst b rfl
  firstOfEpoch := by
    rintro pre b post rfl hpre hnew
    obtain ⟨before, a, rfl⟩ := List.eq_nil_or_concat' pre |>.resolve_left hpre
    have hne : a.blockMeta.epoch ≠ b.blockMeta.epoch := hnew a (by simp)
    have hlist : before ++ [a] ++ b :: post = before ++ a :: b :: post := by simp
    rw [hlist] at hchain
    rcases (List.isChain_append_cons_cons.mp hchain).2.1 with ⟨hepoch, -⟩ | ⟨-, c, hc, hchange⟩
    · exact absurd hepoch.symm hne
    · refine ⟨c, ⟨hc, hchange⟩, ?_⟩
      rintro d ⟨hd, hepoch, -⟩
      exact eq_of_newEpoch_eq hannounced hd hc (hepoch.trans hchange.1.symm)

/-! ## What `get_ordered_blocks` hands out -/

/-- Ordered blocks are stored under their own keys. -/
def Keyed (t : Table BlockKey BlockState) : Prop :=
  ∀ key block parentId round, t.get key = some (.ordered block parentId round) → block.key = key

def NoOrdered (t : Table BlockKey BlockState) : Prop :=
  ∀ key block parentId round, t.get key ≠ some (.ordered block parentId round)

/-- Consecutive blocks of an epoch, from a number on. -/
structure Stretch (epoch num : Nat) (blocks : List ExternalBlock) : Prop where
  epoch : ∀ b ∈ blocks, b.blockMeta.epoch = epoch
  number : ∀ b ∈ blocks, num ≤ b.blockMeta.blockNumber
  head : ∀ b ∈ blocks.head?, b.blockMeta.blockNumber = num
  chain : blocks.IsChain fun a b => b.blockMeta.blockNumber = a.blockMeta.blockNumber + 1

theorem Stretch.nil (epoch num : Nat) : Stretch epoch num [] :=
  ⟨by simp, by simp, by simp, .nil⟩

variable {blocks : List ExternalBlock} {epoch : Nat} {num : Nat}

theorem Stretch.cons {block : ExternalBlock}
    (hkey : block.key = ⟨epoch, num⟩) (h : Stretch epoch (num + 1) blocks) :
    Stretch epoch num (block :: blocks) := by
  obtain ⟨hepoch, hnumber⟩ := BlockKey.mk.inj hkey
  refine ⟨List.forall_mem_cons.mpr ⟨hepoch, h.epoch⟩, List.forall_mem_cons.mpr
    ⟨hnumber.ge, fun b hb => Nat.le_of_succ_le (h.number b hb)⟩, ?_, ?_⟩
  · intro b hb
    obtain rfl := Option.some.inj hb
    exact hnumber
  · refine List.isChain_cons.mpr ⟨?_, h.chain⟩
    intro b hb
    rw [h.head b hb, hnumber]

variable {s : BlockStateMachine}

theorem key_of_orderedAt (hkeyed : Keyed s.blocks) {block : ExternalBlock} {parentId : HashValue}
    (h : s.orderedAt epoch num = some (block, parentId)) :
    block.key = ⟨epoch, num⟩ ∧ ∃ round,
      s.blocks.get ⟨epoch, num⟩ = some (.ordered block parentId round) := by
  unfold orderedAt at h
  split at h
  · rename_i block' parentId' round hget
    obtain ⟨rfl, rfl⟩ := Prod.mk.inj (Option.some.inj h)
    exact ⟨hkeyed _ _ _ _ hget, round, hget⟩
  · cases h

theorem stretch_collectFrom (hkeyed : Keyed s.blocks) (epoch : Nat)
    (maxSize : Option Nat) (fuel count num : Nat) :
    Stretch epoch num ((collectFrom (s.orderedAt epoch) maxSize fuel count num).map (·.1)) := by
  induction fuel generalizing count num with
  | zero => exact .nil epoch num
  | succ fuel ih =>
    unfold collectFrom
    cases hat : s.orderedAt epoch num with
    | none => exact .nil epoch num
    | some entry =>
      obtain ⟨block, parentId⟩ := entry
      have hkey := (key_of_orderedAt hkeyed hat).1
      by_cases hsize : maxSize.any (fun size => size ≤ count + 1) = true
      · simp only [hsize, if_true]
        exact .cons hkey (.nil epoch (num + 1))
      · simp only [hsize]
        exact .cons hkey (ih (count + 1) (num + 1))

variable {maxSize : Option Nat} {startNum : Nat}

/-- An answer with blocks comes in the expected epoch, with no change waiting. -/
theorem getOrderedBlocks_some (hkeyed : Keyed s.blocks) {blocks : List (ExternalBlock × HashValue)}
    (h : s.getOrderedBlocks startNum maxSize epoch = .ok (some blocks)) :
    s.epochChangeReady = false ∧ s.currentEpoch = epoch ∧ blocks ≠ [] ∧
      Stretch epoch startNum (blocks.map (·.1)) := by
  unfold getOrderedBlocks at h
  by_cases hchange : (s.epochChangeReady || s.currentEpoch ≠ epoch) = true
  · rw [if_pos hchange] at h
    cases h
  · rw [if_neg hchange] at h
    simp only [Bool.or_eq_true, decide_eq_true_eq, not_or, ne_eq, not_not,
      Bool.not_eq_true] at hchange
    have hresult := Except.ok.inj h
    split at hresult
    · cases hresult
    · rename_i hne
      obtain rfl := Option.some.inj hresult
      exact ⟨hchange.1, hchange.2, hne, stretch_collectFrom hkeyed _ _ _ _ _⟩

theorem getOrderedBlocks_error {e : String}
    (h : s.getOrderedBlocks startNum maxSize epoch = .error e) :
    e = "Buffer is in epoch change" ∧ (s.epochChangeReady = true ∨ s.currentEpoch ≠ epoch) := by
  unfold getOrderedBlocks at h
  by_cases hchange : (s.epochChangeReady || s.currentEpoch ≠ epoch) = true
  · rw [if_pos hchange] at h
    refine ⟨(Except.error.inj h).symm, ?_⟩
    simpa using hchange
  · rw [if_neg hchange] at h
    cases h

theorem collectFrom_of_none {α : Type} {f : Nat → Option α} (h : f num = none) (fuel : Nat) :
    collectFrom f maxSize fuel 0 num = [] := by
  cases fuel with
  | zero => rfl
  | succ fuel => simp [collectFrom, h]

/-- A block that is handed out is in the map. -/
theorem not_noOrdered_of_getOrderedBlocks {blocks : List (ExternalBlock × HashValue)}
    (h : s.getOrderedBlocks startNum maxSize epoch = .ok (some blocks)) : ¬ NoOrdered s.blocks := by
  intro hnone
  have hat : s.orderedAt epoch startNum = none := by
    unfold orderedAt
    split
    · rename_i block parentId round hget
      exact absurd hget (hnone _ _ _ _)
    · rfl
  unfold getOrderedBlocks at h
  split at h
  · cases h
  · simp [collectFrom_of_none hat] at h

/-! ## Stages of a node -/

namespace Node

/-- The blocks that have been handed out and not yet pushed. -/
def pending (n : Node) : List ExternalBlock :=
  match n.execution with
  | .pushing blocks => blocks
  | _ => []

/-- `start_commit_vote` has a result in hand. -/
def Holds (n : Node) (result : ExecutionResult) : Prop :=
  n.commitVote = .received result ∨ ∃ epoch, n.commitVote = .setting result epoch

/-- No change is pending. -/
structure Steady (n : Node) : Prop where
  currentEpoch : n.buffer.currentEpoch = n.currentEpoch
  nextEpoch : n.buffer.nextEpoch = none
  info : n.buffer.epochChangeBlockInfo = none
  latest : n.buffer.latestEpochChangeBlockNumber = 0
  ready : n.buffer.epochChangeReady = false
  consuming : n.execution ≠ .consuming
  resetting : ∀ epoch number, n.execution ≠ .resetting epoch number
  held : ∀ result, n.Holds result → result.blockNumber ≠ 0 ∧
    ((findNewEpoch result.liquentEvents).isSome → n.currentEpoch ∈ n.reconfigured)

/-- The epoch of the loops is over for reth, and `c` leads out of it. -/
structure Changing (c : Change) (n : Node) : Prop where
  announced : c ∈ n.announced
  number : c.number ≠ 0
  later : n.currentEpoch < c.newEpoch
  ended : n.currentEpoch ∈ n.reconfigured
  idle : ∀ result, ¬ n.Holds result

structure Announced (c : Change) (n : Node) : Prop where
  currentEpoch : n.buffer.currentEpoch = n.currentEpoch
  nextEpoch : n.buffer.nextEpoch = some c.newEpoch
  latest : n.buffer.latestEpochChangeBlockNumber = c.number
  ready : n.buffer.epochChangeReady = false
  consuming : n.execution ≠ .consuming
  resetting : ∀ epoch number, n.execution ≠ .resetting epoch number

structure Adopted (c : Change) (n : Node) : Prop where
  currentEpoch : n.buffer.currentEpoch = c.newEpoch
  nextEpoch : n.buffer.nextEpoch = none
  info : n.buffer.epochChangeBlockInfo = none
  latest : n.buffer.latestEpochChangeBlockNumber = c.number
  ready : n.buffer.epochChangeReady = true
  resetting : ∀ epoch number, n.execution ≠ .resetting epoch number

structure Taken (c : Change) (n : Node) : Prop where
  currentEpoch : n.buffer.currentEpoch = c.newEpoch
  nextEpoch : n.buffer.nextEpoch = none
  info : n.buffer.epochChangeBlockInfo = none
  latest : n.buffer.latestEpochChangeBlockNumber = 0
  ready : n.buffer.epochChangeReady = false
  resetting : n.execution = .resetting c.newEpoch c.number

inductive Stage (n : Node) : Prop
  | steady (h : n.Steady)
  | announced (c : Change) (hc : n.Changing c) (h : n.Announced c)
  | adopted (c : Change) (hc : n.Changing c) (h : n.Adopted c)
  | taken (c : Change) (hc : n.Changing c) (h : n.Taken c)

/-- The blocks handed out form a chain, which the block that is asked for next continues. -/
structure OnLine (lastCommitted : Nat) (n : Node) : Prop where
  nonempty : n.pushed ++ n.pending ≠ []
  chain : (n.pushed ++ n.pending).IsChain (Follows n.announced)
  first : ∀ b ∈ (n.pushed ++ n.pending).head?, b.blockMeta.blockNumber = lastCommitted + 1
  next : ∀ last ∈ (n.pushed ++ n.pending).getLast?,
    last.blockMeta.epoch = n.currentEpoch ∧ n.startOrderedBlock = last.blockMeta.blockNumber + 1 ∨
    last.blockMeta.epoch < n.currentEpoch ∧
      ∃ c ∈ n.announced, c.newEpoch = n.currentEpoch ∧ n.startOrderedBlock = c.number + 1
  pending : ∀ b ∈ n.pending, b.blockMeta.epoch = n.currentEpoch ∧ b.blockMeta.blockNumber ≠ 0

/-- The announced epochs increase up to the one that the buffer leads to. -/
structure EpochsIncrease (n : Node) : Prop where
  increasing : n.announced.Pairwise fun c d => c.newEpoch < d.newEpoch
  bound : ∀ c ∈ n.announced, c.newEpoch ≤ n.buffer.nextEpoch.getD n.buffer.currentEpoch

/-- What holds from the first block on that is handed out. -/
structure Running (lastCommitted : Nat) (n : Node) : Prop where
  seen : n.orderedSeen = true
  starting : n.execution ≠ .starting
  storing : ∀ epoch, n.execution ≠ .storing epoch
  line : n.OnLine lastCommitted
  inflight : ∀ b ∈ n.inflight, b.blockMeta.blockNumber ≠ 0 ∧
    (b.blockMeta.epoch = n.currentEpoch ∨ b.blockMeta.epoch ∈ n.reconfigured)
  epochs : n.EpochsIncrease
  stage : n.Stage

end Node

/-- No result has been stored and no change announced. -/
structure Unstarted (lastCommitted : Nat) (s : BlockStateMachine) : Prop where
  entries : ∀ key state, s.blocks.get key = some state →
    (∃ block parentId round, state = .ordered block parentId round) ∨ ∃ id, state = .historical id
  nextEpoch : s.nextEpoch = none
  info : s.epochChangeBlockInfo = none
  latest : s.latestEpochChangeBlockNumber = 0
  ready : s.epochChangeReady = false
  latestCommit : s.latestCommitBlockNumber = lastCommitted

namespace Node

/-- What holds up to the first block that is handed out; until then the epoch may be set anew. -/
structure Startup (lastCommitted : Nat) (n : Node) : Prop where
  buffer : Unstarted lastCommitted n.buffer
  start : n.startOrderedBlock = lastCommitted + 1
  pushed : n.pushed = []
  pushing : ∀ blocks, n.execution ≠ .pushing blocks
  resetting : ∀ epoch number, n.execution = .resetting epoch number → number = lastCommitted
  inflight : n.inflight = []
  idle : n.commitVote = .receiving
  commit : ∀ number, n.commit ≠ .setting number
  announced : n.announced = []

structure Invariant (lastCommitted : Nat) (n : Node) : Prop where
  keyed : Keyed n.buffer.blocks
  unseen : n.orderedSeen = false → NoOrdered n.buffer.blocks
  waiting : ∀ epoch, n.execution = .waiting epoch → epoch = n.currentEpoch
  comparing : ∀ epoch, n.execution = .comparing epoch → epoch = n.currentEpoch
  phase : n.Startup lastCommitted ∨ n.Running lastCommitted

end Node

/-! ## What the operations keep -/

section Steps

variable [Crypto] [OnChainConfig]

theorem Keyed.step (op : Operation) (h : Keyed s.blocks) : Keyed (step s op).2.blocks := by
  by_cases hop : op.setsOrdered = true
  · cases op with
    | setOrderedBlocks parentId block round =>
      dsimp only [BlockBuffer.step]
      rcases s.setOrderedBlocks_cases parentId block round with hs | ⟨-, -, -, hs⟩
      · rw [hs]
        exact h
      · rw [hs]
        intro key block' parentId' round' hget
        rcases Table.of_get_put hget with ⟨rfl, heq⟩ | hget
        · obtain ⟨rfl, -, -⟩ := BlockState.ordered.inj heq
          rfl
        · exact h key block' parentId' round' hget
    | _ => cases hop
  · intro key block parentId round hget
    have hfrom := orderedFrom_step (s := s) (Bool.not_eq_true _ ▸ hop)
    exact h key block parentId round (hfrom key block parentId round hget)

variable {op : Operation}

theorem NoOrdered.step (hop : op.setsOrdered = false)
    (h : NoOrdered s.blocks) : NoOrdered (step s op).2.blocks := by
  intro key block parentId round hget
  exact h key block parentId round (orderedFrom_step hop key block parentId round hget)

omit [Crypto] [OnChainConfig] in
theorem Unstarted.setCommitBlocks
    (h : Unstarted lastCommitted s) (refs : List BlockHashRef) (epoch : Nat) :
    (s.setCommitBlocks refs epoch).2 = s := by
  induction refs with
  | nil => rfl
  | cons r rest ih =>
    have hstep := s.setCommitBlock_step r epoch
    simp only [BlockStateMachine.setCommitBlocks]
    generalize s.setCommitBlock r epoch = out at *
    cases hstep with
    | refuse => rfl
    | settle => exact ih
    | commit _ _ hget => rcases h.entries _ _ hget with ⟨_, _, _, ⟨⟩⟩ | ⟨_, ⟨⟩⟩

omit [Crypto] [OnChainConfig] in
theorem Unstarted.retain (h : Unstarted lastCommitted s) (p : BlockKey → Bool) :
    Unstarted lastCommitted { s with blocks := s.blocks.retain p } := by
  exact { h with entries := fun key state hget => h.entries key state (Table.of_get_retain hget) }

/-- As long as nothing has been handed out, consensus only orders blocks and sets the epoch. -/
theorem Unstarted.step (hop : op.consensusSide = true) (h : Unstarted lastCommitted s) :
    Unstarted lastCommitted (step s op).2 := by
  cases op with
  | setOrderedBlocks parentId block round =>
    dsimp only [BlockBuffer.step]
    rcases s.setOrderedBlocks_cases parentId block round with hs | ⟨-, -, -, hs⟩
    · rw [hs]
      exact h
    · rw [hs]
      exact { h with entries := Table.forall_get_put h.entries (.inl ⟨_, _, _, rfl⟩) }
  | getExecutedRes blockId blockNum epoch =>
    dsimp only [BlockBuffer.step]
    rcases s.getExecutedRes_cases blockId blockNum epoch with
      ⟨hs, -⟩ | ⟨_, _, _, cache, -, hinfo, -, -⟩
    · rw [hs]
      exact h
    · simp [h.info] at hinfo
  | setCommitBlocks refs epoch =>
    dsimp only [BlockBuffer.step]
    rw [h.setCommitBlocks]
    exact h
  | removeCommittedBlocks =>
    dsimp only [BlockBuffer.step]
    unfold removeCommittedBlocks
    split
    · exact h
    · exact h.retain fun key => s.latestFinalizedBlockNumber ≤ key.blockNumber
  | releaseInflightBlocks =>
    dsimp only [BlockBuffer.step]
    have hpending : ¬ s.hasPendingEpochChange = true := by
      simp [hasPendingEpochChange, h.latest, h.nextEpoch, h.info]
    unfold releaseInflightBlocks
    rw [if_neg hpending]
    exact h
  | initEpoch epoch => exact { h with }
  | getOrderedBlocks | setComputeRes | getCommittedBlocks | setState | consumeEpochChange =>
    cases hop

omit [Crypto] [OnChainConfig] in
theorem Unstarted.getCommittedBlocks (h : Unstarted lastCommitted s) (startNum epoch : Nat) :
    (s.getCommittedBlocks startNum none epoch).1 = none ∧
      Unstarted lastCommitted (s.getCommittedBlocks startNum none epoch).2 := by
  have hat : s.committedAt epoch startNum = none := by
    unfold committedAt
    split
    · rfl
    · split
      · rename_i hash result id notifier hget
        rcases h.entries _ _ hget with ⟨_, _, _, ⟨⟩⟩ | ⟨_, ⟨⟩⟩
      · rfl
  refine ⟨by simp [BlockStateMachine.getCommittedBlocks, collectFrom_of_none hat],
    { h with entries := ?_ }⟩
  intro key state hget
  change (s.blocks.mapValues _).get key = some state at hget
  rw [Table.get_mapValues] at hget
  cases hold : s.blocks.get key with
  | none => simp [hold] at hget
  | some old =>
    rw [hold] at hget
    have hentry := h.entries key old hold
    rcases hentry with ⟨block, parentId, round, rfl⟩ | ⟨id, rfl⟩
    · exact .inl ⟨block, parentId, round, (Option.some.inj hget).symm⟩
    · exact .inr ⟨id, (Option.some.inj hget).symm⟩

omit [Crypto] [OnChainConfig] in
theorem Unstarted.consume (h : Unstarted lastCommitted s) :
    Unstarted lastCommitted s.consumeEpochChange.2 ∧ s.consumeEpochChange.1.2 = lastCommitted := by
  refine ⟨{ h with latest := rfl, ready := rfl }, ?_⟩
  simp [consumeEpochChange, h.latest, h.latestCommit]

/-! ## Steps of consensus and of `start_commit` -/

namespace Node

variable {n : Node}

section

omit [Crypto] [OnChainConfig]

/-- A step that does not concern the pending change of epoch. -/
theorem Stage.of_sameControl (h : n.Stage)
    (hs : SameControl n.buffer s) (commit : CommitLoop) (startCommitNum : Nat) (seen : Bool)
    (inflight : List ExternalBlock) :
    Stage { n with
      buffer := s, commit := commit, startCommitNum := startCommitNum, orderedSeen := seen
      inflight := inflight } := by
  obtain ⟨hcurrent, hnext, hinfo, hlatest, hready⟩ := hs
  cases s
  subst hcurrent hnext hinfo hlatest hready
  cases h with
  | steady h => exact .steady { h with }
  | announced c hc h => exact .announced c { hc with } { h with }
  | adopted c hc h => exact .adopted c { hc with } { h with }
  | taken c hc h => exact .taken c { hc with } { h with }

theorem Running.of_sameControl (h : n.Running lastCommitted)
    (hs : SameControl n.buffer s) (commit : CommitLoop)
    (startCommitNum : Nat) {seen : Bool} (hseen : seen = true) :
    Running lastCommitted { n with
      buffer := s, commit := commit, startCommitNum := startCommitNum, orderedSeen := seen } := by
  refine { h with
    seen := hseen
    line := { h.line with }
    epochs := ⟨h.epochs.increasing, ?_⟩
    stage := h.stage.of_sameControl hs commit startCommitNum seen n.inflight }
  intro c hc
  rw [hs.nextEpoch, hs.currentEpoch]
  exact h.epochs.bound c hc

theorem releaseInflightBlocks_of_idle (hnext : s.nextEpoch = none)
    (hinfo : s.epochChangeBlockInfo = none) (hlatest : s.latestEpochChangeBlockNumber = 0) :
    s.releaseInflightBlocks = s := by
  have hpending : ¬ s.hasPendingEpochChange = true := by
    simp [hasPendingEpochChange, hnext, hinfo, hlatest]
  unfold releaseInflightBlocks
  rw [if_neg hpending]

/-- An announced change is adopted; otherwise a reset of the pipeline changes nothing. -/
theorem Stage.release (h : n.Stage) (seen : Bool) :
    Stage { n with buffer := n.buffer.releaseInflightBlocks, orderedSeen := seen } := by
  cases h with
  | steady h =>
    rw [releaseInflightBlocks_of_idle h.nextEpoch h.info h.latest]
    exact .steady { h with }
  | announced c hc h =>
    rw [releaseInflightBlocks_of_next h.nextEpoch]
    exact .adopted c { hc with }
      { currentEpoch := rfl, nextEpoch := rfl, info := rfl, latest := h.latest, ready := rfl,
        resetting := h.resetting }
  | adopted c hc h =>
    have hpending : n.buffer.hasPendingEpochChange = true := by
      simp [hasPendingEpochChange, h.latest, hc.number]
    unfold releaseInflightBlocks
    rw [if_pos hpending]
    refine .adopted c { hc with }
      { h with currentEpoch := ?_, nextEpoch := rfl, info := rfl, ready := rfl }
    rw [h.nextEpoch]
    exact h.currentEpoch
  | taken c hc h =>
    rw [releaseInflightBlocks_of_idle h.nextEpoch h.info h.latest]
    exact .taken c { hc with } { h with }

end

theorem Running.consensusStep
    (hop : op.consensusSide = true) (hallowed : Action.Allowed n (.consensus op))
    (h : n.Running lastCommitted) : (n.consensusStep op).Running lastCommitted := by
  have hseen : (n.orderedSeen || op.setsOrdered) = true := by
    rw [h.seen]
    rfl
  unfold Node.consensusStep
  rw [if_pos hop]
  cases step_effect n.buffer op with
  | quiet hquiet => exact h.of_sameControl hquiet.control n.commit n.startCommitNum hseen
  | announce c hannounce =>
    obtain ⟨_, _, _, _, rfl, -⟩ := hannounce.call
    cases hop
  | consume heq =>
    subst heq
    cases hop
  | release heq heffect =>
    rw [heffect]
    refine { h with
      seen := hseen
      line := { h.line with }
      epochs := ⟨h.epochs.increasing, ?_⟩
      stage := h.stage.release _ }
    intro c hc
    rw [releaseInflightBlocks_leadsTo]
    exact h.epochs.bound c hc
  | initEpoch epoch heq =>
    subst heq
    have hunseen : n.orderedSeen = false := hallowed rfl
    simp [h.seen] at hunseen

theorem Invariant.consensusStep
    (hallowed : Action.Allowed n (.consensus op)) (h : n.Invariant lastCommitted) :
    (n.consensusStep op).Invariant lastCommitted := by
  by_cases hop : op.consensusSide = true
  · have hphase : (n.consensusStep op).Startup lastCommitted ∨
        (n.consensusStep op).Running lastCommitted := by
      rcases h.phase with hstart | hrun
      · left
        unfold Node.consensusStep
        rw [if_pos hop]
        exact { hstart with buffer := hstart.buffer.step hop }
      · exact .inr (hrun.consensusStep hop hallowed)
    unfold Node.consensusStep at hphase ⊢
    rw [if_pos hop] at hphase ⊢
    refine { h with keyed := h.keyed.step op, unseen := ?_, phase := hphase }
    intro hseen
    obtain ⟨hunseen, hsets⟩ := Bool.or_eq_false_iff.mp hseen
    exact (h.unseen hunseen).step hsets
  · unfold Node.consensusStep
    rw [if_neg hop]
    exact h

omit [Crypto] [OnChainConfig] in
theorem sameControl_getCommittedBlocks (s : BlockStateMachine) (startNum : Nat)
    (maxSize : Option Nat) (epoch : Nat) :
    SameControl s (s.getCommittedBlocks startNum maxSize epoch).2 := sameControl_blocks s _

theorem Invariant.commitStep (persisted : Nat)
    (h : n.Invariant lastCommitted) : (n.commitStep persisted).Invariant lastCommitted := by
  unfold Node.commitStep
  cases hcommit : n.commit with
  | top =>
    refine { h with phase := ?_ }
    rcases h.phase with hstart | hrun
    · exact .inl { hstart with commit := nofun }
    · exact .inr (hrun.of_sameControl (.refl _) _ _ hrun.seen)
  | waiting epoch =>
    have hkeyed : Keyed (n.buffer.getCommittedBlocks n.startCommitNum none epoch).2.blocks :=
      h.keyed.step (.getCommittedBlocks n.startCommitNum none epoch)
    have hsets : (Operation.getCommittedBlocks n.startCommitNum none epoch).setsOrdered = false :=
      rfl
    have hunseen : n.orderedSeen = false →
        NoOrdered (n.buffer.getCommittedBlocks n.startCommitNum none epoch).2.blocks :=
      fun hseen => (h.unseen hseen).step hsets
    rcases h.phase with hstart | hrun
    · obtain ⟨hnone, hbuffer⟩ := hstart.buffer.getCommittedBlocks n.startCommitNum epoch
      simp only [hnone, Option.bind_none]
      exact { h with
        keyed := hkeyed
        unseen := hunseen
        phase := .inl { hstart with buffer := hbuffer, commit := nofun } }
    · have hcontrol := sameControl_getCommittedBlocks n.buffer n.startCommitNum none epoch
      simp only
      split
      · exact { h with
          keyed := hkeyed
          unseen := hunseen
          phase := .inr (hrun.of_sameControl hcontrol _ _ hrun.seen) }
      · exact { h with
          keyed := hkeyed
          unseen := hunseen
          phase := .inr (hrun.of_sameControl hcontrol _ _ hrun.seen) }
  | setting number =>
    rcases h.phase with hstart | hrun
    · exact absurd hcommit (hstart.commit number)
    · have hcontrol : SameControl n.buffer (n.buffer.setState number persisted) :=
        ⟨rfl, rfl, rfl, rfl, rfl⟩
      exact { h with phase := .inr (hrun.of_sameControl hcontrol _ _ hrun.seen) }

/-! ## Steps of `start_execution` -/

/-- Nothing is left to push and no change is being taken. -/
def AtRest : ExecutionLoop → Prop
  | .top | .waiting _ | .comparing _ | .pushing [] => True
  | _ => False

omit [Crypto] [OnChainConfig] in
theorem AtRest.ne_resetting {execution : ExecutionLoop} (h : AtRest execution)
    (epoch number : Nat) :
    execution ≠ .resetting epoch number := by
  rintro rfl
  cases h

omit [Crypto] [OnChainConfig] in
theorem pending_of_atRest (h : AtRest n.execution) : n.pending = [] := by
  unfold pending
  split
  · rename_i blocks heq
    rw [heq] at h
    cases blocks with
    | nil => rfl
    | cons => cases h
  · rfl

omit [Crypto] [OnChainConfig] in
theorem Stage.move (h : n.Stage)
    (hexecution : ∀ epoch number, n.execution ≠ .resetting epoch number) (execution : ExecutionLoop)
    (hconsuming : execution ≠ .consuming)
    (hresetting : ∀ epoch number, execution ≠ .resetting epoch number) (start : Nat)
    (pushed inflight : List ExternalBlock) :
    Stage { n with
      execution := execution, startOrderedBlock := start, pushed := pushed
      inflight := inflight } := by
  cases h with
  | steady h => exact .steady { h with consuming := hconsuming, resetting := hresetting }
  | announced c hc h =>
    exact .announced c { hc with } { h with consuming := hconsuming, resetting := hresetting }
  | adopted c hc h => exact .adopted c { hc with } { h with resetting := hresetting }
  | taken c hc h => exact absurd h.resetting (hexecution _ _)

section

variable (h : n.Running lastCommitted)

include h

omit [Crypto] [OnChainConfig]

theorem Running.move
    (hrest : AtRest n.execution) {execution : ExecutionLoop} (hrest' : AtRest execution) :
    Running lastCommitted { n with execution := execution } := by
  have hpending := pending_of_atRest hrest
  have hpending' : pending { n with execution := execution } = [] := pending_of_atRest hrest'
  have hline : n.pushed ++ pending { n with execution := execution } = n.pushed ++ n.pending := by
    rw [hpending, hpending']
  refine { h with
    starting := ?_
    storing := ?_
    line := ⟨hline ▸ h.line.nonempty, hline ▸ h.line.chain, hline ▸ h.line.first,
      hline ▸ h.line.next, ?_⟩
    epochs := { h.epochs with }
    stage := h.stage.move hrest.ne_resetting execution ?_ hrest'.ne_resetting _ _ _ }
  · rintro rfl
    cases hrest'
  · rintro epoch rfl
    cases hrest'
  · rw [hpending']
    simp
  · rintro rfl
    cases hrest'

/-- Only an adopted change makes `start_execution` ask for it. -/
theorem Running.consuming (hrest : AtRest n.execution)
    (hchange : n.buffer.epochChangeReady = true ∨ n.buffer.currentEpoch ≠ n.currentEpoch) :
    Running lastCommitted { n with execution := .consuming } := by
  have hline : n.pushed ++ pending { n with execution := .consuming } = n.pushed ++ n.pending := by
    rw [pending_of_atRest hrest]
    rfl
  refine { h with
    starting := nofun
    storing := nofun
    line := ⟨hline ▸ h.line.nonempty, hline ▸ h.line.chain, hline ▸ h.line.first,
      hline ▸ h.line.next, nofun⟩
    epochs := { h.epochs with }
    stage := ?_ }
  cases h.stage with
  | steady hstage | announced c hc hstage =>
    rcases hchange with hready | hepoch
    · simp [hstage.ready] at hready
    · exact absurd hstage.currentEpoch hepoch
  | adopted c hc hstage => exact .adopted c { hc with } { hstage with resetting := nofun }
  | taken c hc hstage =>
    rw [hstage.resetting] at hrest
    cases hrest

theorem Running.consume (hexecution : n.execution = .consuming) : Running lastCommitted { n with
      buffer := n.buffer.consumeEpochChange.2
      execution := .resetting n.buffer.consumeEpochChange.1.1
        n.buffer.consumeEpochChange.1.2 } := by
  have hline : n.pushed ++ n.pending = n.pushed ++ [] := by simp only [pending, hexecution]
  refine { h with
    starting := nofun
    storing := nofun
    line := ⟨hline ▸ h.line.nonempty, hline ▸ h.line.chain, hline ▸ h.line.first,
      hline ▸ h.line.next, nofun⟩
    epochs := ⟨h.epochs.increasing, h.epochs.bound⟩
    stage := ?_ }
  cases h.stage with
  | steady hstage | announced c hc hstage => exact absurd hexecution hstage.consuming
  | adopted c hc hstage =>
    refine .taken c { hc with } { hstage with latest := rfl, ready := rfl, resetting := ?_ }
    simp [consumeEpochChange, hstage.latest, hc.number, hstage.nextEpoch, hstage.currentEpoch]
  | taken c hc hstage =>
    have hresetting := hstage.resetting
    simp [hexecution] at hresetting

/-- The loops enter the new epoch and continue after the block that announced it. -/
theorem Running.reset
    {newEpoch number : Nat} (hexecution : n.execution = .resetting newEpoch number) :
    Running lastCommitted { n with
      currentEpoch := newEpoch, startOrderedBlock := number + 1, execution := .top } := by
  have hline : n.pushed ++ n.pending = n.pushed ++ [] := by simp only [pending, hexecution]
  cases h.stage with
  | steady hstage | announced c hc hstage | adopted c hc hstage =>
    exact absurd hexecution (hstage.resetting _ _)
  | taken c hc hstage =>
    have hchange := hstage.resetting
    rw [hexecution] at hchange
    obtain ⟨rfl, rfl⟩ := ExecutionLoop.resetting.inj hchange
    refine { h with
      starting := nofun
      storing := nofun
      line := ⟨hline ▸ h.line.nonempty, hline ▸ h.line.chain, hline ▸ h.line.first, ?_, nofun⟩
      inflight := ?_
      epochs := { h.epochs with }
      stage := .steady ?_ }
    · intro last hlast
      change last ∈ (n.pushed ++ []).getLast? at hlast
      rw [← hline] at hlast
      have hle : last.blockMeta.epoch ≤ n.currentEpoch := by
        rcases h.line.next last hlast with ⟨hepoch, -⟩ | ⟨hepoch, -⟩
        · exact hepoch.le
        · exact hepoch.le
      exact .inr ⟨lt_of_le_of_lt hle hc.later, c, hc.announced, rfl, rfl⟩
    · intro b hb
      obtain ⟨hnumber, hepoch⟩ := h.inflight b hb
      refine ⟨hnumber, .inr ?_⟩
      rcases hepoch with hepoch | hepoch
      · rw [hepoch]
        exact hc.ended
      · exact hepoch
    · exact { hstage with
        consuming := nofun
        resetting := nofun
        held := fun result hresult => absurd hresult (hc.idle result) }

end

section

omit [Crypto] [OnChainConfig]

theorem follows_of_stretch (h : Stretch epoch num blocks) (announced : List Change) :
    blocks.IsChain (Follows announced) := by
  refine List.IsChain.imp_of_mem_imp ?_ h.chain
  intro a b ha hb hnumber
  exact .inl ⟨(h.epoch b hb).trans (h.epoch a ha).symm, hnumber⟩

/-- The blocks that are handed out continue the chain. -/
theorem Running.fetch (h : n.Running lastCommitted)
    (hrest : AtRest n.execution) {last : ExternalBlock} (hlast : blocks.getLast? = some last)
    (hblocks : Stretch n.currentEpoch n.startOrderedBlock blocks) :
    Running lastCommitted { n with
      execution := .pushing blocks, startOrderedBlock := last.blockMeta.blockNumber + 1 } := by
  have hnonempty := h.line.nonempty
  have hchain := h.line.chain
  have hfirst := h.line.first
  have hnext := h.line.next
  rw [pending_of_atRest hrest, List.append_nil] at hnonempty hchain hfirst hnext
  have hstart : n.startOrderedBlock ≠ 0 := by
    obtain ⟨b, hb⟩ := Option.isSome_iff_exists.mp (List.getLast?_isSome.mpr hnonempty)
    rcases hnext b hb with ⟨-, heq⟩ | ⟨-, c, -, -, heq⟩
    · omega
    · omega
  refine { h with
    starting := nofun
    storing := nofun
    line := ⟨?_, ?_, ?_, ?_, ?_⟩
    epochs := { h.epochs with }
    stage := h.stage.move hrest.ne_resetting (.pushing blocks) nofun nofun _ _ _ }
  · exact fun heq => hnonempty (List.append_eq_nil_iff.mp heq).1
  · refine List.isChain_append.mpr ⟨hchain, follows_of_stretch hblocks _, ?_⟩
    intro a ha b hb
    have hepoch := hblocks.epoch b (List.mem_of_mem_head? hb)
    have hnumber := hblocks.head b hb
    rcases hnext a ha with ⟨hsame, hstart⟩ | ⟨hless, c, hc, hnew, hstart⟩
    · exact .inl ⟨hepoch.trans hsame.symm, hnumber.trans hstart⟩
    · exact .inr ⟨hepoch ▸ hless, c, hc, hnew.trans hepoch.symm, hnumber.trans hstart⟩
  · intro b hb
    change b ∈ (n.pushed ++ blocks).head? at hb
    rw [List.head?_append_of_ne_nil _ hnonempty] at hb
    exact hfirst b hb
  · intro b hb
    change b ∈ (n.pushed ++ blocks).getLast? at hb
    rw [List.getLast?_append, hlast, Option.some_or] at hb
    obtain rfl := Option.some.inj hb
    exact .inl ⟨hblocks.epoch _ (List.mem_of_getLast? hlast), rfl⟩
  · intro b hb
    have hnumber := hblocks.number b hb
    exact ⟨hblocks.epoch b hb, by omega⟩

theorem Startup.fetch (h : n.Startup lastCommitted)
    (hseen : n.orderedSeen = true) (hepoch : n.buffer.currentEpoch = n.currentEpoch)
    {last : ExternalBlock} (hlast : blocks.getLast? = some last)
    (hblocks : Stretch n.currentEpoch n.startOrderedBlock blocks) :
    Running lastCommitted { n with
      execution := .pushing blocks, startOrderedBlock := last.blockMeta.blockNumber + 1 } := by
  have hline : n.pushed ++ blocks = blocks := by rw [h.pushed, List.nil_append]
  have hidle : ∀ result, ¬ n.Holds result := by
    unfold Holds
    rw [h.idle]
    rintro result (heq | ⟨_, heq⟩) <;> cases heq
  have hstart := h.start
  refine
    { seen := hseen
      starting := nofun
      storing := nofun
      line := ⟨?_, ?_, ?_, ?_, ?_⟩
      inflight := ?_
      epochs := ⟨?_, ?_⟩
      stage := .steady ?_ }
  · change n.pushed ++ blocks ≠ []
    rw [hline]
    rintro rfl
    cases hlast
  · change (n.pushed ++ blocks).IsChain _
    rw [hline]
    exact follows_of_stretch hblocks _
  · intro b hb
    change b ∈ (n.pushed ++ blocks).head? at hb
    rw [hline] at hb
    rw [hblocks.head b hb, hstart]
  · intro b hb
    change b ∈ (n.pushed ++ blocks).getLast? at hb
    rw [hline, hlast] at hb
    obtain rfl := Option.some.inj hb
    exact .inl ⟨hblocks.epoch _ (List.mem_of_getLast? hlast), rfl⟩
  · intro b hb
    have hnumber := hblocks.number b hb
    exact ⟨hblocks.epoch b hb, by omega⟩
  · change ∀ b ∈ n.inflight, _
    rw [h.inflight]
    simp
  · change n.announced.Pairwise _
    rw [h.announced]
    exact .nil
  · change ∀ c ∈ n.announced, _
    rw [h.announced]
    simp
  · exact
      { currentEpoch := hepoch
        nextEpoch := h.buffer.nextEpoch
        info := h.buffer.info
        latest := h.buffer.latest
        ready := h.buffer.ready
        consuming := nofun
        resetting := nofun
        held := fun result hresult => absurd hresult (hidle result) }

theorem Running.push (h : n.Running lastCommitted) {block : ExternalBlock}
    (hexecution : n.execution = .pushing (block :: blocks)) :
    Running lastCommitted { n with
      execution := .pushing blocks
      pushed := n.pushed ++ [block]
      inflight := n.inflight ++ [block] } := by
  have hpending : n.pending = block :: blocks := by
    unfold pending
    rw [hexecution]
  have hline : n.pushed ++ n.pending = n.pushed ++ [block] ++ blocks := by
    rw [hpending, List.append_assoc]
    rfl
  have hblock : ∀ b ∈ block :: blocks,
      b.blockMeta.epoch = n.currentEpoch ∧ b.blockMeta.blockNumber ≠ 0 := hpending ▸ h.line.pending
  have hresetting : ∀ epoch number, n.execution ≠ .resetting epoch number := by
    rw [hexecution]
    exact nofun
  refine { h with
    starting := nofun
    storing := nofun
    line := ⟨hline ▸ h.line.nonempty, hline ▸ h.line.chain, hline ▸ h.line.first,
      hline ▸ h.line.next, (List.forall_mem_cons.mp hblock).2⟩
    inflight := ?_
    epochs := { h.epochs with }
    stage := h.stage.move hresetting (.pushing blocks) nofun nofun _ _ _ }
  apply forall_mem_snoc h.inflight
  obtain ⟨hepoch, hnumber⟩ := hblock block List.mem_cons_self
  exact ⟨hnumber, .inl hepoch⟩

theorem Invariant.handleOrdered
    (h : n.Invariant lastCommitted) (hexecution : n.execution = .waiting epoch) :
    (n.handleOrdered epoch
      (n.buffer.getOrderedBlocks n.startOrderedBlock none epoch)).Invariant lastCommitted := by
  have hepoch := h.waiting epoch hexecution
  have hrest : AtRest n.execution := by
    rw [hexecution]
    trivial
  cases hanswer : n.buffer.getOrderedBlocks n.startOrderedBlock none epoch with
  | error e =>
    obtain ⟨rfl, hchange⟩ := getOrderedBlocks_error hanswer
    rw [hepoch] at hchange
    unfold Node.handleOrdered
    refine { h with waiting := nofun, comparing := nofun, phase := ?_ }
    rcases h.phase with hstart | hrun
    · exact .inl { hstart with pushing := nofun, resetting := nofun }
    · exact .inr (hrun.consuming hrest hchange)
  | ok answer =>
    cases answer with
    | none => exact h
    | some blocks =>
      obtain ⟨-, hcurrent, hnonempty, hstretch⟩ := getOrderedBlocks_some h.keyed hanswer
      rw [hepoch] at hcurrent hstretch
      obtain ⟨last, hlast⟩ := Option.isSome_iff_exists.mp (List.getLast?_isSome.mpr hnonempty)
      have hlast' : (blocks.map (·.1)).getLast? = some last.1 := by
        rw [List.getLast?_map, hlast]
        rfl
      simp only [Node.handleOrdered, hlast]
      refine { h with waiting := nofun, comparing := nofun, phase := .inr ?_ }
      rcases h.phase with hstart | hrun
      · have hseen : n.orderedSeen = true := by
          by_contra hunseen
          exact not_noOrdered_of_getOrderedBlocks hanswer (h.unseen (by simpa using hunseen))
        exact hstart.fetch hseen hcurrent hlast' hstretch
      · exact hrun.fetch hrest hlast' hstretch

theorem Invariant.executionStep (timeout : Bool)
    (h : n.Invariant lastCommitted) : (n.executionStep timeout).Invariant lastCommitted := by
  unfold Node.executionStep
  -- moving between control points where nothing is pushed
  have hmove {execution : ExecutionLoop} (hrest : AtRest n.execution) (hrest' : AtRest execution)
      (hwaiting : ∀ epoch, execution = .waiting epoch → epoch = n.currentEpoch)
      (hcomparing : ∀ epoch, execution = .comparing epoch → epoch = n.currentEpoch)
      (hpushing : ∀ blocks, execution ≠ .pushing blocks) :
      Invariant lastCommitted { n with execution := execution } := by
    refine { h with waiting := hwaiting, comparing := hcomparing, phase := ?_ }
    rcases h.phase with hstart | hrun
    · refine .inl { hstart with pushing := hpushing, resetting := ?_ }
      rintro epoch number rfl
      cases hrest'
    · exact .inr (hrun.move hrest hrest')
  cases hexecution : n.execution with
  | starting =>
    refine { h with waiting := nofun, comparing := nofun, phase := ?_ }
    rcases h.phase with hstart | hrun
    · exact .inl { hstart with pushing := nofun, resetting := nofun }
    · exact absurd hexecution hrun.starting
  | storing bufferEpoch =>
    refine { h with waiting := nofun, comparing := nofun, phase := ?_ }
    rcases h.phase with hstart | hrun
    · exact .inl { hstart with pushing := nofun, resetting := nofun }
    · exact absurd hexecution (hrun.storing bufferEpoch)
  | top =>
    refine hmove (by rw [hexecution]; trivial) trivial ?_ nofun nofun
    intro epoch heq
    exact (ExecutionLoop.waiting.inj heq).symm
  | waiting epoch =>
    have hepoch := h.waiting epoch hexecution
    cases timeout with
    | true =>
      refine hmove (by rw [hexecution]; trivial) trivial nofun ?_ nofun
      intro epoch' heq
      exact (ExecutionLoop.comparing.inj heq).symm.trans hepoch
    | false => exact h.handleOrdered hexecution
  | pushing blocks =>
    cases blocks with
    | nil => exact hmove (by rw [hexecution]; trivial) trivial nofun nofun nofun
    | cons block blocks =>
      refine { h with waiting := nofun, comparing := nofun, phase := .inr ?_ }
      rcases h.phase with hstart | hrun
      · exact absurd hexecution (hstart.pushing _)
      · exact hrun.push hexecution
  | comparing epoch =>
    have hepoch := h.comparing epoch hexecution
    have hrest : AtRest n.execution := by
      rw [hexecution]
      trivial
    by_cases hchange : epoch ≠ n.buffer.currentEpoch
    · simp only [hchange, ne_eq, not_false_eq_true, if_true]
      refine { h with waiting := nofun, comparing := nofun, phase := ?_ }
      rcases h.phase with hstart | hrun
      · exact .inl { hstart with pushing := nofun, resetting := nofun }
      · exact .inr (hrun.consuming hrest (.inr (hepoch ▸ hchange.symm)))
    · simp only [hchange, if_false]
      exact hmove hrest trivial nofun nofun nofun
  | consuming =>
    refine { h with waiting := nofun, comparing := nofun, phase := ?_ }
    rcases h.phase with hstart | hrun
    · obtain ⟨hbuffer, hnumber⟩ := hstart.buffer.consume
      refine .inl { hstart with buffer := hbuffer, pushing := nofun, resetting := ?_ }
      intro epoch number heq
      exact (ExecutionLoop.resetting.inj heq).2.symm.trans hnumber
    · exact .inr (hrun.consume hexecution)
  | resetting newEpoch number =>
    refine { h with waiting := nofun, comparing := nofun, phase := ?_ }
    rcases h.phase with hstart | hrun
    · have hnumber := hstart.resetting _ _ hexecution
      exact .inl { hstart with
        start := congrArg (· + 1) hnumber, pushing := nofun, resetting := nofun }
    · exact .inr (hrun.reset hexecution)

/-! ## Results -/

/-- While the epoch of the loops goes on for reth, no change is pending. -/
theorem Stage.steady_of_not_ended (h : n.Stage) (hended : n.currentEpoch ∉ n.reconfigured) :
    n.Steady := by
  cases h with
  | steady h => exact h
  | announced c hc | adopted c hc | taken c hc => exact absurd hc.ended hended

end

variable {result : ExecutionResult}

section

omit [Crypto] [OnChainConfig]

theorem Stage.steady_of_holds (h : n.Stage) (hheld : n.Holds result) : n.Steady := by
  cases h with
  | steady h => exact h
  | announced c hc | adopted c hc | taken c hc => exact absurd hheld (hc.idle result)

theorem Running.resultStep (h : n.Running lastCommitted)
    (blockHash : HashValue) (txsInfo : List TxnStatus) (events : List LiquentEvent) :
    (n.resultStep blockHash txsInfo events).Running lastCommitted := by
  unfold Node.resultStep
  cases hinflight : n.inflight with
  | nil => exact h
  | cons block rest =>
    have hrest : ∀ b ∈ rest, b.blockMeta.blockNumber ≠ 0 ∧
        (b.blockMeta.epoch = n.currentEpoch ∨ b.blockMeta.epoch ∈ n.reconfigured) := by
      intro b hb
      refine h.inflight b ?_
      rw [hinflight]
      exact List.mem_cons_of_mem _ hb
    obtain ⟨hnumber, hepoch⟩ := h.inflight block (by rw [hinflight]; exact List.mem_cons_self)
    by_cases hdropped : block.blockMeta.epoch ∈ n.reconfigured
    · simp only [hdropped, if_true]
      exact { h with
        line := { h.line with }, inflight := hrest, epochs := { h.epochs with }
        stage := h.stage.of_sameControl (.refl _) _ _ _ rest }
    · simp only [hdropped, if_false]
      by_cases hreceiving : n.commitVote = .receiving
      · simp only [hreceiving, if_true]
        have hcurrent : block.blockMeta.epoch = n.currentEpoch := hepoch.resolve_right hdropped
        have hsteady := h.stage.steady_of_not_ended (hcurrent ▸ hdropped)
        refine { h with
          line := { h.line with }, inflight := ?_, epochs := { h.epochs with }
          stage := .steady { hsteady with held := ?_ } }
        · intro b hb
          obtain ⟨hb, hepoch⟩ := hrest b hb
          refine ⟨hb, hepoch.imp_right ?_⟩
          intro hmem
          change b.blockMeta.epoch ∈ if _ then _ else _
          split
          · exact List.mem_cons_of_mem _ hmem
          · exact hmem
        · rintro result (hheld | ⟨epoch, hheld⟩)
          · obtain rfl := CommitVoteLoop.received.inj hheld
            refine ⟨hnumber, ?_⟩
            intro hnew
            change n.currentEpoch ∈ if (findNewEpoch events).isSome = true then _ else _
            rw [if_pos hnew, hcurrent]
            exact List.mem_cons_self
          · cases hheld
      · simp only [hreceiving, if_false]
        exact h

theorem Invariant.resultStep (h : n.Invariant lastCommitted)
    (blockHash : HashValue) (txsInfo : List TxnStatus) (events : List LiquentEvent) :
    (n.resultStep blockHash txsInfo events).Invariant lastCommitted := by
  rcases h.phase with hstart | hrun
  · have hsame : n.resultStep blockHash txsInfo events = n := by
      unfold Node.resultStep
      rw [hstart.inflight]
    rw [hsame]
    exact h
  · have hrun' := hrun.resultStep blockHash txsInfo events
    have hframe : (n.resultStep blockHash txsInfo events).buffer = n.buffer ∧
        (n.resultStep blockHash txsInfo events).orderedSeen = n.orderedSeen ∧
        (n.resultStep blockHash txsInfo events).execution = n.execution ∧
        (n.resultStep blockHash txsInfo events).currentEpoch = n.currentEpoch := by
      unfold Node.resultStep
      split
      · exact ⟨rfl, rfl, rfl, rfl⟩
      · split
        · exact ⟨rfl, rfl, rfl, rfl⟩
        · split
          · exact ⟨rfl, rfl, rfl, rfl⟩
          · exact ⟨rfl, rfl, rfl, rfl⟩
    obtain ⟨hbuffer, hseen, hexecution, hcurrent⟩ := hframe
    generalize n.resultStep blockHash txsInfo events = n' at *
    cases n'
    subst hbuffer hseen hexecution hcurrent
    exact { h with phase := .inr hrun' }

end

/-- Storing a result announces at most one change. -/
theorem Running.storeResult (h : n.Running lastCommitted)
    (hvote : n.commitVote = .setting result epoch)
    (hlater : (ExecutionResult.operation result epoch).NamesLaterEpoch n.buffer)
    {commitVote : CommitVoteLoop} (hidle : commitVote = .receiving ∨ commitVote = .stopped) :
    Running lastCommitted { n with
      buffer := (BlockBuffer.step n.buffer (ExecutionResult.operation result epoch)).2
      announced := n.announced ++
        (announces n.buffer (ExecutionResult.operation result epoch)).toList
      commitVote := commitVote } := by
  have hheld : n.Holds result := .inr ⟨epoch, hvote⟩
  have hsteady := h.stage.steady_of_holds hheld
  obtain ⟨hnumber, hended⟩ := hsteady.held result hheld
  have hsub : n.announced ⊆
      n.announced ++ (announces n.buffer (ExecutionResult.operation result epoch)).toList :=
    List.subset_append_left _ _
  have hline : OnLine lastCommitted { n with
      buffer := (BlockBuffer.step n.buffer (ExecutionResult.operation result epoch)).2
      announced := n.announced ++
        (announces n.buffer (ExecutionResult.operation result epoch)).toList
      commitVote := commitVote } := by
    refine { h.line with
      chain := h.line.chain.imp fun _ _ hfollows => hfollows.mono hsub, next := ?_ }
    intro last hlast
    rcases h.line.next last hlast with hsame | ⟨hless, c, hc, hnext⟩
    · exact .inl hsame
    · exact .inr ⟨hless, c, hsub hc, hnext⟩
  have hnotHeld : ∀ other,
      ¬ (commitVote = .received other ∨ ∃ epoch, commitVote = .setting other epoch) := by
    rcases hidle with rfl | rfl
    · rintro other (heq | ⟨_, heq⟩) <;> cases heq
    · rintro other (heq | ⟨_, heq⟩) <;> cases heq
  cases step_effect n.buffer (ExecutionResult.operation result epoch) with
  | quiet hquiet =>
    have hcontrol := hquiet.control
    refine { h with line := hline, epochs := ⟨?_, ?_⟩, stage := .steady ?_ }
    · change (n.announced ++ Option.toList _).Pairwise _
      rw [hquiet.announces, Option.toList_none, List.append_nil]
      exact h.epochs.increasing
    · intro c hc
      change c ∈ n.announced ++ Option.toList _ at hc
      rw [hquiet.announces, Option.toList_none, List.append_nil] at hc
      rw [hcontrol.nextEpoch, hcontrol.currentEpoch]
      exact h.epochs.bound c hc
    · exact { hsteady with
        currentEpoch := hcontrol.currentEpoch.trans hsteady.currentEpoch
        nextEpoch := hcontrol.nextEpoch.trans hsteady.nextEpoch
        info := hcontrol.info.trans hsteady.info
        latest := hcontrol.latest.trans hsteady.latest
        ready := hcontrol.ready.trans hsteady.ready
        held := fun other hother => absurd hother (hnotHeld other) }
  | announce c hannounce =>
    have hnew := hannounce.later hlater
    obtain ⟨_, _, events, bytes, hcall, hfind⟩ := hannounce.call
    obtain ⟨-, -, hcnumber, -, -, hevents⟩ := Operation.setComputeRes.inj hcall
    have hmem : c ∈ n.announced ++
        (announces n.buffer (ExecutionResult.operation result epoch)).toList := by
      rw [hannounce.announces]
      simp
    refine { h with line := hline, epochs := ⟨?_, ?_⟩, stage := .announced c ?_ ?_ }
    · change (n.announced ++ Option.toList _).Pairwise _
      rw [hannounce.announces, Option.toList_some, List.pairwise_append]
      refine ⟨h.epochs.increasing, List.pairwise_singleton _ _, ?_⟩
      intro d hd e he
      obtain rfl := List.mem_singleton.mp he
      have hbound := h.epochs.bound d hd
      rw [hsteady.nextEpoch, Option.getD_none] at hbound
      exact lt_of_le_of_lt hbound hnew
    · intro d hd
      change d ∈ n.announced ++ Option.toList _ at hd
      rw [hannounce.announces, Option.toList_some] at hd
      rw [hannounce.nextEpoch, Option.getD_some]
      rcases List.mem_append.mp hd with hd | hd
      · have hbound := h.epochs.bound d hd
        rw [hsteady.nextEpoch, Option.getD_none] at hbound
        exact le_of_lt (lt_of_le_of_lt hbound hnew)
      · rw [List.mem_singleton.mp hd]
    · exact
        { announced := hmem
          number := hcnumber ▸ hnumber
          later := hsteady.currentEpoch ▸ hnew
          ended := hended (by rw [hevents, hfind]; rfl)
          idle := hnotHeld }
    · exact
        { currentEpoch := hannounce.currentEpoch.trans hsteady.currentEpoch
          nextEpoch := hannounce.nextEpoch
          latest := hannounce.latest
          ready := hannounce.ready.trans hsteady.ready
          consuming := hsteady.consuming
          resetting := hsteady.resetting }
  | consume heq | release heq | initEpoch _ heq => cases heq

theorem Invariant.commitVoteStep
    (hallowed : Action.Allowed n .commitVote) (h : n.Invariant lastCommitted) :
    n.commitVoteStep.Invariant lastCommitted := by
  unfold Node.commitVoteStep
  cases hvote : n.commitVote with
  | receiving | stopped => exact h
  | received result =>
    refine { h with phase := .inr ?_ }
    rcases h.phase with hstart | hrun
    · simp [hstart.idle] at hvote
    · have hsteady := hrun.stage.steady_of_holds (.inl hvote)
      refine { hrun with
        line := { hrun.line with }
        epochs := { hrun.epochs with }
        stage := .steady { hsteady with held := ?_ } }
      rintro other (heq | ⟨_, heq⟩)
      · cases heq
      · obtain ⟨rfl, -⟩ := CommitVoteLoop.setting.inj heq
        exact hsteady.held _ (.inl hvote)
  | setting result epoch =>
    have hsets : (ExecutionResult.operation result epoch).setsOrdered = false := rfl
    refine { h with
      keyed := h.keyed.step _, unseen := fun hseen => (h.unseen hseen).step hsets
      phase := .inr ?_ }
    rcases h.phase with hstart | hrun
    · simp [hstart.idle] at hvote
    · refine hrun.storeResult hvote (hallowed result epoch hvote) ?_
      split
      · exact .inl rfl
      · exact .inr rfl

theorem Invariant.step {action : Action}
    (hallowed : action.Allowed n) (h : n.Invariant lastCommitted) :
    (n.step action).2.Invariant lastCommitted := by
  cases action with
  | consensus op => exact h.consensusStep hallowed
  | execution timeout => exact h.executionStep timeout
  | result blockHash txsInfo events => exact h.resultStep blockHash txsInfo events
  | commitVote => exact h.commitVoteStep hallowed
  | commit persisted => exact h.commitStep persisted

omit [Crypto] [OnChainConfig]

theorem invariant_start {initialEpoch : Nat} {ids : Table Nat (Nat × HashValue)}
    {buffer : BlockStateMachine} (hinit : init lastCommitted ids initialEpoch = .ok buffer) :
    (Node.start buffer lastCommitted).Invariant lastCommitted := by
  unfold init at hinit
  cases hcommit : initCommitBlock lastCommitted ids with
  | error e =>
    rw [hcommit] at hinit
    cases hinit
  | ok commitBlock =>
    rw [hcommit] at hinit
    obtain rfl := Except.ok.inj hinit
    have hentries : ∀ (key : BlockKey) state, Table.get (commitBlock.toList.map fun entry =>
        (⟨entry.1, lastCommitted⟩, BlockState.historical entry.2)) key = some state →
        ∃ id, state = .historical id := by
      intro key state hget
      obtain ⟨entry, -, heq⟩ := List.mem_map.mp (Table.mem_of_get hget)
      exact ⟨entry.2, (Prod.mk.inj heq).2.symm⟩
    have hnone : NoOrdered (commitBlock.toList.map fun entry =>
        (⟨entry.1, lastCommitted⟩, BlockState.historical entry.2)) := by
      intro key block parentId round hget
      obtain ⟨id, heq⟩ := hentries key _ hget
      cases heq
    refine
      { keyed := fun key block parentId round hget => absurd hget (hnone key block parentId round)
        unseen := fun _ => hnone
        waiting := nofun
        comparing := nofun
        phase := .inl ?_ }
    exact
      { buffer :=
          { entries := fun key state hget => .inr (hentries key state hget)
            nextEpoch := rfl, info := rfl, latest := rfl, ready := rfl, latestCommit := rfl }
        start := rfl, pushed := rfl, pushing := nofun, resetting := nofun, inflight := rfl
        idle := rfl, commit := nofun, announced := rfl }

theorem Invariant.gapFree (h : n.Invariant lastCommitted) :
    GapFree lastCommitted n.announced n.pushed := by
  rcases h.phase with hstart | hrun
  · rw [hstart.pushed, hstart.announced]
    exact gapFree_of_isChain .nil nofun .nil
  · refine gapFree_of_isChain (List.isChain_append.mp hrun.line.chain).1 ?_ hrun.epochs.increasing
    intro b hb
    refine hrun.line.first b ?_
    rw [List.head?_append]
    rw [Option.mem_def] at hb ⊢
    rw [hb, Option.some_or]

end Node

end Steps

/-- In every run that starts from `init`, the blocks pushed to reth form one chain without gaps. -/
theorem pushed_gapFree [Crypto] [OnChainConfig] {lastCommitted initialEpoch : Nat}
    {ids : Table Nat (Nat × HashValue)} {buffer : BlockStateMachine}
    (hinit : init lastCommitted ids initialEpoch = .ok buffer) {actions : List Action}
    (hallowed : AlongRun Node.step (fun n action => action.Allowed n)
      (Node.start buffer lastCommitted) actions) :
    GapFree lastCommitted (run Node.step (Node.start buffer lastCommitted) actions).2.announced
      (run Node.step (Node.start buffer lastCommitted) actions).2.pushed := by
  have hinvariant := AlongRun.invariant
    (fun n action hallowed (h : n.Invariant lastCommitted) => h.step hallowed) hallowed
    (Node.invariant_start hinit)
  exact hinvariant.gapFree

namespace Example

/-- Block 1 of epoch 1 changes the epoch, then block 2 of epoch 2 is pushed. -/
def acrossEpochs : List Action :=
  [.consensus (.setOrderedBlocks 0 (block 1 1 11) 1), .execution false, .execution false,
    .execution false, .execution false, .execution false, .execution false,
    .result 7 [] [.newEpoch 2 []], .commitVote, .commitVote,
    .consensus .releaseInflightBlocks, .execution false, .execution false, .execution false,
    .execution false, .consensus (.setOrderedBlocks 11 (block 2 2 21) 1), .execution false,
    .execution false, .execution false]

end Example

attribute [local instance] Example.crypto Example.config

theorem pushed_gapFree_acrossEpochs :
    let n := (run Node.step (Node.start Example.start 0) Example.acrossEpochs).2
    n.pushed.map ExternalBlock.key = [⟨1, 1⟩, ⟨2, 2⟩] ∧ GapFree 0 n.announced n.pushed := by
  refine ⟨by decide, pushed_gapFree Example.init_start ?_⟩
  refine ⟨nofun, trivial, trivial, trivial, trivial, trivial, trivial, trivial, nofun, ?_,
    nofun, trivial, trivial, trivial, trivial, nofun, trivial, trivial, trivial, trivial⟩
  intro result epoch hvote
  obtain ⟨rfl, rfl⟩ := CommitVoteLoop.setting.inj hvote
  intro named bytes hmem
  obtain ⟨rfl, -⟩ := LiquentEvent.newEpoch.inj (List.mem_singleton.mp hmem)
  decide

end Liquent.BlockBuffer
