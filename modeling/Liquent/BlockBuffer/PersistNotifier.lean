import Liquent.BlockBuffer.ResultStability

/-!
# Announcing that a block is persisted

The block that changes the epoch is committed together with a channel: `set_commit_blocks` returns
its receiver, and the sender stays in the buffer until `get_committed_blocks` hands it out.  Blocks
after it have an epoch state too, but they get no channel.  `entryMove` says once what an operation
does to one entry and which ends of a channel it hands out for it; that each end is handed out once
follows by induction over the run.
-/

namespace Liquent.BlockBuffer

open Misc BlockStateMachine

def Change.key (c : Change) : BlockKey := ⟨c.epoch, c.number⟩

/-- What a caller learns about a block that changes the epoch. -/
inductive Notice where
  | announced (c : Change)
  | receiver (key : BlockKey)
  | sender (key : BlockKey)
deriving DecidableEq

/-- A block that has a result with an epoch state and is not committed. -/
def BlockState.awaitsCommit : BlockState → Bool
  | .computed _ result => result.epochState.isSome
  | _ => false

/-! ## One call of `set_commit_blocks` -/

/-- What committing does to one entry, and how often its receiver is returned. -/
inductive CommitMove (s : BlockStateMachine) (key : BlockKey) :
    Option BlockState → Option BlockState → Nat → Prop
  | same (entry : Option BlockState) : CommitMove s key entry entry 0
  | commit (id : HashValue) (result : StateComputeResult) (hash : Option HashValue)
      (notifier : Bool)
      (notifies : notifier = (result.epochState.isSome && !s.isSuffixBlock key.blockNumber)) :
      CommitMove s key (some (.computed id result)) (some (.committed hash result id notifier))
        notifier.toNat

variable {s : BlockStateMachine} {op : Operation} {c : Change} {known : List Notice}
  {refs : List BlockHashRef} {key : BlockKey} {epoch : Nat} {maxSize : Option Nat}
  {r : BlockHashRef} {s' : BlockStateMachine}

theorem setCommitBlock_move
    {notifier : Option Nat} (h : s.setCommitBlock r epoch = (.ok notifier, s')) (key : BlockKey) :
    CommitMove s key (s.blocks.get key) (s'.blocks.get key)
      ((notifier.toList.map fun num => (⟨epoch, num⟩ : BlockKey)).count key) := by
  have hstep := s.setCommitBlock_step r epoch
  rw [h] at hstep
  cases hstep with
  | settle => exact .same _
  | commit result notify hget hnotify hs' =>
    subst hs'
    by_cases hkey : key = ⟨epoch, r.num⟩
    · subst hkey
      rw [hget, Table.get_put_self]
      have hmove : CommitMove s ⟨epoch, r.num⟩ _ _ _ :=
        .commit r.blockId result r.hash notify hnotify
      cases notify with
      | false | true => simpa using hmove
    · rw [Table.get_put_of_ne hkey]
      have hnum : (⟨epoch, r.num⟩ : BlockKey) ≠ key := fun heq => hkey heq.symm
      have hmove : CommitMove s key (s.blocks.get key) (s.blocks.get key) 0 := .same _
      cases notify with
      | false => simpa using hmove
      | true => simpa [List.count_cons, hnum] using hmove

/-- A commit does not change whether a block is after the one that changes the epoch. -/
theorem setCommitBlock_isSuffixBlock (s : BlockStateMachine) (r : BlockHashRef) (epoch num : Nat) :
    (s.setCommitBlock r epoch).2.isSuffixBlock num = s.isSuffixBlock num := by
  rw [(s.setCommitBlock_spec r epoch).1]
  rfl

theorem setCommitBlocks_move
    {nums : List Nat} (h : (s.setCommitBlocks refs epoch).1 = .ok nums) (key : BlockKey) :
    CommitMove s key (s.blocks.get key) ((s.setCommitBlocks refs epoch).2.blocks.get key)
      ((nums.map fun num => (⟨epoch, num⟩ : BlockKey)).count key) := by
  induction refs generalizing s nums with
  | nil =>
    obtain rfl := Except.ok.inj h
    exact .same _
  | cons r rest ih =>
    obtain ⟨notifier, s', more, hfirst, hrest, rfl, hlast⟩ := setCommitBlocks_cons_ok h
    rw [hlast]
    have hmove := setCommitBlock_move hfirst key
    have hmore := ih hrest
    have hsuffix : s'.isSuffixBlock key.blockNumber = s.isSuffixBlock key.blockNumber := by
      have hs' : s' = (s.setCommitBlock r epoch).2 := by rw [hfirst]
      rw [hs', setCommitBlock_isSuffixBlock]
    rw [List.map_append, List.count_append]
    generalize (s'.setCommitBlocks rest epoch).2.blocks.get key = last at *
    generalize s'.blocks.get key = middle at *
    generalize s.blocks.get key = first at *
    generalize (more.map fun num => (⟨epoch, num⟩ : BlockKey)).count key = later at *
    generalize (notifier.toList.map fun num => (⟨epoch, num⟩ : BlockKey)).count key = now at *
    cases hmove with
    | same =>
      cases hmore with
      | same => exact .same _
      | commit id result hash notifier hnotifies =>
        rw [hsuffix] at hnotifies
        rw [Nat.zero_add]
        exact .commit id result hash notifier hnotifies
    | commit id result hash notifier hnotifies =>
      -- a committed entry stays as it is
      cases hmore with
      | same => exact .commit id result hash notifier hnotifies

/-! ## One call of `get_committed_blocks` -/

/-- The elements that a loop collects are found under different numbers. -/
theorem collectFrom_spec {α : Type} {f : Nat → Option α} {number : α → Nat}
    (hnumber : ∀ num a, f num = some a → number a = num) (maxSize : Option Nat)
    (fuel count num : Nat) :
    (∀ a ∈ collectFrom f maxSize fuel count num, f (number a) = some a ∧ num ≤ number a) ∧
      ((collectFrom f maxSize fuel count num).map number).Nodup := by
  induction fuel generalizing count num with
  | zero => simp [collectFrom]
  | succ fuel ih =>
    unfold collectFrom
    cases hfound : f num with
    | none => simp
    | some a =>
      have ha : number a = num := hnumber num a hfound
      by_cases hsize : maxSize.any (fun size => size ≤ count + 1) = true
      · simp [hsize, ha, hfound]
      · obtain ⟨hmem, hnodup⟩ := ih (count + 1) (num + 1)
        simp only [hsize, Bool.false_eq_true, if_false]
        constructor
        · refine List.forall_mem_cons.mpr ⟨?_, fun b hb => (hmem b hb).imp_right Nat.le_of_succ_le⟩
          rw [ha]
          exact ⟨hfound, le_refl num⟩
        · rw [List.map_cons, List.nodup_cons, ha]
          refine ⟨?_, hnodup⟩
          intro hagain
          obtain ⟨b, hb, hsame⟩ := List.mem_map.mp hagain
          have hlater := (hmem b hb).2
          omega

theorem committedAt_some {num : Nat} (h : s.committedAt epoch num = some r) :
    r.num = num ∧ s.isSuffixBlock num = false ∧ ∃ result, s.blocks.get ⟨epoch, num⟩ =
      some (.committed r.hash result r.blockId r.persistNotifier) := by
  unfold committedAt at h
  split at h
  · cases h
  · rename_i hsuffix
    split at h
    · rename_i hash result id notifier hget
      obtain rfl := Option.some.inj h
      exact ⟨rfl, by simpa using hsuffix, result, hget⟩
    · cases h

/-- The blocks that a call of `get_committed_blocks` hands out. -/
def BlockStateMachine.handedOut (s : BlockStateMachine) (startNum : Nat) (maxSize : Option Nat)
    (epoch : Nat) : List BlockHashRef :=
  collectFrom (s.committedAt epoch) maxSize s.blocks.length 0 startNum

variable {startNum : Nat}

theorem getCommittedBlocks_some (h : (s.getCommittedBlocks startNum maxSize epoch).1 = some refs) :
    refs = s.handedOut startNum maxSize epoch := by
  simp only [getCommittedBlocks] at h
  split at h
  · cases h
  · exact (Option.some.inj h).symm

theorem handedOut_spec (s : BlockStateMachine) (startNum : Nat) (maxSize : Option Nat)
    (epoch : Nat) : (∀ r ∈ s.handedOut startNum maxSize epoch, s.isSuffixBlock r.num = false ∧
      ∃ result, s.blocks.get ⟨epoch, r.num⟩ =
        some (.committed r.hash result r.blockId r.persistNotifier)) ∧
      ((s.handedOut startNum maxSize epoch).map (·.num)).Nodup := by
  have hnumber : ∀ num r, s.committedAt epoch num = some r → r.num = num :=
    fun num r h => (committedAt_some h).1
  obtain ⟨hmem, hnodup⟩ := collectFrom_spec hnumber maxSize s.blocks.length 0 startNum
  refine ⟨?_, hnodup⟩
  intro r hr
  exact (committedAt_some (hmem r hr).1).2

/-- The senders that a call hands out. -/
def sentKeys (epoch : Nat) (refs : List BlockHashRef) : List BlockKey :=
  (refs.filter (·.persistNotifier)).map fun r => ⟨epoch, r.num⟩

theorem mem_sentKeys : key ∈ sentKeys epoch refs ↔
      ∃ r ∈ refs, r.persistNotifier = true ∧ (⟨epoch, r.num⟩ : BlockKey) = key := by
  simp [sentKeys, and_assoc]

theorem nodup_sentKeys (h : (refs.map (·.num)).Nodup) : (sentKeys epoch refs).Nodup := by
  have hkeys : (refs.map fun r => (⟨epoch, r.num⟩ : BlockKey)).Nodup := by
    have hmap : refs.map (fun r => (⟨epoch, r.num⟩ : BlockKey)) =
        (refs.map (·.num)).map fun num => ⟨epoch, num⟩ := by simp
    rw [hmap]
    exact h.map fun a b hab => (BlockKey.mk.inj hab).2
  exact hkeys.sublist ((List.filter_sublist (l := refs)).map _)

/-- What handing out the committed blocks does to one entry, and how often its sender is handed
out. -/
inductive TakeMove : Option BlockState → Option BlockState → Nat → Prop
  | same (entry : Option BlockState) : TakeMove entry entry 0
  | take (hash : Option HashValue) (result : StateComputeResult) (id : HashValue)
      (notifier : Bool) : TakeMove (some (.committed hash result id notifier))
        (some (.committed hash result id false)) notifier.toNat

theorem getCommittedBlocks_move (s : BlockStateMachine) (startNum : Nat) (maxSize : Option Nat)
    (epoch : Nat) (key : BlockKey) :
    TakeMove (s.blocks.get key) ((s.getCommittedBlocks startNum maxSize epoch).2.blocks.get key)
      ((sentKeys epoch (s.handedOut startNum maxSize epoch)).count key) := by
  obtain ⟨hentry, hnodup⟩ := handedOut_spec s startNum maxSize epoch
  have hblocks : (s.getCommittedBlocks startNum maxSize epoch).2.blocks = s.blocks.mapValues
      (takeNotifier epoch ((s.handedOut startNum maxSize epoch).map (·.num))) := rfl
  rw [hblocks, Table.get_mapValues]
  generalize s.handedOut startNum maxSize epoch = refs at *
  by_cases hreturned : ∃ r ∈ refs, (⟨epoch, r.num⟩ : BlockKey) = key
  · obtain ⟨r, hr, rfl⟩ := hreturned
    obtain ⟨-, result, hget⟩ := hentry r hr
    have hcount : (sentKeys epoch refs).count ⟨epoch, r.num⟩ = r.persistNotifier.toNat := by
      cases hnotifier : r.persistNotifier with
      | true =>
        exact List.count_eq_one_of_mem (nodup_sentKeys hnodup)
          (mem_sentKeys.mpr ⟨r, hr, hnotifier, rfl⟩)
      | false =>
        apply List.count_eq_zero_of_not_mem
        intro hsent
        obtain ⟨r', hr', hnotifier', hkey⟩ := mem_sentKeys.mp hsent
        obtain ⟨-, result', hget'⟩ := hentry r' hr'
        rw [hkey, hget, hnotifier, hnotifier'] at hget'
        simp at hget'
    have htaken : takeNotifier epoch (refs.map (·.num)) ⟨epoch, r.num⟩
        (.committed r.hash result r.blockId r.persistNotifier) =
          .committed r.hash result r.blockId false := by
      have hnum : r.num ∈ refs.map (·.num) := List.mem_map_of_mem hr
      simp only [takeNotifier, hnum, decide_true, Bool.and_self, Bool.not_true, Bool.and_false]
    rw [hget, hcount, Option.map_some, htaken]
    exact .take r.hash result r.blockId r.persistNotifier
  · have hcount : (sentKeys epoch refs).count key = 0 := by
      apply List.count_eq_zero_of_not_mem
      intro hsent
      obtain ⟨r, hr, -, hkey⟩ := mem_sentKeys.mp hsent
      exact hreturned ⟨r, hr, hkey⟩
    have hkept : ∀ state, takeNotifier epoch (refs.map (·.num)) key state = state := by
      intro state
      have hnot : (decide (key.epoch = epoch) && decide (key.blockNumber ∈ refs.map (·.num))) =
          false := by
        by_contra hyes
        simp only [Bool.not_eq_false, Bool.and_eq_true, decide_eq_true_eq] at hyes
        obtain ⟨r, hr, hnum⟩ := List.mem_map.mp hyes.2
        refine hreturned ⟨r, hr, ?_⟩
        rw [← hyes.1, hnum]
      cases state with
      | committed hash result id notifier =>
        simp only [takeNotifier, hnot, Bool.not_false, Bool.and_true]
      | _ => rfl
    rw [hcount]
    cases s.blocks.get key with
    | none => exact .same _
    | some state =>
      rw [Option.map_some, hkept]
      exact .same _

/-! ## One step -/

section Runs

variable [Crypto] [OnChainConfig]

/-- What a call hands out: the receivers of `set_commit_blocks`, the senders of
`get_committed_blocks`, the announced change. -/
def Operation.notices (s : BlockStateMachine) (op : Operation) : List Notice :=
  match op, (step s op).1 with
  | .setCommitBlocks _ epoch, .notifiers (.ok nums) =>
    (nums.map fun num => (⟨epoch, num⟩ : BlockKey)).map .receiver
  | .getCommittedBlocks _ _ epoch, .committed (some refs) => (sentKeys epoch refs).map .sender
  | _, _ => (announces s op).toList.map .announced

/-- A call of `set_commit_blocks` succeeds. -/
def Operation.CommitSucceeds (s : BlockStateMachine) : Operation → Prop
  | .setCommitBlocks refs epoch => (s.setCommitBlocks refs epoch).1.isOk = true
  | _ => True

/-- An entry gets a result with an epoch state because it changes the epoch, or comes after the
block that does. -/
def NewEpochState (s : BlockStateMachine) (op : Operation) (key : BlockKey)
    (id : HashValue) : Prop :=
  (∃ c, announces s op = some c ∧ c.key = key ∧ c.blockId = id) ∨
    (step s op).2.isSuffixBlock key.blockNumber = true

/-- What an operation does to one entry, with the receivers and senders that it hands out for it. -/
inductive EntryMove (s : BlockStateMachine) (op : Operation) (key : BlockKey) :
    Option BlockState → Option BlockState → Nat → Nat → Prop
  | same (entry : Option BlockState) : EntryMove s op key entry entry 0 0
  | order (block : ExternalBlock) (parentId : HashValue) (round : Nat) (puts : op.puts s key) :
      EntryMove s op key none (some (.ordered block parentId round)) 0 0
  | compute (block : ExternalBlock) (parentId : HashValue) (round : Nat) (id : HashValue)
      (result : StateComputeResult)
      (newEpoch : result.epochState.isSome = true → NewEpochState s op key id) :
      EntryMove s op key (some (.ordered block parentId round)) (some (.computed id result)) 0 0
  | commit (id : HashValue) (result : StateComputeResult) (hash : Option HashValue)
      (notifier : Bool)
      (notifies : notifier = (result.epochState.isSome && !s.isSuffixBlock key.blockNumber)) :
      EntryMove s op key (some (.computed id result)) (some (.committed hash result id notifier))
        notifier.toNat 0
  | take (hash : Option HashValue) (result : StateComputeResult) (id : HashValue)
      (notifier : Bool) : EntryMove s op key (some (.committed hash result id notifier))
        (some (.committed hash result id false)) 0 notifier.toNat
  | remove (state : BlockState) (removes : Removes s key op) :
      EntryMove s op key (some state) none 0 0

/-- The receivers and senders among what a call hands out. -/
def receivers (notices : List Notice) (key : BlockKey) : Nat := notices.count (.receiver key)

def senders (notices : List Notice) (key : BlockKey) : Nat := notices.count (.sender key)

section

omit [Crypto] [OnChainConfig]

@[simp] theorem receivers_append (a b : List Notice) (key : BlockKey) :
    receivers (a ++ b) key = receivers a key + receivers b key := List.count_append

@[simp] theorem senders_append (a b : List Notice) (key : BlockKey) :
    senders (a ++ b) key = senders a key + senders b key := List.count_append

variable {notices : List Notice}

theorem receivers_eq_zero (h : .receiver key ∉ notices) : receivers notices key = 0 :=
  List.count_eq_zero_of_not_mem h

theorem senders_eq_zero (h : .sender key ∉ notices) : senders notices key = 0 :=
  List.count_eq_zero_of_not_mem h

theorem receivers_map (keys : List BlockKey) (key : BlockKey) :
    receivers (keys.map .receiver) key = keys.count key ∧ senders (keys.map .receiver) key = 0 := by
  refine ⟨?_, senders_eq_zero (by simp)⟩
  exact List.count_map_of_injective keys Notice.receiver (fun _ _ h => Notice.receiver.inj h) key

theorem senders_map (keys : List BlockKey) (key : BlockKey) :
    senders (keys.map .sender) key = keys.count key ∧ receivers (keys.map .sender) key = 0 := by
  refine ⟨?_, receivers_eq_zero (by simp)⟩
  exact List.count_map_of_injective keys Notice.sender (fun _ _ h => Notice.sender.inj h) key

end

theorem notices_of_other (hcommit : ∀ refs epoch, op ≠ .setCommitBlocks refs epoch)
    (hget : ∀ startNum maxSize epoch, op ≠ .getCommittedBlocks startNum maxSize epoch) :
    op.notices s = (announces s op).toList.map .announced := by
  unfold Operation.notices
  split
  · exact absurd rfl (hcommit _ _)
  · exact absurd rfl (hget _ _ _)
  · rfl

theorem notices_setCommitBlocks
    {nums : List Nat} (h : (s.setCommitBlocks refs epoch).1 = .ok nums) :
    (Operation.setCommitBlocks refs epoch).notices s =
      (nums.map fun num => (⟨epoch, num⟩ : BlockKey)).map .receiver := by
  simp only [Operation.notices, step, h]

theorem notices_getCommittedBlocks (s : BlockStateMachine) (startNum : Nat) (maxSize : Option Nat)
    (epoch : Nat) : (Operation.getCommittedBlocks startNum maxSize epoch).notices s =
      (sentKeys epoch (s.handedOut startNum maxSize epoch)).map .sender := by
  cases hreply : (s.getCommittedBlocks startNum maxSize epoch).1 with
  | some refs =>
    rw [← getCommittedBlocks_some hreply]
    simp only [Operation.notices, step, hreply]
  | none =>
    have hempty : s.handedOut startNum maxSize epoch = [] := by
      simp only [getCommittedBlocks] at hreply
      split at hreply
      · assumption
      · cases hreply
    rw [hempty]
    simp only [Operation.notices, step, hreply, announces]
    rfl

theorem entryMove_setCommitBlocks
    (hop : (s.setCommitBlocks refs epoch).1.isOk = true) (key : BlockKey) :
    EntryMove s (.setCommitBlocks refs epoch) key (s.blocks.get key)
      ((step s (.setCommitBlocks refs epoch)).2.blocks.get key)
      (receivers ((Operation.setCommitBlocks refs epoch).notices s) key)
      (senders ((Operation.setCommitBlocks refs epoch).notices s) key) := by
  cases hreply : (s.setCommitBlocks refs epoch).1 with
  | error e =>
    rw [hreply] at hop
    cases hop
  | ok nums =>
    have hmove := setCommitBlocks_move hreply key
    dsimp only [step]
    rw [notices_setCommitBlocks hreply, (receivers_map _ key).1, (receivers_map _ key).2]
    generalize (s.setCommitBlocks refs epoch).2.blocks.get key = after at *
    generalize s.blocks.get key = before at *
    generalize (nums.map fun num => (⟨epoch, num⟩ : BlockKey)).count key = count at *
    cases hmove with
    | same => exact .same _
    | commit id result hash notifier hnotifies => exact .commit id result hash notifier hnotifies

theorem entryMove_getCommittedBlocks (s : BlockStateMachine) (startNum : Nat)
    (maxSize : Option Nat) (epoch : Nat) (key : BlockKey) :
    EntryMove s (.getCommittedBlocks startNum maxSize epoch) key (s.blocks.get key)
      ((step s (.getCommittedBlocks startNum maxSize epoch)).2.blocks.get key)
      (receivers ((Operation.getCommittedBlocks startNum maxSize epoch).notices s) key)
      (senders ((Operation.getCommittedBlocks startNum maxSize epoch).notices s) key) := by
  have hmove := getCommittedBlocks_move s startNum maxSize epoch key
  dsimp only [step]
  rw [notices_getCommittedBlocks, (senders_map _ key).1, (senders_map _ key).2]
  generalize (s.getCommittedBlocks startNum maxSize epoch).2.blocks.get key = after at *
  generalize s.blocks.get key = before at *
  generalize (sentKeys epoch (s.handedOut startNum maxSize epoch)).count key = count at *
  cases hmove with
  | same => exact .same _
  | take hash result id notifier => exact .take hash result id notifier

theorem entryMove_setComputeRes (s : BlockStateMachine) (blockId blockHash : HashValue)
    (blockNum epoch : Nat) (txnStatus : Option (List TxnStatus)) (events : List LiquentEvent)
    (key : BlockKey) :
    EntryMove s (.setComputeRes blockId blockHash blockNum epoch txnStatus events) key
      (s.blocks.get key)
      ((s.setComputeRes blockId blockHash blockNum epoch txnStatus events).2.blocks.get key) 0
        0 := by
  rcases s.setComputeRes_stores blockId blockHash blockNum epoch txnStatus events with
    ⟨e, h⟩ | ⟨block, parentId, round, result, hget, -,
      ⟨-, hnone, h⟩ | ⟨newEpoch, bytes, cache, hnew, hsome, hnumber, -, h⟩⟩
  · rw [h]
    exact .same _
  · rw [h]
    by_cases hkey : key = ⟨epoch, blockNum⟩
    · subst hkey
      rw [hget, Table.get_put_self]
      refine .compute block parentId round blockId result ?_
      intro hstate
      rw [hnone] at hstate
      cases hstate
    · rw [Table.get_put_of_ne hkey]
      exact .same _
  · have hannounce : announces s
      (.setComputeRes blockId blockHash blockNum epoch txnStatus events) =
        some { epoch := epoch, number := blockNum, blockId := blockId, newEpoch := newEpoch } := by
      simp [announces, step, h, hnew]
    by_cases hkey : key = ⟨epoch, blockNum⟩
    · subst hkey
      rw [h, hget]
      change EntryMove s _ _ _
        (((s.blocks.put ⟨epoch, blockNum⟩ (.computed blockId result)).mapValues
        (computeSuffix epoch blockNum cache.epochState)).get _) 0 0
      rw [computeSuffix_self]
      exact .compute block parentId round blockId result fun _ => .inl ⟨_, hannounce, rfl, rfl⟩
    · have hsuffix : ∀ num, blockNum < num →
          (step s (.setComputeRes blockId blockHash blockNum epoch txnStatus
            events)).2.isSuffixBlock
            num = true := by
        intro num hnum
        dsimp only [step]
        rw [h]
        simpa [isSuffixBlock, hnumber] using hnum
      rw [h]
      change EntryMove s _ _ _
        (((s.blocks.put ⟨epoch, blockNum⟩ (.computed blockId result)).mapValues
        (computeSuffix epoch blockNum cache.epochState)).get key) 0 0
      rw [Table.get_mapValues, Table.get_put_of_ne hkey]
      cases s.blocks.get key with
      | none => exact .same _
      | some state =>
        cases state with
        | ordered block' parentId' round' =>
          simp only [Option.map_some, computeSuffix]
          split
          · rename_i hafter
            exact .compute block' parentId' round' _ _ fun _ => .inr (hsuffix _ hafter.2)
          · exact .same _
        | _ => exact .same _

theorem entryMove_retain {p : BlockKey → Bool} (h : p key = false → Removes s key op) :
    EntryMove s op key (s.blocks.get key) ((s.blocks.retain p).get key) 0 0 := by
  rw [Table.get_retain]
  by_cases hp : p key = true
  · rw [if_pos hp]
    exact .same _
  · rw [if_neg hp]
    cases s.blocks.get key with
    | none => exact .same _
    | some state => exact .remove state (h (by simpa using hp))

theorem entryMove (s : BlockStateMachine) (op : Operation) (hop : op.CommitSucceeds s)
    (key : BlockKey) : EntryMove s op key (s.blocks.get key) ((step s op).2.blocks.get key)
      (receivers (op.notices s) key) (senders (op.notices s) key) := by
  have hother : (∀ refs epoch, op ≠ .setCommitBlocks refs epoch) →
      (∀ startNum maxSize epoch, op ≠ .getCommittedBlocks startNum maxSize epoch) →
      EntryMove s op key (s.blocks.get key) ((step s op).2.blocks.get key) 0 0 →
      EntryMove s op key (s.blocks.get key) ((step s op).2.blocks.get key)
        (receivers (op.notices s) key) (senders (op.notices s) key) := by
    intro hcommit hget hmove
    have hnotices := notices_of_other (s := s) hcommit hget
    rw [hnotices, receivers_eq_zero (by simp), senders_eq_zero (by simp)]
    exact hmove
  cases op with
  | setCommitBlocks refs epoch => exact entryMove_setCommitBlocks hop key
  | getCommittedBlocks startNum maxSize epoch =>
    exact entryMove_getCommittedBlocks s startNum maxSize epoch key
  | setOrderedBlocks parentId block round =>
    apply hother nofun nofun
    dsimp only [step]
    rcases s.setOrderedBlocks_cases parentId block round with h | ⟨hready, hepoch, hnone, h⟩
    · rw [h]
      exact .same _
    · rw [h]
      by_cases hkey : key = block.key
      · subst hkey
        rw [hnone, Table.get_put_self]
        exact .order block _ round ⟨rfl, hready, hepoch⟩
      · rw [Table.get_put_of_ne hkey]
        exact .same _
  | setComputeRes blockId blockHash blockNum epoch txnStatus events =>
    apply hother nofun nofun
    exact entryMove_setComputeRes s blockId blockHash blockNum epoch txnStatus events key
  | getExecutedRes blockId blockNum epoch =>
    apply hother nofun nofun
    have hsuffix : (step s (.getExecutedRes blockId blockNum epoch)).2.isSuffixBlock =
        s.isSuffixBlock := by
      dsimp only [step]
      rcases s.getExecutedRes_cases blockId blockNum epoch with ⟨h, -⟩ | ⟨_, _, _, _, -, -, -, h⟩
      · rw [h]
      · rw [h]
        rfl
    dsimp only [step]
    rcases s.getExecutedRes_cases blockId blockNum epoch with
      ⟨h, -⟩ | ⟨block, parentId, round, cache, hget, -, hafter, h⟩
    · rw [h]
      exact .same _
    · rw [h]
      by_cases hkey : key = ⟨epoch, blockNum⟩
      · subst hkey
        rw [hget, Table.get_put_self]
        refine .compute block parentId round blockId _ fun _ => .inr ?_
        rw [hsuffix]
        exact hafter
      · rw [Table.get_put_of_ne hkey]
        exact .same _
  | removeCommittedBlocks =>
    apply hother nofun nofun
    dsimp only [step]
    unfold removeCommittedBlocks
    by_cases hsize : s.blocks.length < s.maxBlockSize
    · rw [if_pos hsize]
      exact .same _
    · rw [if_neg hsize]
      refine entryMove_retain (p := fun key => s.latestFinalizedBlockNumber ≤ key.blockNumber) ?_
      intro hp
      exact .cleanUp (Nat.le_of_not_lt hsize) (by simpa using hp)
  | releaseInflightBlocks =>
    apply hother nofun nofun
    dsimp only [step]
    unfold releaseInflightBlocks
    by_cases hpending : s.hasPendingEpochChange = true
    · rw [if_pos hpending]
      refine entryMove_retain (p := fun key => key.blockNumber ≤ s.latestEpochChangeBlockNumber) ?_
      intro hp
      exact .release hpending (by simpa using hp)
    · rw [if_neg hpending]
      exact .same _
  | getOrderedBlocks | setState | consumeEpochChange | initEpoch =>
    apply hother nofun nofun
    exact .same _

/-! ## What the callers keep to -/

/-- A block that has changed the epoch does not enter the buffer again; a change is announced when
no other is pending, by a block after those whose own change is not committed; and such a block is
neither released nor cleaned up. -/
def Operation.SparesChange (known : List Notice) (s : BlockStateMachine) : Operation → Prop
  | .setOrderedBlocks _ block _ =>
    s.epochChangeReady = false → block.blockMeta.epoch = s.currentEpoch →
      s.blocks.get block.key = none → ∀ n ∈ known, ∀ c, n = .announced c → c.key ≠ block.key
  | .setComputeRes _ _ blockNum _ _ events => (findNewEpoch events).isSome →
    s.hasPendingEpochChange = false ∧
      ∀ e ∈ s.blocks, e.2.awaitsCommit = true → e.1.blockNumber ≤ blockNum
  | .releaseInflightBlocks => s.hasPendingEpochChange = true →
    ∀ e ∈ s.blocks, e.2.awaitsCommit = true → s.isSuffixBlock e.1.blockNumber = false →
      e.1.blockNumber ≤ s.latestEpochChangeBlockNumber
  | .removeCommittedBlocks => s.maxBlockSize ≤ s.blocks.length →
    ∀ e ∈ s.blocks, e.2.awaitsCommit = true → s.isSuffixBlock e.1.blockNumber = false →
      s.latestFinalizedBlockNumber ≤ e.1.blockNumber
  | _ => True

omit [Crypto] [OnChainConfig] in
/-- A block that waits for its commit is not removed. -/
theorem Operation.SparesChange.not_removes (h : op.SparesChange known s) {state : BlockState}
    (hget : s.blocks.get key = some state) (hawaits : state.awaitsCommit = true)
    (hsuffix : s.isSuffixBlock key.blockNumber = false) : ¬ Removes s key op := by
  intro hremoves
  cases hremoves with
  | release hpending hlater =>
    have hle := h hpending _ (Table.mem_of_get hget) hawaits hsuffix
    exact absurd hlater (Nat.not_lt.mpr hle)
  | cleanUp hfull hearlier =>
    have hle := h hfull _ (Table.mem_of_get hget) hawaits hsuffix
    exact absurd hearlier (Nat.not_lt.mpr hle)

omit [Crypto] [OnChainConfig] in
theorem Operation.SparesChange.not_puts (h : op.SparesChange known s) (hc : .announced c ∈ known)
    (habsent : s.blocks.get c.key = none) : ¬ op.puts s c.key := by
  intro hputs
  cases op with
  | setOrderedBlocks parentId block round =>
    obtain ⟨hkey, hready, hepoch⟩ := hputs
    rw [← hkey] at habsent hepoch
    exact h hready hepoch habsent _ hc c rfl hkey.symm
  | _ => exact hputs

theorem Operation.SparesChange.idle (h : op.SparesChange known s) (hc : announces s op = some c) :
    s.hasPendingEpochChange = false ∧
      ∀ key state, s.blocks.get key = some state → state.awaitsCommit = true →
        key.blockNumber ≤ c.number := by
  obtain ⟨blockHash, txnStatus, events, bytes, rfl, hnew⟩ := (announcement_of_announces hc).call
  obtain ⟨hidle, hnumbers⟩ := h (by rw [hnew]; rfl)
  exact ⟨hidle, fun key state hget => hnumbers _ (Table.mem_of_get hget)⟩

/-! ## The invariant -/

/-- How far the block of a change is, with the receivers and senders handed out for it. -/
inductive Progress (c : Change) : Option BlockState → Nat → Nat → Prop
  | waiting (result : StateComputeResult) (newEpoch : result.epochState.isSome = true) :
      Progress c (some (.computed c.blockId result)) 0 0
  | committed (hash : Option HashValue) (result : StateComputeResult) :
      Progress c (some (.committed hash result c.blockId true)) 1 0
  | notified (hash : Option HashValue) (result : StateComputeResult) :
      Progress c (some (.committed hash result c.blockId false)) 1 1
  | gone (sent : Nat) (once : sent ≤ 1) : Progress c none 1 sent

/-- A block that changes no epoch has an epoch state only while it comes after one that does, and
has no sender. -/
structure Ordinary (s : BlockStateMachine) (key : BlockKey) (entry : Option BlockState) : Prop where
  suffix : ∀ id result, entry = some (.computed id result) → result.epochState.isSome = true →
    s.isSuffixBlock key.blockNumber = true
  silent : ∀ hash result id, entry ≠ some (.committed hash result id true)

/-- What holds after every step of a run. -/
structure Noted (known : List Notice) (s : BlockStateMachine) : Prop where
  progress : ∀ c, .announced c ∈ known →
    Progress c (s.blocks.get c.key) (receivers known c.key) (senders known c.key)
  notSuffix : ∀ c, .announced c ∈ known → ∀ id result,
    s.blocks.get c.key = some (.computed id result) → s.isSuffixBlock c.number = false
  ordinary : ∀ key, (∀ c, .announced c ∈ known → c.key ≠ key) →
    Ordinary s key (s.blocks.get key) ∧ .receiver key ∉ known ∧ .sender key ∉ known
  latest : ∀ cache, s.epochChangeBlockInfo = some cache →
    s.latestEpochChangeBlockNumber ≤ cache.epochBlockInfo.blockNumber

/-- What happens to the metadata of the block that changes the epoch. -/
theorem info_step (s : BlockStateMachine) (op : Operation) :
    announces s op = none ∧ (step s op).2.epochChangeBlockInfo = s.epochChangeBlockInfo ∨
      (∃ c cache, announces s op = some c ∧ (step s op).2.epochChangeBlockInfo = some cache ∧
        cache.epochBlockInfo.blockNumber = c.number) ∨
      op = .releaseInflightBlocks ∧ s.hasPendingEpochChange = true ∧
        (step s op).2.epochChangeBlockInfo = none := by
  cases step_effect s op with
  | quiet h => exact .inl ⟨h.announces, h.control.info⟩
  | announce c h =>
    obtain ⟨cache, hinfo, hnumber⟩ := h.info
    exact .inr (.inl ⟨c, cache, h.announces, hinfo, hnumber⟩)
  | consume hop h | initEpoch epoch hop h =>
    subst hop
    exact .inl ⟨rfl, rfl⟩
  | release hop h =>
    subst hop
    by_cases hpending : s.hasPendingEpochChange = true
    · refine .inr (.inr ⟨rfl, hpending, ?_⟩)
      rw [h]
      simp [releaseInflightBlocks, hpending]
    · refine .inl ⟨rfl, ?_⟩
      rw [h]
      simp [releaseInflightBlocks, hpending]

theorem notices_of_announces (h : announces s op = some c) : op.notices s = [.announced c] := by
  obtain ⟨blockHash, txnStatus, events, bytes, rfl, -⟩ := (announcement_of_announces h).call
  change (announces s _).toList.map Notice.announced = _
  rw [h]
  rfl

theorem announced_mem_notices : .announced c ∈ op.notices s ↔ announces s op = some c := by
  constructor
  · unfold Operation.notices
    split
    · simp
    · simp
    · simp
  · intro h
    rw [notices_of_announces h]
    exact List.mem_singleton_self _

variable {result : StateComputeResult}

/-- The result that announces a change has an epoch state. -/
theorem announced_epochState (hc : announces s op = some c)
    (hget : (step s op).2.blocks.get c.key = some (.computed c.blockId result)) :
    result.epochState.isSome = true := by
  obtain ⟨blockHash, txnStatus, events, bytes, rfl, hnew⟩ := (announcement_of_announces hc).call
  change (s.setComputeRes c.blockId blockHash c.number c.epoch txnStatus events).2.blocks.get
    ⟨c.epoch, c.number⟩ = _ at hget
  rcases s.setComputeRes_stores c.blockId blockHash c.number c.epoch txnStatus events with
    ⟨e, h⟩ | ⟨block, parentId, round, stored, hordered, -,
      ⟨hnone, -, h⟩ | ⟨newEpoch, bytes', cache, -, hsome, -, -, h⟩⟩
  · simp [announces, step, h] at hc
  · rw [hnone] at hnew
    cases hnew
  · rw [h] at hget
    have hself := computeSuffix_self c.epoch c.number cache.epochState c.blockId stored s.blocks
    have hsame := hself.symm.trans hget
    simp only [Option.some.injEq, BlockState.computed.injEq, true_and] at hsame
    rw [← hsame, hsome]
    rfl

/-- The block of a change moves on, and each end of its channel is handed out once. -/
theorem Noted.progress_step
    (hop : op.SparesChange known s) (hcommit : op.CommitSucceeds s) (h : Noted known s)
    (hc : .announced c ∈ known) :
    Progress c ((step s op).2.blocks.get c.key) (receivers (known ++ op.notices s) c.key)
      (senders (known ++ op.notices s) c.key) := by
  have hprogress := h.progress c hc
  have hmove := entryMove s op hcommit c.key
  have hsuffix := h.notSuffix c hc
  have hputs := hop.not_puts hc
  have hremoves : ∀ state, s.blocks.get c.key = some state → state.awaitsCommit = true →
      s.isSuffixBlock c.number = false → ¬ Removes s c.key op :=
    fun state hget => hop.not_removes hget
  rw [receivers_append, senders_append]
  generalize (step s op).2.blocks.get c.key = after at *
  generalize s.blocks.get c.key = before at *
  generalize receivers known c.key = received at *
  generalize senders known c.key = sent at *
  generalize receivers (op.notices s) c.key = newReceivers at *
  generalize senders (op.notices s) c.key = newSenders at *
  cases hprogress with
  | waiting result hnew =>
    have hnot : s.isSuffixBlock c.number = false := hsuffix _ _ rfl
    cases hmove with
    | same => exact .waiting result hnew
    | commit _ _ hash notifier hnotifies =>
      have htrue : notifier = true := by
        rw [hnotifies, hnew]
        change (true && !s.isSuffixBlock c.number) = true
        rw [hnot]
        rfl
      subst htrue
      exact .committed hash result
    | remove _ hremove => exact absurd hremove (hremoves _ rfl hnew hnot)
  | committed hash result =>
    cases hmove with
    | same => exact .committed hash result
    | take => exact .notified hash result
    | remove => exact .gone 0 (Nat.zero_le 1)
  | notified hash result =>
    cases hmove with
    | same | take => exact .notified hash result
    | remove => exact .gone 1 (le_refl 1)
  | gone sent honce =>
    cases hmove with
    | same => exact .gone sent honce
    | order _ _ _ hput => exact absurd hput (hputs rfl)

/-- The block that announces a change waits for its commit. -/
theorem Noted.progress_announced (h : Noted known s) (hc : announces s op = some c) :
    (∀ c', .announced c' ∈ known → c'.key ≠ c.key) ∧
      Progress c ((step s op).2.blocks.get c.key) (receivers (known ++ op.notices s) c.key)
        (senders (known ++ op.notices s) c.key) := by
  have hannounce := announcement_of_announces hc
  obtain ⟨block, parentId, round, hordered, -⟩ := hannounce.ordered
  have hordered : s.blocks.get c.key = some (.ordered block parentId round) := hordered
  have hnew : ∀ c', .announced c' ∈ known → c'.key ≠ c.key := by
    intro c' hc' hkey
    have hprogress := h.progress c' hc'
    rw [hkey, hordered] at hprogress
    cases hprogress
  refine ⟨hnew, ?_⟩
  obtain ⟨-, hreceiver, hsender⟩ := h.ordinary c.key hnew
  obtain ⟨result, hcomputed⟩ := hannounce.computed
  have hcomputed : (step s op).2.blocks.get c.key = some (.computed c.blockId result) := hcomputed
  have hstate : result.epochState.isSome = true := announced_epochState hc hcomputed
  rw [notices_of_announces hc, receivers_append, senders_append, receivers_eq_zero hreceiver,
    senders_eq_zero hsender, hcomputed]
  exact .waiting result hstate

section

omit [Crypto] [OnChainConfig]

theorem isSuffixBlock_of_info (h : s'.epochChangeBlockInfo = s.epochChangeBlockInfo) (num : Nat) :
    s'.isSuffixBlock num = s.isSuffixBlock num := by
  unfold isSuffixBlock
  rw [h]

theorem info_of_isSuffixBlock {num : Nat} (h : s.isSuffixBlock num = true) :
    ∃ cache, s.epochChangeBlockInfo = some cache ∧ cache.epochBlockInfo.blockNumber < num := by
  unfold isSuffixBlock at h
  cases hinfo : s.epochChangeBlockInfo with
  | none => simp [hinfo] at h
  | some cache => exact ⟨cache, rfl, by simpa [hinfo] using h⟩

theorem info_of_not_pending (h : s.hasPendingEpochChange = false) :
    s.epochChangeBlockInfo = none := by
  simp only [hasPendingEpochChange, Bool.or_eq_false_iff, Option.isSome_eq_false_iff,
    Option.isNone_iff_eq_none] at h
  exact h.2

end

/-- A block of a change that waits for its commit never comes after another change. -/
theorem Noted.notSuffix_step
    (hop : op.SparesChange known s) (hcommit : op.CommitSucceeds s) (h : Noted known s)
    (hc : .announced c ∈ known) {id : HashValue}
    (hget : (step s op).2.blocks.get c.key = some (.computed id result)) :
    (step s op).2.isSuffixBlock c.number = false := by
  -- the block had its result before the step
  have hbefore : ∃ result, s.blocks.get c.key = some (.computed c.blockId result) ∧
      result.epochState.isSome = true := by
    have hprogress := h.progress c hc
    have hmove := entryMove s op hcommit c.key
    rw [hget] at hmove
    generalize s.blocks.get c.key = before at *
    generalize receivers known c.key = received at *
    generalize senders known c.key = sent at *
    generalize receivers (op.notices s) c.key = newReceivers at *
    generalize senders (op.notices s) c.key = newSenders at *
    cases hprogress with
    | waiting result hnew => exact ⟨result, rfl, hnew⟩
    | committed | notified | gone => cases hmove
  obtain ⟨stored, hstored, hnew⟩ := hbefore
  have hnot := h.notSuffix c hc _ _ hstored
  rcases info_step s op with ⟨-, hinfo⟩ | ⟨c', cache, hannounce, hinfo, hnumber⟩ | ⟨-, -, hinfo⟩
  · rw [isSuffixBlock_of_info hinfo]
    exact hnot
  · have hle := (hop.idle hannounce).2 c.key _ hstored hnew
    have hle : c.number ≤ c'.number := hle
    simp only [isSuffixBlock, hinfo, Option.any_some, hnumber, decide_eq_false_iff_not, Nat.not_lt]
    exact hle
  · simp [isSuffixBlock, hinfo]

/-- Blocks after the one that changes the epoch are gone once the change is adopted. -/
theorem Noted.suffix_step (hop : op.SparesChange known s) (h : Noted known s) {state : BlockState}
    (hsuffix : s.isSuffixBlock key.blockNumber = true)
    (hget : (step s op).2.blocks.get key = some state) :
    (step s op).2.isSuffixBlock key.blockNumber = true := by
  obtain ⟨cache, hcache, hnumber⟩ := info_of_isSuffixBlock hsuffix
  rcases info_step s op with ⟨-, hinfo⟩ | ⟨c, cache', hannounce, -, -⟩ | ⟨rfl, hpending, -⟩
  · rw [isSuffixBlock_of_info hinfo]
    exact hsuffix
  · rw [info_of_not_pending (hop.idle hannounce).1] at hcache
    cases hcache
  · have hlatest := h.latest cache hcache
    have hkept := Table.get_retain (t := s.blocks) (k := key)
      fun key => key.blockNumber ≤ s.latestEpochChangeBlockNumber
    have hrelease : s.releaseInflightBlocks.blocks.get key = some state := hget
    simp only [releaseInflightBlocks, hpending, if_true] at hrelease
    rw [hrelease, if_neg (by simp only [decide_eq_true_eq]; omega)] at hkept
    cases hkept

/-- Other blocks get neither end of a channel. -/
theorem Noted.ordinary_step
    (hop : op.SparesChange known s) (hcommit : op.CommitSucceeds s) (h : Noted known s)
    (hkey : ∀ c, .announced c ∈ known ++ op.notices s → c.key ≠ key) :
    Ordinary (step s op).2 key ((step s op).2.blocks.get key) ∧
      .receiver key ∉ known ++ op.notices s ∧ .sender key ∉ known ++ op.notices s := by
  obtain ⟨hordinary, hreceiver, hsender⟩ :=
    h.ordinary key fun c hc => hkey c (List.mem_append_left _ hc)
  have hmove := entryMove s op hcommit key
  have hsuffix : ∀ state, (step s op).2.blocks.get key = some state →
      s.isSuffixBlock key.blockNumber = true →
      (step s op).2.isSuffixBlock key.blockNumber = true :=
    fun state hget hbefore => h.suffix_step hop hbefore hget
  have hnew : ∀ c, announces s op = some c → c.key ≠ key := by
    intro c hc
    exact hkey c (List.mem_append_right _ (announced_mem_notices.mpr hc))
  have hcounts : receivers (op.notices s) key = 0 ∧ senders (op.notices s) key = 0 ∧
      Ordinary (step s op).2 key ((step s op).2.blocks.get key) := by
    generalize (step s op).2.blocks.get key = after at *
    generalize s.blocks.get key = before at *
    generalize receivers (op.notices s) key = newReceivers at *
    generalize senders (op.notices s) key = newSenders at *
    cases hmove with
    | same =>
      refine ⟨rfl, rfl, ?_, hordinary.silent⟩
      intro id result hentry hstate
      exact hsuffix _ hentry (hordinary.suffix id result hentry hstate)
    | order | remove => exact ⟨rfl, rfl, nofun, nofun⟩
    | compute block parentId round id result hstate =>
      refine ⟨rfl, rfl, ?_, nofun⟩
      intro id' result' hentry hsome
      simp only [Option.some.injEq, BlockState.computed.injEq] at hentry
      obtain ⟨rfl, rfl⟩ := hentry
      rcases hstate hsome with ⟨c, hc, hsame, -⟩ | hafter
      · exact absurd hsame (hnew c hc)
      · exact hafter
    | commit id result hash notifier hnotifies =>
      have hfalse : notifier = false := by
        rw [hnotifies]
        cases hstate : result.epochState.isSome with
        | false => rfl
        | true =>
          rw [hordinary.suffix id result rfl hstate]
          rfl
      subst hfalse
      exact ⟨rfl, rfl, nofun, nofun⟩
    | take hash result id notifier =>
      have hfalse : notifier = false := by
        cases notifier with
        | false => rfl
        | true => exact absurd rfl (hordinary.silent hash result id)
      subst hfalse
      exact ⟨rfl, rfl, nofun, nofun⟩
  obtain ⟨hreceivers, hsenders, hafter⟩ := hcounts
  refine ⟨hafter, ?_, ?_⟩
  · rw [List.mem_append, not_or]
    exact ⟨hreceiver, List.count_eq_zero.mp hreceivers⟩
  · rw [List.mem_append, not_or]
    exact ⟨hsender, List.count_eq_zero.mp hsenders⟩

theorem latest_step (s : BlockStateMachine) (op : Operation)
    (h : ∀ cache, s.epochChangeBlockInfo = some cache →
      s.latestEpochChangeBlockNumber ≤ cache.epochBlockInfo.blockNumber) :
    ∀ cache, (step s op).2.epochChangeBlockInfo = some cache →
      (step s op).2.latestEpochChangeBlockNumber ≤ cache.epochBlockInfo.blockNumber := by
  intro cache hcache
  cases step_effect s op with
  | quiet hquiet =>
    rw [hquiet.control.info] at hcache
    rw [hquiet.control.latest]
    exact h cache hcache
  | announce c hannounce =>
    obtain ⟨cache', hcache', hnumber⟩ := hannounce.info
    rw [hcache] at hcache'
    obtain rfl := Option.some.inj hcache'
    rw [hannounce.latest, hnumber]
  | consume hop heffect =>
    rw [heffect]
    exact Nat.zero_le _
  | initEpoch epoch hop heffect =>
    rw [heffect] at hcache ⊢
    exact h cache hcache
  | release hop heffect =>
    rw [heffect] at hcache ⊢
    rw [releaseInflightBlocks_latest]
    unfold releaseInflightBlocks at hcache
    split at hcache
    · cases hcache
    · exact h cache hcache

theorem Noted.step
    (hop : op.SparesChange known s) (hcommit : op.CommitSucceeds s) (h : Noted known s) :
    Noted (known ++ op.notices s) (step s op).2 where
  progress := by
    intro c hc
    rcases List.mem_append.mp hc with hknown | hnew
    · exact h.progress_step hop hcommit hknown
    · exact (h.progress_announced (announced_mem_notices.mp hnew)).2
  notSuffix := by
    intro c hc id result hget
    rcases List.mem_append.mp hc with hknown | hnew
    · exact h.notSuffix_step hop hcommit hknown hget
    · obtain ⟨cache, hinfo, hnumber⟩ :=
        (announcement_of_announces (announced_mem_notices.mp hnew)).info
      simp [isSuffixBlock, hinfo, hnumber]
  ordinary := fun key hkey => h.ordinary_step hop hcommit hkey
  latest := latest_step s op h.latest

omit [Crypto] [OnChainConfig] in
theorem noted_of_init {latestCommit : Nat} {blockIds : Table Nat (Nat × HashValue)}
    (h : init latestCommit blockIds epoch = .ok s) : Noted [] s := by
  have hinfo := (fresh_of_init h).info
  have hhistorical : ∀ key state, s.blocks.get key = some state → ∃ id, state = .historical id := by
    intro key state hget
    unfold init at h
    cases hcommit : initCommitBlock latestCommit blockIds with
    | error e =>
      rw [hcommit] at h
      cases h
    | ok commitBlock =>
      rw [hcommit] at h
      obtain rfl := Except.ok.inj h
      obtain ⟨entry, -, heq⟩ := List.mem_map.mp (Table.mem_of_get hget)
      exact ⟨_, (Prod.mk.inj heq).2.symm⟩
  refine ⟨nofun, nofun, ?_, ?_⟩
  · intro key _
    refine ⟨⟨?_, ?_⟩, nofun, nofun⟩
    · intro id result hget
      obtain ⟨_, hstate⟩ := hhistorical key _ hget
      cases hstate
    · intro hash result id hget
      obtain ⟨_, hstate⟩ := hhistorical key _ hget
      cases hstate
  · intro cache hcache
    rw [hinfo] at hcache
    cases hcache

/-! ## While a change is pending -/

/-- A block after the one that changes the epoch cannot be handed out: it is known to come after, or
it is gone and no new block is accepted. -/
inductive Blocked (c : Change) (s : BlockStateMachine) : Prop
  | announced (cache : EpochChangeCache) (info : s.epochChangeBlockInfo = some cache)
      (number : cache.epochBlockInfo.blockNumber = c.number)
      (latest : s.latestEpochChangeBlockNumber ≤ c.number)
  | adopted (info : s.epochChangeBlockInfo = none) (nextEpoch : s.nextEpoch = none)
      (ready : s.epochChangeReady = true) (keys : ∀ key ∈ s.blocks.keys, key.blockNumber ≤ c.number)

theorem Blocked.step (hop : op.SparesChange known s) (hpending : s.hasPendingEpochChange = true)
    (hafter : (step s op).2.hasPendingEpochChange = true) (h : Blocked c s) :
    Blocked c (step s op).2 := by
  have hidle : ∀ c', announces s op ≠ some c' := by
    intro c' hc'
    rw [(hop.idle hc').1] at hpending
    cases hpending
  cases step_effect s op with
  | announce c' hannounce => exact absurd hannounce.announces (hidle c')
  | quiet hquiet =>
    cases h with
    | announced cache hinfo hnumber hlatest =>
      refine .announced cache (hquiet.control.info.trans hinfo) hnumber ?_
      rw [hquiet.control.latest]
      exact hlatest
    | adopted hinfo hnext hready hkeys =>
      refine .adopted (hquiet.control.info.trans hinfo) (hquiet.control.nextEpoch.trans hnext)
        (hquiet.control.ready.trans hready) ?_
      intro key hkey
      rcases hquiet.keys key hkey with hold | ⟨hnot, -⟩
      · exact hkeys key hold
      · rw [hready] at hnot
        cases hnot
  | consume hconsume heffect =>
    rw [heffect] at hafter ⊢
    cases h with
    | announced cache hinfo hnumber _ => exact .announced cache hinfo hnumber (Nat.zero_le _)
    | adopted hinfo hnext _ _ =>
      -- an adopted change that is consumed is no longer pending
      simp [consumeEpochChange, hasPendingEpochChange, hinfo, hnext] at hafter
  | initEpoch epoch hinit heffect =>
    rw [heffect]
    cases h with
    | announced cache hinfo hnumber hlatest => exact .announced cache hinfo hnumber hlatest
    | adopted hinfo hnext hready hkeys => exact .adopted hinfo hnext hready hkeys
  | release hrelease heffect =>
    have hnone : s.releaseInflightBlocks.epochChangeBlockInfo = none := by
      simp [releaseInflightBlocks, hpending]
    have hready : s.releaseInflightBlocks.epochChangeReady = true := by
      simp [releaseInflightBlocks, hpending]
    rw [heffect]
    refine .adopted hnone (releaseInflightBlocks_nextEpoch s) hready ?_
    intro key hkey
    cases h with
    | adopted _ _ _ hkeys => exact hkeys key (releaseInflightBlocks_keys hkey)
    | announced cache _ _ hlatest =>
      simp only [releaseInflightBlocks, hpending, if_true] at hkey
      have hkept := (Table.mem_keys_retain
        (p := fun key : BlockKey => key.blockNumber ≤ s.latestEpochChangeBlockNumber) |>.mp hkey).2
      exact (of_decide_eq_true hkept).trans hlatest

omit [Crypto] [OnChainConfig] in
theorem Blocked.handedOut_le (h : Blocked c s)
    (hr : r ∈ s.handedOut startNum maxSize epoch) : r.num ≤ c.number := by
  obtain ⟨hsuffix, result, hget⟩ := (handedOut_spec s startNum maxSize epoch).1 r hr
  cases h with
  | announced cache hinfo hnumber _ =>
    simpa [isSuffixBlock, hinfo, hnumber] using hsuffix
  | adopted _ _ _ hkeys =>
    exact hkeys _ (Table.mem_keys_iff_get.mpr ⟨_, hget⟩)

/-! ## Whole runs -/

/-- What the calls of a run hand out, in this order. -/
def noticesInRun (s : BlockStateMachine) (ops : List Operation) : List Notice :=
  gather step (fun s op => op.notices s) s ops

/-- The callers keep to their side in every step of a run. -/
def SparesChanges (s : BlockStateMachine) (ops : List Operation) : Prop :=
  AlongRecord step (fun s op => op.notices s) (fun known s op => op.SparesChange known s) [] s ops

/-- Each block that changes the epoch gets a receiver and a sender exactly once, no other block gets
one, and no block after it is handed out while the change is pending. -/
structure NotifiesOnce (s : BlockStateMachine) (ops : List Operation) : Prop where
  receiver : ∀ pre refs post (c : Change), ops = pre ++ .setCommitBlocks refs c.epoch :: post →
    .announced c ∈ noticesInRun s pre → (∃ r ∈ refs, r.blockId = c.blockId ∧ r.num = c.number) →
    receivers (noticesInRun s ops) c.key = 1
  sender : ∀ pre startNum maxSize post (c : Change) refs,
    ops = pre ++ .getCommittedBlocks startNum maxSize c.epoch :: post →
    .announced c ∈ noticesInRun s pre →
    ((after s pre).getCommittedBlocks startNum maxSize c.epoch).1 = some refs →
    (∃ r ∈ refs, r.num = c.number) → senders (noticesInRun s ops) c.key = 1
  once : ∀ key, receivers (noticesInRun s ops) key ≤ 1 ∧
    senders (noticesInRun s ops) key ≤ receivers (noticesInRun s ops) key
  only : ∀ key, .receiver key ∈ noticesInRun s ops ∨ .sender key ∈ noticesInRun s ops →
    ∃ c, .announced c ∈ noticesInRun s ops ∧ c.key = key
  pending : ∀ before op between startNum maxSize post c refs,
    ops = before ++ op :: (between ++ .getCommittedBlocks startNum maxSize c.epoch :: post) →
    announces (after s before) op = some c →
    (∀ done todo, between = done ++ todo →
      (after s (before ++ op :: done)).hasPendingEpochChange = true) →
    ((after s (before ++ op :: between)).getCommittedBlocks startNum maxSize c.epoch).1 =
      some refs → ∀ r ∈ refs, r.num ≤ c.number

omit [Crypto] [OnChainConfig] in
theorem Progress.once {entry : Option BlockState} {received sent : Nat}
    (h : Progress c entry received sent) : received ≤ 1 ∧ sent ≤ received := by
  cases h with
  | waiting => exact ⟨Nat.zero_le 1, le_refl 0⟩
  | committed => exact ⟨le_refl 1, Nat.zero_le 1⟩
  | notified => exact ⟨le_refl 1, le_refl 1⟩
  | gone sent honce => exact ⟨le_refl 1, honce⟩

omit [Crypto] [OnChainConfig] in
theorem Noted.once (h : Noted known s) (key : BlockKey) :
    receivers known key ≤ 1 ∧ senders known key ≤ receivers known key := by
  by_cases hkey : ∀ c, .announced c ∈ known → c.key ≠ key
  · obtain ⟨-, hreceiver, hsender⟩ := h.ordinary key hkey
    rw [receivers_eq_zero hreceiver, senders_eq_zero hsender]
    exact ⟨Nat.zero_le 1, le_refl 0⟩
  · push Not at hkey
    obtain ⟨c, hc, rfl⟩ := hkey
    exact (h.progress c hc).once

theorem noticesInRun_append (s : BlockStateMachine) (pre post : List Operation) :
    noticesInRun s (pre ++ post) = noticesInRun s pre ++ noticesInRun (after s pre) post :=
  gather_append s pre post

section Theorem

variable {latestCommit : Nat} {blockIds : Table Nat (Nat × HashValue)} {epoch : Nat}
  {s : BlockStateMachine} {ops : List Operation}

section

variable (hinit : init latestCommit blockIds epoch = .ok s) (hops : SparesChanges s ops)
  (hcommits : AlongRun step (fun s op => op.CommitSucceeds s) s ops)

include hinit hops hcommits

theorem noted_after {pre post : List Operation}
    (hpre : ops = pre ++ post) : Noted (noticesInRun s pre) (after s pre) := by
  subst hpre
  have hboth := hops.and_alongRun hcommits
  have hfirst := (alongRecord_append.mp hboth).1
  exact hfirst.invariant (fun _ _ _ hop h => h.step hop.1 hop.2) (noted_of_init hinit)

/-- How far the block of a change is; an end of its channel that has been handed out is not handed
out again. -/
theorem progress_after {pre post : List Operation} (hsplit : ops = pre ++ op :: post)
    (hc : .announced c ∈ noticesInRun s pre) :
    ∃ received sent, Progress c ((step (after s pre) op).2.blocks.get c.key) received sent ∧
      (received = 1 → receivers (noticesInRun s ops) c.key = 1) ∧
      (sent = 1 → senders (noticesInRun s ops) c.key = 1) := by
  have hsplit' : ops = (pre ++ [op]) ++ post := by simpa using hsplit
  have hmiddle := noted_after hinit hops hcommits hsplit'
  have hend := (noted_after hinit hops hcommits (List.append_nil ops).symm).once c.key
  rw [after_snoc] at hmiddle
  have hc' : .announced c ∈ noticesInRun s (pre ++ [op]) := by
    rw [noticesInRun_append]
    exact List.mem_append_left _ hc
  refine ⟨_, _, hmiddle.progress c hc', ?_⟩
  rw [hsplit', noticesInRun_append _ (pre ++ [op]), receivers_append, senders_append] at hend ⊢
  constructor
  · intro hone
    omega
  · intro hone
    omega

theorem receiver_once {pre post : List Operation}
    (hsplit : ops = pre ++ .setCommitBlocks refs c.epoch :: post)
    (hc : .announced c ∈ noticesInRun s pre)
    (hnames : ∃ r ∈ refs, r.blockId = c.blockId ∧ r.num = c.number) :
    receivers (noticesInRun s ops) c.key = 1 := by
  have hsucceeds : ((after s pre).setCommitBlocks refs c.epoch).1.isOk = true :=
    alongRun_iff.mp hcommits pre _ post hsplit
  obtain ⟨nums, hreply⟩ := except_isOk_iff.mp hsucceeds
  obtain ⟨received, sent, hprogress, hreceived, -⟩ := progress_after hinit hops hcommits hsplit hc
  apply hreceived
  generalize hcall : (step (after s pre) (.setCommitBlocks refs c.epoch)).2.blocks.get c.key = entry
    at hprogress
  change ((after s pre).setCommitBlocks refs c.epoch).2.blocks.get c.key = entry at hcall
  cases hprogress with
  | committed | notified | gone => rfl
  | waiting result =>
    -- a block that the call names is committed after it
    obtain ⟨r, hr, hid, hnum⟩ := hnames
    have hkey : c.key = ⟨c.epoch, r.num⟩ := by rw [hnum]; rfl
    have hmove := setCommitBlocks_move hreply c.key
    rw [hcall] at hmove
    have hstored : (after s pre).blocks.get c.key = some (.computed c.blockId result) := by
      generalize (after s pre).blocks.get c.key = before at *
      generalize (nums.map fun num => (⟨c.epoch, num⟩ : BlockKey)).count c.key = count at *
      cases hmove with
      | same => rfl
    rw [hkey] at hstored hcall
    rw [← hid] at hstored
    obtain ⟨hash, notifier, hdone⟩ := setCommitBlocks_commits hr hreply hstored .refl
    rw [hcall] at hdone
    cases hdone

theorem sender_once {pre post : List Operation}
    (hsplit : ops = pre ++ .getCommittedBlocks startNum maxSize c.epoch :: post)
    (hc : .announced c ∈ noticesInRun s pre)
    (hreply : ((after s pre).getCommittedBlocks startNum maxSize c.epoch).1 = some refs)
    (hnames : ∃ r ∈ refs, r.num = c.number) : senders (noticesInRun s ops) c.key = 1 := by
  obtain ⟨received, sent, hprogress, -, hsent⟩ := progress_after hinit hops hcommits hsplit hc
  -- the block that was returned is in the buffer, without its sender
  obtain ⟨r, hr, hnum⟩ := hnames
  rw [getCommittedBlocks_some hreply] at hr
  obtain ⟨-, result, hget⟩ := (handedOut_spec (after s pre) startNum maxSize c.epoch).1 r hr
  have hkey : c.key = ⟨c.epoch, r.num⟩ := by rw [hnum]; rfl
  have hmem : r.num ∈ ((after s pre).handedOut startNum maxSize c.epoch).map (·.num) :=
    List.mem_map_of_mem hr
  obtain ⟨hash, id, htaken⟩ : ∃ hash id, (step (after s pre) (.getCommittedBlocks startNum maxSize
      c.epoch)).2.blocks.get c.key = some (.committed hash result id false) := by
    refine ⟨r.hash, r.blockId, ?_⟩
    change ((after s pre).blocks.mapValues (takeNotifier c.epoch
      (((after s pre).handedOut startNum maxSize c.epoch).map (·.num)))).get _ = _
    rw [hkey, Table.get_mapValues, hget, Option.map_some]
    simp only [takeNotifier, hmem, decide_true, Bool.and_self, Bool.not_true, Bool.and_false]
  rw [htaken] at hprogress
  apply hsent
  cases hprogress with
  | notified => rfl

end

/-- The change blocks the blocks after it while it is pending. -/
theorem blocked_after {between : List Operation} (hops : AlongRecord step (fun s op => op.notices s)
      (fun known s op => op.SparesChange known s) known s between)
    (hpending : ∀ done todo, between = done ++ todo → (after s done).hasPendingEpochChange = true)
    (h : Blocked c s) : Blocked c (after s between) := by
  induction between generalizing known s with
  | nil => exact h
  | cons op rest ih =>
    rw [after_cons]
    apply ih hops.2
    · intro done todo heq
      have hdone := hpending (op :: done) todo (by rw [heq]; rfl)
      rwa [after_cons] at hdone
    · exact h.step hops.1 (hpending [] _ rfl) (hpending [op] rest rfl)

theorem blocked_of_announces (hc : announces s op = some c) : Blocked c (step s op).2 := by
  have hannounce := announcement_of_announces hc
  obtain ⟨cache, hinfo, hnumber⟩ := hannounce.info
  exact .announced cache hinfo hnumber hannounce.latest.le

/-- In every run from `init` in which all calls of `set_commit_blocks` succeed and the callers spare
the blocks that change the epoch, the persistence of each such block is announced through one
channel. -/
theorem notifies_once (hinit : init latestCommit blockIds epoch = .ok s)
    (hcommits : AlongRun step (fun s op => op.CommitSucceeds s) s ops)
    (hops : SparesChanges s ops) :
    NotifiesOnce s ops where
  receiver := by
    intro pre refs post c hsplit hc hnames
    exact receiver_once hinit hops hcommits hsplit hc hnames
  sender := by
    intro pre startNum maxSize post c refs hsplit hc hreply hnames
    exact sender_once hinit hops hcommits hsplit hc hreply hnames
  once := (noted_after hinit hops hcommits (List.append_nil ops).symm).once
  only := by
    intro key hkey
    by_contra hnone
    push Not at hnone
    obtain ⟨-, hreceiver, hsender⟩ :=
      (noted_after hinit hops hcommits (List.append_nil ops).symm).ordinary key hnone
    rcases hkey with hkey | hkey
    · exact hreceiver hkey
    · exact hsender hkey
  pending := by
    intro before op between startNum maxSize post c refs hsplit hc hpending hreply r hr
    subst hsplit
    obtain ⟨-, hrest⟩ := alongRecord_append.mp hops
    have hbetween := (alongRecord_append.mp hrest.2).1
    have hblocked := blocked_after hbetween (c := c) ?_ (blocked_of_announces hc)
    · rw [getCommittedBlocks_some hreply, after_append, after_cons] at hr
      exact hblocked.handedOut_le hr
    · intro done todo heq
      have hdone := hpending done todo heq
      rwa [after_append, after_cons] at hdone

end Theorem

end Runs

namespace Example

/-- Block 1 changes the epoch; it is committed twice, handed out twice and then the epoch is
adopted. -/
def notifiedChange : List Operation :=
  [.setOrderedBlocks 0 (block 1 1 11) 1, .setOrderedBlocks 11 (block 1 2 12) 2, announce 1 1 11 2,
    .setCommitBlocks [{ blockId := 11, num := 1, hash := some 7 },
      { blockId := 12, num := 2, hash := none }] 1,
    .setCommitBlocks [{ blockId := 11, num := 1, hash := some 7 }] 1, .getCommittedBlocks 1 none 1,
    .getCommittedBlocks 1 none 1, .releaseInflightBlocks, .consumeEpochChange]

/-- The epoch change is consumed before the reset adopts it, and block 1 is committed after. -/
def consumedFirst : List Operation :=
  [.setOrderedBlocks 0 (block 1 1 11) 1, announce 1 1 11 2, .consumeEpochChange,
    .releaseInflightBlocks, .setCommitBlocks [{ blockId := 11, num := 1, hash := some 7 }] 1]

/-- Block 2 announces a change, then block 1 does; both are in the buffer when they are
committed. -/
def announcedTwice : List Operation :=
  [.setOrderedBlocks 0 (block 1 1 11) 1, .setOrderedBlocks 11 (block 1 2 12) 2, announce 1 2 12 2,
    announce 1 1 11 2, .setCommitBlocks [{ blockId := 11, num := 1, hash := some 7 }] 1,
    .setCommitBlocks [{ blockId := 12, num := 2, hash := some 7 }] 1]

def firstChange : Change := { epoch := 1, number := 1, blockId := 11, newEpoch := 2 }

end Example

attribute [local instance] Example.crypto Example.config

/-- Block 1 gets one receiver and one sender, block 2 none. -/
theorem notifies_once_notifiedChange : NotifiesOnce Example.start Example.notifiedChange ∧
      noticesInRun Example.start Example.notifiedChange =
        [.announced Example.firstChange, .receiver ⟨1, 1⟩, .sender ⟨1, 1⟩] := by
  refine ⟨notifies_once Example.init_start ?_ ?_, by decide⟩
  · exact ⟨trivial, trivial, trivial, rfl, rfl, trivial, trivial, trivial, trivial, trivial⟩
  · refine ⟨?_, ?_, ?_, trivial, trivial, trivial, trivial, ?_, trivial, trivial⟩
    · intro _ _ _ n hn
      exact absurd hn List.not_mem_nil
    · intro _ _ _ n hn
      exact absurd hn List.not_mem_nil
    · intro _
      exact ⟨rfl, by decide⟩
    · intro _
      decide

/-- When the change is consumed before it is adopted, the reset drops its block, and committing it
returns no receiver. Nor does committing a block whose change has been replaced by that of a lower
block. -/
theorem receiver_lost : init 0 [] 1 = .ok Example.start ∧
      AlongRun step (fun s op => op.CommitSucceeds s) Example.start Example.consumedFirst ∧
      ¬ NotifiesOnce Example.start Example.consumedFirst ∧
      AlongRun step (fun s op => op.CommitSucceeds s) Example.start Example.announcedTwice ∧
      ¬ NotifiesOnce Example.start Example.announcedTwice := by
  refine ⟨rfl, ⟨trivial, trivial, trivial, trivial, rfl, trivial⟩, ?_,
    ⟨trivial, trivial, trivial, trivial, rfl, rfl, trivial⟩, ?_⟩
  · intro h
    have hone := h.receiver (Example.consumedFirst.take 4) _ [] Example.firstChange rfl (by decide)
      ⟨_, List.mem_singleton_self _, rfl, rfl⟩
    exact absurd hone (by decide)
  · intro h
    have hone := h.receiver (Example.announcedTwice.take 5) _ []
      { epoch := 1, number := 2, blockId := 12, newEpoch := 2 } rfl (by decide)
      ⟨_, List.mem_singleton_self _, rfl, rfl⟩
    exact absurd hone (by decide)

end Liquent.BlockBuffer
