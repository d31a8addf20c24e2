import Liquent.Pipeline.ItemRule

/-!
# The order of persisted blocks

The pipeline is to persist what was ordered: every block once, in the order in which it was
received, after it has been executed, and under a ledger info that commits the last block of the
request.

The order is always right, but a block that was not executed may be persisted with one after it.  It
is not as long as the batches are executed in turn: then the ordered items form the end of the
buffer.  What needs this is stated under a proposition `turn`.
-/

namespace Liquent.Pipeline

open Misc BufferManager

section Order

variable [Crypto]

/-- The blocks sent to the persisting phase, in order. -/
def BufferManager.persistedBlocks (m : BufferManager) : List PipelinedBlock :=
  m.persisted.flatMap (·.blocks)

/-- A request commits its last block and, in turn, all its blocks have been delivered. -/
structure RequestRight (turn : Prop) (delivered : PipelinedBlock → Prop)
    (request : PersistingRequest) : Prop where
  commits : (ids request.blocks).getLast? =
    some request.commitLedgerInfo.ledgerInfo.commitInfo.id
  executed : turn → ∀ block ∈ request.blocks, delivered block

/-- What has been sent to the persisting phase is right. -/
structure PersistRight (received : List PipelinedBlock) (turn : Prop)
    (delivered : PipelinedBlock → Prop) (m : BufferManager) : Prop where
  inOrder : ids m.persistedBlocks <+: ids received
  requests : ∀ request ∈ m.persisted, RequestRight turn delivered request

/-! ## The content of the buffer -/

/-- The blocks of the items of a list. -/
def blocksOf (l : List BufferItem) : List PipelinedBlock := l.flatMap BufferItem.getBlocks

/-- The buffer holds the items of `l`; `taken` are the blocks of items that have left it but have
not been sent yet. In turn, the items that wait for their execution are at the end. -/
structure Content (received : List PipelinedBlock) (turn : Prop)
    (delivered : PipelinedBlock → Prop) (m : BufferManager) (taken : List PipelinedBlock)
    (l : List BufferItem) : Prop where
  represents : m.buffer.Represents BufferItem.blockId l
  account : ids m.persistedBlocks ++ ids taken ++ ids (blocksOf l) = ids received
  nonempty : ∀ item ∈ l, item.getBlocks ≠ []
  waiting : turn → (l.map BufferItem.isOrdered).Pairwise (fun a b => a = true → b = true)
  executed : ∀ item ∈ l, item.isOrdered = false → ∀ block ∈ item.getBlocks, delivered block
  named : ∀ item ∈ l, ItemNamed item
  requests : ∀ request ∈ m.persisted, RequestRight turn delivered request
  taken : turn → (∃ item ∈ l, item.isOrdered = false) → ∀ block ∈ taken, delivered block

/-- What holds between two events. -/
def InOrder (received : List PipelinedBlock) (turn : Prop) (delivered : PipelinedBlock → Prop)
    (m : BufferManager) : Prop :=
  Between (Content received turn delivered) m

variable {received : List PipelinedBlock} {turn : Prop} {delivered : PipelinedBlock → Prop}
  {m : BufferManager} {taken : List PipelinedBlock} {l : List BufferItem}

omit [Crypto] in
theorem blocksOf_append (l l' : List BufferItem) : blocksOf (l ++ l') = blocksOf l ++ blocksOf l' :=
  List.flatMap_append

theorem ids_append (l l' : List PipelinedBlock) : ids (l ++ l') = ids l ++ ids l' :=
  List.map_append

theorem Content.persistRight (h : Content received turn delivered m taken l) :
    PersistRight received turn delivered m where
  inOrder := by
    refine ⟨ids taken ++ ids (blocksOf l), ?_⟩
    rw [← List.append_assoc]
    exact h.account
  requests := h.requests

theorem Content.send {request : Request} (h : Content received turn delivered m taken l)
    (hrequest : request.persistingRequest = none) :
    Content received turn delivered (m.send request) taken l := by
  have hpersisted : (m.send request).persisted = m.persisted := by
    rw [persisted_send, hrequest, Option.toList_none, List.append_nil]
  refine { h with account := ?_, requests := ?_ }
  · unfold persistedBlocks
    rw [hpersisted]
    exact h.account
  · rw [hpersisted]
    exact h.requests

variable {received' : List PipelinedBlock}

theorem PersistRight.mono (h : PersistRight received turn delivered m)
    (hreceived : ids received <+: ids received') : PersistRight received' turn delivered m where
  inOrder := h.inOrder.trans hreceived
  requests := h.requests

variable {pre post : List BufferItem} {item item' : BufferItem} {buffer : Buffer BufferItem}
  {blocks : List PipelinedBlock}

/-! ## Changing an item -/

theorem Content.replaceWith (h : Content received turn delivered m [] (pre ++ item :: post))
    (hids : ids item'.getBlocks = ids item.getBlocks)
    (hwaiting : turn → ((pre ++ item' :: post).map BufferItem.isOrdered).Pairwise
      (fun a b => a = true → b = true))
    (hexecuted : item'.isOrdered = false → ∀ block ∈ item'.getBlocks, delivered block)
    (hnamed : ItemNamed item')
    (hbuffer : buffer.Represents BufferItem.blockId (pre ++ item' :: post)) :
    Content received turn delivered { m with buffer := buffer } [] (pre ++ item' :: post) := by
  refine { h with
    represents := hbuffer
    account := ?_
    nonempty := forall_mem_replace h.nonempty ?_
    waiting := hwaiting
    executed := forall_mem_replace h.executed hexecuted
    named := forall_mem_replace h.named hnamed
    taken := fun _ _ => List.forall_mem_nil _ }
  · have hblocks : ids (blocksOf (pre ++ item' :: post)) =
      ids (blocksOf (pre ++ item :: post)) := by
      have hcons (a : BufferItem) : blocksOf (a :: post) = a.getBlocks ++ blocksOf post := rfl
      rw [blocksOf_append, blocksOf_append, hcons, hcons, ids_append, ids_append, ids_append,
        ids_append, hids]
    rw [hblocks]
    exact h.account
  · intro hnil
    rw [hnil] at hids
    exact h.nonempty item (by simp) (List.map_eq_nil_iff.mp hids.symm)

theorem Content.replace (h : Content received turn delivered m [] (pre ++ item :: post))
    (hkept : Kept item item')
    (hbuffer : buffer.Represents BufferItem.blockId (pre ++ item' :: post)) :
    Content received turn delivered { m with buffer := buffer } [] (pre ++ item' :: post) := by
  have hitem : item ∈ pre ++ item :: post := by simp
  refine h.replaceWith (by rw [hkept.blocks]) ?_ ?_ (hkept.named (h.named item hitem)) hbuffer
  · have hmap : (pre ++ item' :: post).map BufferItem.isOrdered =
        (pre ++ item :: post).map BufferItem.isOrdered := by simp [hkept.ordered]
    rw [hmap]
    exact h.waiting
  · rw [hkept.blocks, hkept.ordered]
    exact h.executed item hitem

theorem Content.execute (h : Content received turn delivered m [] (pre ++ item :: post))
    (hpre : turn → ∀ other ∈ pre, other.isOrdered = false) (hexec : Executes item blocks item')
    (hblocks : ∀ block ∈ blocks, delivered block)
    (hbuffer : buffer.Represents BufferItem.blockId (pre ++ item' :: post)) :
    Content received turn delivered { m with buffer := buffer } [] (pre ++ item' :: post) := by
  refine h.replaceWith (by rw [hexec.blocks, hexec.ids]) ?_ ?_ hexec.named hbuffer
  · intro hturn
    have hpair := h.waiting hturn
    rw [List.map_append, List.map_cons, List.pairwise_append, List.pairwise_cons] at hpair ⊢
    obtain ⟨hfirst, ⟨-, hrest⟩, -⟩ := hpair
    refine ⟨hfirst, ⟨?_, hrest⟩, ?_⟩
    · intro _ _ htrue
      simp [hexec.ordered] at htrue
    · intro status hstatus _ _ htrue
      obtain ⟨other, hother, rfl⟩ := List.mem_map.mp hstatus
      simp [hpre hturn other hother] at htrue
  · intro _ block hblock
    rw [hexec.blocks] at hblock
    exact hblocks block hblock

/-! ## The head -/

theorem Content.pop (h : Content received turn delivered m taken (item :: l))
    (hbuffer : buffer.Represents BufferItem.blockId l) :
    Content received turn delivered (m.popped item buffer) (taken ++ item.getBlocks) l where
  represents := hbuffer
  account := by
    have haccount := h.account
    have hcons : blocksOf (item :: l) = item.getBlocks ++ blocksOf l := rfl
    rw [hcons, ids_append, ← List.append_assoc] at haccount
    rw [ids_append, ← List.append_assoc]
    exact haccount
  nonempty := (List.forall_mem_cons.mp h.nonempty).2
  waiting := fun hturn => (List.pairwise_cons.mp (h.waiting hturn)).2
  executed := (List.forall_mem_cons.mp h.executed).2
  named := (List.forall_mem_cons.mp h.named).2
  requests := h.requests
  taken := by
    rintro hturn ⟨later, hlater, hexecuted⟩
    -- in turn, the item has been executed before the later one
    have hitem : item.isOrdered = false := by
      have himp := (List.pairwise_cons.mp (h.waiting hturn)).1 _ (List.mem_map_of_mem hlater)
      rw [hexecuted] at himp
      simpa using himp
    exact List.forall_mem_append.mpr
      ⟨h.taken hturn ⟨later, List.mem_cons_of_mem _ hlater, hexecuted⟩,
        h.executed item List.mem_cons_self hitem⟩

/-- An aggregated item leaves the buffer, and the blocks up to it are sent. -/
theorem Content.persist {item : AggregatedItem}
    (h : Content received turn delivered m taken (.aggregated item :: l))
    (hbuffer : buffer.Represents BufferItem.blockId l) :
    Content received turn delivered ((m.popped (.aggregated item) buffer).send
      (.persisting ⟨taken ++ item.executedBlocks, item.commitProof⟩)) [] l := by
  have hpopped := h.pop hbuffer
  have hfirst : BufferItem.aggregated item ∈ .aggregated item :: l := List.mem_cons_self
  generalize hblocks : taken ++ item.executedBlocks = blocks
  change taken ++ (BufferItem.aggregated item).getBlocks = blocks at hblocks
  have hexecuted (hturn : turn) : ∀ block ∈ blocks, delivered block := by
    rw [← hblocks]
    exact List.forall_mem_append.mpr ⟨h.taken hturn ⟨_, hfirst, rfl⟩, h.executed _ hfirst rfl⟩
  have hlast : (ids blocks).getLast? = some item.commitProof.ledgerInfo.commitInfo.id := by
    have hnamed : item.commitProof.ledgerInfo.commitInfo.id = _ := h.named _ hfirst
    rw [← hblocks, ids_append, List.getLast?_append, hnamed,
      getLast?_ids_getBlocks (h.nonempty _ hfirst), Option.some_or]
  have hpersisted : (BufferManager.send (m.popped (.aggregated item) buffer)
      (.persisting ⟨blocks, item.commitProof⟩)).persisted =
        m.persisted ++ [⟨blocks, item.commitProof⟩] := persisted_send ..
  refine { hpopped with account := ?_, requests := ?_, taken := fun _ _ => List.forall_mem_nil _ }
  · have haccount := hpopped.account
    rw [hblocks] at haccount
    rw [persistedBlocks, hpersisted]
    simpa [ids, persistedBlocks, BufferManager.persisted, popped] using haccount
  · rw [hpersisted]
    exact forall_mem_snoc h.requests ⟨hlast, hexecuted⟩

/-! ## Ordered batches -/

section

variable (h : Content received turn delivered m [] l) (hne : item.getBlocks ≠ [])

include h hne

/-- A batch whose blocks are new comes under a new key. -/
theorem Content.fresh (hdistinct : (ids (received ++ item.getBlocks)).Nodup) :
    item.blockId ∉ l.map BufferItem.blockId := by
  intro hmem
  obtain ⟨other, hother, heq⟩ := List.mem_map.mp hmem
  have hreceived : other.blockId ∈ ids received := by
    rw [← h.account, List.mem_append]
    right
    have hids := blockId_mem_ids (h.nonempty other hother)
    obtain ⟨block, hblock, hid⟩ := List.mem_map.mp hids
    exact hid ▸ List.mem_map_of_mem (List.mem_flatMap.mpr ⟨other, hother, hblock⟩)
  rw [ids_append, List.nodup_append] at hdistinct
  exact hdistinct.2.2 other.blockId hreceived item.blockId (blockId_mem_ids hne) heq

theorem Content.push (hordered : item.isOrdered = true) (hnamed : ItemNamed item)
    (hbuffer : buffer.Represents BufferItem.blockId (l ++ [item])) :
    Content (received ++ item.getBlocks) turn delivered { m with buffer := buffer } []
      (l ++ [item]) := by
  refine { h with
    represents := hbuffer
    account := ?_
    nonempty := forall_mem_snoc h.nonempty hne
    waiting := ?_
    executed := forall_mem_snoc h.executed fun hexecuted => ?_
    named := forall_mem_snoc h.named hnamed
    taken := fun _ _ => List.forall_mem_nil _ }
  · have haccount := h.account
    have hblocks : blocksOf (l ++ [item]) = blocksOf l ++ item.getBlocks := by
      simp [blocksOf]
    rw [hblocks, ids_append, ids_append, ← List.append_assoc, ← haccount]
    rfl
  · intro hturn
    rw [List.map_append, List.pairwise_append]
    refine ⟨h.waiting hturn, List.pairwise_singleton .., ?_⟩
    intro _ _ status hstatus _
    obtain rfl : status = item.isOrdered := by simpa using hstatus
    exact hordered
  · simp [hordered] at hexecuted

end

/-! ## Events -/

theorem content_rule (hreceived : ids received <+: ids received') :
    ItemRule (Content received turn delivered)
      (fun panic => PersistRight received' turn delivered panic.manager) where
  represents h := h.represents
  panic h _ := h.persistRight.mono hreceived
  work h := { h with }
  signingRoot h _ := { h with }
  send h hrequest := h.send hrequest
  keep h hkept _ hbuffer := h.replace hkept hbuffer
  pop h _ hbuffer := h.pop hbuffer
  persist h _ hbuffer := h.persist hbuffer

section Events

variable [LedgerApi] [PipelineApi]

/-- A successful execution response for a batch that is not before the execution root is for the
batch at the root. -/
def Event.InTurn (m : BufferManager) : Event → Prop
  | .executionResponse response _ =>
    response.inner.isOk = true →
      m.buffer.findElemByKey m.executionRoot response.blockId = some response.blockId →
      m.executionRoot = some response.blockId
  | _ => True

instance (m : BufferManager) : (event : Event) → Decidable (event.InTurn m)
  | .executionResponse response _ =>
    inferInstanceAs (Decidable (response.inner.isOk = true → _ → _))
  | .ordered _ | .reset _ | .executionScheduleRetry | .signingResponse _ | .persistingResponse _
  | .commitMessage _ => isTrue trivial

/-- The blocks that an event delivers with their results. -/
def Event.deliveredBlocks : Event → List PipelinedBlock
  | .executionResponse response _ => response.inner.toOption.getD []
  | _ => []

theorem InOrder.handle {event : Event} (h : InOrder received turn delivered m)
    (hreset : ∀ signal, event ≠ .reset signal) (hturn : turn → event.InTurn m)
    (hdistinct : (ids (received ++ receivedBlocks (.ok m) event)).Nodup)
    (hdelivered : ∀ block ∈ event.deliveredBlocks, delivered block) :
    Ensures (m.handle event) (InOrder (received ++ receivedBlocks (.ok m) event) turn delivered)
      (fun panic => PersistRight (received ++ receivedBlocks (.ok m) event) turn
        delivered panic.manager) := by
  have hbefore : ids received <+: ids (received ++ receivedBlocks (.ok m) event) := by
    rw [ids_append]
    exact List.prefix_append ..
  refine (content_rule (List.prefix_refl _)).handle (content_rule hbefore) h ?_
    (fun signal heq => absurd heq (hreset signal)) ?_ ?_
  · intro hnothing
    rw [hnothing, List.append_nil]
  · intro blocks m' l item buffer hreceived hcontent hne hkept hpush
    rw [hreceived.trans hkept.blocks.symm] at hdistinct ⊢
    have hne' : item.getBlocks ≠ [] := fun hnil => hne (hkept.blocks.symm.trans hnil)
    have hbuffer := hcontent.represents.pushBack (hcontent.fresh hne' hdistinct) hpush
    exact hcontent.push hne' hkept.ordered (hkept.named nofun) hbuffer
  · rintro response answer pre item post blocks item' buffer rfl hcontent hexecuted
    have hblocks : ∀ block ∈ blocks, delivered block := by
      intro block hblock
      refine hdelivered block ?_
      simp only [Event.deliveredBlocks, hexecuted.finds.inner]
      exact hblock
    have hpre (hin : turn) : ∀ other ∈ pre, other.isOrdered = false := by
      -- the item is the one at the execution root
      have hok : response.inner.isOk = true := by
        rw [hexecuted.finds.inner]
        rfl
      have hroot := hturn hin hok hexecuted.finds.key
      have hid := (hcontent.represents.get hexecuted.finds.item).1
      exact hexecuted.rooted.executed_before (hroot.trans hid) hcontent.represents.nodup
    exact hcontent.execute hpre hexecuted.executes hblocks hexecuted.represents

/-- The blocks that the manager receives in a run. -/
def receivedInRun : Outcome BufferManager → List Event → List PipelinedBlock
  | _, [] => []
  | m, event :: rest => receivedBlocks m event ++ receivedInRun (step m event).2 rest

/-- A step that finds the manager running executes in turn. -/
def InTurnStep : Outcome BufferManager → Event → Prop
  | .ok m, event => event.InTurn m
  | .error _, _ => True

instance : (m : Outcome BufferManager) → (event : Event) → Decidable (InTurnStep m event)
  | .ok m, event => inferInstanceAs (Decidable (event.InTurn m))
  | .error _, _ => isTrue trivial

theorem receivedInRun_error (panic : Panic) (events : List Event) :
    receivedInRun (.error panic) events = [] ∧
      (run step (.error panic) events).2 = .error panic := by
  induction events with
  | nil => exact ⟨rfl, rfl⟩
  | cons event rest ih => exact ih

theorem InOrder.run {events : List Event} (h : InOrder received turn delivered m)
    (hreset : ∀ event ∈ events, ∀ signal, event ≠ .reset signal)
    (hturn : turn → AlongRun step InTurnStep (.ok m) events)
    (hdistinct : (ids (received ++ receivedInRun (.ok m) events)).Nodup)
    (hdelivered : ∀ event ∈ events, ∀ block ∈ event.deliveredBlocks, delivered block) :
    PersistRight (received ++ receivedInRun (.ok m) events) turn delivered
      (last (Misc.run step (.ok m) events).2) := by
  induction events generalizing m received with
  | nil =>
    obtain ⟨l, hcontent, -⟩ := h
    rw [receivedInRun, List.append_nil]
    exact hcontent.persistRight
  | cons event rest ih =>
    have hfirst : event ∈ event :: rest := List.mem_cons_self
    have hrest {P : Event → Prop} (hall : ∀ e ∈ event :: rest, P e) : ∀ e ∈ rest, P e :=
      (List.forall_mem_cons.mp hall).2
    rw [receivedInRun, ← List.append_assoc] at hdistinct ⊢
    have hstep := h.handle (hreset event hfirst) (fun hin => (hturn hin).1)
      ((List.nodup_append.mp (ids_append .. ▸ hdistinct)).1) (hdelivered event hfirst)
    have hnext : (step (.ok m) event).2 = m.handle event := rfl
    have hafter := fun hin => (hturn hin).2
    rw [run_cons]
    simp only [hnext] at hafter hdistinct ⊢
    cases hhandle : m.handle event with
    | ok m' =>
      rw [hhandle] at hstep hafter hdistinct
      exact ih hstep (hrest hreset) hafter hdistinct (hrest hdelivered)
    | error panic =>
      rw [hhandle] at hstep
      obtain ⟨hnothing, hlast⟩ := receivedInRun_error panic rest
      rw [hnothing, hlast, List.append_nil]
      exact hstep

omit [LedgerApi] [PipelineApi] in
theorem inOrder_new (turn : Prop) (delivered : PipelinedBlock → Prop) (author : Author)
    (epochState : EpochState) (orderVoteEnabled : Bool)
    (highestCommittedRound maxPendingRounds : Nat) :
    InOrder [] turn delivered (.new author epochState orderVoteEnabled highestCommittedRound
      maxPendingRounds) := by
  have hnone {P : BufferItem → Prop} : ∀ item ∈ ([] : List BufferItem), P item := by simp
  have hnothing : ∀ request ∈ ([] : List PersistingRequest),
    RequestRight turn delivered request := by
    simp
  refine ⟨[], ?_, rfl, hnone⟩
  exact
    { represents := Buffer.represents_empty
      account := rfl
      nonempty := hnone
      waiting := fun _ => .nil
      executed := hnone
      named := hnone
      requests := hnothing
      taken := fun _ _ => List.forall_mem_nil _ }

/-- In every run without a reset in which no block is received twice, the blocks sent to the
persisting phase are the first of those received, in the same order, and every request commits its
last block. When the batches are executed in turn, every block of a request was delivered by a
successful response. -/
theorem persisted_inOrder (author : Author) (epochState : EpochState) (orderVoteEnabled : Bool)
    (highestCommittedRound maxPendingRounds : Nat) (events : List Event)
    (hreset : ∀ event ∈ events, ∀ signal, event ≠ .reset signal) (hdistinct : (ids (receivedInRun
      (.ok (.new author epochState orderVoteEnabled highestCommittedRound maxPendingRounds))
      events)).Nodup) :
    let start : Outcome BufferManager :=
      .ok (.new author epochState orderVoteEnabled highestCommittedRound maxPendingRounds)
    let m := last (run step start events).2
    ids m.persistedBlocks <+: ids (receivedInRun start events) ∧
      (∀ request ∈ m.persisted, (ids request.blocks).getLast? =
        some request.commitLedgerInfo.ledgerInfo.commitInfo.id) ∧
      (AlongRun step InTurnStep start events → ∀ request ∈ m.persisted,
        ∀ block ∈ request.blocks, ∃ event ∈ events, block ∈ event.deliveredBlocks) := by
  intro start m
  have hstart := inOrder_new (AlongRun step InTurnStep start events)
    (fun block => ∃ event ∈ events, block ∈ event.deliveredBlocks)
    author epochState orderVoteEnabled highestCommittedRound maxPendingRounds
  have hright := hstart.run hreset (fun hturn => hturn) hdistinct
    fun event hevent block hblock => ⟨event, hevent, hblock⟩
  refine ⟨hright.inOrder, ?_, ?_⟩
  · intro request hrequest
    exact (hright.requests request hrequest).commits
  · intro hturn request hrequest
    exact (hright.requests request hrequest).executed hturn

end Events

end Order

/-! ## Two batches -/

namespace TwoBatches

open FourValidators

attribute [local instance] crypto ledgerApi pipelineApi

def orderedAt (round : Nat) : PipelinedBlock :=
  .newOrdered { block with blockData := { block.blockData with round }, blockNumber := some round }

def executedAt (round : Nat) : PipelinedBlock :=
  { orderedAt round with stateComputeResult := { rootHash := 70 + round, epochState := none } }

def ordered (round : Nat) : Event :=
  .ordered
    { orderedBlocks := [orderedAt round]
      orderedProof :=
        { ledgerInfo := .new (orderedAt round).blockInfo 0
          signatures := { signers := [0, 1, 2], sig := some 1 } } }

def executed (round : Nat) : Event :=
  .executionResponse { blockId := round, inner := .ok [executedAt round] } none

/-- The commit votes of three validators for the second batch. -/
def votes : List Event :=
  [0, 1, 2].map fun author => .commitMessage (.vote
    (vote author (.newWithBlockInfo (executedAt 2).blockInfo 0 72 2)))

/-- The first response is the given one. -/
def events (first : Event) : List Event :=
  [ordered 1, ordered 2, first, executed 2] ++ votes

end TwoBatches

open FourValidators TwoBatches

attribute [local instance] crypto ledgerApi pipelineApi

/-- Two batches that are executed in turn are persisted together. -/
theorem persisted_inOrder_twoBatches :
    let events := TwoBatches.events (executed 1)
    let m := last (run step start events).2
    m.persistedBlocks = [executedAt 1, executedAt 2] ∧
      ids m.persistedBlocks <+: ids (receivedInRun start events) ∧
      ∀ request ∈ m.persisted, ∀ block ∈ request.blocks,
        ∃ event ∈ events, block ∈ event.deliveredBlocks := by
  have hright := persisted_inOrder 0 epochState true 0 100 (TwoBatches.events (executed 1))
    (by simp [TwoBatches.events, ordered, executed, votes]) (by decide)
  exact ⟨by decide, hright.1, hright.2.2 (by decide)⟩

/-- The execution of the first batch fails, and the second is aggregated before the first is tried
again. Both are persisted, the first without a result. -/
theorem persisted_without_execution :
    let run := TwoBatches.events (.executionResponse ⟨1, .error "not found"⟩ none)
    (ids (receivedInRun start run)).Nodup ∧ (last (Misc.run step start run).2).persistedBlocks =
        [orderedAt 1, executedAt 2] ∧
      ∀ event ∈ run, orderedAt 1 ∉ event.deliveredBlocks := by
  exact ⟨by decide, by decide, by decide⟩

end Liquent.Pipeline
