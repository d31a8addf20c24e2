import Liquent.Pipeline.PersistOrder

/-!
# The cursors of the pipeline

The execution root is to be the first item that waits for its execution, the signing root an item of
the buffer, and an item that has been aggregated leaves the buffer at once.  Batches may be executed
in any order, and when a batch leaves the buffer the batches before it leave with it, whatever their
state.

With the cursors, the `unreachable!` of the source are out of reach; an execution response for an
item that is not ordered is, as long as batches are executed in turn.
-/

namespace Liquent.Pipeline

open Misc BufferManager

/-- A panic is none of the unreachable ones. -/
abbrev Legal (panic : Panic) : Prop := Spares unreachableMessages panic

/-! ## The buffer -/

section Held

variable [Crypto]

/-- The buffer holds the items of a list by increasing index, with keys that have been seen; the
signing root is one of them. -/
structure Held (seen : List HashValue) (m : BufferManager) (l : List BufferItem) : Prop where
  represents : m.buffer.Represents BufferItem.blockId l
  indexed : m.buffer.Indexed (l.map BufferItem.blockId)
  signing : ∀ key ∈ m.signingRoot, key ∈ l.map BufferItem.blockId
  known : ∀ item ∈ l, item.blockId ∈ seen

variable {seen : List HashValue} {m : BufferManager} {l pre post : List BufferItem}
  {item item' : BufferItem}

/-! ### The head -/

variable {buffer : Buffer BufferItem}

theorem Held.pop (h : Held seen m (item :: l)) (hpop : m.buffer.popFront = some (some item, buffer))
    (hbuffer : buffer.Represents BufferItem.blockId l) : Held seen (m.popped item buffer) l := by
  refine ⟨hbuffer, Buffer.Indexed.popFront h.indexed hpop, ?_, (List.forall_mem_cons.mp h.known).2⟩
  intro key hkey
  change (if m.signingRoot = some item.blockId then none else m.signingRoot) = some key at hkey
  split at hkey
  · cases hkey
  · rename_i hne
    have hmem := h.signing key hkey
    rw [List.map_cons, List.mem_cons] at hmem
    apply hmem.resolve_left
    rintro rfl
    exact hne hkey

/-! ### Items -/

theorem Held.replace {key : HashValue} (h : Held seen m (pre ++ item :: post))
    (hid : item'.blockId = item.blockId) (hreplaces : Replaces m.buffer key item item' buffer)
    (hbuffer : buffer.Represents BufferItem.blockId (pre ++ item' :: post)) :
    Held seen { m with buffer := buffer } (pre ++ item' :: post) := by
  obtain ⟨rest, htake, hset⟩ := hreplaces
  refine ⟨hbuffer, ?_, ?_, ?_⟩
  · rw [Buffer.map_hash_replace hid]
    exact (h.indexed.take htake).set hset
  · rw [Buffer.map_hash_replace hid]
    exact h.signing
  · apply forall_mem_replace h.known
    rw [hid]
    exact h.known item (by simp)

/-- The identifier of the last block of a batch. -/
def lastId (blocks : List PipelinedBlock) : List HashValue :=
  (blocks.getLast?.map PipelinedBlock.id).toList

theorem Held.push (h : Held seen m l) (hfresh : item.blockId ∉ seen)
    (hpush : m.buffer.pushBack BufferItem.blockId item = some buffer) :
    Held (seen ++ [item.blockId]) { m with buffer := buffer } (l ++ [item]) := by
  have hkey : item.blockId ∉ l.map BufferItem.blockId := by
    intro hmem
    obtain ⟨other, hother, heq⟩ := List.mem_map.mp hmem
    exact hfresh (heq ▸ h.known other hother)
  refine ⟨h.represents.pushBack hkey hpush, ?_, ?_, ?_⟩
  · rw [List.map_append, List.map_singleton]
    exact h.indexed.pushBack hkey hpush
  · intro key hroot
    rw [List.map_append]
    exact List.mem_append_left _ (h.signing key hroot)
  · exact forall_mem_snoc (fun other hother => List.mem_append_left _ (h.known other hother))
      (by simp)

theorem held_rule (seen : List HashValue) : ItemRule (fun m _ => Held seen m) Legal where
  represents h := h.represents
  panic _ hmessage := hmessage
  work h := { h with }
  signingRoot := by
    rintro m l root h hfind
    refine { h with signing := ?_ }
    rintro key rfl
    exact h.represents.findElemFrom_mem hfind
  send h _ := { h with }
  keep h hkept hreplaces hbuffer := h.replace hkept.blockId hreplaces hbuffer
  pop h hpop hbuffer := h.pop hpop hbuffer
  persist h hpop hbuffer := { h.pop hpop hbuffer with }

/-- What holds between two events. -/
def Tracked (seen : List HashValue) (m : BufferManager) : Prop :=
  Between (fun m _ => Held seen m) m

/-! ## Runs -/

theorem Tracked.empty (seen : List HashValue) (hbuffer : m.buffer = {})
    (hroot : m.executionRoot = none) (hsigning : m.signingRoot = none) : Tracked seen m := by
  refine ⟨[], ⟨?_, ?_, ?_, ?_⟩, hroot, ?_⟩
  · rw [hbuffer]
    exact Buffer.represents_empty
  · rw [hbuffer]
    exact Buffer.indexed_empty
  · rw [hsigning]
    nofun
  · exact List.forall_mem_nil _
  · exact List.forall_mem_nil _

variable [LedgerApi] [PipelineApi]

/-- The cursors are right after an event, and the panics that they rule out do not occur. -/
theorem Tracked.handle {event : Event} (h : Tracked seen m)
    (hdistinct : ∀ id ∈ lastId (receivedBlocks (.ok m) event), id ∉ seen) :
    Ensures (m.handle event) (Tracked (seen ++ lastId (receivedBlocks (.ok m) event)))
      Legal := by
  refine (held_rule _).handle (held_rule seen) h ?_ ?_ ?_ ?_
  · intro hnothing
    rw [hnothing]
    rw [lastId, List.getLast?_nil, Option.map_none, Option.toList_none, List.append_nil]
  · intro signal _
    cases signal with
    | stop | targetRound round => exact Tracked.empty _ rfl rfl rfl
  · intro blocks m' l item buffer hreceived hheld hne hkept hpush
    have hblocks : item.getBlocks = blocks.orderedBlocks := hkept.blocks
    have hlast := getLast?_ids_getBlocks (hblocks ▸ hne)
    have hbatch : lastId blocks.orderedBlocks = [item.blockId] := by
      rw [← hblocks, lastId, ← List.getLast?_map]
      exact congrArg Option.toList hlast
    rw [hreceived, hbatch] at hdistinct ⊢
    exact hheld.push (hdistinct item.blockId (by simp)) hpush
  · intro response answer pre item post blocks item' buffer _ hheld hexecuted
    exact hheld.replace hexecuted.executes.blockId hexecuted.replaces hexecuted.represents

/-- The identifiers of the batches that the manager receives in a run. -/
def batchesInRun : Outcome BufferManager → List Event → List HashValue
  | _, [] => []
  | m, event :: rest =>
    lastId (receivedBlocks m event) ++ batchesInRun (step m event).2 rest

theorem Tracked.run {events : List Event} (h : Tracked seen m)
    (hdistinct : (seen ++ batchesInRun (.ok m) events).Nodup) :
    Ensures (Misc.run step (.ok m) events).2
      (Tracked (seen ++ batchesInRun (.ok m) events)) Legal := by
  induction events generalizing m seen with
  | nil =>
    rw [batchesInRun, List.append_nil]
    exact h
  | cons event rest ih =>
    rw [batchesInRun, ← List.append_assoc] at hdistinct ⊢
    have hfresh : ∀ id ∈ lastId (receivedBlocks (.ok m) event), id ∉ seen := by
      intro id hid hseen
      have hfirst := (List.nodup_append.mp hdistinct).1
      exact (List.nodup_append.mp hfirst).2.2 id hseen id hid rfl
    have hstep := h.handle hfresh
    have hnext : (step (.ok m) event).2 = m.handle event := rfl
    rw [run_cons]
    simp only [hnext] at hdistinct ⊢
    cases hhandle : m.handle event with
    | ok m' =>
      rw [hhandle] at hstep hdistinct
      exact ih hstep hdistinct
    | error panic =>
      rw [hhandle] at hstep
      rw [(receivedInRun_error panic rest).2]
      exact hstep

/-- In every run in which the batches have distinct last blocks, between two events the execution
root is the first item that waits for its execution, and is missing exactly when none waits; the
signing root is missing or an item of the buffer; and no item is aggregated. A panic is not because
an aggregated item is missing from the buffer or still in it. -/
theorem cursors_right (author : Author) (epochState : EpochState) (orderVoteEnabled : Bool)
    (highestCommittedRound maxPendingRounds : Nat) (events : List Event) (hdistinct : (batchesInRun
      (.ok (.new author epochState orderVoteEnabled highestCommittedRound maxPendingRounds))
      events).Nodup) :
    Ensures (run step
        (.ok (.new author epochState orderVoteEnabled highestCommittedRound maxPendingRounds))
        events).2
      (fun m => ∃ l, m.buffer.Represents BufferItem.blockId l ∧
        m.executionRoot = (l.find? BufferItem.isOrdered).map BufferItem.blockId ∧
        (m.executionRoot = none ↔ ∀ item ∈ l, item.isOrdered = false) ∧
        (∀ key ∈ m.signingRoot, ∃ item ∈ l, item.blockId = key) ∧
        ∀ item ∈ l, item.isAggregated = false)
      (fun panic => panic.message ∉ unreachableMessages) := by
  have hstart : Tracked [] (.new author epochState orderVoteEnabled highestCommittedRound
      maxPendingRounds) := Tracked.empty [] rfl rfl rfl
  refine (hstart.run hdistinct).imp ?_
  rintro m ⟨l, hheld, hroot, hnone⟩
  refine ⟨l, hheld.represents, hroot, ?_, ?_, hnone⟩
  · rw [hroot, Option.map_eq_none_iff, List.find?_eq_none]
    simp
  · intro key hkey
    exact List.mem_map.mp (hheld.signing key hkey)

end Held

open FourValidators TwoBatches

attribute [local instance] crypto ledgerApi pipelineApi

/-- The second of two batches is executed first: the first stays the execution root, the second is
the signing root. -/
theorem cursors_right_twoBatches :
    ∃ m l, (run step start [ordered 1, ordered 2, executed 2]).2 = .ok m ∧
      m.buffer.Represents BufferItem.blockId l ∧ (∃ item ∈ l, item.blockId = 2) ∧
      m.executionRoot = some 1 ∧ m.signingRoot = some 2 := by
  have hright :=
    cursors_right 0 epochState true 0 100 [ordered 1, ordered 2, executed 2] (by decide)
  have hroots : ((run step start [ordered 1, ordered 2, executed 2]).2.toOption.map
      fun m => (m.executionRoot, m.signingRoot)) = some (some 1, some 2) := by decide
  cases hrun : (run step start [ordered 1, ordered 2, executed 2]).2 with
  | error panic =>
    rw [hrun] at hroots
    cases hroots
  | ok m =>
    rw [hrun] at hroots
    obtain ⟨hexecution, hsigning⟩ := Prod.mk.inj (Option.some.inj hroots)
    unfold start at hrun
    rw [hrun] at hright
    obtain ⟨l, hl, -, -, hkeys, -⟩ := hright
    exact ⟨m, l, rfl, hl, hkeys 2 hsigning, hexecution, hsigning⟩

end Liquent.Pipeline
