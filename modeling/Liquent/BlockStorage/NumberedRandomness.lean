import Liquent.BlockStorage.BlockTree
import Liquent.BlockStorage.ForwardEpochSync
import Liquent.BlockStorage.SyncManager
import Liquent.Misc.Run

/-!
# Randomness under block numbers

The database keeps the randomness of blocks under their numbers.  A block that is ordered after the
one that ends its epoch has a number too, and a block of the next epoch gets the same number.
`commit_ledger` leaves the blocks of such a suffix out, so that the tables of honest nodes only hold
the randomness of the blocks that stay.  What is read for a block of a suffix is the randomness of a
block of the next epoch.
-/

namespace Liquent

open Misc

/-! ## Numbers -/

/-- The order of the blocks: the rounds whose blocks are ordered, with their numbers, and the number
of the block that ends each epoch, after which those of the next one start. -/
structure BlockOrder where
  ordered : RandMetadata → Prop
  number : RandMetadata → Nat
  lastNumber : Nat → Nat
  lastNumber_mono : Monotone lastNumber
  after_last : ∀ {m}, ordered m → 0 < m.epoch → lastNumber (m.epoch - 1) < number m
  distinct : ∀ {m m'}, ordered m → ordered m' → m.epoch = m'.epoch → number m = number m' → m = m'

namespace BlockOrder

variable (order : BlockOrder)

/-- The block comes after the one that ends its epoch. -/
def IsSuffix (m : RandMetadata) : Prop := order.lastNumber m.epoch < order.number m

instance (m : RandMetadata) : Decidable (order.IsSuffix m) :=
  inferInstanceAs (Decidable (order.lastNumber m.epoch < order.number m))

/-- A number that goes with a block is its own. -/
def Numbered (block : Block) (number : Option Nat) : Prop :=
  ∀ n ∈ number, order.ordered block.metadata ∧ order.number block.metadata = n

/-- A value is the randomness of the block with a number, which is not in a suffix. -/
def Stored (produced : RandMetadata → List UInt8) (number : Nat) (value : List UInt8) : Prop :=
  ∃ m, order.ordered m ∧ ¬ order.IsSuffix m ∧ order.number m = number ∧ produced m = value

variable {order} {m m' : RandMetadata} {produced : RandMetadata → List UInt8} {value : List UInt8}

/-- A block that has the number of one that stays is of no later epoch. -/
theorem epoch_le (hm' : order.ordered m') (h : ¬ order.IsSuffix m)
    (hnumber : order.number m = order.number m') : m'.epoch ≤ m.epoch := by
  by_contra hlt
  have hafter := order.after_last hm' (by omega)
  have hmono : order.lastNumber m.epoch ≤ order.lastNumber (m'.epoch - 1) :=
    order.lastNumber_mono (by omega)
  unfold IsSuffix at h
  omega

/-- Outside of the suffixes no number is used twice. -/
theorem eq_of_number (hm : order.ordered m) (hm' : order.ordered m') (h : ¬ order.IsSuffix m)
    (h' : ¬ order.IsSuffix m') (hnumber : order.number m = order.number m') : m = m' :=
  order.distinct hm hm' (le_antisymm (epoch_le hm h' hnumber.symm) (epoch_le hm' h hnumber)) hnumber

theorem Stored.own (h : order.Stored produced (order.number m) value) (hm : order.ordered m)
    (hstays : ¬ order.IsSuffix m) : value = produced m := by
  obtain ⟨m', hm', hstays', hnumber, rfl⟩ := h
  rw [eq_of_number hm' hm hstays' hstays hnumber]

theorem Stored.not_own (h : order.Stored produced (order.number m) value)
    (hproduced : Function.Injective produced) (hsuffix : order.IsSuffix m) :
    value ≠ produced m := by
  obtain ⟨m', -, hstays', -, rfl⟩ := h
  intro heq
  exact hstays' (hproduced heq ▸ hsuffix)

end BlockOrder

/-! ## Nodes -/

/-- What `process_block_retrieval` (`sync_manager.rs:688`) answers for a block that it has found. -/
def ConsensusDb.retrievedBlock (db : ConsensusDb) (block : Block) : RetrievedBlock where
  block := block
  blockNumber := block.blockNumber
  randomness := block.blockNumber.bind db.getRandomness

/-- The database of a node and its blocks in memory. -/
structure RandomnessNode where
  db : ConsensusDb
  blocks : Table HashValue PipelinedBlock

namespace RandomnessNode

variable (n : RandomnessNode)

def put (values : List (Nat × List UInt8)) : RandomnessNode :=
  { n with db := n.db.putRandomness values }

/-- Changes the block with an identifier. -/
def update (id : HashValue) (f : PipelinedBlock → PipelinedBlock) : RandomnessNode :=
  { n with blocks := n.blocks.mapValues fun key p => if key = id then f p else p }

def commitLedger (ids : List HashValue) (proof : LedgerInfoWithSignatures) : RandomnessNode :=
  n.put (BlockStore.randomnessToPersist proof (ids.filterMap n.blocks.get))

/-- What `fast_forward_sync` stores of an answer; without a number it panics. -/
def fastForwardSync (answer : List RetrievedBlock) : RandomnessNode :=
  match SyncManager.randomnessOf answer with
  | .ok values => n.put values
  | .error _ => n

/-- What `persist_and_process_forward_epoch_sync_batch` stores of a page. -/
def forwardEpochSync (records : List ForwardEpochSyncRecord) : RandomnessNode :=
  n.put (records.filterMap fun r =>
    r.blockNumber.bind fun number => r.randomness.map fun value => (number, value))

variable [Crypto]

/-- The block in memory, or the new one that `insert_block` makes. -/
def pipelined (block : Block) : PipelinedBlock :=
  (n.blocks.get block.id).getD (.newOrdered block)

def insertBlock (cfg : NodeConfig) (block : Block) : RandomnessNode :=
  { n with
    blocks := n.blocks.put block.id
      (BlockStore.trySetRandomnessFromDb cfg n.db block (n.pipelined block)) }

/-- What `fetch_quorum_cert` does with the randomness of a block that it has inserted. -/
def fetchQuorumCert (answer : RetrievedBlock) : RandomnessNode :=
  match answer.blockNumber, answer.randomness with
  | some number, some randomness =>
    (n.update answer.block.id (·.setRandomness ⟨answer.block.metadata, randomness⟩)).put
      [(number, randomness)]
  | _, _ => n

end RandomnessNode

/-! ## Runs -/

inductive RandomnessEvent where
  | insertBlock (node : Nat) (block : Block)
  /-- A block in memory is ordered and gets its number. -/
  | numbered (node : Nat) (id : HashValue) (number : Nat)
  /-- The shares for the round of a block have been aggregated. -/
  | aggregated (node : Nat) (id : HashValue)
  | commitLedger (node : Nat) (ids : List HashValue) (proof : LedgerInfoWithSignatures)
  /-- A block is fetched from a peer that has it. -/
  | fetchQuorumCert (node peer : Nat) (block : Block)
  | fastForwardSync (node peer : Nat) (blocks : List Block)
  | forwardEpochSync (node peer epoch : Nat) (entries : List ForwardEpochSyncIndexEntry)

variable {epoch : Nat}

namespace RandomnessEvent

/-- The records that a peer serves; it answers with an error if it cannot read one. -/
def records (peer : RandomnessNode) (epoch : Nat) (entries : List ForwardEpochSyncIndexEntry) :
    List ForwardEpochSyncRecord :=
  match entries.mapM (peer.db.forwardRecord epoch) with
  | .ok records => records
  | .error _ => []

variable [Crypto] (cfg : NodeConfig) (produced : RandMetadata → List UInt8) (order : BlockOrder)
  (net : Nat → RandomnessNode)

/-- The nodes after an event, when the shares of each round give its randomness. -/
def next : RandomnessEvent → Nat → RandomnessNode
  | .insertBlock node block => Function.update net node ((net node).insertBlock cfg block)
  | .numbered node id number =>
    Function.update net node
      ((net node).update id fun p => { p with block := p.block.setBlockNumber number })
  | .aggregated node id =>
    Function.update net node
      ((net node).update id fun p => p.setRandomness ⟨p.metadata, produced p.metadata⟩)
  | .commitLedger node ids proof => Function.update net node ((net node).commitLedger ids proof)
  | .fetchQuorumCert node peer block =>
    Function.update net node ((net node).fetchQuorumCert ((net peer).db.retrievedBlock block))
  | .fastForwardSync node peer blocks =>
    Function.update net node ((net node).fastForwardSync (blocks.map (net peer).db.retrievedBlock))
  | .forwardEpochSync node peer epoch entries =>
    Function.update net node ((net node).forwardEpochSync (records (net peer) epoch entries))

/-- The blocks for which an event looks up randomness, with the node and the number that it reads.
-/
def lookups : RandomnessEvent → List (Nat × Block × Option Nat)
  | .insertBlock node block =>
    if cfg.enableRandomness && !((net node).pipelined block).hasRandomness then
      [(node, block, block.blockNumber)]
    else []
  | .fetchQuorumCert _ peer block => [(peer, block, block.blockNumber)]
  | .fastForwardSync _ peer blocks => blocks.map fun block => (peer, block, block.blockNumber)
  | .forwardEpochSync _ peer epoch entries =>
    (records (net peer) epoch entries).map fun r => (peer, r.block, r.blockNumber)
  | _ => []

/-- The values that are set on a block, or attached to it in an answer. -/
def attached (event : RandomnessEvent) : List (Block × List UInt8) :=
  (lookups cfg net event).filterMap fun (node, block, number) =>
    (number.bind (net node).db.getRandomness).map fun value => (block, value)

def step (event : RandomnessEvent) : List (Block × List UInt8) × (Nat → RandomnessNode) :=
  (attached cfg net event, next cfg produced net event)

/-- Blocks have the numbers of the order and are told apart by their identifiers, and the proof of a
batch that reaches into a suffix names the block that ends the epoch. -/
def Honest (event : RandomnessEvent) : Prop :=
  (∀ l ∈ lookups cfg net event, order.Numbered l.2.1 l.2.2) ∧
  match event with
  | .insertBlock node block => order.Numbered block block.blockNumber ∧
      ∀ p ∈ (net node).blocks.get block.id, p.metadata = block.metadata
  | .numbered node id number => ∀ p ∈ (net node).blocks.get id, order.Numbered p.block (some number)
  | .commitLedger node ids proof => ∀ p ∈ ids.filterMap (net node).blocks.get,
      order.IsSuffix p.metadata → ∃ info ∈ proof.ledgerInfo.commitInfo.epochBlockInfo,
        info.blockNumber = order.lastNumber p.metadata.epoch
  | .fetchQuorumCert node _ block =>
      ∀ p ∈ (net node).blocks.get block.id, p.metadata = block.metadata
  | _ => True

/-- No block of a suffix has a number that the table has. -/
def Spared (event : RandomnessEvent) : Prop :=
  ∀ l ∈ lookups cfg net event, order.IsSuffix l.2.1.metadata →
    l.2.2.bind (net l.1).db.getRandomness = none

/-! ### What the tables hold -/

/-- A block in memory has its own number, and its own randomness or that of the block that stays
under the number. -/
def BlockSound (p : PipelinedBlock) : Prop :=
  order.Numbered p.block p.block.blockNumber ∧ ∀ r ∈ p.randomness,
    r.randomness = produced p.metadata ∨ order.Stored produced
      (order.number p.metadata) r.randomness

structure Sound (n : RandomnessNode) : Prop where
  table : ∀ e ∈ n.db.randomness, order.Stored produced e.1 e.2
  memory : ∀ {id p}, n.blocks.get id = some p → BlockSound produced order p

variable {cfg produced order net} {n : RandomnessNode} {p : PipelinedBlock} {block : Block}
  {number : Option Nat} {value : List UInt8}

omit [Crypto] in
theorem BlockSound.setRandomness {r : Randomness} (h : BlockSound produced order p)
    (hr : r.randomness = produced p.metadata ∨
      order.Stored produced (order.number p.metadata) r.randomness) :
    BlockSound produced order (p.setRandomness r) := by
  refine ⟨h.1, ?_⟩
  intro r' hr'
  change p.randomness.or (some r) = some r' at hr'
  cases hp : p.randomness with
  | some r₀ =>
    rw [hp] at hr'
    obtain rfl := Option.some.inj hr'
    exact h.2 r₀ hp
  | none =>
    rw [hp] at hr'
    obtain rfl := Option.some.inj hr'
    exact hr

section

variable (h : Sound produced order n)

include h

section

omit [Crypto]

theorem Sound.put {values : List (Nat × List UInt8)}
    (hvalues : ∀ e ∈ values, order.Stored produced e.1 e.2) : Sound produced order (n.put values) :=
  ⟨Table.forall_mem_putAll h.table hvalues, h.memory⟩

theorem Sound.update {id : HashValue} {f : PipelinedBlock → PipelinedBlock}
    (hf : ∀ p ∈ n.blocks.get id, BlockSound produced order p → BlockSound produced order (f p)) :
    Sound produced order (n.update id f) := by
  refine ⟨h.table, ?_⟩
  intro key p hget
  unfold RandomnessNode.update at hget
  rw [Table.get_mapValues, Option.map_eq_some_iff] at hget
  obtain ⟨q, hq, rfl⟩ := hget
  split
  · rename_i hkey
    exact hf q (hkey ▸ hq) (h.memory hq)
  · exact h.memory hq

/-- A lookup gives the randomness of the block that stays under the number. -/
theorem Sound.lookup (hnumber : order.Numbered block number)
    (hvalue : number.bind n.db.getRandomness = some value) :
    order.ordered block.metadata ∧ order.Stored produced (order.number block.metadata) value := by
  obtain ⟨k, rfl, hget⟩ := Option.bind_eq_some_iff.mp hvalue
  obtain ⟨hordered, rfl⟩ := hnumber k rfl
  exact ⟨hordered, h.table _ (Table.mem_of_get hget)⟩

/-- What is written for a block under its number after such a lookup. -/
theorem Sound.stored {k : Nat} (hnumber : order.Numbered block (some k))
    (hvalue : (some k).bind n.db.getRandomness = some value) : order.Stored produced k value := by
  obtain ⟨-, rfl⟩ := hnumber k rfl
  exact (h.lookup hnumber hvalue).2

end

theorem Sound.insertBlock (hnumber : order.Numbered block block.blockNumber)
    (hsame : ∀ p ∈ n.blocks.get block.id, p.metadata = block.metadata) :
    Sound produced order (n.insertBlock cfg block) := by
  refine ⟨h.table, ?_⟩
  intro id p hget
  unfold RandomnessNode.insertBlock at hget
  rw [Table.get_put] at hget
  split at hget
  · obtain rfl := Option.some.inj hget
    have hp : BlockSound produced order (n.pipelined block) ∧
        (n.pipelined block).metadata = block.metadata := by
      unfold RandomnessNode.pipelined
      cases hold : n.blocks.get block.id with
      | some p => exact ⟨h.memory hold, hsame p hold⟩
      | none => exact ⟨⟨hnumber, fun _ hr => (Option.not_mem_none _ hr).elim⟩, rfl⟩
    unfold BlockStore.trySetRandomnessFromDb
    split
    · split
      · exact hp.1
      · rename_i k hk
        split
        · exact hp.1
        · split
          · rename_i value hvalue
            rw [hk] at hnumber
            refine hp.1.setRandomness (.inr ?_)
            rw [hp.2]
            exact (h.lookup hnumber hvalue).2
          · exact hp.1
    · exact hp.1
  · exact h.memory hget

omit [Crypto] in
/-- Of a batch that reaches into a suffix, `commit_ledger` keeps the blocks that stay. -/
theorem Sound.commitLedger {ids : List HashValue} {proof : LedgerInfoWithSignatures}
    (hproof : ∀ p ∈ ids.filterMap n.blocks.get, order.IsSuffix p.metadata →
      ∃ info ∈ proof.ledgerInfo.commitInfo.epochBlockInfo,
        info.blockNumber = order.lastNumber p.metadata.epoch) :
    Sound produced order (n.commitLedger ids proof) := by
  apply h.put
  intro e he
  have hkept : e ∈ (ids.filterMap n.blocks.get).filterMap (fun p =>
      p.randomness.bind fun r => p.block.blockNumber.map fun number => (number, r.randomness)) ∧
      ∀ info ∈ proof.ledgerInfo.commitInfo.epochBlockInfo, e.1 ≤ info.blockNumber := by
    unfold BlockStore.randomnessToPersist at he
    cases hinfo : proof.ledgerInfo.commitInfo.epochBlockInfo with
    | none =>
      rw [hinfo] at he
      exact ⟨he, nofun⟩
    | some info =>
      rw [hinfo] at he
      obtain ⟨hmem, hle⟩ := List.mem_filter.mp he
      refine ⟨hmem, ?_⟩
      rintro _ ⟨⟩
      simpa using hle
  obtain ⟨hmem, hle⟩ := hkept
  obtain ⟨p, hp, hvalue⟩ := List.mem_filterMap.mp hmem
  obtain ⟨r, hr, hnumber⟩ := Option.bind_eq_some_iff.mp hvalue
  obtain ⟨k, hk, rfl⟩ := Option.map_eq_some_iff.mp hnumber
  obtain ⟨id, -, hget⟩ := List.mem_filterMap.mp hp
  have hsound := h.memory hget
  obtain ⟨hordered, rfl⟩ := hsound.1 k hk
  have hstays : ¬ order.IsSuffix p.metadata := by
    intro hsuffix
    obtain ⟨info, hinfo, hlast⟩ := hproof p hp hsuffix
    have hbound := hle info hinfo
    unfold BlockOrder.IsSuffix at hsuffix
    change order.number p.metadata ≤ _ at hbound
    omega
  rcases hsound.2 r hr with hown | hstored
  · exact ⟨p.metadata, hordered, hstays, rfl, hown.symm⟩
  · exact hstored

end

variable {peer : RandomnessNode}

theorem Sound.fetchQuorumCert (h : Sound produced order n)
    (hpeer : Sound produced order peer) (hnumber : order.Numbered block block.blockNumber)
    (hsame : ∀ p ∈ n.blocks.get block.id, p.metadata = block.metadata) :
    Sound produced order (n.fetchQuorumCert (peer.db.retrievedBlock block)) := by
  unfold RandomnessNode.fetchQuorumCert
  split
  · rename_i k value hk hvalue
    change block.blockNumber = some k at hk
    change block.blockNumber.bind peer.db.getRandomness = some value at hvalue
    rw [hk] at hnumber hvalue
    apply Sound.put
    · apply h.update
      intro p hp hsound
      refine hsound.setRandomness (.inr ?_)
      rw [hsame p hp]
      exact (hpeer.lookup hnumber hvalue).2
    · intro e he
      obtain rfl := List.mem_singleton.mp he
      exact hpeer.stored hnumber hvalue
  · exact h

omit [Crypto] in
theorem Sound.fastForwardSync {blocks : List Block}
    (h : Sound produced order n) (hpeer : Sound produced order peer)
    (hnumbers : ∀ block ∈ blocks, order.Numbered block block.blockNumber) :
    Sound produced order (n.fastForwardSync (blocks.map peer.db.retrievedBlock)) := by
  unfold RandomnessNode.fastForwardSync
  split
  · rename_i values hvalues
    apply h.put
    intro e he
    obtain ⟨r, hr, hwrite⟩ := exists_of_mem_mapM hvalues he
    obtain ⟨block, hblock, rfl⟩ := List.mem_map.mp (List.mem_filter.mp hr).1
    split at hwrite
    · rename_i k value hk hvalue
      obtain rfl := Except.ok.inj hwrite
      change block.blockNumber = some k at hk
      change block.blockNumber.bind peer.db.getRandomness = some value at hvalue
      have hnumber := hnumbers block hblock
      rw [hk] at hnumber hvalue
      exact hpeer.stored hnumber hvalue
    · cases hwrite
  · exact h

variable {entries : List ForwardEpochSyncIndexEntry}

omit [Crypto] in
theorem mem_records {r : ForwardEpochSyncRecord}
    (h : r ∈ records peer epoch entries) : r.randomness =
      r.blockNumber.bind peer.db.getRandomness := by
  unfold records at h
  split at h
  · rename_i records hrecords
    obtain ⟨entry, -, hread⟩ := exists_of_mem_mapM hrecords h
    unfold ConsensusDb.forwardRecord at hread
    simp only [except_bind_ok_iff, except_pure_ok_iff] at hread
    obtain ⟨_, -, _, -, rfl⟩ := hread
    rfl
  · cases h

omit [Crypto] in
theorem Sound.forwardEpochSync (h : Sound produced order n) (hpeer : Sound produced order peer)
    (hnumbers : ∀ r ∈ records peer epoch entries, order.Numbered r.block r.blockNumber) :
    Sound produced order (n.forwardEpochSync (records peer epoch entries)) := by
  apply h.put
  intro e he
  obtain ⟨r, hr, hwrite⟩ := List.mem_filterMap.mp he
  obtain ⟨k, hk, hmap⟩ := Option.bind_eq_some_iff.mp hwrite
  obtain ⟨value, hvalue, rfl⟩ := Option.map_eq_some_iff.mp hmap
  have hnumber := hnumbers r hr
  rw [mem_records hr, hk] at hvalue
  rw [hk] at hnumber
  exact hpeer.stored hnumber hvalue

/-- Every event keeps the tables of all nodes. -/
theorem Sound.next {event : RandomnessEvent} (hnet : ∀ i, Sound produced order (net i))
    (hhonest : Honest cfg order net event) (i : Nat) :
    Sound produced order (next cfg produced net event i) := by
  have hupdate {node : Nat} {n : RandomnessNode} (hn : Sound produced order n) :
      Sound produced order (Function.update net node n i) := by
    by_cases hi : i = node
    · rw [hi, Function.update_self]
      exact hn
    · rw [Function.update_of_ne hi]
      exact hnet i
  obtain ⟨hlookups, hevent⟩ := hhonest
  cases event with
  | insertBlock node block => exact hupdate ((hnet node).insertBlock hevent.1 hevent.2)
  | numbered node id k =>
    refine hupdate ((hnet node).update fun p hp hsound => ⟨?_, hsound.2⟩)
    intro k' hk'
    change p.block.blockNumber.or (some k) = some k' at hk'
    cases hold : p.block.blockNumber with
    | some k₀ =>
      rw [hold] at hk'
      exact hsound.1 k' (hold.trans hk')
    | none =>
      rw [hold] at hk'
      exact hevent p hp k' hk'
  | aggregated node id =>
    exact hupdate ((hnet node).update fun p _ hsound => hsound.setRandomness (.inl rfl))
  | commitLedger node ids proof => exact hupdate ((hnet node).commitLedger hevent)
  | fetchQuorumCert node peer block =>
    have hnumber := hlookups _ (List.mem_singleton_self _)
    exact hupdate ((hnet node).fetchQuorumCert (hnet peer) hnumber hevent)
  | fastForwardSync node peer blocks =>
    refine hupdate ((hnet node).fastForwardSync (hnet peer) ?_)
    intro block hblock
    exact hlookups _ (List.mem_map_of_mem hblock)
  | forwardEpochSync node peer epoch entries =>
    refine hupdate ((hnet node).forwardEpochSync (hnet peer) ?_)
    intro r hr
    exact hlookups _ (List.mem_map_of_mem hr)

/-! ### What is attached -/

/-- An event attaches the values of their blocks unless a block of a suffix has a number that the
table has. -/
theorem attached_own_iff {event : RandomnessEvent} (hproduced : Function.Injective produced)
    (hnet : ∀ i, Sound produced order (net i)) (hhonest : Honest cfg order net event) :
    (∀ a ∈ attached cfg net event, a.2 = produced a.1.metadata) ↔ Spared cfg order net event := by
  constructor
  · intro hown l hl hsuffix
    cases hvalue : l.2.2.bind (net l.1).db.getRandomness with
    | none => rfl
    | some value =>
      have hstored := ((hnet l.1).lookup (hhonest.1 l hl) hvalue).2
      refine absurd (hown (l.2.1, value) ?_) (hstored.not_own hproduced hsuffix)
      exact List.mem_filterMap.mpr ⟨l, hl, by simp [hvalue]⟩
  · intro hspared a ha
    obtain ⟨l, hl, hmap⟩ := List.mem_filterMap.mp ha
    obtain ⟨value, hvalue, rfl⟩ := Option.map_eq_some_iff.mp hmap
    obtain ⟨hordered, hstored⟩ := (hnet l.1).lookup (hhonest.1 l hl) hvalue
    refine hstored.own hordered fun hsuffix => ?_
    simp [hspared l hl hsuffix] at hvalue

end RandomnessEvent

open RandomnessEvent in
/-- In every run of honest nodes that start with empty tables, the randomness that is set on blocks
and attached to them in answers is their own if and only if no step looks up a block of a suffix
whose number is in the table. -/
theorem randomness_own_iff [Crypto] (cfg : NodeConfig) (order : BlockOrder)
    {produced : RandMetadata → List UInt8} (hproduced : Function.Injective produced)
    {net : Nat → RandomnessNode} (hnet : ∀ i, (net i).db.randomness = [] ∧ (net i).blocks = [])
    {events : List RandomnessEvent}
    (hhonest : AlongRun (step cfg produced) (Honest cfg order) net events) :
    (∀ e ∈ (run (step cfg produced) net events).1, ∀ a ∈ e.2, a.2 = produced a.1.metadata) ↔
      AlongRun (step cfg produced) (Spared cfg order) net events := by
  have hsound : ∀ i, Sound produced order (net i) := by
    intro i
    refine ⟨?_, ?_⟩
    · rw [(hnet i).1]
      exact nofun
    · rw [(hnet i).2]
      exact nofun
  clear hnet
  induction events generalizing net with
  | nil => simp [AlongRun]
  | cons event rest ih =>
    rw [run_cons]
    simp only [List.forall_mem_cons, AlongRun]
    exact and_congr (attached_own_iff hproduced hsound hhonest.1)
      (ih hhonest.2 fun i => Sound.next hsound hhonest.1 i)

/-! ## A suffix -/

namespace EpochSuffix

open RandomnessEvent BlockStorage.SmallTree

attribute [local instance] crypto

/-- Epoch 1 ends with its first block; its second block and the first one of epoch 2 have number
2. -/
def order : BlockOrder where
  ordered m := m = ⟨1, 1⟩ ∨ m = ⟨1, 2⟩ ∨ m = ⟨2, 3⟩
  number m := if m.round = 1 then 1 else 2
  lastNumber epoch := if epoch = 0 then 0 else epoch
  lastNumber_mono := by
    intro a b hab
    dsimp only
    split <;> split <;> omega
  after_last := by
    rintro m (rfl | rfl | rfl) <;> decide
  distinct := by
    rintro m m' (rfl | rfl | rfl) (rfl | rfl | rfl) <;> decide

def produced (m : RandMetadata) : List UInt8 := List.replicate (Nat.pair m.epoch m.round) 0

theorem produced_injective : Function.Injective produced := by
  rintro ⟨epoch, round⟩ ⟨epoch', round'⟩ h
  have hlength := congrArg List.length h
  simpa [produced, Nat.pair_eq_pair] using hlength

def block (epoch round : Nat) : Block where
  blockData := ⟨epoch, round, 0, certificate 0, .nilBlock []⟩
  signature := none
  blockNumber := some (order.number ⟨epoch, round⟩)

def cfg : NodeConfig where
  epoch := 1
  validators := ⟨[]⟩
  genesisBlockId := 0
  isValidator := true
  enableRandomness := true
  requireBlockRandomness := true
  forwardEpochSyncEnabled := false
  maxBlocksToRequest := 10

def net : Nat → RandomnessNode := fun _ => ⟨{}, []⟩

/-- Node 0 commits the first block of epoch 2, and node 1 fetches a block from it and inserts it. -/
def events (fetched : Block) : List RandomnessEvent :=
  [.insertBlock 0 (block 2 3), .aggregated 0 3, .commitLedger 0 [3] (signed 3),
    .fastForwardSync 1 0 [fetched], .insertBlock 1 fetched]

theorem honest_insertBlock {net : Nat → RandomnessNode} {node round : Nat}
    (h : order.ordered ⟨epoch, round⟩) (hnew : (net node).blocks.get round = none) :
    Honest cfg order net (.insertBlock node (block epoch round)) := by
  have hnumbered : order.Numbered (block epoch round) (block epoch round).blockNumber := by
    rintro _ ⟨⟩
    exact ⟨h, rfl⟩
  refine ⟨?_, hnumbered, ?_⟩
  · intro l hl
    change l ∈ if _ then [_] else [] at hl
    split at hl
    · obtain rfl := List.mem_singleton.mp hl
      exact hnumbered
    · cases hl
  · intro p hp
    cases hnew.symm.trans hp

theorem events_honest {round : Nat} (h : order.ordered ⟨epoch, round⟩) :
    AlongRun (step cfg produced) (Honest cfg order) net (events (block epoch round)) := by
  have hnone {α : Type} {P : α → Prop} : ∀ l ∈ ([] : List α), P l := by simp
  refine ⟨?_, ⟨hnone, trivial⟩, ⟨hnone, ?_⟩, ⟨?_, trivial⟩, ?_, trivial⟩
  · exact honest_insertBlock (.inr (.inr rfl)) rfl
  · intro p hp
    obtain rfl := List.mem_singleton.mp hp
    intro hsuffix
    exact absurd hsuffix (by decide)
  · intro l hl
    obtain rfl := List.mem_singleton.mp hl
    rintro _ ⟨⟩
    exact ⟨h, rfl⟩
  · have hblocks (n : RandomnessNode) (answer : List RetrievedBlock) :
        (n.fastForwardSync answer).blocks = n.blocks := by
      unfold RandomnessNode.fastForwardSync
      split <;> rfl
    refine honest_insertBlock h ?_
    change Table.get (RandomnessNode.fastForwardSync _ _).blocks round = none
    rw [hblocks]
    rfl

end EpochSuffix

open EpochSuffix

attribute [local instance] BlockStorage.SmallTree.crypto

/-- The block of the suffix is given the randomness of the first block of the next epoch, by the
peer and then from the database. -/
theorem suffix_randomness_of_next_epoch : Function.Injective produced ∧
    AlongRun (RandomnessEvent.step cfg produced) (RandomnessEvent.Honest cfg order) net
      (events (block 1 2)) ∧
    (run (RandomnessEvent.step cfg produced) net (events (block 1 2))).1.map (·.2) =
      [[], [], [], [(block 1 2, produced ⟨2, 3⟩)], [(block 1 2, produced ⟨2, 3⟩)]] ∧
    produced ⟨2, 3⟩ ≠ produced (block 1 2).metadata := by
  exact ⟨produced_injective, events_honest (.inr (.inl rfl)), by decide, by decide⟩

/-- A block that stays gets its own randomness. -/
theorem randomness_own_iff_fetched : (events (block 2 3)).length = 5 ∧
    ∀ e ∈ (run (RandomnessEvent.step cfg produced) net (events (block 2 3))).1,
      ∀ a ∈ e.2, a.2 = produced a.1.metadata := by
  refine ⟨by decide, ?_⟩
  refine (randomness_own_iff cfg order produced_injective (fun _ => ⟨rfl, rfl⟩)
    (events_honest (.inr (.inr rfl)))).mpr ?_
  unfold RandomnessEvent.Spared
  decide

end Liquent
