import Liquent.BlockStorage.BlockNumbers
import Liquent.BlockStorage.CertifiedSync
import Liquent.Misc.Run

/-!
# The law of block numbers

A node inserts proposals, stores and appends blocks that peers sent with their numbers, sends blocks
to execution and recovers from its database.  As long as the numbers from peers are those of the
chain, every numbered block has a parent with the number below, all nodes give a block the same
number, and `init_block_number` does not panic.

The checks on responses do not establish this: the number of a retrieved block is not looked at, and
a page of a forward sync may leave out the number of a block and go on with the next one.
-/

namespace Liquent

open Misc

/-- A block as it arrives over the network: the deserializer drops the number. -/
def Block.received (b : Block) : Block := { b with blockNumber := none }

def RetrievedBlock.received (r : RetrievedBlock) : RetrievedBlock :=
  { r with block := r.block.received }

def BlockRetrievalResponse.received (r : BlockRetrievalResponse) : BlockRetrievalResponse :=
  { r with blocks := r.blocks.map RetrievedBlock.received }

def ForwardEpochSyncBatch.received (batch : ForwardEpochSyncBatch) : ForwardEpochSyncBatch :=
  { batch with records := batch.records.map fun r => { r with block := r.block.received } }

namespace NodeState

/-- A block that the node has, in memory or in the database. -/
def Holds (s : NodeState) (b : Block) : Prop :=
  (∃ id, s.blockOf id = some b) ∨ ∃ epoch id, s.db.getBlock epoch id = some b

/-- The node has numbered the block, in memory or in the database. -/
def HasNumber (s : NodeState) (id : HashValue) (n : Nat) : Prop :=
  (∃ b, s.blockOf id = some b ∧ b.blockNumber = some n) ∨
    ∃ epoch, s.db.blockNumbers.get (epoch, id) = some n

/-- Every numbered block has a parent numbered one less, unless the parent is unknown to the
node. -/
def ParentsNumbered [Crypto] (s : NodeState) : Prop :=
  ∀ b n, s.Holds b → b.isGenesisBlock = false → b.blockNumber = some n →
    ∀ parent, s.Holds parent → parent.id = b.parentId → ∃ m, s.HasNumber parent.id m ∧ n = m + 1

end NodeState

variable {p : PipelinedBlock} {b : Block}

namespace Chain

variable [Crypto] {c : Chain} {s : NodeState}

/-! ## What the invariant says -/

section

variable (hs : c.Numbered [] s)

include hs

theorem Numbered.hasNumber {id : HashValue} {n : Nat} (h : s.HasNumber id n) : n = c.number id := by
  rcases h with ⟨b, hb, hn⟩ | ⟨epoch, hn⟩
  · obtain ⟨rfl, hmem⟩ := hs.of_blockOf hb
    exact hs.number b hmem n hn
  · exact (hs.numbers _ (Table.mem_of_get hn)).1

theorem Numbered.saved_or_genesis {id : HashValue} {n : Nat} (h : s.HasNumber id n) :
    c.genesis id ∨ (c.epoch id, id) ∈ s.db.blockNumbers.keys := by
  rcases h with ⟨b, hb, hn⟩ | ⟨epoch, hn⟩
  · obtain ⟨rfl, hmem⟩ := hs.of_blockOf hb
    rcases hs.heap b hmem with hhas | hgenesis
    · rw [← hhas.epoch]
      exact .inr ((hs.saved b hmem hhas (by simp [hn])).resolve_right List.not_mem_nil)
    · exact .inl hgenesis.genesis
  · right
    obtain ⟨-, hepoch, -⟩ := hs.numbers _ (Table.mem_of_get hn)
    rw [← hepoch]
    exact Table.mem_keys_iff_get.mpr ⟨n, hn⟩

/-- A block that the node has is one of the chain; a genesis block is in memory. -/
theorem Numbered.holds (h : s.Holds b) : c.Has b ∨ (c.IsGenesis b ∧ s.blockOf b.id = some b) := by
  rcases h with ⟨id, hb⟩ | ⟨epoch, id, hb⟩
  · obtain ⟨rfl, hmem⟩ := hs.of_blockOf hb
    exact (hs.heap b hmem).imp_right fun hgenesis => ⟨hgenesis, hb⟩
  · obtain ⟨stored, hstored, rfl⟩ := Option.map_eq_some_iff.mp hb
    obtain ⟨-, -, hhas⟩ := hs.stored _ (Table.mem_of_get hstored)
    exact .inl (hhas.of_blockData rfl)

theorem Numbered.hasNumber_of_holds {n : Nat} (h : s.Holds b)
    (hn : b.blockNumber = some n) : s.HasNumber b.id n := by
  rcases h with ⟨id, hb⟩ | ⟨epoch, id, hb⟩
  · obtain ⟨rfl, -⟩ := hs.of_blockOf hb
    exact .inl ⟨b, hb, hn⟩
  · obtain ⟨stored, hstored, rfl⟩ := Option.map_eq_some_iff.mp hb
    obtain ⟨hkey, hnone, -⟩ := hs.stored _ (Table.mem_of_get hstored)
    have hid : id = stored.id := congrArg Prod.snd hkey
    have hread : stored.blockNumber.or (s.db.blockNumbers.get (epoch, id)) = some n := hn
    have hunnumbered : stored.blockNumber = none := hnone
    rw [hunnumbered, Option.none_or, hid] at hread
    exact .inr ⟨epoch, hread⟩

theorem Numbered.parentsNumbered : s.ParentsNumbered := by
  intro b n hb hgenesis hn parent hparent hid
  have hnumber := hs.hasNumber_of_holds hb hn
  have hhas := (hs.holds hb).resolve_right fun hbad => by
    simp [hbad.1.isGenesisBlock] at hgenesis
  have hnext : n = c.number parent.id + 1 := by
    rw [hs.hasNumber hnumber, c.number_eq _ hhas.notGenesis, hid, hhas.parent]
  refine ⟨c.number parent.id, ?_, hnext⟩
  -- a genesis parent is in memory with its number; any other parent has its number stored
  rcases hs.holds hparent with hphas | ⟨hpgenesis, hmemory⟩
  · have hkey := (hs.saved_or_genesis hnumber).resolve_left hhas.notGenesis
    have hpid : c.parent b.id = parent.id := by rw [hid, hhas.parent]
    have hknown : (c.epoch b.id, parent.id) ∈ s.db.blockNumbers.keys := by
      rw [← hpid]
      refine ((hs.parents _ (.inl hkey)).resolve_left ?_).resolve_right List.not_mem_nil
      rw [hpid]
      exact hphas.notGenesis
    obtain ⟨m, hm⟩ := Table.mem_keys_iff_get.mp hknown
    have hvalue : m = c.number parent.id := (hs.numbers _ (Table.mem_of_get hm)).1
    exact .inr ⟨c.epoch b.id, by rw [hm, hvalue]⟩
  · exact .inl ⟨parent, hmemory, hpgenesis.number⟩

end

/-! ## Insertion -/

/-- A block that may enter memory: one of the chain, whose number, if it has one, is stored. -/
structure Fits (c : Chain) (s : NodeState) (b : Block) : Prop where
  block : c.Has b ∨ c.IsGenesis b
  number : ∀ n, b.blockNumber = some n → n = c.number b.id
  saved : c.Has b → b.blockNumber.isSome = true → (b.epoch, b.id) ∈ s.db.blockNumbers.keys

/-- Memory gets one more block, and references to the old blocks or to it. -/
theorem Numbered.grow (hs : c.Numbered [] s) (hp : Fits c s p.block) {tree : BlockTree}
    (htree : ∀ id ref, tree.blocks.get id = some ref →
      (id = p.block.id ∧ ref = s.heap.length) ∨ s.tree.blocks.get id = some ref)
    (hroot : (tree.orderedRootId = s.tree.orderedRootId ∧ p.block.id ≠ s.tree.orderedRootId) ∨
      (p.block.blockNumber.isSome = true ∧
        tree.blocks.get tree.orderedRootId = some s.heap.length)) :
    c.Numbered [] { s with heap := s.heap ++ [p], tree := tree } := by
  have hlen : s.blocks.length = s.heap.length := by simp [NodeState.blocks]
  have hblocks : NodeState.blocks { s with heap := s.heap ++ [p], tree := tree } =
      s.blocks ++ [p.block] := by simp [NodeState.blocks]
  have hlast : (s.blocks ++ [p.block])[s.heap.length]? = some p.block := by
    rw [← hlen]
    simp
  have hold : ∀ (ref : BlockRef) (b : Block), s.blocks[ref]? = some b →
      (s.blocks ++ [p.block])[ref]? = some b := by
    intro ref b hb
    rw [List.getElem?_append_left (List.getElem?_eq_some_iff.mp hb).1]
    exact hb
  refine ⟨?_, ?_, ?_, ?_, ?_, hs.stored, hs.numbers, hs.pendingNumbers, hs.parents, hs.panic⟩
  · rw [hblocks]
    exact forall_mem_snoc hs.heap hp.block
  · rw [hblocks]
    exact forall_mem_snoc hs.number hp.number
  · rw [hblocks]
    exact forall_mem_snoc hs.saved fun hhas hsome => .inl (hp.saved hhas hsome)
  · rw [hblocks]
    intro id ref hget
    rcases htree id ref hget with ⟨rfl, rfl⟩ | hget
    · exact ⟨p.block, hlast, rfl⟩
    · obtain ⟨b, hb, hid⟩ := hs.tree id ref hget
      exact ⟨b, hold ref b hb, hid⟩
  · intro b hb
    have hb' : (tree.blocks.get tree.orderedRootId).bind ((s.blocks ++ [p.block])[·]?) =
      some b := by
      rw [← hblocks]
      exact hb
    obtain ⟨ref, hget, href⟩ := Option.bind_eq_some_iff.mp hb'
    rcases hroot with ⟨hsame, hne⟩ | ⟨hsome, hnew⟩
    · rw [hsame] at hget
      rcases htree _ ref hget with ⟨hid, -⟩ | hget'
      · exact absurd hid.symm hne
      · obtain ⟨b₀, hb₀, -⟩ := hs.tree _ ref hget'
        obtain rfl : b = b₀ := Option.some.inj (href.symm.trans (hold ref b₀ hb₀))
        apply hs.root
        simp [NodeState.blockOf, hget', hb₀]
    · obtain rfl : ref = s.heap.length := Option.some.inj (hget.symm.trans hnew)
      obtain rfl : b = p.block := Option.some.inj (href.symm.trans hlast)
      exact hsome

end Chain

variable {s : NodeState}

namespace BlockStore

variable [Crypto] {c : Chain}

theorem insertIntoTree_triple (cfg : NodeConfig) {P Q : NodeState → Prop} (hE : ∀ s, P s → Q s)
    (hgrow : ∀ s, P s → Q { s with
      heap := s.heap ++ [p]
      tree := { s.tree with blocks := s.tree.blocks.put p.id s.heap.length } }) :
    Triple P (insertIntoTree cfg p) (fun _ s => Q s ∧ True) Q := by
  refine Triple.bind triple_get fun s => ?_
  refine Triple.bind (triple_check fun t ht => hE t ht.2) fun _ => ?_
  refine Triple.bind (Q := fun _ => Q) (triple_modify fun t ht => hgrow t ht.2.2) fun _ => ?_
  exact triple_pure fun t ht => ⟨ht, trivial⟩

theorem numbered_insert (hs : c.Numbered [] s)
    (hp : Chain.Fits c s p.block) (hroot : p.block.id ≠ s.tree.orderedRootId) :
    c.Numbered [] { s with
      heap := s.heap ++ [p]
      tree := { s.tree with blocks := s.tree.blocks.put p.id s.heap.length } } := by
  refine hs.grow hp ?_ (.inl ⟨rfl, hroot⟩)
  intro id ref hget
  have hput : (s.tree.blocks.put p.id s.heap.length).get id = some ref := hget
  rw [Table.get_put] at hput
  by_cases hid : id = p.id
  · rw [if_pos hid] at hput
    exact .inl ⟨hid, (Option.some.inj hput).symm⟩
  · rw [if_neg hid] at hput
    exact .inr hput

/-- The invariant before an insertion without a write: the ordered root is in memory, the numbers of
the blocks are stored. -/
structure Ready (c : Chain) (blocks : List Block) (s : NodeState) : Prop where
  numbered : c.Numbered [] s
  root : (s.tree.blocks.get s.tree.orderedRootId).isSome = true
  fits : ∀ b ∈ blocks, Chain.Fits c s b

variable {blocks : List Block}

theorem Ready.updateBlock (h : Ready c blocks s)
    (ref : BlockRef) {f : PipelinedBlock → PipelinedBlock} (hf : ∀ p, (f p).block = p.block) :
    Ready c blocks (s.updateBlock ref f) :=
  ⟨(updateBlock_sameNumbers s ref hf).numbered h.numbered, h.root, fun b hb => { h.fits b hb with }⟩

theorem Ready.withDb (h : Ready c blocks s)
    {f : ConsensusDb → ConsensusDb} (hblocks : (f s.db).blocks = s.db.blocks)
    (hnumbers : (f s.db).blockNumbers = s.db.blockNumbers) : Ready c blocks (s.withDb f) := by
  have hsame : SameNumbers s (s.withDb f) :=
    ⟨hblocks, hnumbers, rfl, fun _ _ hget => hget, rfl, rfl⟩
  refine ⟨hsame.numbered h.numbered, h.root, fun b hb => ?_⟩
  have hsaved := (h.fits b hb).saved
  rw [← hnumbers] at hsaved
  exact { h.fits b hb with saved := hsaved }

theorem insertBlock_ready (cfg : NodeConfig) (hb : b ∈ blocks) :
    Keeps (Ready c blocks) (insertBlock cfg b true) fun _ => True := by
  refine Triple.bind triple_get fun s => ?_
  cases hget : s.tree.blocks.get b.id with
  | some ref =>
    simp only
    refine Triple.bind (Q := fun _ => Ready c blocks) (triple_modify fun t ht => ?_)
      fun _ => triple_pure fun t ht => ⟨ht, trivial⟩
    exact ht.2.updateBlock ref (trySetRandomnessFromDb_block _ _ _)
  | none =>
    simp only [↓reduceIte]
    have hblock : (trySetRandomnessFromDb cfg s.db b (PipelinedBlock.newOrdered b)).block = b :=
      trySetRandomnessFromDb_block ..
    generalize trySetRandomnessFromDb cfg s.db b (PipelinedBlock.newOrdered b) = p at hblock ⊢
    refine insertIntoTree_triple cfg (fun t ht => ht.2) ?_
    rintro t ⟨rfl, hs⟩
    subst hblock
    have hroot : p.block.id ≠ s.tree.orderedRootId := by
      intro hid
      have hsome := hs.root
      simp [← hid, hget] at hsome
    refine ⟨numbered_insert hs.numbered (hs.fits _ hb) hroot, ?_, ?_⟩
    · have hput := Table.get_put_of_ne (t := s.tree.blocks) (v := s.heap.length) hroot.symm
      exact (congrArg Option.isSome hput).trans hs.root
    · exact fun b' hb' => { hs.fits b' hb' with }

/-- A proposal has no number yet. -/
theorem insertBlock_keeps (cfg : NodeConfig) (hb : c.Has b) (hnumber : b.blockNumber = none) :
    Keeps (c.Numbered []) (insertBlock cfg b false) fun _ => True := by
  refine Triple.bind triple_get fun s => ?_
  cases hget : s.tree.blocks.get b.id with
  | some ref =>
    simp only
    refine Triple.bind (Q := fun _ => c.Numbered []) (triple_modify fun t ht => ?_)
      fun _ => triple_pure fun t ht => ⟨ht, trivial⟩
    exact (updateBlock_sameNumbers t ref (trySetRandomnessFromDb_block _ _ _)).numbered ht.2
  | none =>
    simp only [Bool.false_eq_true, ↓reduceIte]
    refine Triple.bind (triple_check fun t ht => ht.2) fun root => ?_
    refine Triple.bind (triple_check fun t ht => ht.2.2) fun _ => ?_
    -- the root was found in the tree, and the block was not
    refine Triple.bind (Q := fun _ t => c.Numbered [] t ∧ b.id ≠ t.tree.orderedRootId)
      (triple_modify ?_) fun _ => ?_
    · rintro t ⟨-, hroot, rfl, hs⟩
      refine ⟨numbered_saveTree hs (List.forall_mem_singleton.mpr hb) [], ?_⟩
      intro hid
      unfold rootBlock NodeState.getBlock at hroot
      simp [show s.tree.blocks.get s.tree.orderedRootId = none from hid ▸ hget] at hroot
    · have hblock : (trySetRandomnessFromDb cfg s.db b (PipelinedBlock.newOrdered b)).block = b :=
        trySetRandomnessFromDb_block ..
      generalize trySetRandomnessFromDb cfg s.db b (PipelinedBlock.newOrdered b) = p at hblock ⊢
      subst hblock
      refine insertIntoTree_triple cfg (fun t ht => ht.1) ?_
      rintro t ⟨hs, hroot⟩
      refine numbered_insert hs ⟨.inl hb, ?_, ?_⟩ hroot
      · intro n hn
        exact absurd (hn.symm.trans hnumber) (by simp)
      · intro _ hsome
        simp [hnumber] at hsome

end BlockStore

/-! ## Blocks from peers -/

/-- The blocks of a sync have the numbers of the chain, and the parent of a numbered block is
numbered, already or in the same sync. -/
structure Chain.Follows [Crypto] (c : Chain) (s : NodeState) (blocks : List RetrievedBlock) :
    Prop where
  has : ∀ r ∈ blocks, c.Has r.block
  number : ∀ r ∈ blocks, ∀ n, r.blockNumber = some n → n = c.number r.block.id
  parents : ∀ r ∈ blocks, r.blockNumber.isSome = true → c.genesis r.block.parentId ∨
    (∃ m, s.HasNumber r.block.parentId m) ∨
      ∃ r' ∈ blocks, r'.block.id = r.block.parentId ∧ r'.blockNumber.isSome = true
  root : (s.tree.blocks.get s.tree.orderedRootId).isSome = true

namespace SyncManager

open BlockStore

variable [Crypto] {c : Chain} {s : NodeState} {blocks : List RetrievedBlock}

theorem mem_numbersOf {e : Nat × Nat × HashValue} (h : e ∈ numbersOf blocks) :
    ∃ r ∈ blocks, ∃ n, r.blockNumber = some n ∧ e = (r.block.epoch, n, r.block.id) := by
  obtain ⟨r, hr, hsome⟩ := List.mem_filterMap.mp h
  obtain ⟨n, hn, rfl⟩ := Option.map_eq_some_iff.mp hsome
  exact ⟨r, hr, n, hn, rfl⟩

theorem key_mem_numbersOf {r : RetrievedBlock} (hr : r ∈ blocks)
    (hsome : r.blockNumber.isSome = true) :
    (r.block.epoch, r.block.id) ∈ (numbersOf blocks).map numberKey := by
  obtain ⟨n, hn⟩ := Option.isSome_iff_exists.mp hsome
  refine List.mem_map.mpr ⟨(r.block.epoch, n, r.block.id), ?_, rfl⟩
  exact List.mem_filterMap.mpr ⟨r, hr, by rw [hn]; rfl⟩

/-- The numbers of a sync that follows the chain may be stored. -/
theorem numbered_numbersOf (hs : c.Numbered [] s) (h : c.Follows s blocks) :
    c.Numbered (numbersOf blocks) s := by
  refine ⟨hs.heap, hs.number, ?_, hs.tree, hs.root, hs.stored, hs.numbers, ?_, ?_, hs.panic⟩
  · intro b hb hhas hsome
    exact .inl ((hs.saved b hb hhas hsome).resolve_right List.not_mem_nil)
  · intro e he
    obtain ⟨r, hr, n, hn, rfl⟩ := mem_numbersOf he
    exact ⟨h.number r hr n hn, (h.has r hr).epoch, (h.has r hr).notGenesis⟩
  · intro key hkey
    rcases hkey with hkey | hkey
    · refine (hs.parents key (.inl hkey)).imp_right fun hstored => ?_
      exact .inl (hstored.resolve_right List.not_mem_nil)
    · obtain ⟨e, he, rfl⟩ := List.mem_map.mp hkey
      obtain ⟨r, hr, n, hn, rfl⟩ := mem_numbersOf he
      have hhas := h.has r hr
      have hepoch : c.epoch (c.parent r.block.id) = r.block.epoch := by
        rw [c.epoch_parent _ hhas.notGenesis, ← hhas.epoch]
      change c.genesis (c.parent r.block.id) ∨
        (r.block.epoch, c.parent r.block.id) ∈ s.db.blockNumbers.keys ∨
          (r.block.epoch, c.parent r.block.id) ∈ (numbersOf blocks).map numberKey
      rw [← hhas.parent] at hepoch ⊢
      rcases h.parents r hr (by simp [hn]) with hgenesis | ⟨m, hm⟩ | ⟨r', hr', hid, hsome⟩
      · exact .inl hgenesis
      · rw [← hepoch]
        exact (hs.saved_or_genesis hm).imp_right Or.inl
      · right
        right
        have hkey' := key_mem_numbersOf hr' hsome
        rw [(h.has r' hr').epoch, hid, hepoch] at hkey'
        exact hkey'

theorem ready_saveTree (hs : c.Numbered [] s) (h : c.Follows s blocks)
    (hreceived : ∀ r ∈ blocks, r.block.blockNumber = none) (quorumCerts : List QuorumCert) :
    Ready c (blocks.map RetrievedBlock.numbered)
      (s.withDb (·.saveTree (blocks.map (·.block)) quorumCerts (numbersOf blocks))) := by
  refine ⟨numbered_saveTree (numbered_numbersOf hs h) (List.forall_mem_map.mpr h.has) quorumCerts,
    h.root, List.forall_mem_map.mpr fun r hr => ?_⟩
  have hdata : r.numbered.blockData = r.block.blockData := by
    unfold RetrievedBlock.numbered
    cases r.blockNumber with
    | none | some n => rfl
  have hnumber : r.numbered.blockNumber = r.blockNumber := by
    have hnone := hreceived r hr
    unfold RetrievedBlock.numbered
    cases r.blockNumber with
    | none => exact hnone
    | some n => simp [Block.setBlockNumber, hnone]
  have hid : r.numbered.id = r.block.id := congrArg BlockData.hash hdata
  have hepoch : r.numbered.epoch = r.block.epoch := congrArg BlockData.epoch hdata
  refine ⟨.inl ((h.has r hr).of_blockData hdata), ?_, ?_⟩
  · intro n hn
    rw [hid]
    exact h.number r hr n (hnumber ▸ hn)
  · intro _ hsome
    rw [hnumber] at hsome
    rw [hepoch, hid]
    unfold NodeState.withDb ConsensusDb.saveTree
    rw [Table.mem_keys_putAll, List.map_map]
    exact .inl (key_mem_numbersOf hr hsome)

theorem saveBlocks_ready (hreceived : ∀ r ∈ blocks, r.block.blockNumber = none)
    (quorumCerts : List QuorumCert) :
    Triple (fun t => c.Numbered [] t ∧ c.Follows t blocks) (saveBlocks blocks quorumCerts)
      (fun _ => Ready c (blocks.map RetrievedBlock.numbered)) (c.Numbered []) := by
  refine Triple.bind (triple_check fun t ht => ht.1) fun _ => ?_
  refine Triple.bind (Q := fun _ => Ready c (blocks.map RetrievedBlock.numbered))
    (triple_modify fun t ht => ready_saveTree ht.2.1 ht.2.2 hreceived quorumCerts) fun _ => ?_
  refine Triple.bind (triple_check fun t ht => ht.numbered) fun values => ?_
  refine triple_modify fun t ht => ?_
  exact ht.2.withDb rfl rfl

variable [LedgerApi]

theorem insertCerts_keeps (cfg : NodeConfig) (quorumCerts : List QuorumCert) :
    Keeps (c.Numbered []) (do
      quorumCerts.forM fun qc => orSkip (insertSingleQuorumCert qc true)
      orSkip (recoverBlocksChecked cfg)) fun _ => True := by
  refine Keeps.bind (Q := fun _ => True) ?_ fun _ _ =>
    keeps_orSkip (recoverBlocksChecked_keeps cfg)
  refine keeps_forM fun qc _ => keeps_orSkip (Q := fun _ => True) ?_
  exact (insertSingleQuorumCert_sameNumbers qc true).keeps fun _ _ hsame ht => hsame.numbered ht

variable {ready : List Block}

section

variable (cfg : NodeConfig) (hblocks : ∀ r ∈ blocks, r.numbered ∈ ready)
  (quorumCerts : List QuorumCert)

include cfg hblocks quorumCerts

theorem appendBlocksForSync_numbered :
    Triple (Ready c ready) (appendBlocksForSync cfg blocks quorumCerts)
      (fun _ t => c.Numbered [] t ∧ True) (c.Numbered []) := by
  refine Triple.bind (Q := fun _ t => c.Numbered [] t ∧ True) ?_ fun _ => ?_
  · refine Keeps.forget (I := Ready c ready) ?_ fun _ ht => ht.numbered
    exact keeps_forM fun r hr => keeps_orSkip (insertBlock_ready cfg (hblocks r hr))
  · exact fun t ht => insertCerts_keeps cfg quorumCerts t ht.1

theorem appendBlocksForSyncChecked_numbered :
    Triple (Ready c ready) (appendBlocksForSyncChecked cfg blocks quorumCerts)
      (fun _ t => c.Numbered [] t ∧ True) (c.Numbered []) := by
  refine Triple.bind (Q := fun _ t => c.Numbered [] t ∧ True) ?_ fun _ => ?_
  · refine Keeps.forget (I := Ready c ready) ?_ fun _ ht => ht.numbered
    exact keeps_forM fun r hr =>
      (insertBlock_ready cfg (hblocks r hr)).bind fun _ _ => keeps_pure trivial
  · intro t ht
    refine Keeps.bind (Q := fun _ => True) ?_ (fun _ _ => recoverBlocksChecked_keeps cfg) t ht.1
    refine keeps_forM fun qc _ => ?_
    exact (insertSingleQuorumCert_sameNumbers qc true).keeps fun _ _ hsame ht' => hsame.numbered ht'

end

/-! ## Recovery from the database -/

omit [LedgerApi] in
/-- Blocks that are read from the database may enter memory. -/
theorem getData_fits (hs : c.Numbered [] s) {latest epoch : Nat}
    {data : List Block × List QuorumCert}
    (h : s.db.getData latest epoch = .ok data) : ∀ b ∈ data.1, Chain.Fits c s b := by
  unfold ConsensusDb.getData at h
  obtain ⟨⟨startRound, startId⟩, -, hdata⟩ := except_bind_ok_iff.mp h
  obtain rfl := except_pure_ok_iff.mp hdata
  intro b hb
  obtain ⟨stored, hstored, rfl⟩ := List.mem_map.mp hb
  obtain ⟨e, he, rfl⟩ := List.mem_map.mp hstored
  obtain ⟨hmem, hfilter⟩ := List.mem_filter.mp he
  obtain ⟨hkey, hnone, hhas⟩ := hs.stored e hmem
  have hepoch : e.2.epoch = epoch := by
    have hfirst : e.1.1 = e.2.epoch := congrArg Prod.fst hkey
    have hof := (of_decide_eq_true hfilter).1.1
    rw [← hfirst]
    exact hof
  -- a number that was read is an entry of the table of numbers
  have hentry : ∀ n, e.2.blockNumber.or ((s.db.numbersFrom latest epoch).get (epoch, e.2.id)) =
      some n → ((epoch, e.2.id), n) ∈ s.db.blockNumbers := by
    intro n hn
    rw [hnone, Option.none_or] at hn
    exact List.mem_of_mem_filter (List.mem_of_mem_filter (Table.mem_of_get hn))
  refine ⟨.inl (hhas.of_blockData rfl), ?_, ?_⟩
  · intro n hn
    exact (hs.numbers _ (hentry n hn)).1
  · intro _ hsome
    obtain ⟨n, hn⟩ := Option.isSome_iff_exists.mp hsome
    have hmem' := hentry n hn
    rw [← hepoch] at hmem'
    exact List.mem_map.mpr ⟨_, hmem', rfl⟩

/-- A root for recovery has its number, which is that of the chain for the genesis block of a ledger
info. -/
structure RootNumbered (c : Chain) (root : RootInfo) : Prop where
  number : root.block.blockNumber.isSome = true
  genesis : root.block.isGenesisBlock = true → c.IsGenesis root.block

omit [LedgerApi] in
theorem start_fits (epoch : Nat) :
    Triple (fun t => c.Numbered [] t ∧ ∀ e, t.env.roots.head? = some e → RootNumbered c e.1)
      (start epoch)
      (fun r t => c.Numbered [] t ∧ r.1.block.blockNumber.isSome = true ∧
        Chain.Fits c t r.1.block ∧ ∀ b ∈ r.2.1, Chain.Fits c t b)
      (c.Numbered []) := by
  refine Triple.bind triple_get fun s => ?_
  refine Triple.bind (Q := fun _ t => t =
    { s with env := { s.env with roots := s.env.roots.tail } } ∧
    c.Numbered [] s ∧ ∀ e, s.env.roots.head? = some e → RootNumbered c e.1)
    (triple_modify fun t ht => ?_) fun _ => ?_
  · obtain ⟨rfl, ht⟩ := ht
    exact ⟨rfl, ht⟩
  · have hsame : SameNumbers s { s with env := { s.env with roots := s.env.roots.tail } } :=
      ⟨rfl, rfl, rfl, fun _ _ h => h, rfl, rfl⟩
    cases hhead : s.env.roots.head? with
    | none =>
      refine triple_throw fun t ht => ?_
      obtain ⟨rfl, hs, -⟩ := ht
      exact hsame.numbered hs
    | some e =>
      obtain ⟨root, latest⟩ := e
      simp only
      refine Triple.bind (triple_check fun t ht => ?_) fun data => ?_
      · obtain ⟨rfl, hs, -⟩ := ht
        exact hsame.numbered hs
      refine Triple.bind (triple_check fun t ht => ?_) fun _ => triple_pure ?_
      · obtain ⟨-, rfl, hs, -⟩ := ht
        exact hsame.numbered hs
      rintro t ⟨hroot, hdata, rfl, hs, hroots⟩
      have hfits := getData_fits hs hdata
      obtain ⟨hnumber, hgenesis⟩ := hroots _ rfl
      refine ⟨hsame.numbered hs, hnumber, ?_, ?_⟩
      · rcases ensure_ok_iff.mp hroot with hstored | hmade
        · exact { hfits _ hstored.1 with }
        · have hgen := hgenesis hmade
          refine ⟨.inr hgen, ?_, fun hhas => absurd hgen.genesis hhas.notGenesis⟩
          intro n hn
          exact Option.some.inj (hn.symm.trans hgen.number)
      · exact fun b hb => { hfits b hb with }

omit [LedgerApi] in
theorem plantRoot_ready {root : RootInfo} (hnumber : root.block.blockNumber.isSome = true)
    (blocks : List Block) :
    Triple (fun t => c.Numbered [] t ∧ Chain.Fits c t root.block ∧ ∀ b ∈ blocks, Chain.Fits c t b)
      (plantRoot root) (fun _ => Ready c blocks) (c.Numbered []) := by
  refine Triple.bind (triple_check fun t ht => ht.1) fun _ => triple_modify ?_
  rintro t ⟨-, hs, hroot, hblocks⟩
  have hget : ∀ id ref, Table.get [(root.block.id, t.heap.length)] id = some ref →
      id = root.block.id ∧ ref = t.heap.length := by
    intro id ref hget
    rw [Table.get_cons] at hget
    by_cases hid : root.block.id = id
    · rw [if_pos hid] at hget
      exact ⟨hid.symm, (Option.some.inj hget).symm⟩
    · rw [if_neg hid] at hget
      cases hget
  have hself : Table.get [(root.block.id, t.heap.length)] root.block.id = some t.heap.length := by
    rw [Table.get_cons, if_pos rfl]
  refine ⟨hs.grow hroot (fun id ref h => .inl (hget id ref h)) (.inr ⟨hnumber, hself⟩), ?_, ?_⟩
  · exact congrArg Option.isSome hself
  · exact fun b hb => { hblocks b hb with }

theorem rebuild_numbered (cfg : NodeConfig) {root : RootInfo}
    (hnumber : root.block.blockNumber.isSome = true) (blocks : List Block)
    (quorumCerts : List QuorumCert) :
    Triple (fun t => c.Numbered [] t ∧ Chain.Fits c t root.block ∧ ∀ b ∈ blocks, Chain.Fits c t b)
      (rebuild cfg root blocks quorumCerts) (fun _ t => c.Numbered [] t ∧ True)
      (c.Numbered []) := by
  refine Triple.bind (plantRoot_ready hnumber blocks) fun _ => ?_
  refine Triple.bind (Q := fun _ t => c.Numbered [] t ∧ True) ?_ fun _ => ?_
  · refine Keeps.forget (I := Ready c blocks) ?_ fun _ ht => ht.numbered
    refine keeps_forM fun b hb => keeps_orSkip (insertBlock_ready cfg ?_)
    exact (List.mem_insertionSort _).mp (List.mem_of_mem_filter hb)
  · exact fun t ht => insertCerts_keeps cfg _ t ht.1

/-! ## Pages of a forward sync -/

variable {batch : ForwardEpochSyncBatch}

omit [LedgerApi] in
theorem batch_epoch {v : ValidatorVerifier} {now : Nat}
    {request : ForwardEpochSyncFetchRequest} (h : batch.verify request v now = .ok ()) :
    ∀ r ∈ batch.records, r.block.epoch = batch.epoch := by
  simp only [ForwardEpochSyncBatch.verify, except_bind_ok_iff, ensure_ok_iff] at h
  obtain ⟨-, hbatch, -, -, -, -, -, -, -, -, number, hrecords, -⟩ := h
  rw [hbatch]
  exact fun r hr => (verifyRecords_spec hrecords r hr).1

omit [LedgerApi] in
theorem saveBatch_ready (hepoch : ∀ r ∈ batch.records, r.block.epoch = batch.epoch)
    (hreceived : ∀ r ∈ batch.records, r.block.blockNumber = none) :
    Triple (fun t => c.Numbered [] t ∧
        c.Follows t (batch.records.map ForwardEpochSyncRecord.retrieved))
      (saveBatch batch)
      (fun _ => Ready c ((batch.records.map ForwardEpochSyncRecord.retrieved).map
        RetrievedBlock.numbered)) (c.Numbered []) := by
  have hnumbers : (batch.records.filterMap fun r =>
      r.blockNumber.map fun number => (batch.epoch, number, r.block.id)) =
        numbersOf (batch.records.map ForwardEpochSyncRecord.retrieved) := by
    unfold numbersOf
    rw [List.filterMap_map]
    refine List.filterMap_congr fun r hr => ?_
    simp only [Function.comp_apply, ForwardEpochSyncRecord.retrieved, hepoch r hr]
  have hblocks : batch.records.map (·.block) =
      (batch.records.map ForwardEpochSyncRecord.retrieved).map (·.block) := by
    rw [List.map_map]
    rfl
  unfold saveBatch
  simp only [hnumbers]
  rw [hblocks]
  refine Triple.bind (Q := fun _ => Ready c ((batch.records.map
    ForwardEpochSyncRecord.retrieved).map RetrievedBlock.numbered))
    (triple_modify fun t ht => ready_saveTree ht.1 ht.2 (List.forall_mem_map.mpr hreceived) _)
    fun _ => triple_modify fun t ht => ht.withDb rfl rfl

/-- The ledger infos of a page touch neither blocks nor numbers. -/
theorem persistLedgerInfos_ready (lis : List LedgerInfoWithSignatures) :
    Keeps (Ready c ready) (persistLedgerInfos lis) fun _ => True := by
  have hput : ∀ (lis : List LedgerInfoWithSignatures) (db : ConsensusDb),
      (db.putLedgerInfos lis).blocks = db.blocks ∧
        (db.putLedgerInfos lis).blockNumbers = db.blockNumbers := by
    intro lis
    induction lis with
    | nil => exact fun db => ⟨rfl, rfl⟩
    | cons li rest ih => exact fun db => ih (db.putLedgerInfo li)
  unfold persistLedgerInfos
  split
  · exact keeps_pure trivial
  · refine (keeps_modify fun t ht => ?_).bind fun _ _ => keeps_modify fun t ht => ht.withDb rfl rfl
    exact ht.withDb (hput lis t.db).1 (hput lis t.db).2

theorem persistBatch_numbered (cfg : NodeConfig)
    (hepoch : ∀ r ∈ batch.records, r.block.epoch = batch.epoch)
    (hreceived : ∀ r ∈ batch.records, r.block.blockNumber = none) :
    Triple (fun t => c.Numbered [] t ∧
        c.Follows t (batch.records.map ForwardEpochSyncRecord.retrieved))
      (persistBatch cfg batch) (fun _ t => c.Numbered [] t ∧ True) (c.Numbered []) := by
  refine Triple.bind (saveBatch_ready hepoch hreceived) fun _ => ?_
  refine Triple.bind (Q := fun _ => Ready c ((batch.records.map
    ForwardEpochSyncRecord.retrieved).map RetrievedBlock.numbered)) ?_ fun _ => ?_
  · exact Triple.weaken (persistLedgerInfos_ready batch.ledgerInfos) (fun _ ht => ht)
      (fun _ _ ht => ht.1) fun _ ht => ht.numbered
  · exact appendBlocksForSyncChecked_numbered cfg (fun r hr => List.mem_map_of_mem hr) _

end SyncManager

/-! ## Runs -/

/-- An operation of the block store. -/
inductive StoreOp where
  /-- A proposal is inserted. -/
  | proposal (block : Block)
  /-- Blocks that a peer sent are stored and, unless the tree will be rebuilt, appended. -/
  | retrieved (request : BlockRetrievalRequest) (now : Nat) (response : BlockRetrievalResponse)
    (quorumCerts : List QuorumCert) (append : Bool)
  /-- A page of a forward sync is stored and appended. -/
  | forward (request : ForwardEpochSyncFetchRequest) (now : Nat) (batch : ForwardEpochSyncBatch)
  | sendForExecution (finalityProof : LedgerInfoWithSignatures)
  /-- The tree is rebuilt from the database. -/
  | recover (epoch : Nat)

/-- An operation, with what the environment does meanwhile. -/
structure StoreStep where
  op : StoreOp
  env : Environment := {}

namespace StoreOp

open BlockStore SyncManager

variable [Crypto] [LedgerApi]

def apply (cfg : NodeConfig) : StoreOp → Sync Unit
  | proposal block => do
    let _ ← insertBlock cfg block.received false
  | retrieved request now response quorumCerts append => do
    let accepted ← check (requestBlock cfg.validators request now response.received)
    saveBlocks accepted.blocks quorumCerts
    if append then appendBlocksForSync cfg accepted.blocks.reverse quorumCerts.reverse else pure ()
  | forward request now batch => do
    check (batch.received.verify request cfg.validators now)
    persistBatch cfg batch.received
  | sendForExecution finalityProof => sendOrdered cfg finalityProof
  | recover epoch => do
    let (root, blocks, quorumCerts) ← start epoch
    rebuild cfg root blocks quorumCerts

end StoreOp

namespace StoreStep

open BlockStore SyncManager

variable [Crypto]

/-- The operation follows the chain: its blocks are of the chain, their numbers are those of the
chain without a gap below, and a recovered root has its number. -/
def Follows (c : Chain) (s : NodeState) (step : StoreStep) : Prop :=
  match step.op with
  | .proposal block => c.Has block
  | .retrieved _ _ response _ _ => c.Follows s response.blocks
  | .forward _ _ batch => c.Follows s (batch.records.map ForwardEpochSyncRecord.retrieved)
  | .sendForExecution _ => True
  | .recover _ => ∀ e, step.env.roots.head? = some e → RootNumbered c e.1

variable [LedgerApi]

/-- A node that has panicked does nothing more. -/
def next (cfg : NodeConfig) (s : NodeState) (step : StoreStep) : Unit × NodeState :=
  ((), if s.panic.isSome then s else finalState (step.op.apply cfg { s with env := step.env }))

end StoreStep

section Run

open BlockStore SyncManager

variable [Crypto] {c : Chain}

/-- Whether blocks follow the chain does not depend on numbers that the network drops. -/
theorem Chain.Follows.received {blocks : List RetrievedBlock}
    (h : c.Follows s blocks) : c.Follows s (blocks.map RetrievedBlock.received) := by
  refine ⟨List.forall_mem_map.mpr fun r hr => (h.has r hr).of_blockData rfl,
    List.forall_mem_map.mpr h.number, List.forall_mem_map.mpr fun r hr hsome => ?_, h.root⟩
  refine (h.parents r hr hsome).imp_right (Or.imp_right ?_)
  rintro ⟨r', hr', hid, hsome'⟩
  exact ⟨r'.received, List.mem_map_of_mem hr', hid, hsome'⟩

variable [LedgerApi] {step : StoreStep}

theorem StoreOp.apply_numbered (cfg : NodeConfig)
    (hs : c.Numbered [] s) (h : step.Follows c s) (henv : s.env = step.env) :
    c.Numbered [] (finalState (step.op.apply cfg s)) := by
  -- every operation keeps the invariant, whether it fails or not
  have hfinal : ∀ {x : Sync Unit} {P : NodeState → Prop},
      Triple P x (fun _ t => c.Numbered [] t ∧ True) (c.Numbered []) → P s →
        c.Numbered [] (finalState (x s)) :=
    fun hx hP => hx.finalState (fun _ _ ht => ht.1) hP
  obtain ⟨op, env⟩ := step
  cases op with
  | proposal block =>
    refine hfinal (P := c.Numbered []) ?_ hs
    have hhas : c.Has block.received := Chain.Has.of_blockData h rfl
    exact (insertBlock_keeps cfg hhas rfl).bind fun _ _ => keeps_pure trivial
  | retrieved request now response quorumCerts append =>
    have hreceived : ∀ r ∈ response.received.blocks, r.block.blockNumber = none :=
      List.forall_mem_map.mpr fun _ _ => rfl
    refine hfinal (P := fun t => c.Numbered [] t ∧ c.Follows t response.received.blocks) ?_
      ⟨hs, Chain.Follows.received h⟩
    refine Triple.bind (triple_check fun t ht => ht.1) fun accepted => ?_
    intro t ht
    obtain ⟨haccepted, ht⟩ := ht
    obtain rfl : response.received = accepted := by
      unfold requestBlock at haccepted
      split at haccepted
      · obtain ⟨_, -, hpure⟩ := except_bind_ok_iff.mp haccepted
        exact except_pure_ok_iff.mp hpure
      · exact except_pure_ok_iff.mp haccepted
    refine Triple.bind (saveBlocks_ready hreceived quorumCerts) (fun _ => ?_) t ht
    cases append with
    | true =>
      refine appendBlocksForSync_numbered cfg (fun r hr => ?_) _
      exact List.mem_map_of_mem (List.mem_reverse.mp hr)
    | false => exact triple_pure fun t' ht' => ⟨ht'.numbered, trivial⟩
  | forward request now batch =>
    have hreceived : ∀ r ∈ batch.received.records, r.block.blockNumber = none :=
      List.forall_mem_map.mpr fun _ _ => rfl
    have hrecords : batch.received.records.map ForwardEpochSyncRecord.retrieved =
        (batch.records.map ForwardEpochSyncRecord.retrieved).map RetrievedBlock.received := by
      simp only [ForwardEpochSyncBatch.received, List.map_map]
      rfl
    refine hfinal (P := fun t => c.Numbered [] t ∧
      c.Follows t (batch.received.records.map ForwardEpochSyncRecord.retrieved)) ?_
      ⟨hs, hrecords ▸ Chain.Follows.received h⟩
    refine Triple.bind (triple_check fun t ht => ht.1) fun _ => ?_
    intro t ht
    exact persistBatch_numbered cfg (batch_epoch ht.1) hreceived t ht.2
  | sendForExecution proof => exact hfinal (sendOrdered_keeps cfg proof) hs
  | recover epoch =>
    refine hfinal (P := fun t => c.Numbered [] t ∧
      ∀ e, t.env.roots.head? = some e → RootNumbered c e.1) ?_ ⟨hs, by rw [henv]; exact h⟩
    refine Triple.bind (start_fits epoch) fun r => ?_
    intro t ht
    exact rebuild_numbered cfg ht.2.1 _ _ t ⟨ht.1, ht.2.2⟩

omit [LedgerApi] in
/-- What the environment will do does not matter. -/
theorem StoreStep.Follows.withEnv (h : step.Follows c s)
    (env : Environment) : step.Follows c { s with env } := by
  obtain ⟨op, own⟩ := step
  cases op with
  | proposal block | recover _ => exact h
  | retrieved | forward =>
    obtain ⟨hhas, hnumber, hparents, hroot⟩ := h
    exact ⟨hhas, hnumber, hparents, hroot⟩
  | sendForExecution _ => trivial

theorem StoreStep.next_numbered (cfg : NodeConfig) (hs : c.Numbered [] s) (h : step.Follows c s) :
    c.Numbered [] (StoreStep.next cfg s step).2 := by
  have hsame : SameNumbers s { s with env := step.env } :=
    ⟨rfl, rfl, rfl, fun _ _ hget => hget, rfl, rfl⟩
  have hnext : (StoreStep.next cfg s step).2 =
      finalState (step.op.apply cfg { s with env := step.env }) := by
    unfold StoreStep.next
    rw [if_neg (by simp [hs.panic])]
  rw [hnext]
  exact StoreOp.apply_numbered cfg (hsame.numbered hs) (h.withEnv step.env) rfl

theorem run_numbered (cfg : NodeConfig) (hs : c.Numbered [] s) {steps : List StoreStep}
    (h : AlongRun (StoreStep.next cfg) (fun s step => step.Follows c s) s steps) :
    c.Numbered [] (run (StoreStep.next cfg) s steps).2 :=
  AlongRun.invariant (fun _ _ hfollows hs => StoreStep.next_numbered cfg hs hfollows) h hs

/-- On two nodes whose operations follow the chain, every numbered block has a parent numbered one
less, `init_block_number` has not panicked, and both give a block the same number. -/
theorem numbers_follow_chain (c : Chain) {cfg cfg' : NodeConfig} {s s' : NodeState}
    (hs : c.Numbered [] s) (hs' : c.Numbered [] s') {steps steps' : List StoreStep}
    (h : AlongRun (StoreStep.next cfg) (fun s step => step.Follows c s) s steps)
    (h' : AlongRun (StoreStep.next cfg') (fun s step => step.Follows c s) s' steps') :
    (run (StoreStep.next cfg) s steps).2.ParentsNumbered ∧
      (run (StoreStep.next cfg) s steps).2.panic = none ∧
      ∀ id n n', (run (StoreStep.next cfg) s steps).2.HasNumber id n →
        (run (StoreStep.next cfg') s' steps').2.HasNumber id n' → n = n' := by
  have hlast := run_numbered cfg hs h
  have hlast' := run_numbered cfg' hs' h'
  refine ⟨hlast.parentsNumbered, hlast.panic, ?_⟩
  intro id n n' hn hn'
  calc n = c.number id := hlast.hasNumber hn
    _ = n' := (hlast'.hasNumber hn').symm

end Run

/-! ## Numbers that peers make up -/

namespace WrongNumber

open BlockStore SyncManager
open SyncManager.DishonestPeer (crypto certificate block)

attribute [local instance] crypto Permissive.ledger

/-- Identifiers from 100 on, each over the one before. -/
def chain : Chain where
  genesis id := id ≤ 100
  parent id := id - 1
  epoch _ := 1
  number id := id - 100
  number_eq := by
    have hpred : ∀ n : Nat, ¬ n ≤ 100 → n - 100 = n - 1 - 100 + 1 := by
      intro n hn
      omega
    exact hpred
  epoch_parent := fun _ _ => rfl

def genesisBlock : Block where
  blockData :=
    { epoch := 1, round := 0, timestampUsecs := 0, quorumCert := certificate 0 []
      blockType := .genesis }
  signature := none
  blockNumber := some 0

def cfg : NodeConfig := SyncManager.DishonestPeer.cfg 100 true

/-- A node at the start of the epoch, which has heard of later commits. -/
def node : NodeState where
  db := { latestLedgerInfo := some (certificate 9 [0]).ledgerInfo }
  heap := [PipelinedBlock.newOrdered genesisBlock]
  tree :=
    { blocks := [(100, 0)], quorumCerts := [], orderedRootId := 100, commitRootId := 100
      highestCommitCert := (certificate 0 []).ledgerInfo }
  env := {}

/-- The answer to a request for one block, with the number that the peer gives it. -/
def answer (round : Nat) (number : Option Nat) : StoreStep where
  op := .retrieved
    { blockId := 100 + round, numBlocks := 1, targetBlockId := none, epoch := none } 0
    { status := .succeeded, blocks := [⟨block round, number, none⟩], ledgerInfos := []
      quorumCerts := [] } [certificate round [0]] true

/-- A page over the genesis block with blocks of the rounds 1, 2, .. and the given numbers. -/
def page (numbers : List (Option Nat)) (last : Nat) : StoreStep where
  op := .forward
    { epoch := 1, manifestId := 0, anchorBlockId := 100, anchorBlockNumber := 0
      batchSizeBlocks := 10 } 0
    { epoch := 1, manifestId := 0, anchorBlockId := 100, anchorBlockNumber := 0
      records := (numbers.zipIdx 1).map fun e => ⟨block e.2, e.1, none, certificate e.2 [0]⟩
      ledgerInfos := []
      nextAnchorBlockId := 100 + numbers.length
      nextAnchorBlockNumber := last }

theorem genesisBlock_isGenesis : chain.IsGenesis genesisBlock :=
  ⟨Nat.le_refl 100, rfl, rfl, rfl, rfl⟩

theorem node_numbered : chain.Numbered [] node where
  heap := List.forall_mem_singleton.mpr (.inr genesisBlock_isGenesis)
  number := List.forall_mem_singleton.mpr fun _ hn => (Option.some.inj hn).symm
  saved := List.forall_mem_singleton.mpr fun hhas =>
    absurd genesisBlock_isGenesis.genesis hhas.notGenesis
  tree := by
    intro id ref hget
    obtain ⟨rfl, rfl⟩ := Prod.mk.inj (List.mem_singleton.mp (Table.mem_of_get hget))
    exact ⟨genesisBlock, rfl, rfl⟩
  root := by
    intro b hb
    obtain rfl : genesisBlock = b := Option.some.inj hb
    rfl
  stored := List.forall_mem_nil _
  numbers := List.forall_mem_nil _
  pendingNumbers := List.forall_mem_nil _
  parents := by
    intro key hkey
    exact absurd hkey (or_self_iff.not.mpr List.not_mem_nil)
  panic := rfl

/-- A peer numbers a block as it likes, or leaves a gap in a page: both pass the checks, and
`init_block_number` panics when the blocks are executed. -/
theorem unchecked_numbers_panic : chain.Numbered [] node ∧
      ¬ (run (StoreStep.next cfg) node [answer 1 (some 7)]).2.ParentsNumbered ∧
      (run (StoreStep.next cfg) node [answer 1 (some 7), answer 2 none]).2.panic =
        some "assertion failed: block number" ∧
      (run (StoreStep.next cfg) node [page [none, some 1, none] 1]).2.panic =
        some "assertion failed: block number" := by
  refine ⟨node_numbered, ?_, rfl, rfl⟩
  intro hlaw
  obtain ⟨m, hm, hnext⟩ := hlaw { block 1 with blockNumber := some 7 } 7 (.inl ⟨101, rfl⟩) rfl rfl
    genesisBlock (.inl ⟨100, rfl⟩) rfl
  rcases hm with ⟨b, hb, hn⟩ | ⟨epoch, hn⟩
  · obtain rfl : genesisBlock = b := Option.some.inj hb
    obtain rfl : 0 = m := Option.some.inj hn
    cases hnext
  · have hstored : ((epoch, (100 : HashValue)), m) = ((1, 101), 7) :=
      List.mem_singleton.mp (Table.mem_of_get hn)
    cases congrArg (·.1.2) hstored

/-- The block of round 1 with its number follows the chain. -/
theorem firstBlock_follows : chain.Follows node [⟨block 1, some 1, none⟩] where
  has := List.forall_mem_singleton.mpr ⟨show ¬ 101 ≤ 100 by decide, rfl, rfl⟩
  number := List.forall_mem_singleton.mpr fun _ hn => (Option.some.inj hn).symm
  parents := List.forall_mem_singleton.mpr fun _ => .inl (Nat.le_refl 100)
  root := rfl

/-- One node retrieves the block with its number and gets a proposal over it, another receives the
block in a page. -/
theorem numbers_follow_chain_synced :
    (run (StoreStep.next cfg) node [answer 1 (some 1), ⟨.proposal (block 2), {}⟩]).2.HasNumber 101
      1 ∧
      (run (StoreStep.next cfg) node [answer 1 (some 1), ⟨.proposal (block 2), {}⟩]).2.panic =
        none ∧
      ∀ n, (run (StoreStep.next cfg) node [page [some 1] 1]).2.HasNumber 101 n → 1 = n := by
  have hretrieved : AlongRun (StoreStep.next cfg) (fun s step => step.Follows chain s) node
      [answer 1 (some 1), ⟨.proposal (block 2), {}⟩] :=
    ⟨firstBlock_follows, ⟨show ¬ 102 ≤ 100 by decide, rfl, rfl⟩, trivial⟩
  have hpage : AlongRun (StoreStep.next cfg) (fun s step => step.Follows chain s) node
      [page [some 1] 1] := ⟨firstBlock_follows, trivial⟩
  have hnumber : (run (StoreStep.next cfg) node
      [answer 1 (some 1), ⟨.proposal (block 2), {}⟩]).2.HasNumber 101 1 :=
    .inl ⟨{ block 1 with blockNumber := some 1 }, rfl, rfl⟩
  obtain ⟨-, hpanic, hagree⟩ :=
    numbers_follow_chain chain node_numbered node_numbered hretrieved hpage
  exact ⟨hnumber, hpanic, fun n hn => hagree 101 1 n hnumber hn⟩

end WrongNumber

end Liquent
