import Liquent.Misc.Lists
import Liquent.BlockStorage.SendOrdered

/-!
# Numbers of blocks

The identifier of a block determines its parent, and so the chain below it and its number.  A
`Chain` is this view of identifiers, and `Numbered` the invariant of a node whose numbers, in memory
and in the database, are those of the chain: a numbered block has a numbered parent, up to the
genesis block of the epoch.  The functions that number, insert and replay blocks keep it.
-/

namespace Liquent

open Misc

/-- What identifiers of blocks determine. -/
structure Chain where
  /-- The genesis blocks of the epochs, which have no parent. -/
  genesis : HashValue → Prop
  parent : HashValue → HashValue
  epoch : HashValue → Nat
  number : HashValue → Nat
  number_eq : ∀ id, ¬ genesis id → number id = number (parent id) + 1
  epoch_parent : ∀ id, ¬ genesis id → epoch (parent id) = epoch id

/-- The key under which the number of a block is stored. -/
def numberKey (entry : Nat × Nat × HashValue) : Nat × HashValue := (entry.1, entry.2.2)

namespace NodeState

/-- The blocks of the heap, without what the pipeline adds to them. -/
def blocks (s : NodeState) : List Block := s.heap.map (·.block)

/-- The block that the tree has under an identifier. -/
def blockOf (s : NodeState) (id : HashValue) : Option Block :=
  (s.tree.blocks.get id).bind (s.blocks[·]?)

theorem getBlock_map_block (s : NodeState) (id : HashValue) :
    (s.getBlock id).map (·.block) = s.blockOf id := by
  unfold getBlock blockOf blocks
  cases s.tree.blocks.get id with
  | none => rfl
  | some ref => simp

/-- The block under an identifier has a number, if the tree has the block. -/
def NumberedAt (s : NodeState) (id : HashValue) : Prop :=
  ∀ b, s.blockOf id = some b → b.blockNumber.isSome = true

end NodeState

variable {b : Block}

namespace Chain

variable [Crypto] (c : Chain)

/-- A block that is not a genesis block, with the parent and the epoch of its identifier. -/
structure Has (b : Block) : Prop where
  notGenesis : ¬ c.genesis b.id
  parent : b.parentId = c.parent b.id
  epoch : b.epoch = c.epoch b.id

/-- The genesis block of an epoch, which a node makes with its number from a ledger info. -/
structure IsGenesis (b : Block) : Prop where
  genesis : c.genesis b.id
  isGenesisBlock : b.isGenesisBlock = true
  round : b.round = 0
  number : b.blockNumber = some (c.number b.id)
  epoch : b.epoch = c.epoch b.id

theorem Has.of_blockData {c : Chain} {b' : Block} (h : c.Has b)
    (hdata : b'.blockData = b.blockData) : c.Has b' := by
  cases b
  cases b'
  cases hdata
  exact { h with }

/-- The numbers of the node are those of the chain. Pending numbers are on blocks in memory and not
yet in the database. -/
structure Numbered (pending : List (Nat × Nat × HashValue)) (s : NodeState) : Prop where
  heap : ∀ b ∈ s.blocks, c.Has b ∨ c.IsGenesis b
  number : ∀ b ∈ s.blocks, ∀ n, b.blockNumber = some n → n = c.number b.id
  /-- A number in memory is in the database too, or will be. -/
  saved : ∀ b ∈ s.blocks, c.Has b → b.blockNumber.isSome = true →
    (b.epoch, b.id) ∈ s.db.blockNumbers.keys ∨ (b.epoch, b.id) ∈ pending.map numberKey
  tree : ∀ id ref, s.tree.blocks.get id = some ref → ∃ b, s.blocks[ref]? = some b ∧ b.id = id
  root : s.NumberedAt s.tree.orderedRootId
  stored : ∀ e ∈ s.db.blocks, e.1 = (e.2.epoch, e.2.id) ∧ e.2.blockNumber = none ∧ c.Has e.2
  numbers : ∀ e ∈ s.db.blockNumbers,
    e.2 = c.number e.1.2 ∧ e.1.1 = c.epoch e.1.2 ∧ ¬ c.genesis e.1.2
  pendingNumbers : ∀ e ∈ pending, e.2.1 = c.number e.2.2 ∧ e.1 = c.epoch e.2.2 ∧ ¬ c.genesis e.2.2
  /-- The parent of a numbered block is numbered. -/
  parents : ∀ key, key ∈ s.db.blockNumbers.keys ∨ key ∈ pending.map numberKey →
    c.genesis (c.parent key.2) ∨ (key.1, c.parent key.2) ∈ s.db.blockNumbers.keys ∨
      (key.1, c.parent key.2) ∈ pending.map numberKey
  panic : s.panic = none

end Chain

/-! ## What leaves numbers alone -/

/-- No number, no block and no root has changed; blocks may have left the tree. -/
structure SameNumbers (s s' : NodeState) : Prop where
  dbBlocks : s'.db.blocks = s.db.blocks
  dbNumbers : s'.db.blockNumbers = s.db.blockNumbers
  blocks : s'.blocks = s.blocks
  tree : ∀ id ref, s'.tree.blocks.get id = some ref → s.tree.blocks.get id = some ref
  orderedRoot : s'.tree.orderedRootId = s.tree.orderedRootId
  panic : s'.panic = s.panic

instance : IsPreorder NodeState SameNumbers where
  refl _ := ⟨rfl, rfl, rfl, fun _ _ h => h, rfl, rfl⟩
  trans _ _ _ h h' :=
    ⟨h'.dbBlocks.trans h.dbBlocks, h'.dbNumbers.trans h.dbNumbers, h'.blocks.trans h.blocks,
      fun id ref hget => h.tree id ref (h'.tree id ref hget), h'.orderedRoot.trans h.orderedRoot,
      h'.panic.trans h.panic⟩

variable {s s' : NodeState} {id : HashValue}

theorem SameNumbers.blockOf (h : SameNumbers s s')
    (hb : s'.blockOf id = some b) : s.blockOf id = some b := by
  unfold NodeState.blockOf at *
  obtain ⟨ref, hget, hblock⟩ := Option.bind_eq_some_iff.mp hb
  rw [h.tree id ref hget, ← h.blocks]
  exact hblock

theorem SameNumbers.numberedAt (h : SameNumbers s s') (hid : s.NumberedAt id) : s'.NumberedAt id :=
  fun b hb => hid b (h.blockOf hb)

variable {pending : List (Nat × Nat × HashValue)}

theorem SameNumbers.numbered [Crypto] {c : Chain}
    (h : SameNumbers s s') (hs : c.Numbered pending s) :
    c.Numbered pending s' where
  heap := by rw [h.blocks]; exact hs.heap
  number := by rw [h.blocks]; exact hs.number
  saved := by rw [h.blocks, h.dbNumbers]; exact hs.saved
  tree := by
    intro id ref hget
    rw [h.blocks]
    exact hs.tree id ref (h.tree id ref hget)
  root := by
    rw [h.orderedRoot]
    exact h.numberedAt hs.root
  stored := by rw [h.dbBlocks]; exact hs.stored
  numbers := by rw [h.dbNumbers]; exact hs.numbers
  pendingNumbers := hs.pendingNumbers
  parents := by rw [h.dbNumbers]; exact hs.parents
  panic := h.panic.trans hs.panic

theorem Chain.Numbered.of_blockOf [Crypto] {c : Chain} (hs : c.Numbered pending s)
    (h : s.blockOf id = some b) : b.id = id ∧ b ∈ s.blocks := by
  obtain ⟨ref, hget, href⟩ := Option.bind_eq_some_iff.mp h
  obtain ⟨b', hb', hid⟩ := hs.tree id ref hget
  obtain rfl : b = b' := Option.some.inj (href.symm.trans hb')
  exact ⟨hid, List.mem_of_getElem? hb'⟩

namespace BlockStore

theorem blocks_updateBlock (s : NodeState) (ref : BlockRef) {f : PipelinedBlock → PipelinedBlock}
    {g : Block → Block} (hf : ∀ p, (f p).block = g p.block) :
    (s.updateBlock ref f).blocks = s.blocks.modify ref g := by
  apply List.ext_getElem?
  intro i
  simp only [NodeState.blocks, NodeState.updateBlock, List.getElem?_map, List.getElem?_modify]
  cases s.heap[i]? with
  | none => rfl
  | some p =>
    by_cases hi : ref = i
    · simp [hi, hf]
    · simp [hi]

theorem updateBlock_sameNumbers (s : NodeState) (ref : BlockRef)
    {f : PipelinedBlock → PipelinedBlock}
    (hf : ∀ p, (f p).block = p.block) : SameNumbers s (s.updateBlock ref f) := by
  refine ⟨rfl, rfl, ?_, fun _ _ h => h, rfl, rfl⟩
  rw [blocks_updateBlock s ref (g := id) hf, List.modify_id]

theorem trySetRandomnessFromDb_block (cfg : NodeConfig) (db : ConsensusDb) (b : Block)
    (p : PipelinedBlock) : (trySetRandomnessFromDb cfg db b p).block = p.block := by
  unfold trySetRandomnessFromDb
  split
  · cases b.blockNumber with
    | none => rfl
    | some n =>
      simp only
      split
      · rfl
      · cases db.getRandomness n with
        | none | some r => rfl
  · rfl

theorem pipelineAnswers_sameNumbers : Moves SameNumbers pipelineAnswers :=
  moves_get.bind fun _ =>
    (moves_modify fun _ => ⟨rfl, rfl, rfl, fun _ _ h => h, rfl, rfl⟩).bind fun _ => moves_pure _

variable {ref : BlockRef}

theorem without_get {tree : BlockTree} {gone : List HashValue}
    (h : (tree.without gone).blocks.get id = some ref) : tree.blocks.get id = some ref :=
  Table.of_get_retain (p := fun k => decide (k ∉ gone)) h

theorem updateHighestCommitCert_blocks (tree : BlockTree) (proof : LedgerInfoWithSignatures) :
    (tree.updateHighestCommitCert proof).blocks = tree.blocks ∧
      (tree.updateHighestCommitCert proof).orderedRootId = tree.orderedRootId := by
  unfold BlockTree.updateHighestCommitCert
  simp only
  split
  · exact ⟨rfl, rfl⟩
  · exact ⟨rfl, rfl⟩

theorem commitCallback_sameNumbers (round : Nat) (proof : LedgerInfoWithSignatures) :
    Moves SameNumbers (commitCallback round proof) := by
  refine moves_get.bind fun s => (moves_check _).bind fun root => ?_
  split
  · exact moves_pure _
  · refine moves_modify fun s => ?_
    obtain ⟨hblocks, hroot⟩ :=
      updateHighestCommitCert_blocks (s.tree.without (s.env.pruned.headD [])) proof
    refine ⟨rfl, rfl, rfl, ?_, hroot, rfl⟩
    intro id ref hget
    rw [hblocks] at hget
    exact without_get hget

theorem commitBlocks_sameNumbers (blocks : List PipelinedBlock)
    (proof : LedgerInfoWithSignatures) : Moves SameNumbers (commitBlocks blocks proof) := by
  unfold commitBlocks
  cases blocks.getLast? with
  | none => exact moves_pure _
  | some last =>
    refine (moves_modify fun _ => ⟨rfl, rfl, rfl, fun _ _ h => h, rfl, rfl⟩).bind fun _ => ?_
    exact commitCallback_sameNumbers _ proof

theorem await_sameNumbers : Moves SameNumbers await := by
  refine moves_get.bind fun s =>
    (moves_modify fun _ => ⟨rfl, rfl, rfl, fun _ _ h => h, rfl, rfl⟩).bind fun _ => ?_
  exact moves_forM fun c => moves_orSkip (moves_get.bind fun _ => commitBlocks_sameNumbers _ _)

section Crypto

variable [Crypto] {c : Chain}

theorem recoveryRandomness_sameNumbers (cfg : NodeConfig) (ref : BlockRef) (number : Nat) :
    Moves SameNumbers (recoveryRandomness cfg ref number) := by
  refine moves_get.bind fun s => (moves_check _).bind fun p => ?_
  split
  · refine Moves.bind ?_ fun _ => ?_
    · exact moves_modify fun s' => updateBlock_sameNumbers s' ref
        (trySetRandomnessFromDb_block _ _ _)
    · split
      · exact moves_pure _
      · exact moves_throw _
  · exact moves_pure _

theorem replayBlock_sameNumbers (cfg : NodeConfig) (ref : BlockRef) :
    Moves SameNumbers (replayBlock cfg ref) := by
  refine moves_get.bind fun s => (moves_check _).bind fun p => (moves_check _).bind fun number => ?_
  refine (recoveryRandomness_sameNumbers cfg ref number).bind fun randomness => ?_
  refine (moves_modify fun _ => ⟨rfl, rfl, rfl, fun _ _ h => h, rfl, rfl⟩).bind fun _ => ?_
  exact pipelineAnswers_sameNumbers.bind fun _ => moves_check _

theorem insertSingleQuorumCert_sameNumbers [LedgerApi] (qc : QuorumCert) (rebuild : Bool) :
    Moves SameNumbers (insertSingleQuorumCert qc rebuild) := by
  refine moves_get.bind fun s => (moves_check _).bind fun b => (moves_check _).bind fun _ => ?_
  refine Moves.bind ?_ fun _ => ?_
  · unfold storeCert
    split
    · exact moves_pure _
    · exact moves_modify fun _ => ⟨rfl, rfl, rfl, fun _ _ h => h, rfl, rfl⟩
  · exact moves_modify fun _ => ⟨rfl, rfl, rfl, fun _ _ h => h, rfl, rfl⟩

/-! ## Paths and their numbers -/

/-- The references form a path of the tree over the given block. -/
def Linked (s : NodeState) : HashValue → List BlockRef → Prop
  | _, [] => True
  | parent, ref :: rest => ∃ b, s.blocks[ref]? = some b ∧ s.tree.blocks.get b.id = some ref ∧
    b.parentId = parent ∧ 0 < b.round ∧ Linked s b.id rest

variable {path : List BlockRef}

/-- The references of a path are linked over its root. -/
theorem pathFromRoot_linked (hs : c.Numbered pending s) {rootId : HashValue} {rootRound fuel : Nat}
    {acc : List BlockRef} (h : pathFromRoot s rootId rootRound fuel id acc = some path)
    (hacc : Linked s id acc) : Linked s rootId path ∧ (s.blockOf rootId).isSome = true ∧
      (∀ ref ∈ acc, ref ∈ path) ∧
      (path = acc ∨ ∃ ref ∈ path, s.tree.blocks.get id = some ref) := by
  induction fuel generalizing id acc with
  | zero => cases h
  | succ fuel ih =>
    unfold pathFromRoot at h
    cases hget : s.tree.blocks.get id with
    | none => simp [hget] at h
    | some ref =>
      obtain ⟨b, hb, hid⟩ := hs.tree id ref hget
      obtain ⟨p, hp, rfl⟩ : ∃ p, s.heap[ref]? = some p ∧ p.block = b := by
        simpa [NodeState.blocks] using hb
      simp only [hget, hp] at h
      by_cases hround : p.block.round ≤ rootRound
      · rw [if_pos hround] at h
        by_cases hroot : id = rootId
        · subst hroot
          rw [if_pos rfl] at h
          obtain rfl := Option.some.inj h
          refine ⟨hacc, ?_, fun _ hmem => hmem, .inl rfl⟩
          simp [NodeState.blockOf, hget, hb]
        · simp [if_neg hroot] at h
      · rw [if_neg hround] at h
        subst hid
        obtain ⟨hlinked, hroot, hmem, -⟩ := ih h ⟨p.block, hb, hget, rfl, by omega, hacc⟩
        exact ⟨hlinked, hroot, (List.forall_mem_cons.mp hmem).2,
          .inr ⟨ref, hmem ref List.mem_cons_self, rfl⟩⟩

/-- Blocks without a number may have got one, and nothing else has changed. -/
structure Renumbers (s s' : NodeState) : Prop where
  tree : s'.tree = s.tree
  db : s'.db = s.db
  blocks : ∀ (i : BlockRef) (b : Block), s.blocks[i]? = some b → ∃ b', s'.blocks[i]? = some b' ∧
    b'.blockData = b.blockData ∧ (b.blockNumber.isSome = true → b'.blockNumber.isSome = true)

omit [Crypto] in
theorem Renumbers.refl (s : NodeState) : Renumbers s s :=
  ⟨rfl, rfl, fun _ b hb => ⟨b, hb, rfl, fun h => h⟩⟩

omit [Crypto] in
theorem Renumbers.trans {s₁ s₂ s₃ : NodeState} (h : Renumbers s₁ s₂) (h' : Renumbers s₂ s₃) :
    Renumbers s₁ s₃ where
  tree := h'.tree.trans h.tree
  db := h'.db.trans h.db
  blocks := by
    intro i b hb
    obtain ⟨b₂, hb₂, hdata, hnumber⟩ := h.blocks i b hb
    obtain ⟨b₃, hb₃, hdata', hnumber'⟩ := h'.blocks i b₂ hb₂
    exact ⟨b₃, hb₃, hdata'.trans hdata, fun hsome => hnumber' (hnumber hsome)⟩

variable {parent : HashValue}

theorem Linked.renumbers (h : Renumbers s s') (hpath : Linked s parent path) :
    Linked s' parent path := by
  induction path generalizing parent with
  | nil => trivial
  | cons ref rest ih =>
    obtain ⟨b, hb, hget, hparent, hround, hrest⟩ := hpath
    obtain ⟨b', hb', hdata, -⟩ := h.blocks ref b hb
    have hid : b'.id = b.id := congrArg BlockData.hash hdata
    have hparent' : b'.parentId = b.parentId := congrArg BlockData.parentId hdata
    have hround' : b'.round = b.round := congrArg BlockData.round hdata
    refine ⟨b', hb', ?_, hparent'.trans hparent, by omega, ?_⟩
    · rw [h.tree, hid]
      exact hget
    · rw [hid]
      exact ih hrest

theorem linked_withDb (h : Linked s parent path) (f : ConsensusDb → ConsensusDb) :
    Linked (s.withDb f) parent path := by
  induction path generalizing parent with
  | nil => trivial
  | cons ref rest ih =>
    obtain ⟨b, hb, hget, hparent, hround, hrest⟩ := h
    exact ⟨b, hb, hget, hparent, hround, ih hrest⟩

variable {q : Block}

/-- The number that `init_block_number` finds for the parent of a block. -/
theorem parentNumber_ok (hs : c.Numbered pending s) (hq : s.blockOf b.parentId = some q)
    (hnumber : q.blockNumber.isSome = true) :
    parentNumber s b = .ok (c.number b.parentId) := by
  obtain ⟨hid, hmem⟩ := hs.of_blockOf hq
  obtain ⟨n, hn⟩ := Option.isSome_iff_exists.mp hnumber
  have hvalue := hs.number q hmem n hn
  unfold parentNumber
  rw [NodeState.getBlock_map_block, hq]
  simp only [Option.orElse_eq_orElse, Option.orElse_some, hn, hvalue, hid]

omit [Crypto] in
theorem blocks_setBlockNumber (s : NodeState) (ref : BlockRef) (n : Nat) :
    (s.updateBlock ref fun p => { p with block := p.block.setBlockNumber n }).blocks =
      s.blocks.modify ref (·.setBlockNumber n) := blocks_updateBlock s ref fun _ => rfl

/-- A parent with a number in memory is a genesis block, or its number is stored or will be. -/
theorem parent_known (hs : c.Numbered pending s) (hb : c.Has b) (hq : s.blockOf b.parentId = some q)
    (hnumber : q.blockNumber.isSome = true) :
    c.genesis (c.parent b.id) ∨ (b.epoch, c.parent b.id) ∈ s.db.blockNumbers.keys ∨
      (b.epoch, c.parent b.id) ∈ pending.map numberKey := by
  obtain ⟨hid, hmem⟩ := hs.of_blockOf hq
  have hparent : q.id = c.parent b.id := hid.trans hb.parent
  rcases hs.heap q hmem with hhas | hgenesis
  · have hepoch : q.epoch = b.epoch := by
      rw [hhas.epoch, hparent, c.epoch_parent _ hb.notGenesis, ← hb.epoch]
    have hsaved := hs.saved q hmem hhas hnumber
    rw [hepoch, hparent] at hsaved
    exact .inr hsaved
  · left
    rw [← hparent]
    exact hgenesis.genesis

omit [Crypto] in
theorem Renumbers.setBlockNumber (s : NodeState) (ref : BlockRef) (n : Nat) :
    Renumbers s (s.updateBlock ref fun p => { p with block := p.block.setBlockNumber n }) := by
  refine ⟨rfl, rfl, ?_⟩
  intro i b hb
  rw [blocks_setBlockNumber, List.getElem?_modify, hb]
  by_cases hi : ref = i
  · refine ⟨b.setBlockNumber n, by simp [hi], rfl, fun hsome => ?_⟩
    simp [Block.setBlockNumber]
  · exact ⟨b, by simp [hi], rfl, fun hsome => hsome⟩

theorem Renumbers.numberedAt (h : Renumbers s s')
    (hlookup : ∀ ref, s.tree.blocks.get id = some ref → ∃ b, s.blocks[ref]? = some b ∧ b.id = id)
    (hid : s.NumberedAt id) : s'.NumberedAt id := by
  intro b' hb'
  unfold NodeState.blockOf at hb'
  rw [h.tree] at hb'
  obtain ⟨ref, hget, href⟩ := Option.bind_eq_some_iff.mp hb'
  obtain ⟨b, hb, -⟩ := hlookup ref hget
  obtain ⟨b'', hb'', -, hnumber⟩ := h.blocks ref b hb
  obtain rfl : b' = b'' := Option.some.inj (href.symm.trans hb'')
  apply hnumber
  apply hid
  simp [NodeState.blockOf, hget, hb]

/-- A block of the chain whose parent is numbered gets its number. -/
theorem numbered_setBlockNumber (hs : c.Numbered pending s) (hb : s.blocks[ref]? = some b)
    (hhas : c.Has b)
    (hknown : c.genesis (c.parent b.id) ∨ (b.epoch, c.parent b.id) ∈ s.db.blockNumbers.keys ∨
      (b.epoch, c.parent b.id) ∈ pending.map numberKey) :
    c.Numbered (pending ++ [(b.epoch, c.number b.id, b.id)])
      (s.updateBlock ref fun p => { p with block := p.block.setBlockNumber (c.number b.id) }) := by
  -- a block of the new heap is one of the old heap, or the block that has got its number
  have hcases : ∀ b' ∈ (s.updateBlock ref fun p =>
      { p with block := p.block.setBlockNumber (c.number b.id) }).blocks,
      b' ∈ s.blocks ∨ b' = b.setBlockNumber (c.number b.id) := by
    intro b' hb'
    rw [blocks_setBlockNumber] at hb'
    obtain ⟨i, hi⟩ := List.mem_iff_getElem?.mp hb'
    rw [List.getElem?_modify] at hi
    by_cases hri : ref = i
    · subst hri
      right
      simpa [hb] using hi.symm
    · left
      simp only [hri, ↓reduceIte, Option.map_eq_map, Option.map_id_fun', id_eq] at hi
      exact List.mem_of_getElem? hi
  have hmem := List.mem_of_getElem? hb
  refine ⟨?_, ?_, ?_, ?_, ?_, hs.stored, hs.numbers, ?_, ?_, hs.panic⟩
  · intro b' hb'
    rcases hcases b' hb' with hold | rfl
    · exact hs.heap b' hold
    · exact .inl (hhas.of_blockData rfl)
  · intro b' hb' n hn
    rcases hcases b' hb' with hold | rfl
    · exact hs.number b' hold n hn
    · cases hnumber : b.blockNumber with
      | none =>
        simp only [Block.setBlockNumber, hnumber, Option.none_or, Option.some.injEq] at hn
        exact hn.symm
      | some m =>
        simp only [Block.setBlockNumber, hnumber, Option.some_or, Option.some.injEq] at hn
        exact hs.number b hmem n (hn ▸ hnumber)
  · intro b' hb' hhas' hsome
    rw [List.map_append, List.mem_append]
    rcases hcases b' hb' with hold | rfl
    · exact (hs.saved b' hold hhas' hsome).imp_right Or.inl
    · exact .inr (.inr (List.mem_singleton.mpr rfl))
  · intro id r hget
    obtain ⟨b₀, hb₀, hid⟩ := hs.tree id r hget
    obtain ⟨b₁, hb₁, hdata, -⟩ := (Renumbers.setBlockNumber s ref (c.number b.id)).blocks r b₀ hb₀
    exact ⟨b₁, hb₁, (congrArg BlockData.hash hdata).trans hid⟩
  · exact (Renumbers.setBlockNumber s ref _).numberedAt (hs.tree _) hs.root
  · apply forall_mem_snoc hs.pendingNumbers
    exact ⟨rfl, hhas.epoch, hhas.notGenesis⟩
  · intro key hkey
    rw [List.map_append, List.mem_append] at hkey ⊢
    rcases hkey with hkey | hkey | hkey
    · exact (hs.parents key (.inl hkey)).imp_right (Or.imp_right Or.inl)
    · exact (hs.parents key (.inr hkey)).imp_right (Or.imp_right Or.inl)
    · obtain rfl := List.mem_singleton.mp hkey
      exact hknown.imp_right (Or.imp_right Or.inl)

omit [Crypto] in
theorem orPanic_of_ok {α : Type} {r : Except String α} {a : α} (h : r = .ok a) (s : NodeState) :
    orPanic r s = .ok a s := by
  subst h
  rfl

/-- The block at a reference has a number. -/
def NumberedRef (s : NodeState) (ref : BlockRef) : Prop :=
  ∃ b, s.blocks[ref]? = some b ∧ b.blockNumber.isSome = true

omit [Crypto] in
theorem Renumbers.numberedRef (h : Renumbers s s') (hr : NumberedRef s ref) :
    NumberedRef s' ref := by
  obtain ⟨b, hb, hsome⟩ := hr
  obtain ⟨b', hb', -, hnumber⟩ := h.blocks ref b hb
  exact ⟨b', hb', hnumber hsome⟩

theorem numberBlock_ok (hs : c.Numbered pending s) (hb : s.blocks[ref]? = some b)
    (hround : 0 < b.round) (hq : s.blockOf b.parentId = some q)
    (hnumber : q.blockNumber.isSome = true) :
    ∃ new s', numberBlock ref s = .ok new s' ∧ c.Numbered (pending ++ new) s' ∧ Renumbers s s' ∧
      NumberedRef s' ref := by
  have hmem := List.mem_of_getElem? hb
  have hhas := (hs.heap b hmem).resolve_right fun hgenesis => absurd hgenesis.round (by omega)
  have hnext : c.number b.parentId + 1 = c.number b.id := by
    rw [hhas.parent, c.number_eq _ hhas.notGenesis]
  obtain ⟨p, hp, rfl⟩ : ∃ p, s.heap[ref]? = some p ∧ p.block = b := by
    simpa [NodeState.blocks] using hb
  have hat : blockAt s ref = .ok p := by
    unfold blockAt
    rw [hp]
  have hparent := parentNumber_ok hs hq hnumber
  cases hn : p.block.blockNumber with
  | some n =>
    have hvalue : n = c.number p.block.parentId + 1 := (hs.number _ hmem n hn).trans hnext.symm
    refine ⟨[], s, ?_, by simpa using hs, Renumbers.refl s, p.block, hb, by simp [hn]⟩
    unfold numberBlock
    rw [bind_of_ok (get_eq_ok s), bind_of_ok (check_of_ok hat s),
      bind_of_ok (orPanic_of_ok hparent s)]
    simp only [hn]
    rw [bind_of_ok (orPanic_of_ok (a := ⟨⟩) (ensure_ok_iff.mpr hvalue) s)]
    rfl
  | none =>
    have hknown := parent_known hs hhas hq hnumber
    refine ⟨[(p.block.epoch, c.number p.block.id, p.block.id)], _, ?_,
      numbered_setBlockNumber hs hb hhas hknown, Renumbers.setBlockNumber s ref _, ?_⟩
    · unfold numberBlock
      rw [bind_of_ok (get_eq_ok s), bind_of_ok (check_of_ok hat s),
        bind_of_ok (orPanic_of_ok hparent s)]
      simp only [hn, hnext]
      rfl
    · refine ⟨p.block.setBlockNumber (c.number p.block.id), ?_, by simp [Block.setBlockNumber]⟩
      rw [blocks_setBlockNumber, List.getElem?_modify, hb]
      simp

/-- `init_block_number` over a numbered block numbers the whole path. -/
theorem numberBlocks_ok (hs : c.Numbered pending s)
    (hpath : Linked s parent path) (hq : s.blockOf parent = some q)
    (hnumber : q.blockNumber.isSome = true) :
    ∃ new s', numberBlocks path s = .ok new s' ∧ c.Numbered (pending ++ new) s' ∧ Renumbers s s' ∧
      ∀ ref ∈ path, NumberedRef s' ref := by
  induction path generalizing s pending parent q with
  | nil => exact ⟨[], s, rfl, by simpa using hs, Renumbers.refl s, fun _ h => by cases h⟩
  | cons ref rest ih =>
    obtain ⟨b, hb, hget, rfl, hround, hrest⟩ := hpath
    obtain ⟨first, s₁, hrun, hs₁, hre, hnumbered⟩ := numberBlock_ok hs hb hround hq hnumber
    -- the block that has just been numbered is the parent of the rest
    obtain ⟨b₁, hb₁, hsome⟩ := hnumbered
    have hparent : s₁.blockOf b.id = some b₁ := by
      unfold NodeState.blockOf
      rw [hre.tree, hget]
      exact hb₁
    obtain ⟨others, s₂, hrun', hs₂, hre', hall⟩ := ih hs₁ (hrest.renumbers hre) hparent hsome
    refine ⟨first ++ others, s₂, ?_, ?_, hre.trans hre',
      List.forall_mem_cons.mpr ⟨hre'.numberedRef ⟨b₁, hb₁, hsome⟩, hall⟩⟩
    · unfold numberBlocks
      rw [bind_of_ok hrun, bind_of_ok hrun']
      rfl
    · rw [← List.append_assoc]
      exact hs₂

theorem numbered_saveTree (hs : c.Numbered pending s) {blocks : List Block}
    (hblocks : ∀ b ∈ blocks, c.Has b) (quorumCerts : List QuorumCert) :
    c.Numbered [] (s.withDb (·.saveTree blocks quorumCerts pending)) := by
  have hkeys : ∀ key, key ∈ (s.db.saveTree blocks quorumCerts pending).blockNumbers.keys ↔
      key ∈ s.db.blockNumbers.keys ∨ key ∈ pending.map numberKey := by
    intro key
    unfold ConsensusDb.saveTree
    rw [Table.mem_keys_putAll, List.map_map, or_comm]
    rfl
  refine ⟨hs.heap, hs.number, ?_, hs.tree, hs.root, ?_, ?_, List.forall_mem_nil _, ?_, hs.panic⟩
  · intro b hb hhas hsome
    left
    exact (hkeys _).mpr (hs.saved b hb hhas hsome)
  · refine Table.forall_mem_putAll hs.stored (List.forall_mem_map.mpr fun b hb => ?_)
    exact ⟨rfl, rfl, (hblocks b hb).of_blockData rfl⟩
  · exact Table.forall_mem_putAll hs.numbers (List.forall_mem_map.mpr hs.pendingNumbers)
  · intro key hkey
    have hold := (hkeys key).mp (hkey.resolve_right List.not_mem_nil)
    refine (hs.parents key hold).imp_right fun hparent => ?_
    left
    exact (hkeys _).mpr hparent

/-- `init_block_number` over the ordered root does not panic. -/
theorem initBlockNumber_ok (hs : c.Numbered [] s) (hpath : Linked s s.tree.orderedRootId path)
    (hroot : (s.blockOf s.tree.orderedRootId).isSome = true) :
    ∃ s', initBlockNumber path s = .ok ⟨⟩ s' ∧ c.Numbered [] s' ∧ s'.tree = s.tree ∧
      Linked s' s.tree.orderedRootId path ∧ ∀ ref ∈ path, NumberedRef s' ref := by
  obtain ⟨q, hq⟩ := Option.isSome_iff_exists.mp hroot
  obtain ⟨new, s₁, hrun, hs₁, hre, hall⟩ := numberBlocks_ok hs hpath hq (hs.root q hq)
  rw [List.nil_append] at hs₁
  refine ⟨s₁.withDb (·.saveTree [] [] new), ?_, numbered_saveTree hs₁ (fun _ h => by cases h) [],
    hre.tree, linked_withDb (hpath.renumbers hre) _, hall⟩
  unfold initBlockNumber
  rw [bind_of_ok hrun]
  rfl

/-! ## Execution -/

/-- The invariant, with blocks that are going to be roots. -/
def NumberedWith (c : Chain) (ids : List HashValue) (s : NodeState) : Prop :=
  c.Numbered [] s ∧ ∀ id ∈ ids, s.NumberedAt id

variable {ids : List HashValue}

theorem keeps_of_sameNumbers {α : Type} {x : Sync α}
    (h : Moves SameNumbers x) : Keeps (NumberedWith c ids) x fun _ => True :=
  h.keeps fun _ _ hsame hs =>
    ⟨hsame.numbered hs.1, fun id hid => hsame.numberedAt (hs.2 id hid)⟩

theorem updateOrderedRoot_keeps (hid : id ∈ ids) :
    Keeps (NumberedWith c ids) (updateOrderedRoot id) fun _ => True := by
  refine keeps_get.bind fun _ _ => keeps_check.bind fun _ _ => ?_
  refine keeps_modify fun s hs => ⟨?_, hs.2⟩
  obtain ⟨hnumbered, hids⟩ := hs
  exact { hnumbered with root := hids id hid }

theorem replayPath_keeps (cfg : NodeConfig)
    {proof : LedgerInfoWithSignatures} (path : List BlockRef)
    (hid : proof.ledgerInfo.commitInfo.id ∈ ids) :
    Keeps (NumberedWith c ids) (replayPath cfg proof path) fun _ => True := by
  refine keeps_get.bind fun s _ => keeps_check.bind fun last _ =>
    keeps_check.bind fun number _ => ?_
  split
  · exact keeps_pure trivial
  · refine (keeps_of_sameNumbers (moves_forM (replayBlock_sameNumbers cfg))).bind fun _ _ => ?_
    refine (keeps_of_sameNumbers (commitCallback_sameNumbers _ proof)).bind fun _ _ => ?_
    exact updateOrderedRoot_keeps hid

theorem pathFromRoot_ready (hs : c.Numbered [] s) {rootRound fuel : Nat} (hne : path ≠ [])
    (h : (pathFromRoot s s.tree.orderedRootId rootRound fuel id []).getD [] = path) :
    Linked s s.tree.orderedRootId path ∧ (s.blockOf s.tree.orderedRootId).isSome = true ∧
      ∃ ref ∈ path, s.tree.blocks.get id = some ref := by
  cases hpath : pathFromRoot s s.tree.orderedRootId rootRound fuel id [] with
  | none =>
    rw [hpath] at h
    exact absurd h.symm hne
  | some found =>
    rw [hpath, Option.getD_some] at h
    subst h
    obtain ⟨hlinked, hroot, -, hlast⟩ := pathFromRoot_linked hs hpath trivial
    exact ⟨hlinked, hroot, hlast.resolve_left hne⟩

omit [Crypto] in
theorem NumberedRef.numberedAt (h : NumberedRef s ref)
    (hget : s.tree.blocks.get id = some ref) : s.NumberedAt id := by
  obtain ⟨b, hb, hsome⟩ := h
  intro b' hb'
  simp only [NodeState.blockOf, hget, Option.bind_some, hb, Option.some.injEq] at hb'
  rw [← hb']
  exact hsome

theorem sendForExecution_keeps (cfg : NodeConfig) (proof : LedgerInfoWithSignatures)
    (limit : Option Nat) :
    Keeps (c.Numbered []) (sendForExecution cfg proof limit) fun _ => True := by
  refine Triple.bind triple_get fun s => ?_
  refine Triple.bind (triple_check fun t ht => ht.2) fun block => ?_
  refine Triple.bind (triple_check fun t ht => ht.2.2) fun root => ?_
  refine Triple.bind (triple_check fun t ht => ht.2.2.2) fun _ => ?_
  refine Triple.weaken (P := fun t => s = t ∧ c.Numbered [] t) ?_ (fun t ht => ht.2.2.2)
    (fun _ _ h => h) fun _ h => h
  dsimp only
  split
  · exact triple_pure fun t ht => ⟨ht.2, trivial⟩
  · rename_i hne
    refine Triple.bind (Q := fun _ => NumberedWith c [proof.ledgerInfo.commitInfo.id]) ?_
      fun _ => ?_
    · rintro t ⟨rfl, hs⟩
      obtain ⟨hlinked, hroot, ref, href, hget⟩ := pathFromRoot_ready hs hne rfl
      obtain ⟨s', hrun, hs', htree, -, hall⟩ := initBlockNumber_ok hs hlinked hroot
      rw [hrun]
      refine ⟨hs', List.forall_mem_singleton.mpr ((hall ref href).numberedAt ?_)⟩
      rw [htree]
      exact hget
    · refine Keeps.forget (keeps_get.bind fun s' _ => ?_) fun _ h => h.1
      split
      · exact keeps_pure trivial
      · exact replayPath_keeps cfg _ (List.mem_singleton.mpr rfl)

theorem recoverBlocksChecked_keeps (cfg : NodeConfig) :
    Keeps (c.Numbered []) (recoverBlocksChecked cfg) fun _ => True := by
  refine keeps_get.bind fun s _ => keeps_forM fun qc _ => ?_
  refine keeps_get.bind fun s' _ => keeps_check.bind fun root _ => ?_
  cases s.db.latestLedgerInfo with
  | none => exact keeps_pure trivial
  | some li =>
    dsimp only
    split
    · exact sendForExecution_keeps cfg _ _
    · exact keeps_pure trivial

omit [Crypto] in
theorem pathFromOrderedRoot_ok (h : pathFromOrderedRoot s id = .ok path) :
    ∃ rootRound, (pathFromRoot s s.tree.orderedRootId rootRound (s.tree.blocks.length + 1)
      id []).getD [] = path := by
  unfold pathFromOrderedRoot at h
  obtain ⟨root, -, hpath⟩ := except_bind_ok_iff.mp h
  exact ⟨root.block.round, except_pure_ok_iff.mp hpath⟩

theorem sendBlock_keeps (proof : LedgerInfoWithSignatures)
    (hid : id ∈ ids) (next : Option HashValue) :
    Keeps (NumberedWith c ids) (sendBlock proof id next) fun _ => True := by
  refine keeps_get.bind fun s _ => ?_
  split
  · exact keeps_pure trivial
  · refine keeps_check.bind fun path _ => ?_
    split
    · exact keeps_pure trivial
    · refine Keeps.bind (keeps_of_sameNumbers ?_) fun _ _ => ?_
      · exact moves_modify fun _ => ⟨rfl, rfl, rfl, fun _ _ h => h, rfl, rfl⟩
      · refine (keeps_of_sameNumbers pipelineAnswers_sameNumbers).bind fun _ _ => ?_
        refine keeps_check.bind fun _ _ => ?_
        exact (keeps_of_sameNumbers await_sameNumbers).bind fun _ _ => updateOrderedRoot_keeps hid

theorem sendBlocks_keeps (proof : LedgerInfoWithSignatures)
    {rest : List HashValue} (hrest : ∀ id ∈ rest, id ∈ ids) :
    Keeps (NumberedWith c ids) (sendBlocks proof rest) fun _ => True := by
  induction rest with
  | nil => exact keeps_pure trivial
  | cons id rest ih =>
    refine (sendBlock_keeps proof (hrest id List.mem_cons_self) rest.head?).bind fun _ _ => ?_
    exact ih (List.forall_mem_cons.mp hrest).2

theorem Linked.numberedAt (h : Linked s parent path) (hall : ∀ ref ∈ path, NumberedRef s ref) :
    ∀ id ∈ (path.filterMap (s.heap[·]?)).map (·.id), s.NumberedAt id := by
  induction path generalizing parent with
  | nil => simp
  | cons ref rest ih =>
    obtain ⟨b, hb, hget, -, -, hrest⟩ := h
    obtain ⟨p, hp, rfl⟩ : ∃ p, s.heap[ref]? = some p ∧ p.block = b := by
      simpa [NodeState.blocks] using hb
    obtain ⟨href, hall⟩ := List.forall_mem_cons.mp hall
    simp only [List.filterMap_cons, hp, List.map_cons]
    exact List.forall_mem_cons.mpr ⟨href.numberedAt hget, ih hrest hall⟩

theorem sendOrdered_keeps (cfg : NodeConfig) (proof : LedgerInfoWithSignatures) :
    Keeps (c.Numbered []) (sendOrdered cfg proof) fun _ => True := by
  unfold sendOrdered
  split
  · exact keeps_pure trivial
  · refine Triple.bind triple_get fun s => ?_
    refine Triple.bind (triple_check fun t ht => ht.2) fun block => ?_
    refine Triple.bind (triple_check fun t ht => ht.2.2) fun root => ?_
    refine Triple.bind (triple_check fun t ht => ht.2.2.2) fun _ => ?_
    refine Triple.bind (triple_check fun t ht => ht.2.2.2.2) fun path => ?_
    split
    · exact triple_pure fun t ht => ⟨ht.2.2.2.2.2, trivial⟩
    · rename_i hne
      refine Triple.bind (Q := fun _ t => c.Numbered [] t ∧
        ∀ id ∈ (path.filterMap (t.heap[·]?)).map (·.id), t.NumberedAt id) ?_ fun _ => ?_
      · rintro t ⟨hpath, -, -, -, rfl, hs⟩
        obtain ⟨rootRound, hfound⟩ := pathFromOrderedRoot_ok hpath
        obtain ⟨hlinked, hroot, -⟩ := pathFromRoot_ready hs hne hfound
        obtain ⟨s', hrun, hs', htree, hlinked', hall⟩ := initBlockNumber_ok hs hlinked hroot
        rw [hrun]
        exact ⟨hs', hlinked'.numberedAt hall⟩
      · split
        · exact triple_pure fun t ht => ⟨ht.1, trivial⟩
        · refine Triple.bind triple_get fun s' => ?_
          intro t ht
          obtain ⟨rfl, hs'⟩ := ht
          exact Keeps.forget (sendBlocks_keeps proof fun _ h => h) (fun _ h => h.1) _ hs'

end Crypto

end BlockStore

end Liquent
