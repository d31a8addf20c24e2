import Liquent.BlockStorage.RootOrder

/-!
# Blocks are handed to execution once

Each batch that `send_for_execution` hands over leads from the ordered root to a block, and the
ordered root moves there when the call goes on.  Where calls do not overlap, one batch begins where
the last one has ended, whatever is committed and inserted meanwhile: in a row, the batches are a
path from the ordered root at the beginning.
-/

namespace Liquent.BlockStorage

open Misc

section

variable [Crypto] {F : Family} {block : PipelinedBlock} {path : List PipelinedBlock}

theorem Links.round_lt {last : HashValue}
    (h : Links block.id path last) (hblock : F.mem block) (hmem : ∀ b ∈ path, F.mem b) :
    ∀ b ∈ path, block.block.round < b.block.round := by
  induction path generalizing block with
  | nil => exact List.forall_mem_nil _
  | cons next rest ih =>
    have hnext := hmem next List.mem_cons_self
    have hlt := F.rounds block next hblock hnext h.1
    intro b hb
    rcases List.mem_cons.mp hb with rfl | hb
    · exact hlt
    · have hrest := ih h.2 hnext (List.forall_mem_cons.mp hmem).2 b hb
      omega

theorem Links.nodup {first last : HashValue} (h : Links first path last)
    (hmem : ∀ b ∈ path, F.mem b) : (path.map (·.id)).Nodup := by
  induction path generalizing first with
  | nil => exact List.nodup_nil
  | cons block rest ih =>
    have hblock := hmem block List.mem_cons_self
    have hrest := (List.forall_mem_cons.mp hmem).2
    rw [List.map_cons, List.nodup_cons]
    refine ⟨?_, ih h.2 hrest⟩
    intro hid
    obtain ⟨b, hb, heq⟩ := List.mem_map.mp hid
    have hlt := h.2.round_lt hblock hrest b hb
    have hsame := F.unique b block (hrest b hb) hblock heq
    omega

/-! ## The tree -/

namespace BlockTree

variable {tree : BlockTree}

/-- Blocks may leave the tree, and the ordered root stays. -/
def Shrinks (tree tree' : BlockTree) : Prop :=
  (∀ id block, tree'.idToBlock.get id = some block → tree.idToBlock.get id = some block) ∧
    tree'.orderedRootId = tree.orderedRootId

instance : IsPreorder BlockTree Shrinks where
  refl _ := ⟨fun _ _ h => h, rfl⟩
  trans _ _ _ h h' := ⟨fun id block hget => h.1 id block (h'.1 id block hget), h'.2.trans h.2⟩

omit [Crypto] in
theorem processPrunedBlocks_shrinks (newlyPruned : List (Nat × HashValue)) :
    Shrinks tree (tree.processPrunedBlocks newlyPruned) := by
  unfold processPrunedBlocks
  refine ⟨?_, (removeOldest_sameRoots _ _).1⟩
  intro id block hget
  rw [(removeOldest_spec (Nat.sub_le ..)).2] at hget
  split at hget
  · cases hget
  · exact hget

omit [Crypto] in
theorem updateHighestCommitCert_shrinks (cert : WrappedLedgerInfo) :
    Moves Shrinks (updateHighestCommitCert cert) := by
  unfold updateHighestCommitCert
  refine moves_get.bind fun tree => ?_
  split
  · refine Moves.bind (moves_modify fun t => ⟨fun _ _ h => h, rfl⟩) fun _ => ?_
    unfold updateCommitAndFinalizedRoot
    refine moves_get.bind fun tree => (moves_check _).bind fun block => ?_
    exact moves_modify fun t => ⟨fun _ _ h => h, rfl⟩
  · exact moves_pure _

theorem commitCallback_shrinks [LedgerApi] (blocks : List PipelinedBlock)
    (proof : WrappedLedgerInfo)
    (decision : LedgerInfoWithSignatures) : Moves Shrinks
    (commitCallback blocks proof decision) := by
  unfold commitCallback
  refine (moves_check _).bind fun last => moves_get.bind fun tree =>
    (moves_check _).bind fun root => ?_
  split
  · exact moves_pure _
  · refine (moves_check _).bind fun commitProof =>
      (moves_check _).bind fun ids => Moves.bind ?_ fun _ =>
      updateHighestCommitCert_shrinks commitProof
    exact moves_modify fun t => processPrunedBlocks_shrinks _

theorem FromFamily.of_shrinks (h : tree.FromFamily F) {tree' : BlockTree}
    (hshrinks : Shrinks tree tree') :
    tree'.FromFamily F :=
  ⟨fun id block hget => h.keyed id block (hshrinks.1 id block hget),
    fun id block hget => h.mem id block (hshrinks.1 id block hget)⟩

theorem FromFamily.put (h : tree.FromFamily F) (linkable : LinkableBlock)
    (hmem : F.mem linkable.executedBlock) :
    { tree with
      idToBlock := tree.idToBlock.put linkable.executedBlock.id linkable }.FromFamily F := by
  constructor
  · intro id block hget
    rw [Table.get_put] at hget
    split at hget
    · rename_i hid
      rw [hid, Option.some.inj hget]
    · exact h.keyed id block hget
  · intro id block hget
    rw [Table.get_put] at hget
    split at hget
    · rw [← Option.some.inj hget]
      exact hmem
    · exact h.mem id block hget

/-- The blocks come from the family, and the ordered root is given. -/
def Rooted (F : Family) (rootId : HashValue) (tree : BlockTree) : Prop :=
  tree.FromFamily F ∧ tree.orderedRootId = rootId

theorem insertBlock_rooted {genesisBlockId rootId : HashValue} (hblock : F.mem block) :
    Keeps (Rooted F rootId) (insertBlock genesisBlockId block) fun _ => True := by
  apply insertBlock_keeps
  · intro t ht
    unfold updateHead
    split
    · exact ht
    · exact ⟨⟨ht.1.keyed, ht.1.mem⟩, ht.2⟩
  · intro read t parent hread ht hparent
    rw [← hread.1.keyed _ parent hparent]
    exact ⟨ht.1.put ⟨parent.executedBlock, parent.children ++ [block.id]⟩
      (hread.1.mem _ parent hparent), ht.2⟩
  · exact fun t ht => ⟨ht.1.put ⟨block, []⟩ hblock, ht.2⟩

theorem insertQuorumCert_rooted {rootId : HashValue} (qc : QuorumCert) :
    Keeps (Rooted F rootId) (insertQuorumCert qc) fun _ => True := by
  apply (insertQuorumCert_sameBlocks qc).keeps
  rintro t t' ⟨hblocks, -, hroot, -⟩ ⟨ht, hordered⟩
  cases t'
  subst hblocks
  exact ⟨{ ht with }, hroot.trans hordered⟩

end BlockTree

/-! ## Runs -/

namespace LiveStore

variable {s : LiveStore} {call : Nat} {finalityProof : WrappedLedgerInfo} {first : HashValue}

/-- The blocks that were passed to `finalize_order`, in this order. -/
def sent (s : LiveStore) : List PipelinedBlock := s.passed.flatMap (·.blocks)

/-- The blocks passed to `finalize_order` are a path from the first root, each once, and the proof
of a batch commits its last block. -/
structure SentOnce (first : HashValue) (s : LiveStore) : Prop where
  path : ∃ last, Links first s.sent last
  nodup : (s.sent.map (·.id)).Nodup
  proofs : ∀ batch ∈ s.passed, ∃ last, batch.blocks.getLast? = some last ∧
    batch.proof.commitInfo.id = last.id

/-- The path has come to the block that a call waits for, and otherwise to the ordered root. -/
structure Reaches (first : HashValue) (s : LiveStore) : Prop where
  serial : s.Serial
  awaits : ∀ call blockId batch, s.Awaits call blockId batch → Links first s.sent blockId
  root : (∀ call blockId batch, ¬ s.Awaits call blockId batch) →
    Links first s.sent s.tree.orderedRootId

/-- What holds at every point of a run. -/
structure Delivering (F : Family) (first : HashValue) (s : LiveStore) : Prop where
  tree : s.tree.FromFamily F
  mem : ∀ block ∈ s.sent, F.mem block
  path : ∃ last, Links first s.sent last
  proofs : ∀ batch ∈ s.passed, ∃ last, batch.blocks.getLast? = some last ∧
    batch.proof.commitInfo.id = last.id
  live : s.panic = none → s.Reaches first

/-- A call begins when no other is under way; blocks come from the family. -/
def CallsApart (F : Family) (s : LiveStore) : LiveStep → Prop
  | .start _ _ => ∀ call, s.sends.get call = none
  | .insertBlock block => F.mem block
  | .iterate _ _ | .resume _ | .commit _ _ _ | .insertQuorumCert _ => True

theorem Reaches.setLooping (h : s.Reaches first) (hquiet : s.Quiet call)
    (rest : List PipelinedBlock) :
    (s.setStage call finalityProof (.looping rest)).Reaches first := by
  refine ⟨hquiet.alone.setStage _, ?_, fun _ => h.root hquiet.none⟩
  intro call' blockId batch hawaits
  obtain ⟨-, _, _, _, -, hstage⟩ := hquiet.alone.awaits_setStage hawaits
  cases hstage

theorem Delivering.fail (h : s.Delivering F first) (message : String) :
    (s.fail message).Delivering F first :=
  ⟨h.tree, h.mem, h.path, h.proofs, fun hnone => by cases hnone⟩

variable {proof : WrappedLedgerInfo}

/-- A batch from the ordered root goes on where the path has come to. -/
theorem Delivering.pass (h : s.Delivering F first) (hpanic : s.panic = none) (hquiet : s.Quiet call)
    (hlinks : Links s.tree.orderedRootId path block.id) (hmem : ∀ b ∈ path, F.mem b)
    (hne : path ≠ [])
    (hproof : proof.commitInfo.id = block.id) {s' : LiveStore} (htree : s'.tree = s.tree)
    (hpassed : s'.passed = s.passed ++ [⟨path, proof⟩])
    (hlive : Links first s'.sent block.id → s'.panic = none → s'.Reaches first) :
    s'.Delivering F first := by
  have hsent : s'.sent = s.sent ++ path := by simp [LiveStore.sent, hpassed]
  have hpath : Links first s'.sent block.id := by
    rw [hsent]
    exact ((h.live hpanic).root hquiet.none).append hlinks
  refine ⟨htree ▸ h.tree, ?_, ⟨_, hpath⟩, ?_, hlive hpath⟩
  · rw [hsent]
    exact fun b hb => (List.mem_append.mp hb).elim (h.mem b) (hmem b)
  · rw [hpassed]
    apply forall_mem_snoc h.proofs
    have hlast := List.getLast?_eq_some_getLast hne
    exact ⟨_, hlast, hproof.trans (hlinks.last_id hlast).symm⟩

variable {rest : List PipelinedBlock}

theorem Quiet.reaches (hquiet : s.Quiet call) {passed handed : List Batch}
    {stamped : List HashValue} {place : Option Nat}
    (h : Links first (passed.flatMap (·.blocks)) block.id) :
    (setStage { s with passed, stamped, handed } call finalityProof
      (.awaiting block proof place rest)).Reaches first := by
  have halone : Alone { s with passed, stamped, handed } call := hquiet.alone
  refine ⟨halone.setStage _, ?_, ?_⟩
  · intro call' blockId batch hawaits
    obtain ⟨-, _, _, _, rfl, hstage⟩ := halone.awaits_setStage hawaits
    cases hstage
    exact h
  · intro hnone
    exact absurd ⟨finalityProof, block, proof, rest, rfl, Table.get_put_self⟩
      (hnone call block.id place)

section

variable (h : s.Delivering F first) (hpanic : s.panic = none)

include h hpanic

theorem Delivering.resume {batch : Option Nat}
    (hcall : s.sends.get call = some ⟨finalityProof, .awaiting block proof batch rest⟩) :
    ((s.setTree ({ s.tree with orderedRootId := block.id }.insertOrderedCert proof)).setStage call
      finalityProof (.looping rest)).Delivering F first := by
  have hlive := h.live hpanic
  have halone : s.Alone call := hlive.serial.alone (by simp [hcall])
  have hmoved : ∀ tree' : BlockTree, tree'.idToBlock = s.tree.idToBlock →
      tree'.orderedRootId = block.id →
      ((s.setTree tree').setStage call finalityProof (.looping rest)).Delivering F first := by
    intro tree' hblocks hroot
    have halone' : (s.setTree tree').Alone call := halone
    refine ⟨⟨?_, ?_⟩, h.mem, h.path, h.proofs, fun _ => ⟨halone'.setStage _, ?_, fun _ => ?_⟩⟩
    · exact fun id b hget => h.tree.keyed id b (hblocks ▸ hget)
    · exact fun id b hget => h.tree.mem id b (hblocks ▸ hget)
    · intro call' blockId batch' hawaits
      obtain ⟨-, _, _, _, -, hstage⟩ := halone'.awaits_setStage hawaits
      cases hstage
    · change Links first s.sent tree'.orderedRootId
      rw [hroot]
      exact hlive.awaits call block.id batch ⟨_, _, _, _, rfl, hcall⟩
  unfold BlockTree.insertOrderedCert
  split
  · exact hmoved _ rfl rfl
  · exact hmoved _ rfl rfl

theorem Delivering.onTree {α : Type} {op : TreeM α}
    (hop : BlockTree.Rooted F s.tree.orderedRootId (finalState (op s.tree))) :
    (s.onTree op).Delivering F first := by
  have hlive := h.live hpanic
  have hmoved : ∀ tree' : BlockTree, BlockTree.Rooted F s.tree.orderedRootId tree' →
      (s.setTree tree').Delivering F first := by
    intro tree' hrooted
    refine ⟨hrooted.1, h.mem, h.path, h.proofs, fun _ => ⟨hlive.serial, hlive.awaits, ?_⟩⟩
    intro hnone
    change Links first s.sent tree'.orderedRootId
    rw [hrooted.2]
    exact hlive.root hnone
  unfold LiveStore.onTree
  cases hresult : op s.tree with
  | ok a tree' =>
    rw [hresult] at hop
    exact hmoved tree' hop
  | error e tree' =>
    rw [hresult] at hop
    cases e with
    | error message => exact hmoved tree' hop
    | panic message => exact (hmoved tree' hop).fail message

end

variable [LedgerApi] {genesisBlockId : HashValue}

theorem Delivering.step (h : s.Delivering F first) {input : LiveStep}
    (hadm : s.CallsApart F input) :
    (LiveStore.step genesisBlockId s input).2.Delivering F first := by
  have hrooted : BlockTree.Rooted F s.tree.orderedRootId s.tree := ⟨h.tree, rfl⟩
  have hstart : ∀ call finalityProof, input = .start call finalityProof →
      ∀ c, s.sends.get c = none := by
    rintro call finalityProof rfl
    exact hadm
  rcases step_effect (fun hpanic => (h.live hpanic).serial) hstart with hsame | ⟨hpanic, heffect⟩
  · rw [hsame]
    exact h
  have hlive := h.live hpanic
  generalize (LiveStore.step genesisBlockId s input).2 = s' at heffect ⊢
  cases heffect with
  | fail => exact ⟨h.tree, h.mem, h.path, h.proofs, fun hnone => by cases hnone⟩
  | loop hquiet =>
    exact ⟨h.tree, h.mem, h.path, h.proofs, fun _ => hlive.setLooping hquiet _⟩
  | finish hquiet =>
    obtain ⟨hserial, hawaits⟩ := hlive.serial.remove _
    refine ⟨h.tree, h.mem, h.path, h.proofs, fun _ =>
      ⟨hserial, ?_, fun _ => hlive.root hquiet.none⟩⟩
    exact fun call' blockId batch hw => hlive.awaits call' blockId batch (hawaits _ _ _ hw)
  | refuse hquiet hpath hne hproof =>
    obtain ⟨hlinks, hmem⟩ := BlockTree.pathFromOrderedRoot_links h.tree hpath
    exact h.pass hpanic hquiet hlinks hmem hne hproof rfl rfl fun _ hnone => by cases hnone
  | handOver hquiet hpath hne hproof =>
    obtain ⟨hlinks, hmem⟩ := BlockTree.pathFromOrderedRoot_links h.tree hpath
    exact h.pass hpanic hquiet hlinks hmem hne hproof rfl rfl fun hlinks _ => hquiet.reaches hlinks
  | resume hcall => exact h.resume hpanic hcall
  | @commit k batch earlier decision =>
    have hmoves := BlockTree.commitCallback_shrinks (earlier ++ batch.blocks) batch.proof
      decision s.tree
    exact h.onTree hpanic ⟨h.tree.of_shrinks hmoves, hmoves.2⟩
  | insertBlock block =>
    exact h.onTree hpanic ((BlockTree.insertBlock_rooted hadm).finalState hrooted)
  | insertQuorumCert qc =>
    exact h.onTree hpanic ((BlockTree.insertQuorumCert_rooted qc).finalState hrooted)

/-- In a run in which calls do not overlap, every block is handed over once. -/
theorem run_sentOnce (htree : s.tree.FromFamily F) (hsends : s.sends = []) (hpassed : s.passed = [])
    {inputs : List LiveStep}
    (hrun : AlongRun (LiveStore.step genesisBlockId) (CallsApart F) s inputs) :
    (run (LiveStore.step genesisBlockId) s inputs).2.SentOnce s.tree.orderedRootId := by
  have hsent : s.sent = [] := by simp [LiveStore.sent, hpassed]
  have hstart : s.Delivering F s.tree.orderedRootId := by
    have hnone : ∀ c, s.sends.get c = none := by simp [hsends, Table.get_nil]
    refine ⟨htree, ?_, ?_, ?_, fun _ => ⟨fun c _ hc => absurd (hnone c) hc, ?_, fun _ => ?_⟩⟩
    · rw [hsent]
      exact List.forall_mem_nil _
    · rw [hsent]
      exact ⟨_, rfl⟩
    · rw [hpassed]
      exact List.forall_mem_nil _
    · exact fun c blockId batch hw => absurd hw ((quiet_of_none hnone c).none _ _ _)
    · rw [hsent]
      rfl
  have hend : (run (LiveStore.step genesisBlockId) s inputs).2.Delivering F s.tree.orderedRootId :=
    AlongRun.invariant (I := Delivering F s.tree.orderedRootId)
      (fun s input hadm h => Delivering.step h hadm) hrun hstart
  obtain ⟨last, hlinks⟩ := hend.path
  exact ⟨⟨last, hlinks⟩, hlinks.nodup hend.mem, hend.proofs⟩

end LiveStore

end

/-! ## Two calls at once -/

namespace SmallTree

attribute [local instance] crypto ledger

/-- One call after the other: the second finds the block already ordered. -/
theorem twoBlocks_sentOnce :
    (run (LiveStore.step 0) twoBlocks [.start 0 (finality 2), .iterate 0 .connected, .resume 0,
      .iterate 0 .connected, .start 1 (finality 2)]).2.SentOnce 1 := by
  have hadm : AlongRun (LiveStore.step 0) (LiveStore.CallsApart twoBlocksFamily) twoBlocks
      [.start 0 (finality 2), .iterate 0 .connected, .resume 0, .iterate 0 .connected,
        .start 1 (finality 2)] :=
    ⟨fun _ => rfl, trivial, trivial, trivial, fun _ => rfl, trivial⟩
  exact LiveStore.run_sentOnce twoBlocks_rootsOrdered.toFromFamily rfl rfl hadm

/-- The second call begins before the ordered root has moved: `finalize_order` gets block 2 twice,
and the second time it panics. -/
theorem block_sent_twice :
    let s := (run (LiveStore.step 0) twoBlocks
      [.start 0 (finality 2), .start 1 (finality 2), .iterate 0 .connected,
        .iterate 1 .connected]).2
    s.panic = some "assertion failed: self.pipeline_insertion_time.set(Instant::now()).is_ok()" ∧
      s.sent = [proposal 2 1, proposal 2 1] ∧ ¬ s.SentOnce 1 :=
  ⟨rfl, rfl, fun h => absurd h.nodup (by decide +kernel)⟩

end SmallTree

end Liquent.BlockStorage
