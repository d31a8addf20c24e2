import Liquent.BlockStorage.LiveSend
import Liquent.BlockStorage.Pruning

/-!
# The commit root and the ordered root

The ordered root moves to the end of a batch only after the batch has been handed to the execution
pipeline, and the commit root moves when the batch is committed.  Where the calls of
`send_for_execution` do not overlap, and no batch is committed before its call goes on, the commit
root stays an ancestor of the ordered root.
-/

namespace Liquent.BlockStorage

open Misc Relation

section

variable [Crypto]

/-! ## Blocks and their ancestors -/

/-- The blocks that may come up. An identifier stands for one parent and one round, and a block has
a higher round than its parent. -/
structure Family where
  mem : PipelinedBlock → Prop
  unique : ∀ a b, mem a → mem b → a.id = b.id →
    a.block.parentId = b.block.parentId ∧ a.block.round = b.block.round
  rounds : ∀ parent child, mem parent → mem child → child.block.parentId = parent.id →
    parent.block.round < child.block.round

variable {block : PipelinedBlock} {id : HashValue}

namespace Family

variable {F : Family}

/-- Some block with the second identifier has the first one as its parent. -/
def Child (F : Family) (parentId id : HashValue) : Prop :=
  ∃ block, F.mem block ∧ block.id = id ∧ block.block.parentId = parentId

/-- A block or one of its ancestors. -/
def Ancestor (F : Family) : HashValue → HashValue → Prop := ReflTransGen F.Child

variable {a : HashValue} {b : HashValue}

theorem Child.parent_unique (ha : F.Child a id) (hb : F.Child b id) : a = b := by
  obtain ⟨block, hmem, rfl, rfl⟩ := ha
  obtain ⟨block', hmem', hid, rfl⟩ := hb
  exact (F.unique block block' hmem hmem' hid.symm).1

theorem Ancestor.of_child {parentId : HashValue} (h : F.Ancestor a id)
    (hchild : F.Child parentId id) : a = id ∨ F.Ancestor a parentId := by
  cases h with
  | refl => exact .inl rfl
  | tail hanc hstep =>
    rw [hchild.parent_unique hstep]
    exact .inr hanc

theorem Ancestor.total (ha : F.Ancestor a id) (hb : F.Ancestor b id) :
    F.Ancestor a b ∨ F.Ancestor b a := by
  induction ha with
  | refl => exact .inr hb
  | tail hanc hstep ih =>
    rcases hb.of_child hstep with rfl | hb
    · exact .inl (hanc.tail hstep)
    · exact ih hb

theorem Ancestor.round_lt (h : F.Ancestor a b) (hne : a ≠ b)
    {block' : PipelinedBlock} (ha : F.mem block) (hb : F.mem block') (hid : block.id = a)
    (hid' : block'.id = b) : block.block.round < block'.block.round := by
  induction h generalizing block' with
  | refl => exact absurd rfl hne
  | @tail parentId id hanc hstep ih =>
    obtain ⟨child, hchild, rfl, hparent⟩ := hstep
    obtain ⟨hparent', hround⟩ := F.unique block' child hb hchild hid'
    rw [hround]
    -- the parent itself need not be a block that comes up, unless it is the ancestor
    cases hanc with
    | refl => exact F.rounds block child ha hchild (hparent.trans hid.symm)
    | tail hanc' hstep' =>
      obtain ⟨parent, hparentMem, hparentId, hgrand⟩ := hstep'
      have hlt := F.rounds parent child hparentMem hchild (hparent.trans hparentId.symm)
      by_cases heq : a = parentId
      · have hsame := F.unique block parent ha hparentMem (hid.trans (heq.trans hparentId.symm))
        omega
      · have hgrow := ih heq hparentMem hparentId
        omega

theorem Ancestor.round_le (h : F.Ancestor a b) {block' : PipelinedBlock}
    (ha : F.mem block) (hb : F.mem block') (hid : block.id = a) (hid' : block'.id = b) :
    block.block.round ≤ block'.block.round := by
  by_cases hne : a = b
  · have hsame := F.unique block block' ha hb (hid.trans (hne.trans hid'.symm))
    omega
  · exact Nat.le_of_lt (h.round_lt hne ha hb hid hid')

end Family

/-- The blocks lead from one block, which is not among them, to another, each the parent of the
next. -/
def Links : HashValue → List PipelinedBlock → HashValue → Prop
  | first, [], last => first = last
  | first, block :: rest, last => block.block.parentId = first ∧ Links block.id rest last

variable {path rest : List PipelinedBlock}

theorem Links.append {first mid last : HashValue}
    (h : Links first path mid) (hrest : Links mid rest last) : Links first (path ++ rest) last := by
  induction path generalizing first with
  | nil =>
    obtain rfl : first = mid := h
    exact hrest
  | cons block path ih => exact ⟨h.1, ih h.2⟩

theorem Links.ancestor {F : Family} {first last : HashValue}
    (h : Links first path last) (hmem : ∀ block ∈ path, F.mem block) : F.Ancestor first last := by
  induction path generalizing first with
  | nil =>
    obtain rfl : first = last := h
    exact .refl
  | cons block path ih =>
    obtain ⟨hparent, hrest⟩ := h
    have hchild : F.Child first block.id := ⟨block, hmem block List.mem_cons_self, rfl, hparent⟩
    exact .head hchild (ih hrest (List.forall_mem_cons.mp hmem).2)

theorem Links.last_id {first last : HashValue}
    (h : Links first path last) (hlast : path.getLast? = some block) :
    block.id = last := by
  induction path generalizing first with
  | nil => cases hlast
  | cons head path ih =>
    cases path with
    | nil =>
      obtain rfl := Option.some.inj hlast
      exact h.2
    | cons next rest => exact ih h.2 (by simpa using hlast)

/-! ## Trees whose roots are in order -/

variable {proof : WrappedLedgerInfo}

namespace BlockTree

/-- The blocks come from the family. -/
structure FromFamily (F : Family) (tree : BlockTree) : Prop where
  keyed : ∀ id block, tree.idToBlock.get id = some block → block.executedBlock.id = id
  mem : ∀ id block, tree.idToBlock.get id = some block → F.mem block.executedBlock

/-- The links of the blocks agree with the family; the commit root is an ancestor of the ordered
root, and no pruned block is below the commit root. -/
structure RootsOrdered (F : Family) (tree : BlockTree) : Prop extends FromFamily F tree where
  children : ∀ id block, tree.idToBlock.get id = some block → ∀ childId ∈ block.children,
    F.Child id childId
  orderedRoot : tree.blockExists tree.orderedRootId = true
  commitRoot : tree.blockExists tree.commitRootId = true
  roots : F.Ancestor tree.commitRootId tree.orderedRootId
  pruned : ∀ id ∈ tree.prunedBlockIds, ¬ F.Ancestor tree.commitRootId id

variable {F : Family} {tree tree' : BlockTree}

omit [Crypto] in
theorem blockExists_iff :
    tree.blockExists id = true ↔ ∃ block, tree.idToBlock.get id = some block :=
  Option.isSome_iff_exists

omit [Crypto] in
theorem getBlock_eq_some : tree.getBlock id = some block ↔
      ∃ linkable, tree.idToBlock.get id = some linkable ∧ linkable.executedBlock = block :=
  Option.map_eq_some_iff

theorem FromFamily.mem_of_getBlock (h : tree.FromFamily F)
    (hget : tree.getBlock id = some block) : F.mem block ∧ block.id = id := by
  obtain ⟨linkable, hlinkable, rfl⟩ := getBlock_eq_some.mp hget
  exact ⟨h.mem id linkable hlinkable, h.keyed id linkable hlinkable⟩

namespace RootsOrdered

/-- Only the blocks, the two roots and the pruned blocks matter. -/
theorem congr (h : tree.RootsOrdered F) (hblocks : tree'.idToBlock = tree.idToBlock)
    (hordered : tree'.orderedRootId = tree.orderedRootId)
    (hcommit : tree'.commitRootId = tree.commitRootId)
    (hpruned : tree'.prunedBlockIds = tree.prunedBlockIds) : tree'.RootsOrdered F := by
  cases tree'
  subst hblocks hordered hcommit hpruned
  exact { h with }

theorem put (h : tree.RootsOrdered F) (linkable : LinkableBlock)
    (hmem : F.mem linkable.executedBlock)
    (hchildren : ∀ childId ∈ linkable.children, F.Child linkable.executedBlock.id childId) :
    { tree with
      idToBlock := tree.idToBlock.put linkable.executedBlock.id linkable }.RootsOrdered F := by
  have hexists : ∀ id, tree.blockExists id = true →
      ((tree.idToBlock.put linkable.executedBlock.id linkable).get id).isSome = true := by
    intro id hid
    rw [Table.get_put]
    split
    · rfl
    · exact hid
  exact ⟨⟨Table.forall_get_put h.keyed rfl, Table.forall_get_put h.mem hmem⟩,
    Table.forall_get_put h.children hchildren, hexists _ h.orderedRoot, hexists _ h.commitRoot,
    h.roots, h.pruned⟩

theorem updateHead (h : tree.RootsOrdered F) (block : PipelinedBlock) :
    (tree.updateHead block).RootsOrdered F := by
  unfold BlockTree.updateHead
  split
  · exact h
  · exact h.congr rfl rfl rfl rfl

end RootsOrdered

/-! ### Operations that leave the roots -/

/-- The roots and the commit certificate stay as they are. -/
def SameRoots (tree tree' : BlockTree) : Prop :=
  tree'.orderedRootId = tree.orderedRootId ∧ tree'.commitRootId = tree.commitRootId ∧
    tree'.highestCommitCert = tree.highestCommitCert

instance : IsPreorder BlockTree SameRoots where
  refl _ := ⟨rfl, rfl, rfl⟩
  trans _ _ _ h h' := ⟨h'.1.trans h.1, h'.2.1.trans h.2.1, h'.2.2.trans h.2.2⟩

/-- The blocks stay as they are too. -/
def SameBlocks (tree tree' : BlockTree) : Prop :=
  tree'.idToBlock = tree.idToBlock ∧ tree'.prunedBlockIds = tree.prunedBlockIds ∧
    SameRoots tree tree'

instance : IsPreorder BlockTree SameBlocks where
  refl _ := ⟨rfl, rfl, rfl, rfl, rfl⟩
  trans _ _ _ h h' := ⟨h'.1.trans h.1, h'.2.1.trans h.2.1, trans_of SameRoots h.2.2 h'.2.2⟩

theorem insertQuorumCert_sameBlocks (qc : QuorumCert) : Moves SameBlocks (insertQuorumCert qc) := by
  unfold insertQuorumCert
  refine moves_get.bind fun tree => (moves_check _).bind fun block => Moves.bind ?_ fun _ => ?_
  · unfold updateHighestCertified
    refine moves_get.bind fun tree => (moves_check _).bind fun highest => ?_
    split
    · exact moves_modify fun t => ⟨rfl, rfl, rfl, rfl, rfl⟩
    · exact moves_pure _
  · exact moves_modify fun t => ⟨rfl, rfl, rfl, rfl, rfl⟩

section

variable {genesisBlockId : HashValue} {block : PipelinedBlock}

/-- An insertion sets the head, adds the block to the children of its parent as it was read, and
adds the block. -/
theorem insertBlock_keeps {I : BlockTree → Prop} (hhead : ∀ t, I t → I (t.updateHead block))
    (hlink : ∀ read t parent, I read → I t → read.idToBlock.get block.block.parentId = some parent →
      I { t with
        idToBlock := t.idToBlock.put block.block.parentId
          ⟨parent.executedBlock, parent.children ++ [block.id]⟩ })
    (hput : ∀ t, I t → I { t with idToBlock := t.idToBlock.put block.id ⟨block, []⟩ }) :
    Keeps I (insertBlock genesisBlockId block) fun _ => True := by
  unfold insertBlock
  refine (keeps_modify hhead).bind fun _ _ => keeps_get.bind fun tree _ => ?_
  cases tree.getBlock block.id with
  | some existing => exact keeps_check.bind fun _ _ => keeps_pure trivial
  | none =>
    refine Keeps.bind (Q := fun _ => True) ?_ fun _ _ =>
      Keeps.bind (keeps_modify hput) fun _ _ => keeps_pure trivial
    unfold linkToParent
    refine keeps_get.bind fun read hread => ?_
    cases hparent : read.idToBlock.get block.block.parentId with
    | none =>
      exact Triple.weaken keeps_check (fun _ h => h) (fun _ _ h => ⟨h.1, trivial⟩) fun _ h => h
    | some parent =>
      refine keeps_check.bind fun _ _ => ?_
      exact keeps_modify fun t ht => hlink read t parent hread ht hparent

variable {start : BlockTree}

/-- The roots are in order, and they are those of another tree. -/
def Keeping (F : Family) (start tree : BlockTree) : Prop :=
  tree.RootsOrdered F ∧ SameRoots start tree

theorem insertBlock_keeping (hblock : F.mem block) :
    Keeps (Keeping F start) (insertBlock genesisBlockId block) fun _ => True := by
  apply insertBlock_keeps
  · intro t ht
    refine ⟨ht.1.updateHead block, ?_⟩
    unfold updateHead
    split
    · exact ht.2
    · exact ht.2
  · intro read t parent hread ht hparent
    have hid := hread.1.keyed _ parent hparent
    rw [← hid]
    refine ⟨ht.1.put ⟨parent.executedBlock, parent.children ++ [block.id]⟩
      (hread.1.mem _ parent hparent) ?_, ht.2⟩
    refine forall_mem_snoc ?_ ⟨block, hblock, rfl, hid.symm⟩
    rw [hid]
    exact hread.1.children _ parent hparent
  · intro t ht
    exact ⟨ht.1.put ⟨block, []⟩ hblock (List.forall_mem_nil _), ht.2⟩

theorem insertQuorumCert_keeping (qc : QuorumCert) :
    Keeps (Keeping F start) (insertQuorumCert qc) fun _ => True := by
  apply (insertQuorumCert_sameBlocks qc).keeps
  rintro t t' ⟨hblocks, hpruned, hroots⟩ ⟨ht, hstart⟩
  exact ⟨ht.congr hblocks hroots.1 hroots.2.1 hpruned, trans_of SameRoots hstart hroots⟩

end

theorem RootsOrdered.moveOrderedRoot (h : tree.RootsOrdered F) {rootId : HashValue}
    (hexists : tree.blockExists rootId = true) (hanc : F.Ancestor tree.orderedRootId rootId)
    (proof : WrappedLedgerInfo) :
    ({ tree with orderedRootId := rootId }.insertOrderedCert proof).RootsOrdered F := by
  have hmoved : { tree with orderedRootId := rootId }.RootsOrdered F :=
    ⟨⟨h.keyed, h.mem⟩, h.children, hexists, h.commitRoot, h.roots.trans hanc, h.pruned⟩
  unfold insertOrderedCert
  split
  · exact hmoved.congr rfl rfl rfl rfl
  · exact hmoved

/-! ### The path from the ordered root -/

/-- What the walk finds before the blocks it has leads from the root to them. -/
theorem pathFromRootToBlock_links (h : tree.FromFamily F) {rootId : HashValue}
    {rootRound fuel : Nat} {found : List PipelinedBlock}
    (hpath : tree.pathFromRootToBlock rootId rootRound fuel id found = some (some path)) :
    ∃ earlier, path = earlier ++ found ∧ Links rootId earlier id ∧
      ∀ block ∈ earlier, F.mem block := by
  induction fuel generalizing id found with
  | zero => cases hpath
  | succ fuel ih =>
    unfold pathFromRootToBlock at hpath
    cases hget : tree.getBlock id with
    | none =>
      rw [hget] at hpath
      cases hpath
    | some block =>
      simp only [hget] at hpath
      obtain ⟨hmem, hid⟩ := h.mem_of_getBlock hget
      split_ifs at hpath with hround hroot
      · subst hroot
        cases hpath
        exact ⟨[], rfl, rfl, List.forall_mem_nil _⟩
      · cases hpath
      · obtain ⟨earlier, rfl, hlinks, hearlier⟩ := ih hpath
        exact ⟨earlier ++ [block], by simp, hlinks.append ⟨rfl, hid⟩, forall_mem_snoc hearlier hmem⟩

theorem pathFromOrderedRoot_links (h : tree.FromFamily F)
    (hpath : tree.pathFromOrderedRoot id = .ok (some path)) :
    Links tree.orderedRootId path id ∧ ∀ block ∈ path, F.mem block := by
  unfold pathFromOrderedRoot at hpath
  obtain ⟨root, -, hpath⟩ := except_bind_ok_iff.mp hpath
  obtain ⟨earlier, rfl, hlinks, hmem⟩ :=
    pathFromRootToBlock_links h (Option.join_eq_some_iff.mp (except_pure_ok_iff.mp hpath))
  rw [List.append_nil]
  exact ⟨hlinks, hmem⟩

/-! ### Commits -/

section

variable {nextRootId : HashValue}

/-- A block that the search reaches is not below the new root. -/
theorem RootsOrdered.not_ancestor_of_reached (h : tree.RootsOrdered F)
    (hnext : ¬ F.Ancestor nextRootId tree.commitRootId)
    (hreached : BelowCut tree.childrenOf nextRootId tree.commitRootId id) :
    ¬ F.Ancestor nextRootId id := by
  induction hreached with
  | refl => exact hnext
  | @tail parentId id _ hstep ih =>
    obtain ⟨hchild, hne⟩ := hstep
    obtain ⟨block, hget, hmem⟩ := mem_childrenOf.mp hchild
    intro hanc
    rcases hanc.of_child (h.children parentId block hget id hmem) with heq | hparent
    · exact hne heq.symm
    · exact ih hparent

/-- The tree after pruning: blocks that are not below the new root may have left. -/
structure Pruned (F : Family) (nextRootId : HashValue) (tree after : BlockTree) : Prop where
  blocks : ∀ id block, after.idToBlock.get id = some block → tree.idToBlock.get id = some block
  kept : ∀ id, F.Ancestor nextRootId id → after.idToBlock.get id = tree.idToBlock.get id
  pruned : ∀ id ∈ after.prunedBlockIds, ¬ F.Ancestor nextRootId id
  roots : SameRoots tree after

omit [Crypto] in
theorem removeOldest_sameRoots (n : Nat) (tree : BlockTree) :
    SameRoots tree (removeOldest n tree) := by
  induction n generalizing tree with
  | zero => exact ⟨rfl, rfl, rfl⟩
  | succ n ih =>
    unfold removeOldest
    split
    · exact ih tree
    · exact ih _

theorem processPrunedBlocks_pruned {newlyPruned : List (Nat × HashValue)}
    (hold : ∀ id ∈ tree.prunedBlockIds, ¬ F.Ancestor nextRootId id)
    (hnew : ∀ e ∈ newlyPruned, ¬ F.Ancestor nextRootId e.2) :
    Pruned F nextRootId tree (tree.processPrunedBlocks newlyPruned) := by
  have hall : ∀ id ∈ tree.prunedBlockIds ++ newlyPruned.map (·.2), ¬ F.Ancestor nextRootId id :=
    List.forall_mem_append.mpr ⟨hold, List.forall_mem_map.mpr hnew⟩
  unfold processPrunedBlocks
  obtain ⟨hdrop, hget⟩ := @removeOldest_spec
    { tree with prunedBlockIds := tree.prunedBlockIds ++ newlyPruned.map (·.2) }
    ((tree.prunedBlockIds ++ newlyPruned.map (·.2)).length - tree.maxPrunedBlocksInMem)
    (Nat.sub_le ..)
  constructor
  · intro id block hblock
    rw [hget] at hblock
    split at hblock
    · cases hblock
    · exact hblock
  · intro id hanc
    rw [hget, if_neg fun hmem => hall id (List.mem_of_mem_take hmem) hanc]
  · intro id hid
    rw [hdrop] at hid
    exact hall id (List.mem_of_mem_drop hid)
  · exact removeOldest_sameRoots _ _

/-- After pruning the new root can become the commit root, if the ordered root is below it. -/
theorem RootsOrdered.commitTo (h : tree.RootsOrdered F) {after : BlockTree}
    (hpruned : Pruned F nextRootId tree after) (hroot : F.Ancestor nextRootId tree.orderedRootId)
    (hexists : after.blockExists nextRootId = true) :
    { after with commitRootId := nextRootId }.RootsOrdered F := by
  obtain ⟨hordered, -, -⟩ := hpruned.roots
  refine ⟨⟨?_, ?_⟩, ?_, ?_, ?_, ?_, ?_⟩
  · exact fun id block hget => h.keyed id block (hpruned.blocks id block hget)
  · exact fun id block hget => h.mem id block (hpruned.blocks id block hget)
  · exact fun id block hget => h.children id block (hpruned.blocks id block hget)
  · have hsame := hpruned.kept _ hroot
    simpa only [blockExists, hordered, hsame] using h.orderedRoot
  · exact hexists
  · simpa only [hordered] using hroot
  · exact hpruned.pruned

end

section

/-- Without newly pruned blocks, only blocks that were pruned earlier may leave. -/
theorem RootsOrdered.processPrunedBlocks_nil (h : tree.RootsOrdered F) :
    (tree.processPrunedBlocks []).RootsOrdered F := by
  have hpruned : Pruned F tree.commitRootId tree (tree.processPrunedBlocks []) :=
    processPrunedBlocks_pruned h.pruned (List.forall_mem_nil _)
  have hexists : (tree.processPrunedBlocks []).blockExists tree.commitRootId = true := by
    have hkept := hpruned.kept tree.commitRootId .refl
    simpa only [blockExists, hkept] using h.commitRoot
  exact (h.commitTo hpruned h.roots hexists).congr rfl rfl hpruned.roots.2.1 rfl

/-- The highest commit certificate is not above the commit root. -/
def CommitCertBelow (tree : BlockTree) : Prop :=
  ∀ root, tree.getBlock tree.commitRootId = some root →
    tree.highestCommitCert.commitInfo.round ≤ root.block.round

/-- An operation keeps the ordered root, and the roots in order. The commit certificate may be above
the commit root only when the process ends. -/
def KeepsRoots {α : Type} (F : Family) (tree : BlockTree) :
    EStateM.Result Failure BlockTree α → Prop
  | .ok _ tree' => tree'.RootsOrdered F ∧ tree'.CommitCertBelow ∧
      tree'.orderedRootId = tree.orderedRootId
  | .error e tree' =>
    tree'.RootsOrdered F ∧ (tree'.CommitCertBelow ∨ ∃ message, e = .panic message) ∧
      tree'.orderedRootId = tree.orderedRootId

theorem RootsOrdered.certBelow_of_sameRoots (h : tree.RootsOrdered F) (h' : tree'.RootsOrdered F)
    (hsame : SameRoots tree tree') (hcert : tree.CommitCertBelow) : tree'.CommitCertBelow := by
  intro root' hroot'
  obtain ⟨-, hcommit, hhighest⟩ := hsame
  obtain ⟨linkable, hlinkable⟩ := blockExists_iff.mp h.commitRoot
  have hle := hcert linkable.executedBlock (by simp [getBlock, hlinkable])
  obtain ⟨hmem, hid⟩ := h'.mem_of_getBlock hroot'
  have hunique := F.unique root' linkable.executedBlock hmem (h.mem _ _ hlinkable)
    (by rw [hid, hcommit, h.keyed _ _ hlinkable])
  rw [hhighest]
  omega

theorem keepsRoots_of_keeping {α : Type} (h : tree.RootsOrdered F) (hcert : tree.CommitCertBelow)
    {op : TreeM α} (hop : Keeps (Keeping F tree) op fun _ => True) :
    KeepsRoots F tree (op tree) := by
  have hrun := hop tree ⟨h, refl_of SameRoots tree⟩
  cases hresult : op tree with
  | ok a tree' =>
    rw [hresult] at hrun
    obtain ⟨⟨hroots, hsame⟩, -⟩ := hrun
    exact ⟨hroots, h.certBelow_of_sameRoots hroots hsame hcert, hsame.1⟩
  | error e tree' =>
    rw [hresult] at hrun
    obtain ⟨hroots, hsame⟩ := hrun
    exact ⟨hroots, .inl (h.certBelow_of_sameRoots hroots hsame hcert), hsame.1⟩

/-- A commit certificate moves the commit root to a block above the old one. -/
theorem RootsOrdered.updateHighestCommitCert (h : tree.RootsOrdered F) {after : BlockTree}
    {last : PipelinedBlock} (hmem : F.mem last) (hroot : F.Ancestor last.id tree.orderedRootId)
    (hpruned : Pruned F last.id tree after)
    (hmissing : after.blockExists last.id = false → after.RootsOrdered F)
    (proof : WrappedLedgerInfo) (hid : proof.commitInfo.id = last.id)
    (hround : proof.commitInfo.round = last.block.round)
    (hcert : tree.highestCommitCert.commitInfo.round < last.block.round) :
    KeepsRoots F tree (BlockTree.updateHighestCommitCert proof after) := by
  obtain ⟨hordered, -, hsame⟩ := hpruned.roots
  have hlt : after.highestCommitCert.commitInfo.round < proof.commitInfo.round := by
    rw [hsame, hround]
    exact hcert
  unfold BlockTree.updateHighestCommitCert
  rw [bind_of_ok (get_eq_ok _), if_pos hlt, bind_of_ok (modify_eq_ok _ _)]
  unfold updateCommitAndFinalizedRoot
  rw [bind_of_ok (get_eq_ok _), hid]
  cases hget : after.idToBlock.get last.id with
  | none =>
    have hafter := hmissing (by simp [blockExists, hget])
    simp only [getBlock, hget, Option.map_none, expect]
    exact ⟨hafter.congr rfl rfl rfl rfl, .inr ⟨_, rfl⟩, hordered⟩
  | some linkable =>
    simp only [getBlock, hget, Option.map_some, expect]
    have hexists : after.blockExists last.id = true := by simp [blockExists, hget]
    refine ⟨(h.commitTo hpruned hroot hexists).congr rfl rfl rfl rfl, ?_, hordered⟩
    intro root hgetRoot
    obtain ⟨linkable', hlinkable', rfl⟩ := getBlock_eq_some.mp hgetRoot
    have hold := hpruned.blocks last.id linkable' hlinkable'
    have hkeyed := h.keyed _ _ hold
    have hunique := F.unique _ last (h.mem _ _ hold) hmem hkeyed
    change proof.commitInfo.round ≤ _
    omega

variable [LedgerApi]

/-- A commit callback for a block that the ordered root is below. -/
theorem RootsOrdered.commitCallback (h : tree.RootsOrdered F) (hcert : tree.CommitCertBelow)
    {blocks : List PipelinedBlock} {last : PipelinedBlock} (hlast : blocks.getLast? = some last)
    (hmem : F.mem last) (hroot : F.Ancestor last.id tree.orderedRootId)
    {decision : LedgerInfoWithSignatures} (hid : decision.ledgerInfo.commitInfo.id = last.id)
    (hround : decision.ledgerInfo.commitInfo.round = last.block.round) :
    KeepsRoots F tree (BlockTree.commitCallback blocks proof decision tree) := by
  obtain ⟨linkable, hlinkable⟩ := blockExists_iff.mp h.commitRoot
  have hcommitRoot : tree.getBlock tree.commitRootId = some linkable.executedBlock := by
    simp [getBlock, hlinkable]
  have hread : tree.commitRoot = .ok linkable.executedBlock := expect_ok_iff.mpr hcommitRoot
  have hle := hcert _ hcommitRoot
  unfold BlockTree.commitCallback
  rw [bind_of_ok (check_of_ok (expect_ok_iff.mpr hlast) _), bind_of_ok (get_eq_ok _),
    bind_of_ok (check_of_ok hread _)]
  by_cases hstale : last.block.round ≤ linkable.executedBlock.block.round
  · rw [if_pos hstale]
    exact ⟨h, hcert, rfl⟩
  · rw [if_neg hstale]
    -- the new root is a proper descendant of the commit root
    have hnot : ¬ F.Ancestor last.id tree.commitRootId := by
      intro hanc
      exact hstale (hanc.round_le hmem (h.mem _ _ hlinkable) rfl (h.keyed _ _ hlinkable))
    have hbelow : F.Ancestor tree.commitRootId last.id := (h.roots.total hroot).resolve_right hnot
    cases hmerge : proof.createMergedWithExecutedState decision with
    | error e => exact ⟨h, .inl hcert, rfl⟩
    | ok commitProof =>
      obtain rfl : (⟨proof.voteData, decision⟩ : WrappedLedgerInfo) = commitProof := by
        unfold WrappedLedgerInfo.createMergedWithExecutedState at hmerge
        exact except_pure_ok_iff.mp (except_seq_ok_iff.mp hmerge).2
      rw [bind_of_ok (check_of_ok (except_mapError_ok_iff.mpr rfl) _)]
      cases hfind : tree.findBlocksToPrune tree.idToBlock.length last.id with
      | error e => exact ⟨h, .inl hcert, rfl⟩
      | ok ids =>
        rw [bind_of_ok (check_of_ok rfl _), bind_of_ok (modify_eq_ok _ _)]
        have hreached : ids.getD [] = [] ∨ tree.Above last.id ∧ ∀ e ∈ ids.getD [],
            BelowCut tree.childrenOf last.id tree.commitRootId e.2 := by
          cases ids with
          | none => exact .inl rfl
          | some ids => exact findBlocksToPrune_reached h.keyed hfind
        have hold : ∀ id ∈ tree.prunedBlockIds, ¬ F.Ancestor last.id id :=
          fun id hid hanc => h.pruned id hid (hbelow.trans hanc)
        have hpruned : Pruned F last.id tree (tree.processPrunedBlocks (ids.getD [])) := by
          apply processPrunedBlocks_pruned hold
          intro e he
          rcases hreached with hnil | ⟨-, hreached⟩
          · rw [hnil] at he
            exact absurd he List.not_mem_nil
          · exact h.not_ancestor_of_reached hnot (hreached e he)
        apply h.updateHighestCommitCert hmem hroot hpruned _ ⟨_, decision⟩ hid hround (by omega)
        intro hmissing
        rcases hreached with hnil | ⟨⟨next, -, hnext, -⟩, -⟩
        · rw [hnil]
          exact h.processPrunedBlocks_nil
        · obtain ⟨linkable', hget, -⟩ := getBlock_eq_some.mp hnext
          have hkept := hpruned.kept last.id .refl
          simp [blockExists, hkept, hget] at hmissing

end

end BlockTree

/-! ## Runs -/

namespace LiveStore

variable {F : Family} {s : LiveStore} {call : Nat} {finalityProof : WrappedLedgerInfo}

/-- Both roots are in the tree, the commit root not above the ordered root, which is not to be
removed; the gap between the rounds can be taken. -/
structure InOrder (s : LiveStore) : Prop where
  rounds : ∃ commitRoot orderedRoot, s.tree.commitRoot = .ok commitRoot ∧
    s.tree.orderedRoot = .ok orderedRoot ∧ commitRoot.block.round ≤ orderedRoot.block.round
  kept : s.tree.orderedRootId ∉ s.tree.prunedBlockIds
  noUnderflow : ∀ limit,
    voteBackPressure s.tree limit ≠ .error (.panic "attempt to subtract with overflow")

/-- The ordered root has come to the end of a batch, or it will when the call that waits goes on. -/
structure Live (F : Family) (s : LiveStore) : Prop where
  cert : s.tree.CommitCertBelow
  serial : s.Serial
  awaits : ∀ call blockId batch, s.Awaits call blockId batch →
    F.Ancestor s.tree.orderedRootId blockId
  handed : ∀ k batch, s.handed[k]? = some batch → ∃ last, batch.blocks.getLast? = some last ∧
    F.mem last ∧ (F.Ancestor last.id s.tree.orderedRootId ∨ ∃ call, s.Awaits call last.id (some k))

/-- What holds at every point of a run. -/
structure Invariant (F : Family) (s : LiveStore) : Prop where
  tree : s.tree.RootsOrdered F
  live : s.panic = none → s.Live F

theorem inOrder_of_rootsOrdered (h : s.tree.RootsOrdered F) : s.InOrder := by
  obtain ⟨commit, hcommit⟩ := BlockTree.blockExists_iff.mp h.commitRoot
  obtain ⟨ordered, hordered⟩ := BlockTree.blockExists_iff.mp h.orderedRoot
  have hcommitRoot : s.tree.commitRoot = .ok commit.executedBlock := by
    simp [BlockTree.commitRoot, BlockTree.getBlock, hcommit]
  have horderedRoot : s.tree.orderedRoot = .ok ordered.executedBlock := by
    simp [BlockTree.orderedRoot, BlockTree.getBlock, hordered]
  have hround : commit.executedBlock.block.round ≤ ordered.executedBlock.block.round :=
    h.roots.round_le (h.mem _ _ hcommit) (h.mem _ _ hordered) (h.keyed _ _ hcommit)
      (h.keyed _ _ hordered)
  constructor
  · exact ⟨_, _, hcommitRoot, horderedRoot, hround⟩
  · exact fun hmem => h.pruned _ hmem h.roots
  · intro limit herror
    simp only [voteBackPressure, hcommitRoot, horderedRoot, ensure, if_pos hround, bind,
      Except.bind] at herror
    split at herror
    · split_ifs at *
      simp_all
    · cases herror

/-- While no call waits, the ordered root has come to the end of every batch. -/
theorem Live.settled (h : s.Live F) (hquiet : s.Quiet call)
    {k : Nat} {batch : Batch} (hbatch : s.handed[k]? = some batch) :
    ∃ last, batch.blocks.getLast? = some last ∧ F.mem last ∧
      F.Ancestor last.id s.tree.orderedRootId := by
  obtain ⟨last, hlast, hmem, hroot | ⟨c, hawaits⟩⟩ := h.handed k batch hbatch
  · exact ⟨last, hlast, hmem, hroot⟩
  · exact absurd hawaits (hquiet.none c last.id (some k))

theorem Live.setLooping (h : s.Live F) (hquiet : s.Quiet call) (rest : List PipelinedBlock) :
    (s.setStage call finalityProof (.looping rest)).Live F := by
  constructor
  · exact h.cert
  · exact hquiet.alone.setStage _
  · intro call' blockId batch hawaits
    obtain ⟨-, _, _, _, -, hstage⟩ := hquiet.alone.awaits_setStage hawaits
    cases hstage
  · intro k batch hbatch
    obtain ⟨last, hlast, hmem, hroot⟩ := h.settled hquiet hbatch
    exact ⟨last, hlast, hmem, .inl hroot⟩

theorem Live.remove (h : s.Live F) (hquiet : s.Quiet call) :
    { s with sends := s.sends.retain (· ≠ call) }.Live F := by
  obtain ⟨hserial, hawaits⟩ := h.serial.remove call
  refine ⟨h.cert, hserial, ?_, ?_⟩
  · exact fun c blockId batch hw => h.awaits c blockId batch (hawaits c blockId batch hw)
  · intro k batch hbatch
    obtain ⟨last, hlast, hmem, hroot⟩ := h.settled hquiet hbatch
    exact ⟨last, hlast, hmem, .inl hroot⟩

/-- A batch leads from the ordered root to the block that the call then waits for. -/
theorem Live.handOver (h : s.Live F) (hquiet : s.Quiet call)
    (hlinks : Links s.tree.orderedRootId path block.id)
    (hmem : ∀ b ∈ path, F.mem b) (hne : path ≠ []) (passed : List Batch) (stamped : List HashValue)
    {handed : List Batch} {place : Option Nat}
    (hhanded : ∀ k batch, handed[k]? = some batch →
      s.handed[k]? = some batch ∨ place = some k ∧ batch = ⟨path, proof⟩) :
    (setStage { s with passed, stamped, handed } call finalityProof
      (.awaiting block proof place rest)).Live F := by
  have halone : Alone { s with passed, stamped, handed } call := hquiet.alone
  refine ⟨h.cert, halone.setStage _, ?_, ?_⟩
  · intro call' blockId batch hawaits
    obtain ⟨-, _, _, _, rfl, hstage⟩ := halone.awaits_setStage hawaits
    cases hstage
    exact hlinks.ancestor hmem
  · intro k batch hbatch
    rcases hhanded k batch hbatch with hold | ⟨rfl, rfl⟩
    · obtain ⟨last, hlast, hmem, hroot⟩ := h.settled hquiet hold
      exact ⟨last, hlast, hmem, .inl hroot⟩
    · have hlast := List.getLast?_eq_some_getLast hne
      refine ⟨path.getLast hne, hlast, hmem _ (List.getLast_mem hne),
        .inr ⟨call, finalityProof, block, proof, rest, ?_, Table.get_put_self⟩⟩
      exact (hlinks.last_id hlast).symm

/-- The ordered root moves to the block that a call has waited for. -/
theorem Live.resume (h : s.Live F) {batch : Option Nat}
    (hcall : s.sends.get call = some ⟨finalityProof, .awaiting block proof batch rest⟩)
    {tree' : BlockTree} (hroot : tree'.orderedRootId = block.id) (hcert : tree'.CommitCertBelow) :
    ((s.setTree tree').setStage call finalityProof (.looping rest)).Live F := by
  have halone : s.Alone call := h.serial.alone (by simp [hcall])
  have hanc : F.Ancestor s.tree.orderedRootId block.id :=
    h.awaits call block.id batch ⟨_, _, _, _, rfl, hcall⟩
  have halone' : (s.setTree tree').Alone call := halone
  constructor
  · exact hcert
  · exact halone'.setStage _
  · intro call' blockId batch' hawaits
    obtain ⟨-, _, _, _, -, hstage⟩ := halone'.awaits_setStage hawaits
    cases hstage
  · intro k b hb
    obtain ⟨last, hlast, hmem, hsettled | ⟨c, _, block', _, _, hid, hget⟩⟩ := h.handed k b hb
    · exact ⟨last, hlast, hmem, .inl (hroot ▸ hsettled.trans hanc)⟩
    · -- the call that waits for this batch is the one that goes on
      have hc : c = call := by
        by_contra hne
        rw [halone c hne] at hget
        cases hget
      rw [hc, hcall] at hget
      cases hget
      refine ⟨last, hlast, hmem, .inl ?_⟩
      change F.Ancestor last.id tree'.orderedRootId
      rw [hroot, hid]
      exact .refl

theorem Invariant.onTree {α : Type} (h : s.Invariant F) (hpanic : s.panic = none) {op : TreeM α}
    (hop : BlockTree.KeepsRoots F s.tree (op s.tree)) : (s.onTree op).Invariant F := by
  have hlive := h.live hpanic
  have hmove : ∀ tree' : BlockTree, tree'.CommitCertBelow →
      tree'.orderedRootId = s.tree.orderedRootId → (s.setTree tree').Live F := by
    intro tree' hcert hsame
    refine ⟨hcert, hlive.serial, ?_, ?_⟩
    · change ∀ call blockId batch, s.Awaits call blockId batch →
        F.Ancestor tree'.orderedRootId blockId
      rw [hsame]
      exact hlive.awaits
    · have hhanded := hlive.handed
      rw [← hsame] at hhanded
      exact hhanded
  unfold LiveStore.onTree
  cases hresult : op s.tree with
  | ok a tree' =>
    rw [hresult] at hop
    exact ⟨hop.1, fun _ => hmove tree' hop.2.1 hop.2.2⟩
  | error e tree' =>
    rw [hresult] at hop
    obtain ⟨hroots, hcert, hsame⟩ := hop
    cases e with
    | error message =>
      refine ⟨hroots, fun _ => hmove tree' (hcert.resolve_right ?_) hsame⟩
      rintro ⟨_, heq⟩
      cases heq
    | panic message =>
      refine ⟨hroots, fun hnone => ?_⟩
      cases hnone

/-- A call begins when no other is under way. A batch is committed by a decision for its last block,
after the call that handed it over has gone on. Blocks come from the family. -/
def Admissible (F : Family) (s : LiveStore) : LiveStep → Prop
  | .start _ _ => ∀ call, s.sends.get call = none
  | .commit k _ commitDecision =>
    (∀ call blockId, ¬ s.Awaits call blockId (some k)) ∧
      ∀ batch last, s.handed[k]? = some batch → batch.blocks.getLast? = some last →
        commitDecision.ledgerInfo.commitInfo.id = last.id ∧
          commitDecision.ledgerInfo.commitInfo.round = last.block.round
  | .insertBlock block => F.mem block
  | .iterate _ _ | .resume _ | .insertQuorumCert _ => True

variable [LedgerApi]

theorem Invariant.commit (h : s.Invariant F) (hpanic : s.panic = none) {k : Nat} {batch : Batch}
    {earlier : List PipelinedBlock} {commitDecision : LedgerInfoWithSignatures}
    (hbatch : s.handed[k]? = some batch)
    (hadm : s.Admissible F (.commit k earlier commitDecision)) :
    (s.commit batch earlier commitDecision).Invariant F := by
  have hlive := h.live hpanic
  obtain ⟨hnot, hdecision⟩ := hadm
  obtain ⟨last, hlast, hmem, hroot | ⟨c, hawaits⟩⟩ := hlive.handed k batch hbatch
  · obtain ⟨hid, hround⟩ := hdecision batch last hbatch hlast
    have hlast' : (earlier ++ batch.blocks).getLast? = some last := by
      simp [List.getLast?_append, hlast]
    exact h.onTree hpanic (h.tree.commitCallback hlive.cert hlast' hmem hroot hid hround)
  · exact absurd hawaits (hnot c last.id)

variable {genesisBlockId : HashValue}

theorem Invariant.step (h : s.Invariant F) {input : LiveStep} (hadm : s.Admissible F input) :
    (LiveStore.step genesisBlockId s input).2.Invariant F := by
  have hstart : ∀ call finalityProof, input = .start call finalityProof →
      ∀ c, s.sends.get c = none := by
    rintro call finalityProof rfl
    exact hadm
  rcases step_effect (fun hpanic => (h.live hpanic).serial) hstart with hsame | ⟨hpanic, heffect⟩
  · rw [hsame]
    exact h
  have hlive := h.live hpanic
  generalize (LiveStore.step genesisBlockId s input).2 = s' at heffect ⊢
  cases heffect with
  | fail => exact ⟨h.tree, fun hnone => by cases hnone⟩
  | loop hquiet => exact ⟨h.tree, fun _ => hlive.setLooping hquiet _⟩
  | finish hquiet => exact ⟨h.tree, fun _ => hlive.remove hquiet⟩
  | refuse => exact ⟨h.tree, fun hnone => by cases hnone⟩
  | handOver hquiet hpath hne _ stamped hhanded =>
    obtain ⟨hlinks, hmem⟩ := BlockTree.pathFromOrderedRoot_links h.tree.toFromFamily hpath
    exact ⟨h.tree, fun _ => hlive.handOver hquiet hlinks hmem hne _ stamped hhanded⟩
  | @resume call _ block proof batch _ hcall hexists =>
    have hanc : F.Ancestor s.tree.orderedRootId block.id :=
      hlive.awaits call block.id batch ⟨_, _, _, _, rfl, hcall⟩
    refine ⟨h.tree.moveOrderedRoot hexists hanc proof, fun _ => hlive.resume hcall ?_ ?_⟩
    · unfold BlockTree.insertOrderedCert
      split <;> rfl
    · have hcert := hlive.cert
      unfold BlockTree.insertOrderedCert
      split
      · exact hcert
      · exact hcert
  | commit earlier decision hbatch => exact h.commit hpanic hbatch hadm
  | insertBlock block =>
    exact h.onTree hpanic (BlockTree.keepsRoots_of_keeping h.tree hlive.cert
      (BlockTree.insertBlock_keeping hadm))
  | insertQuorumCert qc =>
    exact h.onTree hpanic (BlockTree.keepsRoots_of_keeping h.tree hlive.cert
      (BlockTree.insertQuorumCert_keeping qc))

/-- From a tree with its roots in order and no call under way, the roots stay in order through every
run of admissible steps. -/
theorem roots_inOrder (hroots : s.tree.RootsOrdered F) (hcert : s.tree.CommitCertBelow)
    (hsends : s.sends = []) (hhanded : s.handed = []) {inputs : List LiveStep}
    (hrun : AlongRun (LiveStore.step genesisBlockId) (Admissible F) s inputs) :
    (run (LiveStore.step genesisBlockId) s inputs).2.InOrder := by
  have hstart : s.Invariant F := by
    have hnone : ∀ c, s.sends.get c = none := by simp [hsends, Table.get_nil]
    refine ⟨hroots, fun _ => ⟨hcert, fun c _ hc => absurd (hnone c) hc, ?_, ?_⟩⟩
    · exact fun c blockId batch hw => absurd hw ((quiet_of_none hnone c).none _ _ _)
    · intro k batch hbatch
      rw [hhanded] at hbatch
      cases hbatch
  have hend : (run (LiveStore.step genesisBlockId) s inputs).2.Invariant F :=
    AlongRun.invariant (I := Invariant F) (fun s input hadm h => Invariant.step h hadm) hrun hstart
  exact inOrder_of_rootsOrdered hend.tree

end LiveStore

end

/-! ## One call and one commit -/

namespace SmallTree

attribute [local instance] crypto

@[reducible] def ledger : LedgerApi :=
  { Permissive.ledger with matchOrderedOnly := fun a b => a.id = b.id }

attribute [local instance] ledger

/-- Block 2 over block 1, which is the root. -/
def twoBlocks : LiveStore where
  tree := { rooted with idToBlock := [(1, ⟨proposal 1 0, [2]⟩), (2, ⟨proposal 2 1, []⟩)] }

/-- A finality proof for the block of a round. -/
def finality (round : Nat) : WrappedLedgerInfo := ⟨⟨info round, info 0⟩, signed round⟩

def twoBlocksFamily : Family where
  mem block := block = proposal 1 0 ∨ block = proposal 2 1
  unique := by
    rintro a b (rfl | rfl) (rfl | rfl) <;> decide
  rounds := by
    rintro a b (rfl | rfl) (rfl | rfl) <;> decide

theorem twoBlocks_rootsOrdered : twoBlocks.tree.RootsOrdered twoBlocksFamily := by
  refine ⟨⟨?_, ?_⟩, ?_, rfl, rfl, .refl, List.forall_mem_nil _⟩
  · intro id block h
    exact (by decide : ∀ e ∈ twoBlocks.tree.idToBlock, e.2.executedBlock.id = e.1) _
      (Table.mem_of_get h)
  · intro id block h
    exact (by decide : ∀ e ∈ twoBlocks.tree.idToBlock,
      e.2.executedBlock = proposal 1 0 ∨ e.2.executedBlock = proposal 2 1) _ (Table.mem_of_get h)
  · intro id block h childId hchild
    obtain ⟨rfl, hparent⟩ := (by decide : ∀ e ∈ twoBlocks.tree.idToBlock, ∀ c ∈ e.2.children,
      c = 2 ∧ (proposal 2 1).block.parentId = e.1) _ (Table.mem_of_get h) _ hchild
    exact ⟨proposal 2 1, .inr rfl, rfl, hparent⟩

/-- The call goes on before the batch is committed. -/
theorem twoBlocks_inOrder : (run (LiveStore.step 0) twoBlocks
      [.start 0 (finality 2), .iterate 0 .connected, .resume 0,
        .commit 0 [] (signed 2)]).2.InOrder := by
  have hadm : AlongRun (LiveStore.step 0) (LiveStore.Admissible twoBlocksFamily) twoBlocks
      [.start 0 (finality 2), .iterate 0 .connected, .resume 0, .commit 0 [] (signed 2)] := by
    refine ⟨fun _ => rfl, trivial, trivial, ⟨?_, ?_⟩, trivial⟩
    · rintro call blockId ⟨_, _, _, _, -, hget⟩
      have hmem := Table.mem_of_get hget
      cases List.mem_singleton.mp hmem
    · intro batch last hbatch hlast
      cases hbatch
      cases hlast
      exact ⟨rfl, rfl⟩
  refine LiveStore.roots_inOrder twoBlocks_rootsOrdered ?_ rfl rfl hadm
  intro root hroot
  cases hroot
  decide

/-- The batch is committed before the call goes on: the commit root is above the ordered root, which
is to be removed, and the gap cannot be taken. -/
theorem commit_overtakes :
    let s := (run (LiveStore.step 0) twoBlocks
      [.start 0 (finality 2), .iterate 0 .connected, .commit 0 [] (signed 2)]).2
    s.panic = none ∧ s.tree.commitRoot = .ok (proposal 2 1) ∧
      s.tree.orderedRoot = .ok (proposal 1 0) ∧
      s.tree.orderedRootId ∈ s.tree.prunedBlockIds ∧
      voteBackPressure s.tree 0 = .error (.panic "attempt to subtract with overflow") :=
  ⟨rfl, rfl, rfl, by decide +kernel, rfl⟩

end SmallTree

end Liquent.BlockStorage
