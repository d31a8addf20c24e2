import Liquent.Misc.Lists
import Liquent.BlockStorage.BlockTree
import Liquent.Misc.Forest

/-!
# Pruning the block tree

When a block is committed, everything that is not below it leaves the tree.  `find_blocks_to_prune`
goes through the tree from the commit root and stops at the new root.  It takes the new root for a
block below the commit root when its round is higher; it is exact where that is so.
-/

namespace Liquent.BlockStorage

open Misc Relation

namespace BlockTree

variable (tree : BlockTree)

def childrenOf (id : HashValue) : List HashValue :=
  ((tree.idToBlock.get id).map (·.children)).getD []

/-- A block and those below it. -/
abbrev Descends : HashValue → HashValue → Prop := Below tree.childrenOf

/-- Strictly below. -/
abbrev ProperlyDescends : HashValue → HashValue → Prop := TransGen (IsChild tree.childrenOf)

variable [Crypto]

/-- Links between parents and children agree, and lead nowhere in a circle. -/
structure Linked : Prop where
  keyed : ∀ id block, tree.idToBlock.get id = some block → block.executedBlock.id = id
  children : ∀ id block, tree.idToBlock.get id = some block → ∀ childId, childId ∈ block.children ↔
    ∃ child, tree.idToBlock.get childId = some child ∧ child.executedBlock.block.parentId = id
  nodup : ∀ id block, tree.idToBlock.get id = some block → block.children.Nodup
  acyclic : ∀ id, ¬ tree.ProperlyDescends id id
  commitRoot : tree.blockExists tree.commitRootId = true

/-- Exactly the blocks that are not below the new root are to be pruned, each once. -/
structure PrunesExactly (nextRootId : HashValue) (pruned : List (Nat × HashValue)) : Prop where
  descendant : tree.ProperlyDescends tree.commitRootId nextRootId →
    (pruned.map (·.2)).Nodup ∧ ∀ id, id ∈ pruned.map (·.2) ↔
      tree.Descends tree.commitRootId id ∧ ¬ tree.Descends nextRootId id
  otherwise : ¬ tree.ProperlyDescends tree.commitRootId nextRootId → pruned = []

/-- The new root is in the tree, with a higher round than the commit root. -/
def Above (nextRootId : HashValue) : Prop :=
  ∃ nextRoot root, tree.getBlock nextRootId = some nextRoot ∧
    tree.getBlock tree.commitRootId = some root ∧ root.block.round < nextRoot.block.round

variable {tree}

omit [Crypto] in
theorem mem_childrenOf {id childId : HashValue} : childId ∈ tree.childrenOf id ↔
    ∃ block, tree.idToBlock.get id = some block ∧ childId ∈ block.children := by
  unfold childrenOf
  cases tree.idToBlock.get id with
  | none | some block => simp

theorem Linked.forest (h : tree.Linked) : Forest tree.childrenOf where
  nodup id := by
    unfold childrenOf
    cases hget : tree.idToBlock.get id with
    | none => exact List.nodup_nil
    | some block => exact h.nodup id block hget
  parent a a' b ha ha' := by
    obtain ⟨block, hblock, hchild⟩ := mem_childrenOf.mp ha
    obtain ⟨block', hblock', hchild'⟩ := mem_childrenOf.mp ha'
    obtain ⟨child, hget, rfl⟩ := (h.children a block hblock b).mp hchild
    obtain ⟨child', hget', rfl⟩ := (h.children a' block' hblock' b).mp hchild'
    rw [hget] at hget'
    rw [Option.some.inj hget']
  acyclic := h.acyclic

theorem Linked.mem_keys (h : tree.Linked) {a b : HashValue} (ha : a ∈ tree.idToBlock.keys)
    (hb : tree.Descends a b) : b ∈ tree.idToBlock.keys := by
  induction hb with
  | refl => exact ha
  | tail _ hstep _ =>
    obtain ⟨block, hblock, hchild⟩ := mem_childrenOf.mp hstep
    obtain ⟨child, hget, -⟩ := (h.children _ block hblock _).mp hchild
    exact Table.mem_keys_iff_get.mpr ⟨child, hget⟩

/-! ## The search -/

variable {children : List HashValue}

/-- The children of a block go on the stack, but for the new root. -/
theorem pushChildren_ok (h : tree.Linked) (nextRootId : HashValue)
    (hchildren : ∀ id ∈ children, tree.blockExists id = true) (stack : List LinkableBlock) :
    ∃ new : List LinkableBlock, tree.pushChildren nextRootId children stack = .ok (new ++ stack) ∧
      (new.map (·.executedBlock.id)).Perm (children.filter (· ≠ nextRootId)) ∧
      ∀ block ∈ new, tree.idToBlock.get block.executedBlock.id = some block := by
  induction children generalizing stack with
  | nil => exact ⟨[], rfl, List.Perm.refl _, List.forall_mem_nil _⟩
  | cons id rest ih =>
    have hrest : ∀ id ∈ rest, tree.blockExists id = true :=
      (List.forall_mem_cons.mp hchildren).2
    unfold pushChildren
    by_cases hcut : nextRootId = id
    · obtain ⟨new, hrun, hperm, hnew⟩ := ih hrest stack
      rw [if_pos hcut, List.filter_cons_of_neg (by simp [hcut])]
      exact ⟨new, hrun, hperm, hnew⟩
    · obtain ⟨child, hchild⟩ :=
        Option.isSome_iff_exists.mp (hchildren id List.mem_cons_self)
      have hid := h.keyed id child hchild
      obtain ⟨new, hrun, hperm, hnew⟩ := ih hrest (child :: stack)
      refine ⟨new ++ [child], ?_, ?_, ?_⟩
      · rw [if_neg hcut, hchild, List.append_assoc]
        exact hrun
      · rw [List.filter_cons_of_pos (by simpa using Ne.symm hcut), List.map_append]
        have hlast : (new.map (·.executedBlock.id) ++ [id]).Perm
            (id :: new.map (·.executedBlock.id)) := List.perm_append_comm
        simpa [hid] using hlast.trans (hperm.cons id)
      · apply forall_mem_snoc hnew
        rw [hid]
        exact hchild

variable {stack : List LinkableBlock} {nextRootId : HashValue}

/-- The loop ends after it has taken every block of the search from the stack once. -/
theorem pruneLoop_ok (h : tree.Linked) {n : Nat} {pruned : List (Nat × HashValue)}
    (hstack : ∀ block ∈ stack, tree.idToBlock.get block.executedBlock.id = some block)
    (hsearch : Search tree.childrenOf nextRootId tree.commitRootId (pruned.map (·.2))
      (stack.map (·.executedBlock.id))) (hn : tree.idToBlock.length ≤ n + pruned.length) :
    ∃ out, (∀ fuel, n ≤ fuel → tree.pruneLoop nextRootId fuel stack pruned = .ok (some out)) ∧
      Search tree.childrenOf nextRootId tree.commitRootId (out.map (·.2)) [] := by
  have hroot : tree.commitRootId ∈ tree.idToBlock.keys := Table.mem_keys_iff.mpr h.commitRoot
  induction n generalizing stack pruned with
  | zero =>
    have hlength := hsearch.length_le fun b hb => h.mem_keys hroot hb.below
    simp only [Table.keys, List.length_map] at hlength
    obtain rfl : stack = [] := List.length_eq_zero_iff.mp (by omega)
    refine ⟨pruned, ?_, hsearch⟩
    intro fuel _
    simp [pruneLoop]
  | succ n ih =>
    cases stack with
    | nil =>
      refine ⟨pruned, ?_, hsearch⟩
      intro fuel _
      simp [pruneLoop]
    | cons block stack =>
      have hblock := hstack block List.mem_cons_self
      have hchildren : ∀ id ∈ block.children, tree.blockExists id = true := by
        intro id hid
        obtain ⟨child, hget, -⟩ := (h.children _ block hblock id).mp hid
        simp [blockExists, hget]
      obtain ⟨new, hpush, hperm, hnew⟩ := pushChildren_ok h nextRootId hchildren stack
      have hchildrenOf : tree.childrenOf block.executedBlock.id = block.children := by
        simp [childrenOf, hblock]
      rw [← hchildrenOf] at hperm
      have hvisit := hsearch.visit h.forest hperm
      obtain ⟨out, hrun, hout⟩ := @ih (new ++ stack)
        (pruned ++ [(block.executedBlock.block.epoch, block.executedBlock.id)])
        (fun b hb => (List.mem_append.mp hb).elim (hnew b)
          fun hb => hstack b (List.mem_cons_of_mem _ hb))
        (by simpa using hvisit) (by simp; omega)
      refine ⟨out, ?_, hout⟩
      intro fuel hfuel
      obtain ⟨fuel, rfl⟩ := Nat.exists_eq_succ_of_ne_zero (by omega : fuel ≠ 0)
      unfold pruneLoop
      rw [hpush]
      exact hrun fuel (by omega)

/-- Where the new root is above the commit root, the search meets what is not below the new root. -/
theorem findBlocksToPrune_of_above (h : tree.Linked) (habove : tree.Above nextRootId) :
    ∃ pruned, (∀ fuel, tree.idToBlock.length ≤ fuel →
        tree.findBlocksToPrune fuel nextRootId = .ok (some pruned)) ∧
      (pruned.map (·.2)).Nodup ∧
      ∀ id, id ∈ pruned.map (·.2) ↔ BelowCut tree.childrenOf nextRootId tree.commitRootId id := by
  obtain ⟨nextRoot, root, hnext, hroot, hround⟩ := habove
  have hne : nextRootId ≠ tree.commitRootId := by
    rintro rfl
    rw [hnext] at hroot
    rw [Option.some.inj hroot] at hround
    exact Nat.lt_irrefl _ hround
  obtain ⟨linkable, hlinkable, rfl⟩ : ∃ linkable, tree.idToBlock.get tree.commitRootId =
      some linkable ∧ linkable.executedBlock = root := Option.map_eq_some_iff.mp hroot
  have hid := h.keyed _ linkable hlinkable
  have hstack : ∀ block ∈ [linkable], tree.idToBlock.get block.executedBlock.id = some block := by
    intro block hblock
    obtain rfl := List.mem_singleton.mp hblock
    rw [hid]
    exact hlinkable
  have hstart : Search tree.childrenOf nextRootId tree.commitRootId
      (([] : List (Nat × HashValue)).map (·.2)) ([linkable].map (·.executedBlock.id)) := by
    simpa [hid] using Search.start
  obtain ⟨out, hrun, hsearch⟩ := pruneLoop_ok h hstack hstart (n := tree.idToBlock.length) (by simp)
  refine ⟨out, ?_, by simpa using hsearch.nodup, fun id => hsearch.mem_iff⟩
  intro fuel hfuel
  simp only [findBlocksToPrune, if_neg hne, hnext, commitRoot, linkableRoot, hroot,
    hlinkable, expect]
  exact (if_neg (by omega)).trans (hrun fuel hfuel)

theorem findBlocksToPrune_of_not_above (h : tree.Linked)
    (habove : ¬ tree.Above nextRootId) (fuel : Nat) :
    tree.findBlocksToPrune fuel nextRootId = .ok (some []) := by
  unfold findBlocksToPrune
  by_cases hroot : nextRootId = tree.commitRootId
  · rw [if_pos hroot]
  · rw [if_neg hroot]
    cases hnext : tree.getBlock nextRootId with
    | none => rfl
    | some nextRoot =>
      obtain ⟨linkable, hlinkable⟩ := Option.isSome_iff_exists.mp h.commitRoot
      have hget : tree.getBlock tree.commitRootId = some linkable.executedBlock := by
        simp [getBlock, hlinkable]
      have hround : nextRoot.block.round ≤ linkable.executedBlock.block.round := by
        by_contra hlt
        exact habove ⟨nextRoot, _, hnext, hget, by omega⟩
      simp only [commitRoot, hget, expect]
      exact if_pos hround

/-! ## What may be pruned

Even where the links are not known to agree, only blocks that the search has reached are pruned. -/

section

variable {nextRootId : HashValue}

/-- A block of the tree that the search has reached. -/
def Reached (tree : BlockTree) (nextRootId : HashValue) (block : LinkableBlock) : Prop :=
  tree.idToBlock.get block.executedBlock.id = some block ∧
    BelowCut tree.childrenOf nextRootId tree.commitRootId block.executedBlock.id

variable (hkeyed : ∀ id block, tree.idToBlock.get id = some block → block.executedBlock.id = id)

include hkeyed

theorem pushChildren_reached (hchildren : ∀ id ∈ children, id ≠ nextRootId →
      BelowCut tree.childrenOf nextRootId tree.commitRootId id)
    {out : List LinkableBlock} (hstack : ∀ block ∈ stack, tree.Reached nextRootId block)
    (h : tree.pushChildren nextRootId children stack = .ok out) :
    ∀ block ∈ out, tree.Reached nextRootId block := by
  induction children generalizing stack with
  | nil =>
    obtain rfl := Except.ok.inj h
    exact hstack
  | cons id rest ih =>
    have hrest := (List.forall_mem_cons.mp hchildren).2
    unfold pushChildren at h
    by_cases hcut : nextRootId = id
    · rw [if_pos hcut] at h
      exact ih hrest hstack h
    · rw [if_neg hcut, except_bind_ok_iff] at h
      obtain ⟨child, hchild, hpush⟩ := h
      have hget := expect_ok_iff.mp hchild
      have hid := hkeyed id child hget
      apply ih hrest _ hpush
      intro block hblock
      rcases List.mem_cons.mp hblock with rfl | hblock
      · unfold Reached
        rw [hid]
        exact ⟨hget, hchildren id List.mem_cons_self (Ne.symm hcut)⟩
      · exact hstack block hblock

theorem pruneLoop_reached {fuel : Nat} {pruned out : List (Nat × HashValue)}
    (hstack : ∀ block ∈ stack, tree.Reached nextRootId block)
    (hpruned : ∀ e ∈ pruned, BelowCut tree.childrenOf nextRootId tree.commitRootId e.2)
    (h : tree.pruneLoop nextRootId fuel stack pruned = .ok (some out)) :
    ∀ e ∈ out, BelowCut tree.childrenOf nextRootId tree.commitRootId e.2 := by
  induction fuel generalizing stack pruned with
  | zero =>
    cases stack with
    | nil =>
      obtain rfl := Option.some.inj (Except.ok.inj h)
      exact hpruned
    | cons block stack => cases h
  | succ fuel ih =>
    cases stack with
    | nil =>
      obtain rfl := Option.some.inj (Except.ok.inj h)
      exact hpruned
    | cons block stack =>
      obtain ⟨hget, hbelow⟩ := hstack block List.mem_cons_self
      unfold pruneLoop at h
      rw [except_bind_ok_iff] at h
      obtain ⟨stack', hpush, hloop⟩ := h
      apply ih (pushChildren_reached hkeyed _ _ hpush) _ hloop
      · intro id hid hne
        refine hbelow.tail ⟨?_, hne⟩
        exact mem_childrenOf.mpr ⟨block, hget, hid⟩
      · exact (List.forall_mem_cons.mp hstack).2
      · apply forall_mem_snoc hpruned
        exact hbelow

/-- The search has reached what is pruned, and the new root is above the commit root. -/
theorem findBlocksToPrune_reached {fuel : Nat} {out : List (Nat × HashValue)}
    (h : tree.findBlocksToPrune fuel nextRootId = .ok (some out)) :
    out = [] ∨ tree.Above nextRootId ∧
      ∀ e ∈ out, BelowCut tree.childrenOf nextRootId tree.commitRootId e.2 := by
  unfold findBlocksToPrune at h
  split at h
  · exact .inl (Option.some.inj (Except.ok.inj h)).symm
  · cases hnext : tree.getBlock nextRootId with
    | none =>
      rw [hnext] at h
      exact .inl (Option.some.inj (Except.ok.inj h)).symm
    | some nextRoot =>
      simp only [hnext, except_bind_ok_iff, commitRoot, expect_ok_iff] at h
      obtain ⟨root, hroot, h⟩ := h
      split at h
      · exact .inl (Option.some.inj (Except.ok.inj h)).symm
      · rename_i hround
        simp only [except_bind_ok_iff, linkableRoot, expect_ok_iff] at h
        obtain ⟨linkable, hlinkable, hloop⟩ := h
        refine .inr ⟨⟨nextRoot, root, hnext, hroot, by omega⟩, ?_⟩
        apply pruneLoop_reached hkeyed _ (List.forall_mem_nil _) hloop
        intro block hblock
        obtain rfl := List.mem_singleton.mp hblock
        unfold Reached
        rw [hkeyed _ _ hlinkable]
        exact ⟨hlinkable, ReflTransGen.refl⟩

end

/-! ## The blocks that stay in memory -/

omit [Crypto] in
theorem removeOldest_spec {n : Nat} (hn : n ≤ tree.prunedBlockIds.length) :
    (removeOldest n tree).prunedBlockIds = tree.prunedBlockIds.drop n ∧
      ∀ id, (removeOldest n tree).idToBlock.get id =
        if id ∈ tree.prunedBlockIds.take n then none else tree.idToBlock.get id := by
  induction n generalizing tree with
  | zero => simp [removeOldest]
  | succ n ih =>
    cases hids : tree.prunedBlockIds with
    | nil => simp [hids] at hn
    | cons oldest rest =>
      have hlength : n ≤ rest.length := by simpa [hids] using hn
      obtain ⟨hdrop, hget⟩ :=
        @ih ({ tree with prunedBlockIds := rest }.removeBlock oldest) hlength
      simp only [removeOldest, hids, List.drop_succ_cons, List.take_succ_cons, List.mem_cons]
      refine ⟨hdrop, ?_⟩
      intro id
      rw [hget]
      change (if id ∈ rest.take n then none else (tree.idToBlock.retain (· ≠ oldest)).get id) = _
      rw [Table.get_retain]
      by_cases hid : id = oldest
      · simp [hid]
      · simp [hid]

variable (tree) in
/-- The pruned blocks are kept in memory up to the limit; the oldest ones leave. -/
structure KeepsNewest (newlyPruned : List (Nat × HashValue)) (after : BlockTree) : Prop where
  kept : after.prunedBlockIds =
    (tree.prunedBlockIds ++ newlyPruned.map (·.2)).drop
      (tree.prunedBlockIds.length + newlyPruned.length - tree.maxPrunedBlocksInMem)
  bounded : after.prunedBlockIds.length ≤ tree.maxPrunedBlocksInMem
  blocks : ∀ id, after.getBlock id =
    if id ∈ (tree.prunedBlockIds ++ newlyPruned.map (·.2)).take
      (tree.prunedBlockIds.length + newlyPruned.length - tree.maxPrunedBlocksInMem) then none
    else tree.getBlock id

omit [Crypto] in
theorem processPrunedBlocks_keepsNewest (newlyPruned : List (Nat × HashValue)) :
    tree.KeepsNewest newlyPruned (tree.processPrunedBlocks newlyPruned) := by
  have hlength : (tree.prunedBlockIds ++ newlyPruned.map (·.2)).length =
      tree.prunedBlockIds.length + newlyPruned.length := by simp
  obtain ⟨hdrop, hget⟩ := @removeOldest_spec
    { tree with prunedBlockIds := tree.prunedBlockIds ++ newlyPruned.map (·.2) }
    (tree.prunedBlockIds.length + newlyPruned.length - tree.maxPrunedBlocksInMem) (by simp)
  have heq : tree.processPrunedBlocks newlyPruned = removeOldest
      (tree.prunedBlockIds.length + newlyPruned.length - tree.maxPrunedBlocksInMem)
      { tree with prunedBlockIds := tree.prunedBlockIds ++ newlyPruned.map (·.2) } := by
    simp only [processPrunedBlocks, hlength]
  refine ⟨heq ▸ hdrop, ?_, ?_⟩
  · rw [heq, hdrop, List.length_drop, hlength]
    omega
  · intro id
    unfold getBlock
    rw [heq, hget]
    split <;> rfl

/-! ## Exactness -/

/-- The search ends, and it is exact precisely where a higher round means a block below the commit
root.  Of the pruned blocks the newest ones stay in memory. -/
theorem pruning_exact (h : tree.Linked) (nextRootId : HashValue) :
    (∃ pruned, (∀ fuel, tree.idToBlock.length ≤ fuel →
        tree.findBlocksToPrune fuel nextRootId = .ok (some pruned)) ∧
      (tree.PrunesExactly nextRootId pruned ↔
        (tree.Above nextRootId ↔ tree.ProperlyDescends tree.commitRootId nextRootId))) ∧
    ∀ newlyPruned, tree.KeepsNewest newlyPruned (tree.processPrunedBlocks newlyPruned) := by
  refine ⟨?_, processPrunedBlocks_keepsNewest⟩
  by_cases habove : tree.Above nextRootId
  · obtain ⟨pruned, hrun, hnodup, hmem⟩ := findBlocksToPrune_of_above h habove
    refine ⟨pruned, hrun, ?_⟩
    simp only [habove, true_iff]
    constructor
    · intro hexact
      by_contra hnot
      have hroot := (hmem tree.commitRootId).mpr ReflTransGen.refl
      simp [hexact.otherwise hnot] at hroot
    · intro hdesc
      refine ⟨fun _ => ⟨hnodup, ?_⟩, fun hnot => absurd hdesc hnot⟩
      intro id
      rw [hmem, h.forest.belowCut_iff hdesc]
  · refine ⟨[], fun fuel _ => findBlocksToPrune_of_not_above h habove fuel, ?_⟩
    simp only [habove, false_iff]
    constructor
    · intro hexact hdesc
      -- the commit root is not below the new root, so it would have to be pruned
      have hroot := ((hexact.descendant hdesc).2 tree.commitRootId).mpr
        ⟨ReflTransGen.refl, fun hback => h.acyclic _ (hdesc.trans_left hback)⟩
      cases hroot
    · exact fun hnot => ⟨fun hdesc => absurd hdesc hnot, fun _ => rfl⟩

end BlockTree

/-! ## A fork -/

namespace SmallTree

local instance : Crypto := crypto

/-- Two blocks over the first one, with one more over each. -/
def forked (commitRoot : HashValue) : BlockTree :=
  { rooted with
    idToBlock := [(1, ⟨proposal 1 0, [2, 3]⟩), (2, ⟨proposal 2 1, [4]⟩), (3, ⟨proposal 3 1, [5]⟩),
      (4, ⟨proposal 4 2, []⟩), (5, ⟨proposal 5 3, []⟩)]
    commitRootId := commitRoot }

theorem forked_linked {commitRoot : HashValue} (hroot : commitRoot ∈ [1, 2, 3, 4, 5]) :
    (forked commitRoot).Linked := by
  have hget : ∀ {id block}, (forked commitRoot).idToBlock.get id = some block →
      (id, block) ∈ (forked 1).idToBlock := fun h => Table.mem_of_get h
  have hentry : ∀ e ∈ (forked 1).idToBlock, (forked commitRoot).idToBlock.get e.1 = some e.2 :=
    fun e he => Table.get_of_mem (t := (forked 1).idToBlock) (by decide) he
  refine ⟨?_, ?_, ?_, ?_, ?_⟩
  · intro id block h
    exact (by decide : ∀ e ∈ (forked 1).idToBlock, e.2.executedBlock.id = e.1) _ (hget h)
  · intro id block h childId
    constructor
    · intro hchild
      obtain ⟨e, he, rfl, hparent⟩ := (by decide : ∀ e ∈ (forked 1).idToBlock, ∀ c ∈ e.2.children,
        ∃ e' ∈ (forked 1).idToBlock, e'.1 = c ∧ e'.2.executedBlock.block.parentId = e.1) _ (hget h)
        _ hchild
      exact ⟨e.2, hentry e he, hparent⟩
    · rintro ⟨child, hchild, rfl⟩
      exact (by decide : ∀ e ∈ (forked 1).idToBlock, ∀ e' ∈ (forked 1).idToBlock,
        e'.2.executedBlock.block.parentId = e.1 → e'.1 ∈ e.2.children) _ (hget h) _
          (hget hchild) rfl
  · intro id block h
    exact (by decide : ∀ e ∈ (forked 1).idToBlock, e.2.children.Nodup) _ (hget h)
  · intro id hcycle
    refine Nat.lt_irrefl id (rank_lt_of_transGen (fun id => id) ?_ hcycle)
    intro a b hb
    obtain ⟨block, hblock, hchild⟩ := BlockTree.mem_childrenOf.mp hb
    exact (by decide : ∀ e ∈ (forked 1).idToBlock, ∀ c ∈ e.2.children, e.1 < c) _ (hget hblock) _
      hchild
  · exact (by decide : ∀ id ∈ [1, 2, 3, 4, 5], (forked 1).blockExists id = true) _ hroot

/-- When block 3 is committed, blocks 1, 2 and 4 are pruned. -/
theorem pruning_exact_forked :
    ∃ pruned, (∀ fuel, 5 ≤ fuel → (forked 1).findBlocksToPrune fuel 3 = .ok (some pruned)) ∧
      (forked 1).PrunesExactly 3 pruned ∧ (forked 1).findBlocksToPrune 5 3 =
        .ok (some [(1, 1), (1, 2), (1, 4)]) := by
  have hlinked : (forked 1).Linked := forked_linked (by decide)
  obtain ⟨⟨pruned, hrun, hexact⟩, -⟩ := BlockTree.pruning_exact hlinked 3
  have hdesc : (forked 1).ProperlyDescends 1 3 := TransGen.single
    (by decide : 3 ∈ (forked 1).childrenOf 1)
  refine ⟨pruned, hrun, hexact.mpr ?_, by decide +kernel⟩
  exact iff_of_true ⟨proposal 3 1, proposal 1 0, rfl, rfl, by decide⟩ hdesc

/-- Block 5 has a higher round than the commit root, block 2, but is not below it: the search takes
the commit root itself. -/
theorem commit_root_pruned : (forked 2).Linked ∧ ¬ (forked 2).ProperlyDescends 2 5 ∧
      (forked 2).findBlocksToPrune 5 5 = .ok (some [(1, 2), (1, 4)]) := by
  refine ⟨forked_linked (by decide), ?_, by decide +kernel⟩
  intro hdesc
  have hbelow : ∀ id, (forked 2).Descends 2 id → id ∈ [2, 4] := by
    intro id h
    induction h with
    | refl => decide
    | tail _ hstep ih =>
      exact (by decide : ∀ a ∈ [2, 4], ∀ b ∈ (forked 2).childrenOf a, b ∈ [2, 4]) _ ih _ hstep
  exact absurd (hbelow 5 hdesc.to_reflTransGen) (by decide)

end SmallTree

end Liquent.BlockStorage
