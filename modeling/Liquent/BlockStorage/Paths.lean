import Liquent.BlockStorage.RootOrder

/-!
# Paths from a root

`path_from_root_to_block` walks up from a block until the round of the root, and only then compares
identifiers.  In a tree whose rounds grow from parent to child the walk ends, and it finds the path
exactly when there is one.
-/

namespace Liquent.BlockStorage.BlockTree

variable [Crypto] {tree : BlockTree} {rootId id : HashValue} {root : PipelinedBlock}
  {path : List PipelinedBlock}

/-- Blocks are under their identifiers, and a block above the root has a greater round than its
parent. -/
structure RoundsGrow (tree : BlockTree) (rootId : HashValue) : Prop where
  keyed : ∀ id block, tree.getBlock id = some block → block.id = id
  parent : ∀ block parent, tree.getBlock block.id = some block → block.id ≠ rootId →
    tree.getBlock block.block.parentId = some parent → parent.block.round < block.block.round

/-- The blocks after the root that lead to a block are all in the tree. -/
structure IsPath (tree : BlockTree) (rootId : HashValue) (path : List PipelinedBlock)
    (id : HashValue) : Prop where
  links : Links rootId path id
  stored : ∀ block ∈ path, tree.getBlock block.id = some block ∧ block.id ≠ rootId

variable {block : PipelinedBlock}

theorem links_concat {first last : HashValue} :
    Links first (path ++ [block]) last ↔ Links first path block.block.parentId ∧
      block.id = last := by
  induction path generalizing first with
  | nil => exact and_congr_left' eq_comm
  | cons b rest ih =>
    change b.block.parentId = first ∧ Links b.id (rest ++ [block]) last ↔
      (b.block.parentId = first ∧ Links b.id rest block.block.parentId) ∧ _
    rw [ih, and_assoc]

theorem isPath_nil : tree.IsPath rootId [] id ↔ rootId = id :=
  ⟨fun h => h.links, fun h => ⟨h, by simp⟩⟩

theorem isPath_concat :
    tree.IsPath rootId (path ++ [block]) id ↔ tree.IsPath rootId path block.block.parentId ∧
      block.id = id ∧ tree.getBlock block.id = some block ∧ block.id ≠ rootId := by
  constructor
  · rintro ⟨hlinks, hstored⟩
    obtain ⟨hpath, hid⟩ := links_concat.mp hlinks
    exact ⟨⟨hpath, fun b hb => hstored b (List.mem_append_left _ hb)⟩, hid, hstored block (by simp)⟩
  · rintro ⟨⟨hpath, hstored⟩, hid, hblock⟩
    refine ⟨links_concat.mpr ⟨hpath, hid⟩, fun b hb => ?_⟩
    rcases List.mem_append.mp hb with hb | hb
    · exact hstored b hb
    · rw [List.mem_singleton.mp hb]
      exact hblock

section

variable (htree : tree.RoundsGrow rootId) (hroot : tree.getBlock rootId = some root)

include htree hroot

theorem IsPath.round_lt (h : tree.IsPath rootId (path ++ [block]) id) :
    root.block.round < block.block.round := by
  induction path using List.reverseRecOn generalizing block id with
  | nil =>
    obtain ⟨hparent, -, hblock, hne⟩ := isPath_concat.mp h
    exact htree.parent block root hblock hne (isPath_nil.mp hparent ▸ hroot)
  | append_singleton rest parent ih =>
    obtain ⟨hpath, -, hblock, hne⟩ := isPath_concat.mp h
    obtain ⟨-, hid, hparent, -⟩ := isPath_concat.mp hpath
    exact (ih hpath).trans (htree.parent block parent hblock hne (hid ▸ hparent))

/-- A path is empty, or ends with the block that it leads to. -/
theorem IsPath.ends (h : tree.IsPath rootId path id) : (path = [] ∧ rootId = id) ∨
    ∃ rest block, path = rest ++ [block] ∧ tree.getBlock id = some block ∧ id ≠ rootId ∧
      tree.IsPath rootId rest block.block.parentId ∧ root.block.round < block.block.round := by
  rcases List.eq_nil_or_concat' path with rfl | ⟨rest, block, rfl⟩
  · exact .inl ⟨rfl, isPath_nil.mp h⟩
  · obtain ⟨hrest, rfl, hblock, hne⟩ := isPath_concat.mp h
    exact .inr ⟨rest, block, rfl, hblock, hne, hrest, h.round_lt htree hroot⟩

/-- The walk from a block, with enough steps for its round, ends and finds what leads to it. -/
theorem walk_ends
    {fuel : Nat} (hpos : 0 < fuel) (hfuel : ∀ block ∈ tree.getBlock id, block.block.round < fuel)
    (found : List PipelinedBlock) :
    ∃ answer, tree.pathFromRootToBlock rootId root.block.round fuel id found = some answer ∧
      ∀ path, answer = some path ↔
        ∃ earlier, tree.IsPath rootId earlier id ∧ path = earlier ++ found := by
  induction fuel generalizing id found with
  | zero => cases hpos
  | succ fuel ih =>
    unfold pathFromRootToBlock
    cases hget : tree.getBlock id with
    | none =>
      refine ⟨none, rfl, fun path => iff_of_false (by simp) ?_⟩
      rintro ⟨earlier, hpath, -⟩
      rcases hpath.ends htree hroot with ⟨-, rfl⟩ | ⟨_, _, -, hblock, -⟩
      · simp [hroot] at hget
      · simp [hget] at hblock
    | some block =>
      have hround := hfuel block hget
      simp only
      split_ifs with hlow hid
      · subst hid
        refine ⟨some found, rfl, fun path => ⟨?_, ?_⟩⟩
        · intro hsome
          exact ⟨[], isPath_nil.mpr rfl, (Option.some.inj hsome).symm⟩
        · rintro ⟨earlier, hpath, rfl⟩
          rcases hpath.ends htree hroot with ⟨rfl, -⟩ | ⟨_, _, -, -, hne, -⟩
          · rfl
          · exact absurd rfl hne
      · refine ⟨none, rfl, fun path => iff_of_false (by simp) ?_⟩
        rintro ⟨earlier, hpath, -⟩
        rcases hpath.ends htree hroot with ⟨-, rfl⟩ | ⟨_, last, -, hlast, -, -, hlater⟩
        · exact hid rfl
        · obtain rfl := Option.some.inj (hget.symm.trans hlast)
          exact absurd hlater (Nat.not_lt.mpr hlow)
      · have hkey := htree.keyed id block hget
        have hblock : tree.getBlock block.id = some block := by
          rw [hkey]
          exact hget
        have hne : id ≠ rootId := by
          rintro rfl
          obtain rfl := Option.some.inj (hroot.symm.trans hget)
          exact hlow le_rfl
        have hearlier : ∀ parent ∈ tree.getBlock block.block.parentId,
            parent.block.round < fuel := by
          intro parent hparent
          have hless := htree.parent block parent hblock (hkey ▸ hne) hparent
          omega
        obtain ⟨answer, hanswer, hexact⟩ := ih (by omega) hearlier (block :: found)
        refine ⟨answer, hanswer, fun path => (hexact path).trans ⟨?_, ?_⟩⟩
        · rintro ⟨earlier, hpath, rfl⟩
          refine ⟨earlier ++ [block], ?_, by simp⟩
          exact isPath_concat.mpr ⟨hpath, hkey, hblock, hkey ▸ hne⟩
        · rintro ⟨earlier, hpath, rfl⟩
          rcases hpath.ends htree hroot with ⟨-, rfl⟩ | ⟨rest, last, rfl, hlast, -, hrest, -⟩
          · exact absurd rfl hne
          · obtain rfl := Option.some.inj (hget.symm.trans hlast)
            exact ⟨rest, hrest, by simp⟩

end

/-- The walk ends, with one answer for any number of iterations that is enough: the blocks after the
root up to the given one if they are there, and otherwise none. -/
theorem pathFromRootToBlock_exact (htree : tree.RoundsGrow rootId)
    (hroot : tree.getBlock rootId = some root) (id : HashValue) :
    ∃ enough answer, (∀ fuel ≥ enough,
        tree.pathFromRootToBlock rootId root.block.round fuel id [] = some answer) ∧
      ∀ path, answer = some path ↔ tree.IsPath rootId path id := by
  obtain ⟨enough, hends⟩ : ∃ enough, ∀ fuel ≥ enough, ∃ answer,
      tree.pathFromRootToBlock rootId root.block.round fuel id [] = some answer ∧
        ∀ path, answer = some path ↔ tree.IsPath rootId path id := by
    refine ⟨((tree.getBlock id).map (·.block.round)).getD 0 + 1, fun fuel hfuel => ?_⟩
    have hround : ∀ block ∈ tree.getBlock id, block.block.round < fuel := by
      intro block hblock
      rw [Option.mem_def.mp hblock, Option.map_some, Option.getD_some] at hfuel
      omega
    simpa using walk_ends htree hroot (by omega) hround []
  obtain ⟨answer, -, hexact⟩ := hends enough le_rfl
  refine ⟨enough, answer, fun fuel hfuel => ?_, hexact⟩
  obtain ⟨answer', hanswer, hexact'⟩ := hends fuel hfuel
  rw [hanswer, Option.ext fun path => (hexact' path).trans (hexact path).symm]

end Liquent.BlockStorage.BlockTree

namespace Liquent.BlockStorage.SmallTree

open Misc BlockTree

attribute [local instance] crypto

theorem path_exact_forked : ∃ enough answer,
    (∀ fuel ≥ enough, (forked 1).pathFromRootToBlock 1 1 fuel 4 [] = some answer) ∧
      ∀ path, answer = some path ↔ (forked 1).IsPath 1 path 4 := by
  have hmem : ∀ id block, (forked 1).getBlock id = some block →
      (id, block) ∈ (forked 1).idToBlock.map fun e => (e.1, e.2.executedBlock) := by
    intro id block hget
    obtain ⟨entry, hentry, rfl⟩ := Option.map_eq_some_iff.mp hget
    exact List.mem_map.mpr ⟨_, Table.mem_of_get hentry, rfl⟩
  refine pathFromRootToBlock_exact ⟨fun id block h => ?_, fun block parent h _ hparent => ?_⟩
    (rfl : (forked 1).getBlock 1 = some (proposal 1 0)) 4
  · exact (by decide : ∀ e ∈ (forked 1).idToBlock.map fun e => (e.1, e.2.executedBlock),
      e.2.id = e.1) _ (hmem _ _ h)
  · exact (by decide : ∀ e ∈ (forked 1).idToBlock.map fun e => (e.1, e.2.executedBlock),
      ∀ e' ∈ (forked 1).idToBlock.map fun e => (e.1, e.2.executedBlock),
        e'.1 = e.2.block.parentId → e'.2.block.round < e.2.block.round) _ (hmem _ _ h) _
      (hmem _ _ hparent) rfl

end Liquent.BlockStorage.SmallTree
