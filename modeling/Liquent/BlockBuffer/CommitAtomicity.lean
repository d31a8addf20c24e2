import Liquent.BlockBuffer.CommittedChange

/-!
# Failed commits

`set_commit_blocks` writes the blocks of its list one by one and returns at the first that it cannot
commit.  What it has written by then stays, and the receivers of the notifiers that it has stored
are dropped with the error.

`failed_commit_atomic_iff` says for which lists a failed call leaves the map as it was: those in
which no block is committed before the first one that is refused.
-/

namespace Liquent.BlockBuffer

open Misc

namespace BlockStateMachine

variable {s : BlockStateMachine} {r : BlockHashRef} {epoch : Nat} {refs : List BlockHashRef}

/-- What a list is refused for comes before all that it would commit. -/
def RefusedFirst (s : BlockStateMachine) (epoch : Nat) (refs : List BlockHashRef) : Prop :=
  ∀ r ∈ refs.takeWhile (s.acceptsCommit epoch), s.awaitsCommit epoch r = false

instance : Decidable (s.RefusedFirst epoch refs) :=
  inferInstanceAs (Decidable (∀ r ∈ refs.takeWhile (s.acceptsCommit epoch),
    s.awaitsCommit epoch r = false))

/-- A list that is refused first leaves the state as it was. -/
theorem setCommitBlocks_of_refusedFirst {e : String}
    (herror : (s.setCommitBlocks refs epoch).1 = .error e) (h : s.RefusedFirst epoch refs) :
    (s.setCommitBlocks refs epoch).2 = s := by
  induction refs with
  | nil => rfl
  | cons first rest ih =>
    have hstep := s.setCommitBlock_step first epoch
    unfold RefusedFirst at h
    simp only [setCommitBlocks] at herror ⊢
    generalize s.setCommitBlock first epoch = out at *
    cases hstep with
    | refuse => rfl
    | settle haccept hwait =>
      rw [List.takeWhile_cons_of_pos haccept] at h
      dsimp only at herror
      cases hrest : (s.setCommitBlocks rest epoch).1 with
      | ok more =>
        rw [hrest] at herror
        cases herror
      | error e' =>
        rw [hrest] at herror
        exact ih (hrest.trans herror) (List.forall_mem_cons.mp h).2
    | commit _ _ hget =>
      have haccept : s.acceptsCommit epoch first = true := by simp [acceptsCommit, hget]
      rw [List.takeWhile_cons_of_pos haccept] at h
      have hwait := h first List.mem_cons_self
      simp [awaitsCommit, hget] at hwait

/-- A call that commits a block before it fails has changed the map. -/
theorem refusedFirst_of_same
    (h : ∀ key, (s.setCommitBlocks refs epoch).2.blocks.get key = s.blocks.get key) :
    s.RefusedFirst epoch refs := by
  induction refs with
  | nil =>
    intro r hr
    cases hr
  | cons first rest ih =>
    have hstep := s.setCommitBlock_step first epoch
    unfold RefusedFirst
    simp only [setCommitBlocks] at h
    generalize s.setCommitBlock first epoch = out at *
    cases hstep with
    | refuse e hrefuse =>
      rw [List.takeWhile_cons_of_neg (by simp [hrefuse])]
      intro r hr
      cases hr
    | settle haccept hwait =>
      rw [List.takeWhile_cons_of_pos haccept]
      exact List.forall_mem_cons.mpr ⟨hwait, ih h⟩
    | @commit s' result notify hget _ hs' =>
      -- the entry of the first block is committed, and stays so to the end of the call
      have hcommitted : s'.blocks.get ⟨epoch, first.num⟩ =
          some (.committed first.hash result first.blockId notify) := by
            rw [hs', Table.get_put_self]
      obtain ⟨state, hlast, hmove⟩ := (s'.setCommitBlocks_spec rest epoch).2.get_of_some hcommitted
      obtain ⟨notify', rfl⟩ := hmove.of_committed
      simp [h ⟨epoch, first.num⟩, hget] at hlast

/-- A failed call leaves the map as it was, and a later call answers as if it had never happened. -/
def FailedCommitAtomic (s : BlockStateMachine) (epoch : Nat) (refs : List BlockHashRef) : Prop :=
  (∀ key, (s.setCommitBlocks refs epoch).2.blocks.get key = s.blocks.get key) ∧
    ∀ corrected, ((s.setCommitBlocks refs epoch).2.setCommitBlocks corrected epoch).1 =
      (s.setCommitBlocks corrected epoch).1

/-- A failed call is atomic exactly when the list is refused before it has committed a block. -/
theorem failed_commit_atomic_iff {e : String}
    (herror : (s.setCommitBlocks refs epoch).1 = .error e) :
    s.FailedCommitAtomic epoch refs ↔ s.RefusedFirst epoch refs := by
  constructor
  · rintro ⟨hsame, -⟩
    exact refusedFirst_of_same hsame
  · intro hrefused
    have hstate := setCommitBlocks_of_refusedFirst herror hrefused
    constructor
    · intro key
      rw [hstate]
    · intro corrected
      rw [hstate]

end BlockStateMachine

namespace FailedCommit

attribute [local instance] Example.crypto Example.config

/-- Block 1 changes the epoch and has its result, block 2 is still to be executed. -/
def pending : BlockStateMachine := (run step Example.start Example.suffixOrdered).2

def ref (number id : Nat) : BlockHashRef where
  blockId := id
  num := number
  hash := none

/-- A list that starts with the block that is not executed fails without an effect. -/
theorem failed_commit_atomic_pending :
    (∃ e, (pending.setCommitBlocks [ref 2 12, ref 1 11] 1).1 = .error e) ∧
      pending.FailedCommitAtomic 1 [ref 2 12, ref 1 11] :=
  ⟨⟨_, rfl⟩, (BlockStateMachine.failed_commit_atomic_iff rfl).mpr (by decide)⟩

/-- In the order of the chain the first block is committed before the call fails; when the call is
repeated, its notifier is not returned any more. -/
theorem failed_commit_keeps_first :
    (∃ e, (pending.setCommitBlocks [ref 1 11, ref 2 12] 1).1 = .error e) ∧
      (pending.setCommitBlocks [ref 1 11, ref 2 12] 1).2.blocks.get ⟨1, 1⟩ ≠
        pending.blocks.get ⟨1, 1⟩ ∧
      (pending.setCommitBlocks [ref 1 11] 1).1 = .ok [1] ∧
      ((pending.setCommitBlocks [ref 1 11, ref 2 12] 1).2.setCommitBlocks [ref 1 11] 1).1 =
        .ok [] :=
  ⟨⟨_, rfl⟩, by decide, rfl, rfl⟩

end FailedCommit

end Liquent.BlockBuffer
