import Liquent.QuorumStore.NoRepeat

/-!
# The soft limit of a pull

`pull_proofs` compares the unique transactions with the soft limit after it has added a batch, and a
limit that is reached only ends the iterator of one author.  The iterators of other authors go on
and add batches as long as the hard limits allow it.
-/

namespace Liquent.QuorumStore

open Misc

namespace ProofQueue

/-- The visits of the loop of `pull_proofs`. -/
def pullVisits (q : ProofQueue) (shuffle : Shuffle (List (BatchSortKey × BatchInfo)))
    (excluded : List BatchInfo) (limits : PullLimits) :
    List (PullState × List (List (BatchSortKey × BatchInfo))) :=
  let filteredTxns := excluded.flatMap fun info =>
    ((q.batchSummaries.get (.fromInfo info)).map (·.txnSummaries)).getD []
  let iters := q.authorToBatches.iterators
  visits shuffle (q.pullVisit excluded limits) (roundFuel iters) 0 { filteredTxns } iters

/-- If the visit adds a batch, the unique transactions collected before are below the soft limit. -/
def AddsBelowSoft (q : ProofQueue) (excluded : List BatchInfo) (limits : PullLimits) (s : PullState)
    (iters : List (List (BatchSortKey × BatchInfo))) : Prop :=
  ∀ iter ∈ iters.head?, (q.pullVisit excluded limits s iter).1.ret = s.ret ∨
    s.curUniqueTxns < limits.softMaxTxnsAfterFiltering

/-- The soft limit is reached, and an author that is left has a batch next that fits. -/
def Overshoots (q : ProofQueue) (excluded : List BatchInfo) (limits : PullLimits) (s : PullState)
    (iters : List (List (BatchSortKey × BatchInfo))) : Prop :=
  limits.softMaxTxnsAfterFiltering ≤ s.curUniqueTxns ∧
    ∃ iter ∈ iters, q.nextFits excluded limits s iter = true

variable {q : ProofQueue} {excluded : List BatchInfo} {limits : PullLimits} {s : PullState}
  {iter : List (BatchSortKey × BatchInfo)} {iters : List (List (BatchSortKey × BatchInfo))}

instance : Decidable (q.AddsBelowSoft excluded limits s iters) :=
  inferInstanceAs (Decidable (∀ iter ∈ iters.head?, _))

theorem nextFits_full (full : Bool) (iter : List (BatchSortKey × BatchInfo)) :
    q.nextFits excluded limits { s with full := full } iter =
      q.nextFits excluded limits s iter := by
  induction iter with
  | nil => rfl
  | cons e rest ih => simp only [nextFits, ih, exceeds]

/-- A batch that fits stays next until it is added. -/
theorem Overshoots.visit (hbelow : q.AddsBelowSoft excluded limits s (iter :: iters))
    (h : q.Overshoots excluded limits s (iter :: iters)) :
    q.Overshoots excluded limits (q.pullVisit excluded limits s iter).1
      ((q.pullVisit excluded limits s iter).2.toList ++ iters) := by
  obtain ⟨hsoft, l, hl, hfits⟩ := h
  obtain ⟨-, ⟨full, kept, hvisit, hkept⟩ | ⟨e, rest, proof, next, kept, -, -, hvisit, hret, -⟩⟩ :=
    q.pullVisit_cases excluded limits s iter
  · simp only [hvisit]
    refine ⟨hsoft, ?_⟩
    rcases List.mem_cons.mp hl with rfl | hl
    · obtain ⟨l', hl', hfits'⟩ := hkept hfits
      refine ⟨l', List.mem_append_left _ (Option.mem_toList.mpr hl'), ?_⟩
      rw [nextFits_full, hfits']
    · exact ⟨l, List.mem_append_right _ hl, by rw [nextFits_full, hfits]⟩
  · have hless := (hbelow iter rfl).resolve_left (by simp [hvisit, hret])
    exact absurd hless hsoft.not_gt

theorem AddsBelowSoft.of_not_overshoots (h : ¬ q.Overshoots excluded limits s iters) :
    q.AddsBelowSoft excluded limits s iters := by
  intro iter hiter
  obtain ⟨-, ⟨full, kept, hvisit, -⟩ | ⟨e, rest, proof, next, kept, -, -, -, -, hfits⟩⟩ :=
    q.pullVisit_cases excluded limits s iter
  · exact .inl (by rw [hvisit])
  · right
    by_contra hsoft
    exact h ⟨not_lt.mp hsoft, iter, List.mem_of_head? hiter, hfits⟩

end ProofQueue

/-! ### Two authors -/

namespace TwoAuthors

def proof (author : Author) : ProofOfStore where
  info :=
    { author, batchId := { id := 1, nonce := 0 }, epoch := 1, expiration := 5, digest := author
      numTxns := 2, numBytes := 1, gasBucketStart := 0 }
  multiSignature := { signers := [], sig := none }

def limits (soft : Nat) : PullLimits := ⟨9, 9, soft, 9, true, 0⟩

def queue : ProofQueue := (({ myPeerId := 1 } : ProofQueue).push (proof 1)).push (proof 2)

end TwoAuthors

end Liquent.QuorumStore
