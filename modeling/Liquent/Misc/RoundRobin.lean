import Mathlib.Algebra.GroupWithZero.Nat
import Mathlib.Data.List.Perm.Basic

/-!
# Round robin over iterators

Several iterators are visited in rounds, in an order that is chosen anew for each round; a visit may
take the next element of an iterator or drop the iterator.  `roundRobin_inv` is the invariant rule:
what does not depend on the order of the iterators and is kept by every visit holds at the end.
`visits_avoid` is the rule for what cannot last: it never comes about.
-/

namespace Liquent.Misc

variable {σ α : Type}

/-- An order of the iterators for each round. -/
structure Shuffle (α : Type) where
  order : Nat → List α → List α
  perm : ∀ round l, (order round l).Perm l

/-- The iterators in the order in which they are. -/
def Shuffle.none (α : Type) : Shuffle α where
  order _ l := l
  perm _ _ := .refl _

/-- A round: every iterator is visited, and stays if the visit returns it. -/
def visitAll (visit : σ → List α → σ × Option (List α)) : σ → List (List α) → σ × List (List α)
  | s, [] => (s, [])
  | s, iter :: rest =>
    let (s, kept) := visit s iter
    let (s, left) := visitAll visit s rest
    (s, kept.toList ++ left)

/-- Rounds until no iterator is left, or the fuel is used up. -/
def roundRobin (shuffle : Shuffle (List α)) (visit : σ → List α → σ × Option (List α)) :
    Nat → Nat → σ → List (List α) → σ
  | 0, _, s, _ => s
  | fuel + 1, round, s, iters =>
    if iters = [] then s
    else
      let (s, left) := visitAll visit s (shuffle.order round iters)
      roundRobin shuffle visit fuel (round + 1) s left

/-- Fuel for all rounds: in each one every iterator loses an element or is dropped. -/
def roundFuel (iters : List (List α)) : Nat := (iters.map (·.length + 1)).sum

/-- The visits of a round, each with the state and the iterators that are left, the visited one
first. -/
def roundVisits (visit : σ → List α → σ × Option (List α)) :
    σ → List (List α) → List (List α) → List (σ × List (List α))
  | _, [], _ => []
  | s, iter :: rest, kept =>
    (s, iter :: (rest ++ kept)) ::
      roundVisits visit (visit s iter).1 rest ((visit s iter).2.toList ++ kept)

/-- The visits of `roundRobin`. -/
def visits (shuffle : Shuffle (List α)) (visit : σ → List α → σ × Option (List α)) :
    Nat → Nat → σ → List (List α) → List (σ × List (List α))
  | 0, _, _, _ => []
  | fuel + 1, round, s, iters =>
    let (s', left) := visitAll visit s (shuffle.order round iters)
    roundVisits visit s (shuffle.order round iters) [] ++
      visits shuffle visit fuel (round + 1) s' left

variable {visit : σ → List α → σ × Option (List α)} {I P : σ → List (List α) → Prop}

theorem visitAll_inv (hperm : ∀ s l l', l.Perm l' → I s l → I s l')
    (hvisit : ∀ s iter rest, P s (iter :: rest) → I s (iter :: rest) →
      I (visit s iter).1 ((visit s iter).2.toList ++ rest))
    {s : σ} {pending kept : List (List α)} (hP : ∀ c ∈ roundVisits visit s pending kept, P c.1 c.2)
    (h : I s (pending ++ kept)) :
    I (visitAll visit s pending).1 ((visitAll visit s pending).2 ++ kept) := by
  induction pending generalizing s kept with
  | nil => exact h
  | cons iter rest ih =>
    obtain ⟨hfirst, hP⟩ := List.forall_mem_cons.mp hP
    have hnext := hvisit s iter (rest ++ kept) hfirst h
    -- the iterator just visited joins those that are kept
    have hmove : I (visit s iter).1 (rest ++ ((visit s iter).2.toList ++ kept)) := by
      apply hperm _ _ _ _ hnext
      rw [← List.append_assoc, ← List.append_assoc]
      exact List.perm_append_comm.append_right kept
    have hrest := ih hP hmove
    apply hperm _ _ _ _ hrest
    simp only [visitAll]
    rw [← List.append_assoc]
    exact List.perm_append_comm.append_right kept

/-- What every visit keeps, whatever the order of the iterators, holds at the end. -/
theorem roundRobin_inv (shuffle : Shuffle (List α)) (fuel round : Nat)
    (hperm : ∀ s l l', l.Perm l' → I s l → I s l') (hvisit : ∀ s iter rest, I s (iter :: rest) →
      I (visit s iter).1 ((visit s iter).2.toList ++ rest))
    {s : σ} {iters : List (List α)} (h : I s iters) :
    ∃ left, I (roundRobin shuffle visit fuel round s iters) left := by
  induction fuel generalizing round s iters with
  | zero => exact ⟨iters, h⟩
  | succ fuel ih =>
    simp only [roundRobin]
    by_cases hnil : iters = []
    · rw [if_pos hnil]
      exact ⟨iters, h⟩
    · rw [if_neg hnil]
      have hshuffled : I s (shuffle.order round iters ++ []) := by
        rw [List.append_nil]
        exact hperm _ _ _ (shuffle.perm round iters).symm h
      have hround :=
        visitAll_inv (P := fun _ _ => True) hperm (fun s iter rest _ => hvisit s iter rest)
        (fun _ _ => trivial) hshuffled
      rw [List.append_nil] at hround
      exact ih (round + 1) hround

/-! ## What cannot last -/

section

variable (hperm : ∀ s l l', l.Perm l' → I s l → I s l')
  (hvisit : ∀ s iter rest, P s (iter :: rest) → I s (iter :: rest) →
    I (visit s iter).1 ((visit s iter).2.toList ++ rest))

include hperm hvisit

/-- What is kept to the end of a round, and does not hold there, did not hold before. -/
theorem roundVisits_avoid {s : σ} {pending kept : List (List α)}
    (hend : ¬ I (visitAll visit s pending).1 ((visitAll visit s pending).2 ++ kept))
    (hP : ∀ c ∈ roundVisits visit s pending kept, P c.1 c.2) :
    ∀ c ∈ roundVisits visit s pending kept, ¬ I c.1 c.2 := by
  induction pending generalizing s kept with
  | nil => simp [roundVisits]
  | cons iter rest ih =>
    refine List.forall_mem_cons.mpr ⟨fun h => hend (visitAll_inv hperm hvisit hP h), ?_⟩
    refine ih (fun h => hend ?_) (List.forall_mem_cons.mp hP).2
    apply hperm _ _ _ _ h
    simp only [visitAll]
    rw [← List.append_assoc]
    exact List.perm_append_comm.append_right kept

variable (hshort : ∀ s iter l, (visit s iter).2 = some l → l.length < iter.length)

include hshort

omit hperm hvisit in
theorem roundFuel_visitAll (s : σ) (iters : List (List α)) :
    roundFuel (visitAll visit s iters).2 + iters.length ≤ roundFuel iters := by
  induction iters generalizing s with
  | nil => simp [visitAll, roundFuel]
  | cons iter rest ih =>
    have hrest := ih (visit s iter).1
    have hiter := hshort s iter
    simp only [visitAll, roundFuel, List.map_append, List.sum_append, List.map_cons, List.sum_cons,
      List.length_cons] at hrest ⊢
    cases hkept : (visit s iter).2 with
    | none =>
      simp only [Option.toList_none, List.map_nil, List.sum_nil]
      omega
    | some l =>
      have hless := hiter l hkept
      simp only [Option.toList_some, List.map_cons, List.map_nil, List.sum_cons, List.sum_nil]
      omega

variable (hnil : ∀ s, ¬ I s [])

include hnil

/-- What would last until no iterator is left never comes about. -/
theorem visits_avoid (shuffle : Shuffle (List α)) {fuel round : Nat} {s : σ}
    {iters : List (List α)} (hfuel : roundFuel iters ≤ fuel)
    (hP : ∀ c ∈ visits shuffle visit fuel round s iters, P c.1 c.2) :
    ¬ I s iters ∧ ∀ c ∈ visits shuffle visit fuel round s iters, ¬ I c.1 c.2 := by
  induction fuel generalizing round s iters with
  | zero =>
    cases iters with
    | nil => exact ⟨hnil s, by simp [visits]⟩
    | cons iter rest => simp [roundFuel] at hfuel
  | succ fuel ih =>
    obtain ⟨hround, hrest⟩ := List.forall_mem_append.mp hP
    have hperms := shuffle.perm round iters
    have hless := roundFuel_visitAll hshort s (shuffle.order round iters)
    have hsame : roundFuel (shuffle.order round iters) = roundFuel iters :=
      (hperms.map _).sum_nat
    cases iters with
    | nil =>
      have horder : shuffle.order round [] = [] := hperms.eq_nil
      refine ⟨hnil s, List.forall_mem_append.mpr ⟨by simp [horder, roundVisits], ?_⟩⟩
      exact (ih (by simp [horder, visitAll, roundFuel]) hrest).2
    | cons iter rest =>
      have hpos : 0 < (shuffle.order round (iter :: rest)).length := by
        rw [hperms.length_eq]
        exact Nat.succ_pos _
      obtain ⟨hend, havoid⟩ := ih (by omega) hrest
      rw [← List.append_nil (visitAll visit s _).2] at hend
      refine ⟨fun h => hend ?_, List.forall_mem_append.mpr ⟨?_, havoid⟩⟩
      · refine visitAll_inv hperm hvisit hround ?_
        rw [List.append_nil]
        exact hperm _ _ _ hperms.symm h
      · exact roundVisits_avoid hperm hvisit hend hround

end

end Liquent.Misc
