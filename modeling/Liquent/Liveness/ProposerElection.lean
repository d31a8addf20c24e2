import Mathlib.Data.Set.Card
import Mathlib.Order.Interval.Finset.Nat
import Liquent.Misc.BinarySearch
import Liquent.Misc.StateExcept

/-!
# The weighted choice of a leader

`choose_index` (`liveness/proposer_election.rs`) draws an index with the given weights: it replaces
the weights by their running totals and searches them for the place of a number below the total.
-/

namespace Liquent.Liveness

open Misc

class Sha3 where
  sha3_256_of : List UInt8 → Vector UInt8 32

def u128Max : Nat := 2 ^ 128 - 1

def u128FromLeBytes (bytes : List UInt8) : Nat :=
  bytes.foldr (fun byte rest => byte.toNat + 256 * rest) 0

variable [Sha3]

/-- The number that `next_in_range` reduces. -/
def hashedState (state : List UInt8) : Nat :=
  u128FromLeBytes ((Sha3.sha3_256_of state).toList.take 16)

/-- `next_in_range` (`proposer_election.rs:57`). -/
def nextInRange (state : List UInt8) (max : Nat) : Except String Nat := do
  ensure (max ≠ 0) "attempt to calculate the remainder with a divisor of zero"
  pure (hashedState state % max)

/-- The loop of `choose_index`: the running totals, and the last of them. -/
def cumulate (totalWeight : Nat) : List Nat → Except String (List Nat × Nat)
  | [] => pure ([], totalWeight)
  | w :: rest => do
    ensure (totalWeight + w ≤ u128Max) "Total stake shouldn't exceed u128::MAX"
    let (weights, total) ← cumulate (totalWeight + w) rest
    pure ((totalWeight + w) :: weights, total)

/-- The search of `choose_index`. -/
def searchIndex (weights : List Nat) (chosenWeight : Nat) : Except String Nat :=
  match binarySearchBy (fun w => if w ≤ chosenWeight then .lt else .gt) weights with
  | .error i => pure i
  | .ok _ => throw "Comparison never returns equals, so it's always guaranteed to be error"

/-- `choose_index` (`proposer_election.rs:67`). -/
def chooseIndex (weights : List Nat) (state : List UInt8) : Except String Nat := do
  let (weights, totalWeight) ← cumulate 0 weights
  let chosenWeight ← nextInRange state totalWeight
  searchIndex weights chosenWeight

/-- The index for a given `chosen_weight`. -/
def indexAt (weights : List Nat) (chosenWeight : Nat) : Except String Nat := do
  let (weights, _) ← cumulate 0 weights
  searchIndex weights chosenWeight

/-- The number falls on the weight at an index, when the weights are laid end to end. -/
def FallsOn (weights : List Nat) (h i : Nat) : Prop :=
  (weights.take i).sum ≤ h ∧ h < (weights.take (i + 1)).sum

omit [Sha3]

variable {weights : List Nat} {h i j : Nat}

theorem sum_take_succ : (weights.take (i + 1)).sum = (weights.take i).sum + weights[i]?.getD 0 := by
  rw [List.take_add_one, List.sum_append]
  cases weights[i]? <;> simp

theorem sum_take_le (weights : List Nat) (hij : i ≤ j) : (weights.take i).sum ≤
    (weights.take j).sum := by
  refine monotone_nat_of_le_succ (f := fun i => (weights.take i).sum) (fun i => ?_) hij
  simp only [sum_take_succ]
  omega

theorem FallsOn.le (hi : FallsOn weights h i) (hj : FallsOn weights h j) : i ≤ j := by
  by_contra hlt
  have hle : (weights.take (j + 1)).sum ≤ (weights.take i).sum := sum_take_le weights (by omega)
  have hlower := hi.1
  have hupper := hj.2
  omega

theorem FallsOn.getElem? (hi : FallsOn weights h i) : ∃ w, weights[i]? = some w ∧ 0 < w := by
  have hlt := hi.1.trans_lt hi.2
  rw [sum_take_succ] at hlt
  cases hw : weights[i]? with
  | none => simp [hw] at hlt
  | some w => exact ⟨w, rfl, by simpa [hw] using hlt⟩

theorem exists_fallsOn (hh : h < weights.sum) : ∃ i, FallsOn weights h i := by
  have hex : ∃ i, h < (weights.take (i + 1)).sum :=
    ⟨weights.length, by rwa [List.take_of_length_le (Nat.le_succ _)]⟩
  refine ⟨Nat.find hex, ?_, Nat.find_spec hex⟩
  cases hfind : Nat.find hex with
  | zero => simp
  | succ i => exact Nat.le_of_not_lt (Nat.find_min hex (by omega))

theorem cumulate_eq (total : Nat) (hfits : total + weights.sum ≤ u128Max) : cumulate total weights =
      .ok ((List.range weights.length).map fun i => total + (weights.take (i + 1)).sum,
        total + weights.sum) := by
  induction weights generalizing total with
  | nil => rfl
  | cons w rest ih =>
    rw [List.sum_cons, ← Nat.add_assoc] at hfits
    have hle : total + w ≤ u128Max := by omega
    simp [cumulate, ensure, hle, ih _ hfits, List.range_succ_eq_map, Nat.add_assoc, bind,
      Except.bind, pure, Except.pure, Function.comp_def]

/-- The search finds the weight that the number falls on. -/
theorem FallsOn.indexAt (hfits : weights.sum ≤ u128Max) (hi : FallsOn weights h i) :
    indexAt weights h = .ok i := by
  obtain ⟨w, hw, -⟩ := hi.getElem?
  have hparts : Parts (fun w => if w ≤ h then .lt else .gt)
      ((List.range weights.length).map fun i => (weights.take (i + 1)).sum) i := by
    intro j total hj
    simp only [List.getElem?_map, Option.map_eq_some_iff] at hj
    obtain ⟨j', hj', rfl⟩ := hj
    obtain ⟨-, rfl⟩ := List.getElem?_eq_some_iff.mp hj'
    rw [List.getElem_range]
    by_cases hlt : j < i
    · simp [hlt, (sum_take_le weights hlt).trans hi.1]
    · simp [hlt, hi.2.trans_le (sum_take_le weights (by omega : i + 1 ≤ j + 1))]
  have hlen := (List.getElem?_eq_some_iff.mp hw).1
  have hsearch := hparts.binarySearchBy (by simpa using hlen.le)
  simp [Liveness.indexAt, cumulate_eq 0 (by simpa using hfits), searchIndex, hsearch,
    bind, Except.bind, pure, Except.pure]

theorem indexAt_eq_ok_iff (hfits : weights.sum ≤ u128Max) (hh : h < weights.sum) :
    indexAt weights h = .ok i ↔ FallsOn weights h i := by
  obtain ⟨j, hj⟩ := exists_fallsOn hh
  rw [hj.indexAt hfits, Except.ok.injEq]
  constructor
  · rintro rfl
    exact hj
  · intro hi
    exact Nat.le_antisymm (hj.le hi) (hi.le hj)

/-- The index is that of the weight on which the number falls, and every weight is met as often as
it says. -/
theorem chooseIndex_weighted [Sha3] (weights : List Nat) (hpos : 0 < weights.sum)
    (hfits : weights.sum ≤ u128Max) :
    (∀ state, ∃ i w, chooseIndex weights state = .ok i ∧
      FallsOn weights (hashedState state % weights.sum) i ∧
      (∀ j, FallsOn weights (hashedState state % weights.sum) j → j = i) ∧
      weights[i]? = some w ∧ 0 < w) ∧
    (∀ state, chooseIndex weights state = indexAt weights (hashedState state % weights.sum)) ∧
    ∀ i w, weights[i]? = some w → {h | h < weights.sum ∧ indexAt weights h = .ok i}.ncard = w := by
  have hchoose (state : List UInt8) :
      chooseIndex weights state = indexAt weights (hashedState state % weights.sum) := by
    simp [chooseIndex, indexAt, cumulate_eq 0 (by simpa using hfits), nextInRange, ensure,
      hpos.ne', bind, Except.bind, pure, Except.pure]
  refine ⟨?_, hchoose, ?_⟩
  · intro state
    obtain ⟨i, hi⟩ := exists_fallsOn (Nat.mod_lt (hashedState state) hpos)
    obtain ⟨w, hw, hw0⟩ := hi.getElem?
    refine ⟨i, w, ?_, hi, fun j hj => Nat.le_antisymm (hj.le hi) (hi.le hj), hw, hw0⟩
    rw [hchoose]
    exact hi.indexAt hfits
  · intro i w hw
    have hsum : (weights.take (i + 1)).sum = (weights.take i).sum + w := by
      rw [sum_take_succ, hw]
      rfl
    have hle : (weights.take (i + 1)).sum ≤ weights.sum := by
      have := sum_take_le weights (Nat.le_max_left (i + 1) weights.length)
      rwa [List.take_of_length_le (Nat.le_max_right ..)] at this
    have hset : {h | h < weights.sum ∧ indexAt weights h = .ok i} =
        ↑(Finset.Ico (weights.take i).sum (weights.take (i + 1)).sum) := by
      ext h
      rw [Finset.coe_Ico, Set.mem_Ico]
      constructor
      · rintro ⟨hh, hi⟩
        exact (indexAt_eq_ok_iff hfits hh).mp hi
      · intro hi
        have hh := hi.2.trans_le hle
        exact ⟨hh, (indexAt_eq_ok_iff hfits hh).mpr hi⟩
    rw [hset, Set.ncard_coe_finset, Nat.card_Ico]
    omega

theorem chooseIndex_weighted_two : {h | h < 3 ∧ indexAt [0, 2, 1] h = .ok 1}.ncard = 2 := by
  let sha3 : Sha3 := ⟨fun _ => Vector.replicate 32 0⟩
  obtain ⟨-, -, hcount⟩ := chooseIndex_weighted [0, 2, 1] (by decide) (by decide)
  exact hcount 1 2 rfl

end Liquent.Liveness
