import Mathlib.Data.List.Basic

/-!
# Binary search

The search that a slice offers: it halves the part that is left, and compares the entry it ends at.
-/

namespace Liquent.Misc

variable {α : Type} {f : α → Ordering} {xs : List α}

/-- The loop of `binary_search_by`: `size` entries from `base` on are left. -/
def narrow (f : α → Ordering) (xs : List α) (base size : Nat) : Nat :=
  if 1 < size then
    let mid := base + size / 2
    if xs[mid]?.map f = some .gt then narrow f xs base (size - size / 2)
    else narrow f xs mid (size - size / 2)
  else base
termination_by size

/-- `binary_search_by` of a slice; the error is the place at which an entry would be inserted. -/
def binarySearchBy (f : α → Ordering) (xs : List α) : Except Nat Nat :=
  if xs = [] then .error 0
  else
    let base := narrow f xs 0 xs.length
    match xs[base]?.map f with
    | some .eq => .ok base
    | some .lt => .error (base + 1)
    | _ => .error base

/-- The comparison says less before the point `p` and greater from there on. -/
def Parts (f : α → Ordering) (xs : List α) (p : Nat) : Prop :=
  ∀ i a, xs[i]? = some a → f a = if i < p then .lt else .gt

variable {p base size : Nat}

theorem Parts.map_eq (h : Parts f xs p) {i : Nat} (hi : i < xs.length) :
    xs[i]?.map f = some (if i < p then .lt else .gt) := by
  have hget := List.getElem?_eq_getElem hi
  rw [hget, Option.map_some, h i _ hget]

theorem Parts.narrow (h : Parts f xs p) (hsize : 0 < size) (hlen : base + size ≤ xs.length)
    (hp : p ≤ base + size) (hbase : base = 0 ∨ base < p) :
    let b := narrow f xs base size
    b < xs.length ∧ p ≤ b + 1 ∧ (b = 0 ∨ b < p) := by
  fun_induction Misc.narrow f xs base size with
  | case1 base size hlt mid hgt ih =>
    have hmid : mid = base + size / 2 := rfl
    rw [h.map_eq (by omega)] at hgt
    have hle : p ≤ mid := by
      by_contra hlt
      simp [Nat.not_le.mp hlt] at hgt
    exact ih (by omega) (by omega) (by omega) hbase
  | case2 base size hlt mid hgt ih =>
    have hmid : mid = base + size / 2 := rfl
    rw [h.map_eq (by omega)] at hgt
    have hlt : mid < p := by
      by_contra hle
      simp [hle] at hgt
    exact ih (by omega) (by omega) (by omega) (.inr hlt)
  | case3 base size hge =>
    show base < xs.length ∧ p ≤ base + 1 ∧ (base = 0 ∨ base < p)
    omega

/-- The search ends at the point where the comparison changes. -/
theorem Parts.binarySearchBy (h : Parts f xs p) (hp : p ≤ xs.length) :
    binarySearchBy f xs = .error p := by
  unfold Misc.binarySearchBy
  split
  · rename_i hnil
    rw [hnil, List.length_nil, Nat.le_zero] at hp
    rw [hp]
  · rename_i hnil
    have hlen := List.length_pos_iff.mpr hnil
    obtain ⟨hlt, hle, hbase⟩ := h.narrow hlen (by omega) (by omega) (.inl rfl)
    simp only [h.map_eq hlt]
    by_cases hb : Misc.narrow f xs 0 xs.length < p
    · simp only [hb, if_true]
      congr 1
      omega
    · simp only [hb, if_false]
      congr 1
      omega

end Liquent.Misc
