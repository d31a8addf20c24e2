import Mathlib.Data.List.Sort

/-!
# Lists

How lists change at one place: an element is modified, or inserted into a sorted list behind all
others.  Two passes over one list that keep its order.
-/

namespace Liquent.Misc

variable {α : Type} {l : List α} {a : α}

/-- A list around the element at an index, before and after the element is modified. -/
theorem modify_split {i : Nat} (h : l[i]? = some a) (f : α → α) :
    ∃ pre post, l = pre ++ a :: post ∧ l.modify i f = pre ++ f a :: post := by
  obtain ⟨hi, rfl⟩ := List.getElem?_eq_some_iff.mp h
  refine ⟨l.take i, l.drop (i + 1), ?_, List.modify_eq_take_cons_drop hi⟩
  rw [List.getElem_cons_drop hi, List.take_append_drop]

theorem forall_mem_replace {P : α → Prop} {pre post : List α} {b : α}
    (h : ∀ x ∈ pre ++ a :: post, P x) (hb : P b) : ∀ x ∈ pre ++ b :: post, P x := by
  simp only [List.forall_mem_append, List.forall_mem_cons] at h ⊢
  exact ⟨h.1, hb, h.2.2⟩

theorem forall_mem_snoc {P : α → Prop} (h : ∀ x ∈ l, P x) (ha : P a) : ∀ x ∈ l ++ [a], P x :=
  List.forall_mem_append.mpr ⟨h, by simpa using ha⟩

/-- An element behind which nothing comes is inserted at the end. -/
theorem orderedInsert_last (r : α → α → Prop) [DecidableRel r]
    (h : ∀ b ∈ l, ¬ r a b) : l.orderedInsert r a = l ++ [a] := by
  induction l with
  | nil => rfl
  | cons b rest ih =>
    rw [List.orderedInsert, if_neg (h b List.mem_cons_self)]
    rw [ih (List.forall_mem_cons.mp h).2]
    rfl

/-- The elements that pass a test and the values found at them come in the same order. -/
theorem forall₂_filter_filterMap {β : Type} {p : α → Bool} {f : α → Option β}
    (h : ∀ a ∈ l, p a = (f a).isSome) :
    List.Forall₂ (fun a b => f a = some b) (l.filter p) (l.filterMap f) := by
  induction l with
  | nil => exact .nil
  | cons a rest ih =>
    have hrest := ih (List.forall_mem_cons.mp h).2
    have ha := h a List.mem_cons_self
    cases hf : f a with
    | none =>
      rw [hf] at ha
      rw [List.filter_cons_of_neg (by rw [ha]; simp), List.filterMap_cons_none hf]
      exact hrest
    | some b =>
      rw [hf] at ha
      rw [List.filter_cons_of_pos (by rw [ha]; rfl), List.filterMap_cons_some hf]
      exact .cons hf hrest

/-- The partner of an element of the first of two lists in step. -/
theorem exists_forall₂_left {β : Type} {r : α → β → Prop} {l' : List β}
    (h : List.Forall₂ r l l') (ha : a ∈ l) : ∃ b ∈ l', r a b := by
  induction h with
  | nil => cases ha
  | @cons x y _ _ hxy _ ih =>
    rcases List.mem_cons.mp ha with rfl | hrest
    · exact ⟨y, List.mem_cons_self, hxy⟩
    · obtain ⟨b, hb, hab⟩ := ih hrest
      exact ⟨b, List.mem_cons_of_mem _ hb, hab⟩

/-- Two selections from distinct keys agree when they select the same keys. -/
theorem filter_agree_of_map_eq {β : Type} {f : α → β} {p q : α → Bool}
    (hdistinct : (l.map f).Nodup) (h : (l.filter p).map f = (l.filter q).map f) :
    ∀ a ∈ l, p a = q a := by
  have himp {p q : α → Bool} (h : (l.filter p).map f = (l.filter q).map f) :
      ∀ a ∈ l, p a = true → q a = true := by
    intro a ha hp
    have hmem : f a ∈ (l.filter p).map f := List.mem_map_of_mem (List.mem_filter.mpr ⟨ha, hp⟩)
    rw [h] at hmem
    obtain ⟨b, hb, heq⟩ := List.mem_map.mp hmem
    obtain ⟨hb, hq⟩ := List.mem_filter.mp hb
    rwa [List.inj_on_of_nodup_map hdistinct ha hb heq.symm]
  intro a ha
  exact Bool.eq_iff_iff.mpr ⟨himp h a ha, himp h.symm a ha⟩

end Liquent.Misc
