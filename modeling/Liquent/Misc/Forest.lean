import Mathlib.Data.List.Nodup
import Mathlib.Data.List.Perm.Subperm
import Mathlib.Logic.Relation

/-!
# Searching a forest

A forest is given by the children of each node.  A search from a node goes through everything below
it, except for what lies below a node at which it is cut.  `Search` is the invariant of such a
search with an explicit list of nodes that are still to be visited; it says that no node is met
twice, so that a search within finitely many nodes ends.
-/

namespace Liquent.Misc

open Relation

variable {α : Type} {children : α → List α}

/-- One step down. -/
def IsChild (children : α → List α) (a b : α) : Prop := b ∈ children a

/-- The node itself and everything below it. -/
def Below (children : α → List α) : α → α → Prop := ReflTransGen (IsChild children)

/-- No node has two parents or lies below itself, and children are listed once. -/
structure Forest (children : α → List α) : Prop where
  nodup : ∀ a, (children a).Nodup
  parent : ∀ a a' b, b ∈ children a → b ∈ children a' → a = a'
  acyclic : ∀ a, ¬ TransGen (IsChild children) a a

theorem rank_lt_of_transGen (rank : α → Nat) (h : ∀ a b, b ∈ children a → rank a < rank b) {a b : α}
    (hab : TransGen (IsChild children) a b) : rank a < rank b := by
  induction hab with
  | single hstep => exact h _ _ hstep
  | tail _ hstep ih => exact Nat.lt_trans ih (h _ _ hstep)

/-- What lies below a node when the forest is cut above another one. -/
def BelowCut (children : α → List α) (cut : α) : α → α → Prop :=
  ReflTransGen fun a b => b ∈ children a ∧ b ≠ cut

variable {a b root cut : α}

theorem BelowCut.below (h : BelowCut children cut a b) : Below children a b := by
  induction h with
  | refl => exact ReflTransGen.refl
  | tail _ hstep ih => exact ih.tail hstep.1

/-- A cut below the node removes exactly what lies below the cut. -/
theorem Forest.belowCut_iff (h : Forest children) (hcut : TransGen (IsChild children) root cut) :
    BelowCut children cut root b ↔ Below children root b ∧ ¬ Below children cut b := by
  constructor
  · intro hb
    refine ⟨hb.below, ?_⟩
    induction hb with
    | refl => exact fun hroot => h.acyclic root (hcut.trans_left hroot)
    | tail hx hstep ih =>
      intro hbelow
      rcases ReflTransGen.cases_tail hbelow with heq | ⟨y, hy, hchild⟩
      · exact hstep.2 heq
      · rw [h.parent _ _ _ hchild hstep.1] at hy
        exact ih hy
  · rintro ⟨hb, hcut⟩
    induction hb with
    | refl => exact ReflTransGen.refl
    | tail hx hstep ih =>
      apply ReflTransGen.tail (ih fun hx => hcut (hx.tail hstep))
      refine ⟨hstep, ?_⟩
      rintro rfl
      exact hcut ReflTransGen.refl

/-! ## A search under way -/

/-- A search from `root` has visited the nodes in `done`; those in `todo` are next. -/
structure Search (children : α → List α) (cut root : α) (done todo : List α) : Prop where
  nodup : (done ++ todo).Nodup
  started : root ∈ done ++ todo
  sound : ∀ b ∈ done ++ todo, BelowCut children cut root b
  closed : ∀ a ∈ done, ∀ b ∈ children a, b ≠ cut → b ∈ done ++ todo
  parent : ∀ b ∈ done ++ todo, b ≠ root → ∃ a ∈ done, b ∈ children a

namespace Search

variable {done todo new : List α}

theorem start : Search children cut root [] [root] where
  nodup := List.nodup_singleton root
  started := List.mem_singleton_self root
  sound b hb := by
    obtain rfl := List.mem_singleton.mp hb
    exact ReflTransGen.refl
  closed a ha := absurd ha List.not_mem_nil
  parent b hb hne := absurd (List.mem_singleton.mp hb) hne

/-- A child of the node that is visited next has not been met before. -/
theorem not_mem_of_child (hf : Forest children) (h : Search children cut root done (a :: todo))
    (hb : b ∈ children a) : b ∉ done ++ a :: todo := by
  intro hmem
  by_cases hroot : b = root
  · subst hroot
    have hbelow : Below children b a := (h.sound a (by simp)).below
    exact hf.acyclic b (TransGen.tail' hbelow hb)
  · obtain ⟨a', ha', hchild⟩ := h.parent b hmem hroot
    obtain rfl := hf.parent _ _ _ hchild hb
    have hdisjoint := (List.nodup_append.mp h.nodup).2.2
    exact hdisjoint a' ha' a' List.mem_cons_self rfl

/-- A visited node's children are visited later. -/
theorem visit [DecidableEq α] (hf : Forest children) (h : Search children cut root done (a :: todo))
    (hnew : new.Perm ((children a).filter (· ≠ cut))) :
    Search children cut root (done ++ [a]) (new ++ todo) := by
  have hmem : ∀ b, b ∈ new ↔ b ∈ children a ∧ b ≠ cut := by
    intro b
    rw [hnew.mem_iff]
    simp
  have hall : ∀ b, b ∈ (done ++ [a]) ++ (new ++ todo) ↔ b ∈ done ++ a :: todo ∨ b ∈ new := by
    intro b
    simp only [List.mem_append, List.mem_cons, List.not_mem_nil, or_false]
    tauto
  refine ⟨?_, (hall _).mpr (.inl h.started), ?_, ?_, ?_⟩
  · have hfresh : ∀ b ∈ new, b ∉ done ++ a :: todo :=
      fun b hb => h.not_mem_of_child hf ((hmem b).mp hb).1
    have hnodup : new.Nodup := hnew.nodup_iff.mpr ((hf.nodup a).filter _)
    have hperm : ((done ++ [a]) ++ (new ++ todo)).Perm (new ++ (done ++ a :: todo)) := by
      simpa using List.perm_append_comm_assoc (done ++ [a]) new todo
    rw [hperm.nodup_iff, List.nodup_append]
    refine ⟨hnodup, h.nodup, ?_⟩
    rintro b hb b' hb' rfl
    exact hfresh b hb hb'
  · intro b hb
    rcases (hall b).mp hb with hb | hb
    · exact h.sound b hb
    · exact (h.sound a (by simp)).tail ((hmem b).mp hb)
  · intro x hx b hb hcut
    rw [hall]
    rcases List.mem_append.mp hx with hx | hx
    · exact .inl (h.closed x hx b hb hcut)
    · obtain rfl := List.mem_singleton.mp hx
      exact .inr ((hmem b).mpr ⟨hb, hcut⟩)
  · intro b hb hne
    rcases (hall b).mp hb with hb | hb
    · obtain ⟨x, hx, hchild⟩ := h.parent b hb hne
      exact ⟨x, List.mem_append_left _ hx, hchild⟩
    · exact ⟨a, by simp, ((hmem b).mp hb).1⟩

/-- A search that is over has met exactly what it was to meet. -/
theorem mem_iff (h : Search children cut root done []) :
    b ∈ done ↔ BelowCut children cut root b := by
  constructor
  · intro hb
    exact h.sound b (by simpa using hb)
  · intro hb
    induction hb with
    | refl => simpa using h.started
    | tail _ hstep ih => simpa using h.closed _ ih _ hstep.1 hstep.2

/-- A search among finitely many nodes visits at most so many. -/
theorem length_le (h : Search children cut root done todo) {nodes : List α}
    (hnodes : ∀ b, BelowCut children cut root b → b ∈ nodes) :
    done.length + todo.length ≤ nodes.length := by
  rw [← List.length_append]
  exact (List.subperm_of_subset h.nodup fun b hb => hnodes b (h.sound b hb)).length_le

end Search

end Liquent.Misc
