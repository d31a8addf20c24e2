import Mathlib.Data.List.Basic

/-!
# Runs of a machine

A machine takes an input, answers with an output and moves to a new state.  A run feeds it a list of
inputs and collects the history of inputs and outputs.  `run_induction` is the invariant rule: what
holds of the empty history and is kept by every step holds of every run.
-/

namespace Liquent.Misc

variable {σ ι ο : Type}

/-- The history and the last state of a machine that is fed the given inputs. -/
def run (step : σ → ι → ο × σ) (s : σ) : List ι → List (ι × ο) × σ
  | [] => ([], s)
  | i :: rest =>
    let (o, s') := step s i
    let (history, last) := run step s' rest
    ((i, o) :: history, last)

@[simp] theorem run_nil (step : σ → ι → ο × σ) (s : σ) : run step s [] = ([], s) := rfl

@[simp] theorem run_cons (step : σ → ι → ο × σ) (s : σ) (i : ι) (rest : List ι) :
    run step s (i :: rest) =
      ((i, (step s i).1) :: (run step (step s i).2 rest).1, (run step (step s i).2 rest).2) := rfl

theorem run_append (step : σ → ι → ο × σ) (s : σ) (is js : List ι) : run step s (is ++ js) =
      ((run step s is).1 ++ (run step (run step s is).2 js).1,
        (run step (run step s is).2 js).2) := by
  induction is generalizing s with
  | nil => rfl
  | cons i rest ih => simp [ih]

/-- A condition on the state and the input holds at every step of a run. -/
def AlongRun (step : σ → ι → ο × σ) (P : σ → ι → Prop) (s : σ) : List ι → Prop
  | [] => True
  | i :: rest => P s i ∧ AlongRun step P (step s i).2 rest

instance decidableAlongRun (step : σ → ι → ο × σ) (P : σ → ι → Prop) [∀ s i, Decidable (P s i)] :
    (s : σ) → (inputs : List ι) → Decidable (AlongRun step P s inputs)
  | _, [] => isTrue trivial
  | s, i :: rest =>
    have := decidableAlongRun step P (step s i).2 rest
    inferInstanceAs (Decidable (P s i ∧ AlongRun step P (step s i).2 rest))

variable {step : σ → ι → ο × σ} {inputs : List ι} {s : σ} {P : σ → ι → Prop}

theorem alongRun_iff : AlongRun step P s inputs ↔
      ∀ pre i post, inputs = pre ++ i :: post → P (run step s pre).2 i := by
  induction inputs generalizing s with
  | nil => simp [AlongRun]
  | cons j rest ih =>
    simp only [AlongRun, ih]
    constructor
    · rintro ⟨hj, hrest⟩ pre i post heq
      cases pre with
      | nil =>
        obtain ⟨rfl, -⟩ := List.cons.inj heq
        exact hj
      | cons k pre =>
        obtain ⟨rfl, htail⟩ := List.cons.inj heq
        exact hrest pre i post htail
    · intro h
      refine ⟨h [] j rest rfl, ?_⟩
      intro pre i post heq
      exact h (j :: pre) i post (by rw [heq]; rfl)

theorem alongRun_append {is js : List ι} :
    AlongRun step P s (is ++ js) ↔ AlongRun step P s is ∧ AlongRun step P (run step s is).2 js := by
  induction is generalizing s with
  | nil => simp [AlongRun]
  | cons i rest ih => simp [AlongRun, ih, and_assoc]

theorem alongRun_of_forall {P : ι → Prop}
    (h : ∀ i ∈ inputs, P i) : AlongRun step (fun _ i => P i) s inputs := by
  rw [alongRun_iff]
  intro pre i post heq
  exact h i (by rw [heq]; simp)

variable {Q : σ → ι → Prop}

theorem AlongRun.and (hP : AlongRun step P s inputs) (hQ : AlongRun step Q s inputs) :
    AlongRun step (fun s i => P s i ∧ Q s i) s inputs := by
  rw [alongRun_iff] at *
  intro pre i post heq
  exact ⟨hP pre i post heq, hQ pre i post heq⟩

/-- What every step keeps under a condition holds after a run that meets it. -/
theorem AlongRun.invariant {I : σ → Prop} (hstep : ∀ s i, P s i → I s → I (step s i).2)
    (h : AlongRun step P s inputs) (hs : I s) : I (run step s inputs).2 := by
  induction inputs generalizing s with
  | nil => exact hs
  | cons i rest ih => exact ih h.2 (hstep s i h.1 hs)

variable {Inv : List (ι × ο) → σ → Prop} {history : List (ι × ο)}

/-- What every step keeps of the history and the state holds after every run. -/
theorem run_induction (hstep : ∀ history s i, Inv history s →
      Inv (history ++ [(i, (step s i).1)]) (step s i).2) (inputs : List ι) (h : Inv history s) :
    Inv (history ++ (run step s inputs).1) (run step s inputs).2 := by
  induction inputs generalizing history s with
  | nil => simpa using h
  | cons i rest ih => simpa using ih (hstep history s i h)

/-- The same for the inputs that are fed. -/
theorem run_induction_of {P : ι → Prop} (hstep : ∀ history s i, P i → Inv history s →
      Inv (history ++ [(i, (step s i).1)]) (step s i).2) (hinputs : ∀ i ∈ inputs, P i)
    (h : Inv history s) : Inv (history ++ (run step s inputs).1) (run step s inputs).2 := by
  induction inputs generalizing history s with
  | nil => simpa using h
  | cons i rest ih =>
    have hnext := hstep history s i (hinputs i List.mem_cons_self) h
    simpa using ih (List.forall_mem_cons.mp hinputs).2 hnext

theorem run_invariant {Inv : σ → Prop}
    (hstep : ∀ s i, Inv s → Inv (step s i).2) (inputs : List ι) (h : Inv s) :
    Inv (run step s inputs).2 := by
  induction inputs generalizing s with
  | nil => exact h
  | cons i rest ih => exact ih (hstep s i h)

/-! ## Records of a run -/

section Record

variable {α : Type} {step : σ → ι → ο × σ} {record : σ → ι → List α}

/-- What is recorded at the steps of a run, in this order. -/
def gather (step : σ → ι → ο × σ) (record : σ → ι → List α) (s : σ) : List ι → List α
  | [] => []
  | i :: rest => record s i ++ gather step record (step s i).2 rest

theorem gather_append (s : σ) (is js : List ι) : gather step record s (is ++ js) =
      gather step record s is ++ gather step record (run step s is).2 js := by
  induction is generalizing s with
  | nil => rfl
  | cons i rest ih => simp [gather, ih]

/-- A condition on what has been recorded so far, the state and the input holds at every step. -/
def AlongRecord (step : σ → ι → ο × σ) (record : σ → ι → List α) (P : List α → σ → ι → Prop)
    (known : List α) (s : σ) : List ι → Prop
  | [] => True
  | i :: rest => P known s i ∧ AlongRecord step record P (known ++ record s i) (step s i).2 rest

instance decidableAlongRecord (step : σ → ι → ο × σ) (record : σ → ι → List α)
    (P : List α → σ → ι → Prop) [∀ known s i, Decidable (P known s i)] :
    (known : List α) → (s : σ) → (inputs : List ι) →
      Decidable (AlongRecord step record P known s inputs)
  | _, _, [] => isTrue trivial
  | known, s, i :: rest =>
    have := decidableAlongRecord step record P (known ++ record s i) (step s i).2 rest
    inferInstanceAs (Decidable (P known s i ∧
      AlongRecord step record P (known ++ record s i) (step s i).2 rest))

variable {P : List α → σ → ι → Prop} {known : List α}

theorem alongRecord_append {is js : List ι} :
    AlongRecord step record P known s (is ++ js) ↔ AlongRecord step record P known s is ∧
      AlongRecord step record P (known ++ gather step record s is) (run step s is).2 js := by
  induction is generalizing known s with
  | nil => simp [AlongRecord, gather]
  | cons i rest ih => simp [AlongRecord, gather, ih, and_assoc]

theorem AlongRecord.and_alongRun
    (hP : AlongRecord step record P known s inputs) (hQ : AlongRun step Q s inputs) :
    AlongRecord step record (fun known s i => P known s i ∧ Q s i) known s inputs := by
  induction inputs generalizing known s with
  | nil => trivial
  | cons i rest ih => exact ⟨⟨hP.1, hQ.1⟩, ih hP.2 hQ.2⟩

/-- What every step keeps of the record and the state holds after a run that meets the condition. -/
theorem AlongRecord.invariant {I : List α → σ → Prop}
    (hstep : ∀ known s i, P known s i → I known s → I (known ++ record s i) (step s i).2)
    (h : AlongRecord step record P known s inputs)
    (hs : I known s) : I (known ++ gather step record s inputs) (run step s inputs).2 := by
  induction inputs generalizing known s with
  | nil => simpa [gather] using hs
  | cons i rest ih => simpa [gather] using ih h.2 (hstep known s i h.1 hs)

end Record

end Liquent.Misc
