import Mathlib.Order.Defs.Unbundled

/-!
# Stateful computations that may fail

`EStateM ε σ` models code that mutates a state of type `σ` and may stop with an error, keeping the
mutations made so far.  This module has what proofs about such code need: how a sequence of
computations can succeed or fail, and `Moves R`, the statement that a computation relates its first
state to its last one by `R` on every path, the failing ones included.
-/

namespace Liquent.Misc

universe u

/-! ## Checks without state -/

section Except

variable {ε ε' α β : Type u}

/-- Fails with `e` unless the condition holds (`ensure!` and `if .. return Err` of Rust). -/
def ensure (c : Prop) [Decidable c] (e : ε) : Except ε PUnit :=
  if c then .ok ⟨⟩ else .error e

@[simp] theorem ensure_ok_iff {c : Prop} [Decidable c] {e : ε} {u : PUnit} :
    ensure c e = .ok u ↔ c := by
  unfold ensure
  split <;> simp [*]

@[simp] theorem ensure_error_iff {c : Prop} [Decidable c] {e e' : ε} :
    ensure c e = .error e' ↔ ¬ c ∧ e = e' := by
  unfold ensure
  split <;> simp [*]

variable {x : Except ε α} {f : α → Except ε β}

theorem except_bind_ok_iff {b : β} : (x >>= f) = .ok b ↔ ∃ a, x = .ok a ∧ f a = .ok b := by
  cases x with
  | ok a | error e => simp [bind, Except.bind]

theorem except_seq_ok_iff {x : Except ε PUnit} {f : PUnit → Except ε β} {b : β} :
    (x >>= f) = .ok b ↔ x = .ok ⟨⟩ ∧ f ⟨⟩ = .ok b := by
  cases x with
  | ok a | error e => simp [bind, Except.bind]

theorem except_bind_error_iff {e : ε} :
    (x >>= f) = .error e ↔ x = .error e ∨ ∃ a, x = .ok a ∧ f a = .error e := by
  cases x with
  | ok a | error e => simp [bind, Except.bind]

theorem except_mapError_ok {f : ε → ε'} {a : α} : (Except.ok a).mapError f = .ok a := rfl

@[simp] theorem except_mapError_ok_iff {f : ε → ε'} {a : α} :
    x.mapError f = .ok a ↔ x = .ok a := by
  cases x with
  | ok b => simp [except_mapError_ok]
  | error e => constructor <;> rintro ⟨⟩

theorem except_map_ok_iff {f : α → β} {b : β} : x.map f = .ok b ↔ ∃ a, x = .ok a ∧ f a = b := by
  cases x with
  | ok a | error e => simp [Except.map]

theorem except_map_error_iff {f : α → β} {e : ε} : x.map f = .error e ↔ x = .error e := by
  cases x with
  | ok a | error e => simp [Except.map]

theorem except_isOk_iff : x.isOk = true ↔ ∃ a, x = .ok a := by
  cases x <;> simp [Except.isOk, Except.toBool]

/-- `Option::expect` of Rust: fails with a message when there is nothing. -/
def expect (o : Option α) (e : ε) : Except ε α :=
  match o with
  | some a => .ok a
  | none => .error e

@[simp] theorem expect_ok_iff {o : Option α} {e : ε} {a : α} : expect o e = .ok a ↔ o = some a := by
  cases o <;> simp [expect]

@[simp] theorem expect_error_iff {o : Option α} {e e' : ε} :
    expect o e = .error e' ↔ o = none ∧ e = e' := by
  cases o <;> simp [expect]

@[simp] theorem except_pure_ok_iff {a b : α} : (pure a : Except ε α) = .ok b ↔ a = b := by
  simp [pure, Except.pure]

/-- A computation returns a value that satisfies `Q` or fails with an error that satisfies `E`. -/
def Ensures (x : Except ε α) (Q : α → Prop) (E : ε → Prop) : Prop :=
  match x with
  | .ok a => Q a
  | .error e => E e

variable {Q Q' : α → Prop} {E E' : ε → Prop}

theorem Ensures.bind {R : β → Prop}
    (hx : Ensures x Q E) (hf : ∀ a, x = .ok a → Q a → Ensures (f a) R E) :
    Ensures (x >>= f) R E := by
  cases x with
  | ok a => exact hf a rfl hx
  | error e => exact hx

theorem Ensures.mono (hx : Ensures x Q E)
    (hQ : ∀ a, Q a → Q' a) (hE : ∀ e, E e → E' e) : Ensures x Q' E' := by
  cases x with
  | ok a => exact hQ a hx
  | error e => exact hE e hx

theorem Ensures.imp (hx : Ensures x Q E) (hQ : ∀ a, Q a → Q' a) : Ensures x Q' E :=
  hx.mono hQ fun _ he => he

theorem Ensures.and (hx : Ensures x Q E)
    (hx' : Ensures x Q' E') : Ensures x (fun a => Q a ∧ Q' a) fun e => E e ∧ E' e := by
  cases x with
  | ok a | error e => exact ⟨hx, hx'⟩

theorem Ensures.mapError {f : ε → ε'} {E' : ε' → Prop}
    (hx : Ensures x Q fun e => E' (f e)) : Ensures (x.mapError f) Q E' := by
  cases x with
  | ok a | error e => exact hx

theorem ensures_ensure {c : Prop} [Decidable c] {e : ε} (h : ¬ c → E e) :
    Ensures (ensure c e) (fun _ => c) E := by
  unfold ensure
  split
  · assumption
  · exact h (by assumption)

/-- A computation does not fail. -/
abbrev Succeeds (x : Except ε α) (Q : α → Prop) : Prop := Ensures x Q fun _ => False

theorem Succeeds.exists_ok (hx : Succeeds x Q) : ∃ a, x = .ok a ∧ Q a := by
  cases x with
  | ok a => exact ⟨a, rfl, hx⟩
  | error e => exact hx.elim

theorem ensures_pure {a : α} (h : Q a) : Ensures (pure a : Except ε α) Q E := h

theorem ensures_trivial (x : Except ε α) : Ensures x (fun _ => True) (fun _ => True) := by
  cases x with
  | ok a | error e => trivial

theorem exists_of_mem_mapM {l : List α} {ys : List β} (h : l.mapM f = .ok ys)
    {y : β} (hy : y ∈ ys) : ∃ x ∈ l, f x = .ok y := by
  induction l generalizing ys with
  | nil =>
    obtain rfl := Except.ok.inj h
    cases hy
  | cons x rest ih =>
    simp only [List.mapM_cons, except_bind_ok_iff, except_pure_ok_iff] at h
    obtain ⟨y', hy', ys', hrest, rfl⟩ := h
    rcases List.mem_cons.mp hy with rfl | hy
    · exact ⟨x, List.mem_cons_self, hy'⟩
    · obtain ⟨x', hx', hfx'⟩ := ih hrest hy
      exact ⟨x', List.mem_cons_of_mem _ hx', hfx'⟩

end Except

/-! ## Results and their states -/

section State

variable {ε σ α β : Type u}

/-- The state in which a computation stops, with a value or with an error. -/
def finalState : EStateM.Result ε σ α → σ
  | .ok _ s => s
  | .error _ s => s

@[simp] theorem finalState_ok (a : α) (s : σ) :
    finalState (EStateM.Result.ok (ε := ε) a s) = s := rfl

@[simp] theorem finalState_error (e : ε) (s : σ) :
    finalState (EStateM.Result.error (α := α) e s) = s := rfl

/-- Runs a check inside a stateful computation. -/
def check (r : Except ε α) : EStateM ε σ α := fun s =>
  match r with
  | .ok a => .ok a s
  | .error e => .error e s

variable {x : EStateM ε σ α} {f : α → EStateM ε σ β} {r : Except ε α} {s s' s₁ : σ} {a : α} {e : ε}

theorem check_ok_iff : (check r : EStateM ε σ α) s = .ok a s' ↔ r = .ok a ∧ s = s' := by
  cases r <;> simp [check]

theorem bind_ok_iff {b : β} :
    (x >>= f) s = .ok b s' ↔ ∃ a s₁, x s = .ok a s₁ ∧ f a s₁ = .ok b s' := by
  simp only [bind, EStateM.bind]
  cases x s with
  | ok a s₁ => simp [and_assoc]
  | error e s₁ => simp

theorem bind_error_iff : (x >>= f) s = .error e s' ↔
      x s = .error e s' ∨ ∃ a s₁, x s = .ok a s₁ ∧ f a s₁ = .error e s' := by
  simp only [bind, EStateM.bind]
  cases x s with
  | ok a s₁ => simp [and_assoc]
  | error e s₁ => simp

theorem pure_ok_iff {b : α} : (pure a : EStateM ε σ α) s = .ok b s' ↔ a = b ∧ s = s' := by
  simp [pure, EStateM.pure]

theorem get_eq : (get : EStateM ε σ σ) s = .ok s s := rfl

theorem get_ok_iff {t : σ} : (get : EStateM ε σ σ) s = .ok t s' ↔ s = t ∧ s = s' := by
  simp [get_eq]

theorem bind_of_ok (h : x s = .ok a s₁) : (x >>= f) s = f a s₁ := by
  simp [bind, EStateM.bind, h]

theorem bind_error_of (h : x s = .error e s₁) : (x >>= f) s = .error e s₁ := by
  simp [bind, EStateM.bind, h]

theorem check_of_ok (h : r = .ok a) (s : σ) : (check r : EStateM ε σ α) s = .ok a s := by
  rw [h]
  rfl

theorem get_eq_ok (s : σ) : (get : EStateM ε σ σ) s = .ok s s := rfl

theorem modify_eq_ok (f : σ → σ) (s : σ) : (modify f : EStateM ε σ PUnit) s = .ok ⟨⟩ (f s) := rfl

theorem check_error_iff : (check r : EStateM ε σ α) s = .error e s' ↔ r = .error e ∧ s = s' := by
  cases r <;> simp [check]

/-! ## What holds on every path -/

/-- Whatever the computation does, it takes a state to an `R`-related one. -/
def Moves (R : σ → σ → Prop) (x : EStateM ε σ α) : Prop :=
  ∀ s, R s (finalState (x s))

variable {R : σ → σ → Prop}

theorem Moves.of_ok (hx : Moves R x) (h : x s = .ok a s') : R s s' := by
  simpa [h] using hx s

theorem Moves.of_error (hx : Moves R x) (h : x s = .error e s') : R s s' := by
  simpa [h] using hx s

variable [IsPreorder σ R]

theorem moves_pure (a : α) : Moves R (pure a : EStateM ε σ α) := fun s => refl_of R s

theorem moves_check (r : Except ε α) : Moves R (check r : EStateM ε σ α) := by
  intro s
  cases r with
  | ok a | error e => exact refl_of R s

theorem moves_get : Moves R (get : EStateM ε σ σ) := fun s => refl_of R s

theorem moves_throw (e : ε) : Moves R (throw e : EStateM ε σ α) := fun s => refl_of R s

omit [IsPreorder σ R] in
theorem moves_modify {f : σ → σ} (hf : ∀ s, R s (f s)) :
    Moves R (modify f : EStateM ε σ PUnit) := hf

theorem Moves.bind (hx : Moves R x) (hf : ∀ a, Moves R (f a)) : Moves R (x >>= f) := by
  intro s
  cases hs : x s with
  | ok a s₁ =>
    rw [bind_of_ok hs]
    exact trans_of R (hx.of_ok hs) (hf a s₁)
  | error e s₁ =>
    rw [bind_error_of hs]
    exact hx.of_error hs

/-- Runs a computation and goes on whether it fails or not. -/
def orSkip (x : EStateM ε σ α) : EStateM ε σ PUnit := fun s => .ok ⟨⟩ (finalState (x s))

omit [IsPreorder σ R] in
theorem moves_orSkip (hx : Moves R x) : Moves R (orSkip x) := hx

theorem moves_forM {γ : Type u} {l : List γ} {f : γ → EStateM ε σ PUnit} (h : ∀ c, Moves R (f c)) :
    Moves R (l.forM f) := by
  induction l with
  | nil => exact moves_pure _
  | cons head rest ih =>
    change Moves R (f head >>= fun _ => rest.forM f)
    exact (h head).bind fun _ => ih

end State

/-! ## Pre- and postconditions -/

/-- From a state with the precondition the computation returns a value and a state with the
postcondition, or fails in a state with `E`. -/
def Triple (P : σ → Prop) (x : EStateM ε σ α) (Q : α → σ → Prop) (E : σ → Prop) : Prop :=
  ∀ s, P s → match x s with
    | .ok a s' => Q a s'
    | .error _ s' => E s'

variable {x : EStateM ε σ α} {f : α → EStateM ε σ β} {r : Except ε α}

section Triple

variable {P P' E E' : σ → Prop} {Q Q' : α → σ → Prop} {R : β → σ → Prop}

theorem Triple.bind (hx : Triple P x Q E)
    (hf : ∀ a, Triple (Q a) (f a) R E) : Triple P (x >>= f) R E := by
  intro s hs
  have hrun := hx s hs
  cases hstep : x s with
  | ok a s₁ =>
    rw [hstep] at hrun
    rw [bind_of_ok hstep]
    exact hf a s₁ hrun
  | error e s₁ =>
    rw [hstep] at hrun
    rw [bind_error_of hstep]
    exact hrun

theorem Triple.weaken (h : Triple P x Q E) (hP : ∀ s, P' s → P s)
    (hQ : ∀ a s, Q a s → Q' a s) (hE : ∀ s, E s → E' s) : Triple P' x Q' E' := by
  intro s hs
  have hx := h s (hP s hs)
  cases hrun : x s with
  | ok a s' =>
    rw [hrun] at hx
    exact hQ a s' hx
  | error e s' =>
    rw [hrun] at hx
    exact hE s' hx

/-- What holds on success and on failure holds in the state where the computation stops. -/
theorem Triple.finalState (h : Triple P x Q E) (hQ : ∀ a s, Q a s → E s) {s : σ} (hs : P s) :
    E (finalState (x s)) := by
  have hx := h s hs
  cases hrun : x s with
  | ok a s' =>
    rw [hrun] at hx
    exact hQ a s' hx
  | error e s' =>
    rw [hrun] at hx
    exact hx

theorem triple_pure {a : α} (h : ∀ s, P s → Q a s) : Triple P (pure a : EStateM ε σ α) Q E := h

theorem triple_throw {e : ε} (h : ∀ s, P s → E s) : Triple P (throw e : EStateM ε σ α) Q E := h

theorem triple_get : Triple P (get : EStateM ε σ σ) (fun a s => a = s ∧ P s) E :=
  fun _ hs => ⟨rfl, hs⟩

theorem triple_modify {f : σ → σ} {Q : PUnit → σ → Prop} (h : ∀ s, P s → Q ⟨⟩ (f s)) :
    Triple P (modify f : EStateM ε σ PUnit) Q E := h

theorem triple_check (hE : ∀ s, P s → E s) :
    Triple P (check r : EStateM ε σ α) (fun a s => r = .ok a ∧ P s) E := by
  intro s hs
  cases r with
  | ok a => exact ⟨rfl, hs⟩
  | error e => exact hE s hs

end Triple

/-! ## Invariants with a result -/

/-- The computation keeps the invariant even if it fails, and what it returns satisfies the
postcondition. -/
def Keeps (I : σ → Prop) (x : EStateM ε σ α) (Q : α → Prop) : Prop :=
  Triple I x (fun a s => I s ∧ Q a) I

variable {I : σ → Prop} {Q Q' : α → Prop} {P : β → Prop}

theorem Keeps.finalState (h : Keeps I x Q) {s : σ} (hs : I s) : I (finalState (x s)) :=
  Triple.finalState h (fun _ _ ht => ht.1) hs

theorem Keeps.bind (hx : Keeps I x Q) (hf : ∀ a, Q a → Keeps I (f a) P) : Keeps I (x >>= f) P :=
  Triple.bind hx fun a s hs => hf a hs.2 s hs.1

/-- An invariant that moves along `R` is kept by what moves along `R`. -/
theorem Moves.keeps {R : σ → σ → Prop} (h : Moves R x)
    (hI : ∀ s s', R s s' → I s → I s') : Keeps I x fun _ => True := by
  intro s hs
  cases hrun : x s with
  | ok a s' => exact ⟨hI s s' (h.of_ok hrun) hs, trivial⟩
  | error e s' => exact hI s s' (h.of_error hrun) hs

/-- From a stronger invariant to a weaker one. -/
theorem Keeps.forget {J : σ → Prop} (h : Keeps I x Q)
    (hJ : ∀ s, I s → J s) : Triple I x (fun a s => J s ∧ Q a) J :=
  Triple.weaken h (fun _ hs => hs) (fun _ s hs => ⟨hJ s hs.1, hs.2⟩) hJ

theorem keeps_pure {a : α} (h : Q a) : Keeps I (pure a : EStateM ε σ α) Q :=
  fun _ hs => ⟨hs, h⟩

theorem keeps_throw (e : ε) : Keeps I (throw e : EStateM ε σ α) Q := fun _ hs => hs

theorem keeps_check : Keeps I (check r : EStateM ε σ α) fun a => r = .ok a := by
  intro s hs
  cases r with
  | ok a => exact ⟨hs, rfl⟩
  | error e => exact hs

theorem keeps_get : Keeps I (get : EStateM ε σ σ) I := fun _ hs => ⟨hs, hs⟩

theorem keeps_modify {f : σ → σ} (h : ∀ s, I s → I (f s)) :
    Keeps I (modify f : EStateM ε σ PUnit) (fun _ => True) :=
  fun s hs => ⟨h s hs, trivial⟩

theorem keeps_orSkip (h : Keeps I x Q) : Keeps I (orSkip x) (fun _ => True) :=
  fun _ hs => ⟨h.finalState hs, trivial⟩

theorem keeps_forM {γ : Type} {l : List γ} {f : γ → EStateM ε σ PUnit}
    (h : ∀ c ∈ l, Keeps I (f c) fun _ => True) :
    Keeps I (l.forM f) (fun _ => True) := by
  induction l with
  | nil => exact keeps_pure trivial
  | cons head rest ih =>
    change Keeps I (f head >>= fun _ => rest.forM f) _
    refine (h head List.mem_cons_self).bind fun _ _ => ih ?_
    exact (List.forall_mem_cons.mp h).2

end Liquent.Misc
