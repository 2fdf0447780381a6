import Mathlib.Tactic

/-!
# Weakest preconditions for state-passing code with exits

A C function that reads and writes global state, and that may also never
return, is an `EStateM ε σ α`: it either returns a value with a new state, or
leaves through an exit `ε`, again with a new state.  This file is the small
program logic used for such code.

* `wp x Q E s` — run `x` from `s`: if it returns, `Q` holds of the value and
  the state; if it exits, `E` holds of the exit and the state.
* `run_bind_ok`, `run_pure`, … — what a program does from a given state, where
  that is known exactly.
* `wp_bind`, `wp_pure`, `wp_get`, … — one rewriting rule for each way of
  building a program.  They are all equivalences, so nothing is lost.
* `wp.mono` — the rule of consequence.
* `wp_forM` — the invariant rule for a loop over a list.
-/

namespace Jos

universe u

variable {ε σ α β : Type u}

/-- The weakest precondition of `x`: `Q` for a return, `E` for an exit. -/
def wp (x : EStateM ε σ α) (Q : α → σ → Prop) (E : ε → σ → Prop) (s : σ) : Prop :=
  match x s with
  | .ok a s' => Q a s'
  | .error e s' => E e s'

variable {x : EStateM ε σ α} {Q : α → σ → Prop} {E : ε → σ → Prop} {s s' : σ} {a : α} {e : ε}
    {f : α → EStateM ε σ β}

theorem wp_of_ok (h : x s = .ok a s') : wp x Q E s ↔ Q a s' := by
  rw [wp, h]

theorem wp_of_error (h : x s = .error e s') : wp x Q E s ↔ E e s' := by
  rw [wp, h]

/-! ## Exact runs -/

theorem run_bind_ok (h : x s = .ok a s') : (x >>= f) s = f a s' := by
  show EStateM.bind x f s = _
  simp only [EStateM.bind, h]

theorem run_bind_error (h : x s = .error e s') : (x >>= f) s = .error e s' := by
  show EStateM.bind x f s = _
  simp only [EStateM.bind, h]

/-- If a sequence returns, so does its first part. -/
theorem run_bind_inv {s'' : σ} {b : β} (h : (x >>= f) s = .ok b s'') :
    ∃ a s', x s = .ok a s' ∧ f a s' = .ok b s'' := by
  cases hx : x s with
  | ok a s' => exact ⟨a, s', rfl, by rwa [run_bind_ok hx] at h⟩
  | error e s' => rw [run_bind_error hx] at h; cases h

@[simp] theorem run_pure : (pure a : EStateM ε σ α) s = .ok a s := rfl

@[simp] theorem run_throw : (throw e : EStateM ε σ α) s = .error e s := rfl

@[simp] theorem run_modify {f : σ → σ} : (modify f : EStateM ε σ PUnit) s = .ok ⟨⟩ (f s) := rfl

@[simp] theorem run_get_bind {f : σ → EStateM ε σ β} :
    ((get : EStateM ε σ σ) >>= f) s = f s s := rfl

@[simp] theorem run_modify_bind {g : σ → σ} {f : PUnit → EStateM ε σ β} :
    ((modify g : EStateM ε σ PUnit) >>= f) s = f ⟨⟩ (g s) := rfl

/-! ## One rule for each constructor -/

@[simp] theorem wp_pure : wp (pure a : EStateM ε σ α) Q E s ↔ Q a s := Iff.rfl

@[simp] theorem wp_bind {Q : β → σ → Prop} :
    wp (x >>= f) Q E s ↔ wp x (fun a s' => wp (f a) Q E s') E s := by
  show wp (EStateM.bind x f) Q E s ↔ _
  cases h : x s with
  | ok a s' => simp only [wp, EStateM.bind, h]
  | error e s' => simp only [wp, EStateM.bind, h]

@[simp] theorem wp_get {Q : σ → σ → Prop} : wp (get : EStateM ε σ σ) Q E s ↔ Q s s := Iff.rfl

@[simp] theorem wp_modify {f : σ → σ} {Q : PUnit → σ → Prop} :
    wp (modify f : EStateM ε σ PUnit) Q E s ↔ Q ⟨⟩ (f s) := Iff.rfl

@[simp] theorem wp_ite {c : Prop} [Decidable c] {y : EStateM ε σ α} :
    wp (if c then x else y) Q E s ↔ (c → wp x Q E s) ∧ (¬ c → wp y Q E s) := by
  split <;> simp_all

/-! ## Consequence -/

theorem wp.mono {Q' : α → σ → Prop} {E' : ε → σ → Prop} (h : wp x Q E s)
    (hQ : ∀ a s', Q a s' → Q' a s') (hE : ∀ e s', E e s' → E' e s') : wp x Q' E' s := by
  unfold wp at *
  cases hx : x s with
  | ok a s' => rw [hx] at h; exact hQ a s' h
  | error e s' => rw [hx] at h; exact hE e s' h

/-- A property of every return, where exits do not matter. -/
theorem wp_of_returns (h : ∀ a s', x s = .ok a s' → Q a s') : wp x Q (fun _ _ => True) s := by
  unfold wp
  cases hx : x s with
  | ok a s' => exact h a s' hx
  | error e s' => trivial

/-! ## Loops -/

/-- **The invariant rule for a loop over a list.**  The invariant speaks of
the elements still to come. -/
theorem wp_forM {γ : Type u} {f : γ → EStateM ε σ PUnit} (I : List γ → σ → Prop)
    (hstep : ∀ a l s, I (a :: l) s → wp (f a) (fun _ s' => I l s') E s) :
    ∀ (l : List γ) (s : σ), I l s → wp (l.forM f) (fun _ s' => I [] s') E s := by
  intro l
  induction l with
  | nil => intro s h; exact h
  | cons a l ih =>
    intro s h
    show wp (f a >>= fun _ => l.forM f) _ _ _
    rw [wp_bind]
    exact (hstep a l s h).mono (fun _ s' hs' => ih s' hs') (fun _ _ he => he)

end Jos
