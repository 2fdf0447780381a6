import Mathlib.Logic.Basic

/-!
# Labelled transition systems

A system takes steps with labels.  A condition on the state before a step and on
its label singles out the runs in which nobody does what the condition forbids.

* `Lts.Run step C s s'` — a run from `s` to `s'` in which every step meets `C`.
* `Lts.Run.inv` — what holds at the start and is kept by every such step holds
  wherever a run leads.
* `Lts.Trace step s l s'` — a run from `s` to `s'` whose visible labels are `l`.
-/

namespace Jos.Lts

variable {S E : Type} {step : S → E → S → Prop} {C C' : S → E → Prop}

/-- The runs in which every step meets `C`. -/
inductive Run (step : S → E → S → Prop) (C : S → E → Prop) (s : S) : S → Prop
  | nil : Run step C s s
  | snoc {s₁ s₂ : S} {ev : E} : Run step C s s₁ → C s₁ ev → step s₁ ev s₂ → Run step C s s₂

/-- Any steps at all. -/
def anyEvent (_ : S) (_ : E) : Prop := True

namespace Run

theorem inv {I : S → Prop} {s s' : S} (h0 : I s)
    (hstep : ∀ s₁ ev s₂, I s₁ → C s₁ ev → step s₁ ev s₂ → I s₂) (h : Run step C s s') : I s' := by
  induction h with
  | nil => exact h0
  | snoc _ hc hs ih => exact hstep _ _ _ ih hc hs

/-- A weaker condition allows more runs. -/
theorem mono (hC : ∀ s ev, C s ev → C' s ev) {s s' : S} (h : Run step C s s') :
    Run step C' s s' := by
  induction h with
  | nil => exact .nil
  | snoc _ hc hs ih => exact .snoc ih (hC _ _ hc) hs

end Run

/-! ## Traces -/

section Trace

variable {silently : S → Option E → S → Prop}

/-- The runs of a system with silent steps, by what they show. -/
inductive Trace (silently : S → Option E → S → Prop) (s : S) : List E → S → Prop
  | nil : Trace silently s [] s
  | silent {l : List E} {s₁ s₂ : S} :
      Trace silently s l s₁ → silently s₁ none s₂ → Trace silently s l s₂
  | snoc {l : List E} {s₁ s₂ : S} {a : E} :
      Trace silently s l s₁ → silently s₁ (some a) s₂ → Trace silently s (l ++ [a]) s₂

theorem Trace.trans {s s₁ s₂ : S} {l l' : List E} (h : Trace silently s l s₁)
    (h' : Trace silently s₁ l' s₂) : Trace silently s (l ++ l') s₂ := by
  induction h' with
  | nil => rwa [List.append_nil]
  | silent _ hs ih => exact .silent ih hs
  | snoc _ hs ih => exact List.append_assoc .. ▸ .snoc ih hs

end Trace

end Jos.Lts
