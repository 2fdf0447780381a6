import Mathlib.Data.Set.Basic
import Mathlib.Logic.Function.Basic

/-!
# Caches of a function that changes

Somebody keeps values of a partial function `f` for some of its arguments, and
nobody tells it when `f` changes: entries have to be dropped by hand.  A cache
holds a set of values for each key, so that an old one and a new one may be
there together.

* `Cache.fill f S c` — the values of `f` at the keys in `S` are taken in.
* `Cache.drop k c` — all that is held for `k` goes.
* `Cache.CoherentAt f c k` — nothing is held for `k` but the value of `f`.

`CoherentAt.fill`, `CoherentAt.drop`, `CoherentAt.evict` and `CoherentAt.congr`
say what keeps a key coherent.
-/

namespace Jos

/-- What is held for each key. -/
abbrev Cache (K V : Type) := K → Set V

namespace Cache

variable {K V : Type} {f f' : K → Option V} {c c' : Cache K V} {k : K}

/-- Take in the values at the keys in `S`. -/
def fill (f : K → Option V) (S : Set K) (c : Cache K V) : Cache K V := fun k =>
  {v | v ∈ c k ∨ k ∈ S ∧ f k = some v}

/-- Drop what is held for `k`. -/
def drop [DecidableEq K] (k : K) (c : Cache K V) : Cache K V := Function.update c k ∅

/-- Nothing is held for `k` that is not the value of `f`. -/
def CoherentAt (f : K → Option V) (c : Cache K V) (k : K) : Prop := ∀ v ∈ c k, f k = some v

theorem CoherentAt.fill (h : CoherentAt f c k) (S : Set K) : CoherentAt f (c.fill f S) k := by
  rintro v (hv | ⟨-, hv⟩)
  · exact h v hv
  · exact hv

theorem CoherentAt.evict (h : CoherentAt f c k) (hc : c' k ⊆ c k) : CoherentAt f c' k :=
  fun v hv => h v (hc hv)

theorem CoherentAt.congr (h : CoherentAt f c k) (hf : f' k = f k) : CoherentAt f' c k :=
  fun v hv => hf.trans (h v hv)

theorem coherentAt_of_empty (h : c k = ∅) : CoherentAt f c k := fun v hv => by
  rw [h] at hv
  exact absurd hv (Set.notMem_empty v)

/-- Where `f` has no value, a coherent cache holds nothing. -/
theorem CoherentAt.eq_empty (h : CoherentAt f c k) (hf : f k = none) : c k = ∅ := by
  refine Set.eq_empty_of_forall_notMem fun v hv => ?_
  have hfv := h v hv
  rw [hf] at hfv
  cases hfv

theorem fill_of_not_mem {S : Set K} (hk : k ∉ S) : c.fill f S k = c k := by
  ext v
  simp [fill, hk]

variable [DecidableEq K]

theorem drop_self : c.drop k k = ∅ := Function.update_self ..

theorem drop_of_ne {k' : K} (h : k' ≠ k) : c.drop k k' = c k' := Function.update_of_ne h ..

theorem CoherentAt.drop (h : CoherentAt f c k) (k' : K) : CoherentAt f (c.drop k') k := by
  by_cases hk : k = k'
  · subst hk
    exact coherentAt_of_empty drop_self
  · exact h.evict (by rw [drop_of_ne hk])

end Cache

end Jos
