import Mathlib.Data.List.Basic
import Mathlib.Tactic

/-!
# A sequence in a ring

An endless sequence is written through a ring of `N` cells: element number `j`
goes to cell `j % N`.  Between the number `r` of the next element to read and
the number `w` of the next one to write at most `N` elements are alive.

* `Holds N cell log r w` — the cells hold elements `r` to `w` of `log`.
* `Holds.put` — writing element `w` keeps that, while there is room.
* `mod_ne_of_room` — the cell written is none of those still to be read.
* `Holds.window` — the cells, read in order, are the end of the log.
-/

namespace Jos.Ring

variable {α : Type} {N : ℕ} {cell : ℕ → α} {log : List α} {r w : ℕ}

/-- The ring holds elements `r`, …, `w - 1` of the log. -/
def Holds (N : ℕ) (cell : ℕ → α) (log : List α) (r w : ℕ) : Prop :=
  ∀ j, r ≤ j → j < w → log[j]? = some (cell (j % N))

/-- Numbers less than `N` apart have different cells. -/
theorem mod_ne_of_room {j : ℕ} (hr : r ≤ j) (hj : j < w) (hroom : w < r + N) :
    j % N ≠ w % N := by
  intro h
  have hdvd : N ∣ w - j := (Nat.modEq_iff_dvd' hj.le).1 h
  have hle : N ≤ w - j := Nat.le_of_dvd (by omega) hdvd
  omega

namespace Holds

theorem empty : Holds N cell log r r := fun _ hr hw => absurd hw (by omega)

/-- What was read is not needed any more. -/
theorem advance {r' : ℕ} (h : Holds N cell log r w) (hr : r ≤ r') : Holds N cell log r' w :=
  fun j hj hw => h j (by omega) hw

/-- One more element: it goes to its cell, and to the end of the log. -/
theorem put (h : Holds N cell log r w) (hw : log.length = w) (hroom : w < r + N) (b : α) :
    Holds N (Function.update cell (w % N) b) (log ++ [b]) r (w + 1) := by
  intro j hr hj
  by_cases hjw : j = w
  · subst hjw
    rw [Function.update_self, ← hw, List.getElem?_concat_length]
  · have hlt : j < w := by omega
    rw [Function.update_of_ne (mod_ne_of_room hr hlt hroom), List.getElem?_append_left (by omega)]
    exact h j hr hlt

/-- The elements alive, in order. -/
theorem window (h : Holds N cell log r log.length) :
    ((List.range (log.length - r)).map fun i => cell ((r + i) % N)) = log.drop r := by
  refine List.ext_getElem? fun i => ?_
  rw [List.getElem?_drop, List.getElem?_map]
  by_cases hi : i < log.length - r
  · rw [List.getElem?_range hi, h (r + i) (by omega) (by omega), Option.map_some]
  · rw [List.getElem?_eq_none (by simpa using hi), List.getElem?_eq_none (by omega),
      Option.map_none]

end Holds

/-- A prefix grows by the element that comes next. -/
theorem prefix_concat {l : List α} {b : α} (h : l <+: log) (hb : log[l.length]? = some b) :
    l ++ [b] <+: log := by
  obtain ⟨t, rfl⟩ := h
  rw [List.getElem?_append_right le_rfl, Nat.sub_self] at hb
  cases t with
  | nil => cases hb
  | cons c t =>
    cases hb
    exact ⟨t, by simp⟩

end Jos.Ring
