import Mathlib.Logic.Function.Basic

/-!
# The kernel lock

`spin_lock` and `spin_unlock` of `kern/spinlock.c`, with the checks of `DEBUG_SPINLOCK`, called in
turns as on kernel entry and exit.  Each access is a step, in any order of the CPUs.
-/

namespace Jos.Spinlock

open Function (update update_self update_of_ne)

/-- The next access of a CPU. -/
inductive Pc
  /-- `holding` in `spin_lock`: `lk->locked`, and then `lk->cpu` -/
  | lock
  | lockCpu
  | spin
  | record
  /-- the CPU has the lock; the next access is that of `holding` in `spin_unlock` -/
  | unlock
  | unlockCpu
  | clear
  | release
  | panicked

/-- `lk->cpu` is the CPU. -/
@[grind] def Pc.recorded (p : Pc) : Prop := p = .unlock ∨ p = .unlockCpu ∨ p = .clear

/-- From the `xchg` that takes the lock to the other. -/
@[grind] def Pc.holds (p : Pc) : Prop := p = .record ∨ p.recorded ∨ p = .release

structure Lock (α : Type) where
  locked : Bool
  cpu : Option α
  pc : α → Pc

namespace Lock

variable {α : Type}

/-- `__spin_initlock`. -/
def init : Lock α := ⟨false, none, fun _ => .lock⟩

/-- The lock belongs to `o`, and no check has failed. -/
structure Owned (s : Lock α) (o : Option α) : Prop where
  holds : ∀ q, (s.pc q).holds ↔ o = some q
  locked : s.locked = o.isSome
  cpu : ∀ q, s.cpu = some q ↔ (s.pc q).recorded
  pc : ∀ q, s.pc q ≠ .panicked

/-- Whom `lk->cpu` names has the lock. -/
theorem Owned.owner {s : Lock α} {o : Option α} {r : α} (h : s.Owned o) (hr : s.cpu = some r) :
    o = some r :=
  (h.holds r).1 (Or.inr (Or.inl ((h.cpu r).1 hr)))

variable [DecidableEq α]

def goto (s : Lock α) (q : α) (p : Pc) : Lock α := { s with pc := update s.pc q p }

/-- The next access of CPU `q`. -/
def next (s : Lock α) (q : α) : Lock α :=
  match s.pc q with
  | .lock => s.goto q (if s.locked then .lockCpu else .spin)
  | .lockCpu => s.goto q (if s.cpu = some q then .panicked else .spin)
  | .spin => { s with locked := true }.goto q (if s.locked then .spin else .record)
  | .record => { s with cpu := some q }.goto q .unlock
  | .unlock => s.goto q (if s.locked then .unlockCpu else .panicked)
  | .unlockCpu => s.goto q (if s.cpu = some q then .clear else .panicked)
  | .clear => { s with cpu := none }.goto q .release
  | .release => { s with locked := false }.goto q .lock
  | .panicked => s

variable {s : Lock α} {o o' c : Option α} {q : α} {p : Pc}

/-- CPU `q` moves to `p` and leaves the lock to `o'`.  The other CPUs are where they were. -/
theorem Owned.goto (h : s.Owned o) (hpc : p ≠ .panicked) (hholds : p.holds ↔ o' = some q)
    (howner : ∀ r, r ≠ q → (o' = some r ↔ o = some r)) (hcpu : c = some q ↔ p.recorded)
    (hothers : ∀ r, r ≠ q → (c = some r ↔ s.cpu = some r)) :
    (Lock.goto ⟨o'.isSome, c, s.pc⟩ q p).Owned o' := by
  have hself : update s.pc q p q = p := update_self ..
  have hother : ∀ r, r ≠ q → update s.pc q p r = s.pc r := fun r hr => update_of_ne hr ..
  refine ⟨fun r => ?_, rfl, fun r => ?_, fun r => ?_⟩ <;>
    simp only [Lock.goto] <;> rcases eq_or_ne r q with rfl | hr
  · rwa [hself]
  · rw [hother r hr, h.holds, howner r hr]
  · rwa [hself]
  · rw [hother r hr, hothers r hr, h.cpu]
  · rwa [hself]
  · rw [hother r hr]
    exact h.pc r

/-- An access that neither takes the lock nor gives it back. -/
theorem Owned.moves (h : s.Owned o) (hpc : p ≠ .panicked) (hholds : p.holds ↔ (s.pc q).holds)
    (hrec : p.recorded ↔ (s.pc q).recorded) : (s.goto q p).Owned o := by
  have hmoved := h.goto hpc (hholds.trans (h.holds q)) (fun _ _ => .rfl)
    ((h.cpu q).trans hrec.symm) fun _ _ => .rfl
  rwa [← h.locked] at hmoved

theorem Owned.next (h : s.Owned o) (q : α) : ∃ o', (s.next q).Owned o' := by
  have hholds := h.holds q
  have hcpu := h.cpu q
  have hlocked := h.locked
  rw [Lock.next]
  cases hp : s.pc q with
  | lock => exact ⟨o, h.moves (by grind) (by grind) (by grind)⟩
  | lockCpu =>
    have hother : s.cpu ≠ some q := by grind
    exact ⟨o, h.moves (by simp [hother]) (by grind) (by grind)⟩
  | spin =>
    have hother : s.cpu ≠ some q := by grind
    cases hl : s.locked with
    | false =>
      -- nobody has the lock, and `q` takes it
      have hnone : o = none := by simpa [hl] using hlocked
      have htakes : (Lock.goto ⟨(some q).isSome, s.cpu, s.pc⟩ q .record).Owned (some q) :=
        h.goto (by simp) (by grind) (by grind) (by grind) fun _ _ => .rfl
      exact ⟨some q, htakes⟩
    | true =>
      have hsame : { s with locked := true } = s := by rw [← hl]
      rw [hsame]
      exact ⟨o, h.moves (by simp) (by grind) (by grind)⟩
  | record =>
    have hown : o = some q := by grind
    have hrec : ∀ r, r ≠ q → s.cpu ≠ some r := fun r hr hc => by
      grind [h.owner hc]
    rw [hlocked]
    exact ⟨o, h.goto (by simp) (by grind) (fun _ _ => .rfl) (by grind) (by grind)⟩
  | unlock =>
    have hl : s.locked = true := by grind
    exact ⟨o, h.moves (by simp [hl]) (by grind) (by grind)⟩
  | unlockCpu =>
    have hrec : s.cpu = some q := by grind
    exact ⟨o, h.moves (by simp [hrec]) (by grind) (by grind)⟩
  | clear =>
    have hrec : s.cpu = some q := by grind
    rw [hlocked]
    exact ⟨o, h.goto (by simp) (by grind) (fun _ _ => .rfl) (by grind) (by grind)⟩
  | release =>
    have hown : o = some q := by grind
    have hgives : (Lock.goto ⟨(none : Option α).isSome, s.cpu, s.pc⟩ q .lock).Owned none :=
      h.goto (by simp) (by grind) (by grind) (by grind) fun _ _ => .rfl
    exact ⟨none, hgives⟩
  | panicked => exact absurd hp (h.pc q)

/-- **Mutual exclusion.**  At most one CPU is between `spin_lock` and `spin_unlock`, `lk->locked`
says whether there is one, and neither check stops a CPU. -/
theorem mutual_exclusion (sched : List α) : ∃ o, (sched.foldl Lock.next init).Owned o := by
  refine List.foldlRecOn sched _ (motive := fun s : Lock α => ∃ o, s.Owned o) ⟨none, ?_⟩ ?_
  · constructor <;> simp [init, Pc.holds, Pc.recorded]
  · rintro s ⟨o, h⟩ q -
    exact h.next q

end Lock

end Jos.Spinlock
