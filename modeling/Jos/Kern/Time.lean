import Jos.Kern.Boot

/-!
# The clock

`kern/time.c`, and the timer interrupt of `trap_dispatch`.  The timer of every CPU's local APIC
fires once in 10 ms, and every CPU's interrupt is dispatched in the same way
(`trapDispatch_timer`); whether the CPU is the boot CPU is not asked.  Nothing else in the kernel
writes `ticks`.

* `timers_run` — a run: every interrupt counts one tick, and the kernel panics at the first tick
  whose milliseconds do not fit into a word.
* `clockRight_iff` — the clock is right exactly if there is one CPU.
-/

namespace Jos

/-- `time_init`. -/
def timeInit (k : Kernel) : Kernel := { k with ticks := 0#32 }

/-- `time_msec`. -/
def timeMsec (k : Kernel) : Word := k.ticks * 10#32

/-- What `trap_dispatch` does for a timer interrupt on a CPU, before it calls the scheduler. -/
def timerIntr (_cpu : ℕ) : KernelM Unit := timeTick

theorem trapDispatch_timer {cpu : ℕ} {inp : Input} {tf : Trapframe} {own : Option EnvIdx}
    (h : tf.tfTrapno = IRQ_TIMER) :
    trapDispatch cpu inp tf own = (do timerIntr cpu; schedYield cpu) := by
  rw [trapDispatch, if_neg (by rw [h]; decide), if_neg (by rw [h]; decide),
    if_neg (by rw [h]; decide), if_neg (by rw [h]; decide), if_pos h, timerIntr]

/-- The timer interrupts of these CPUs, one after the other. -/
def timers (cpus : List ℕ) : KernelM Unit := cpus.forM timerIntr

/-- What the clock should show after `n` periods of 10 ms; only then is it too late for it. -/
def RightAfter (n : ℕ) : EStateM.Result Exit Kernel Unit → Prop
  | .ok _ k => (timeMsec k).toNat = 10 * n
  | .error _ _ => 2 ^ 32 ≤ 10 * n

/-- The clock of a machine with `n` CPUs: in every period each of them takes one interrupt, in any
order. -/
def ClockRight (n : ℕ) (k : Kernel) : Prop :=
  ∀ periods : List (List ℕ), (∀ p ∈ periods, p.Perm (List.range n)) →
    RightAfter periods.length (timers periods.flatten (timeInit k))

/-! ## One tick -/

section Tick

variable {k : Kernel}

/-- The first product that wraps around is below the number of ticks. -/
theorem wraps_iff {t : Word} (h : 10 * t.toNat < 2 ^ 32) :
    (t + 1#32) * 10#32 < t + 1#32 ↔ 2 ^ 32 ≤ 10 * (t.toNat + 1) := by
  have hone : (t + 1#32).toNat = t.toNat + 1 := by
    rw [BitVec.toNat_add]
    exact Nat.mod_eq_of_lt (by simp; omega)
  have hten : ((t + 1#32) * 10#32).toNat = 10 * (t.toNat + 1) % 2 ^ 32 := by
    rw [BitVec.toNat_mul, hone, Nat.mul_comm]
    rfl
  rw [BitVec.lt_def, hone, hten]
  by_cases hlt : 10 * (t.toNat + 1) < 2 ^ 32
  · rw [Nat.mod_eq_of_lt hlt]
    omega
  · omega

theorem timeTick_ok (h : 10 * (k.ticks.toNat + 1) < 2 ^ 32) :
    timeTick k = .ok () { k with ticks := k.ticks + 1#32 } := by
  rw [timeTick, run_modify_bind, run_get_bind]
  have hnot : ¬ (k.ticks + 1#32) * 10#32 < k.ticks + 1#32 := by
    rw [wraps_iff (by omega)]
    omega
  rw [if_neg hnot]
  rfl

theorem timeTick_panic (h : 10 * k.ticks.toNat < 2 ^ 32) (h' : 2 ^ 32 ≤ 10 * (k.ticks.toNat + 1)) :
    timeTick k = .error (.panic .timeOverflow) { k with ticks := k.ticks + 1#32 } := by
  rw [timeTick, run_modify_bind, run_get_bind, if_pos ((wraps_iff h).2 h')]
  rfl

/-! ## Runs -/

/-- **Every interrupt counts one tick**, until the milliseconds do not fit any more. -/
theorem timers_run (cpus : List ℕ) (h : 10 * k.ticks.toNat < 2 ^ 32) :
    (∃ k', timers cpus k = .ok () k' ∧ k'.ticks.toNat = k.ticks.toNat + cpus.length ∧
      10 * (k.ticks.toNat + cpus.length) < 2 ^ 32) ∨
    (∃ k', timers cpus k = .error (.panic .timeOverflow) k' ∧
      2 ^ 32 ≤ 10 * (k.ticks.toNat + cpus.length)) := by
  induction cpus generalizing k with
  | nil => exact Or.inl ⟨k, rfl, rfl, h⟩
  | cons cpu cpus ih =>
    have hcons : timers (cpu :: cpus) k = (timeTick >>= fun _ => timers cpus) k := rfl
    rw [hcons, List.length_cons]
    by_cases hone : 10 * (k.ticks.toNat + 1) < 2 ^ 32
    · have htick : ({ k with ticks := k.ticks + 1#32 } : Kernel).ticks.toNat =
          k.ticks.toNat + 1 := by
        show (k.ticks + 1#32).toNat = k.ticks.toNat + 1
        rw [BitVec.toNat_add]
        exact Nat.mod_eq_of_lt (by simp; omega)
      rw [run_bind_ok (timeTick_ok hone)]
      obtain ⟨k', hrun, ht, hlt⟩ | ⟨k', hrun, hle⟩ := ih (by rw [htick]; exact hone)
      · exact Or.inl ⟨k', hrun, by omega, by omega⟩
      · exact Or.inr ⟨k', hrun, by omega⟩
    · rw [run_bind_error (timeTick_panic h (by omega))]
      exact Or.inr ⟨_, rfl, by omega⟩

theorem length_periods {n : ℕ} {periods : List (List ℕ)}
    (h : ∀ p ∈ periods, p.Perm (List.range n)) : periods.flatten.length = n * periods.length := by
  induction periods with
  | nil => rfl
  | cons p periods ih =>
    rw [List.flatten_cons, List.length_append, List.length_cons,
      ih fun q hq => h q (List.mem_cons_of_mem _ hq), (h p List.mem_cons_self).length_eq,
      List.length_range, Nat.mul_add, Nat.mul_one, Nat.add_comm]

/-- What the clock shows, and when the kernel panics, with any number of CPUs. -/
theorem clock_run {n : ℕ} {periods : List (List ℕ)} (h : ∀ p ∈ periods, p.Perm (List.range n)) :
    (∃ k', timers periods.flatten (timeInit k) = .ok () k' ∧
      (timeMsec k').toNat = 10 * (n * periods.length) ∧ 10 * (n * periods.length) < 2 ^ 32) ∨
    (∃ k', timers periods.flatten (timeInit k) = .error (.panic .timeOverflow) k' ∧
      2 ^ 32 ≤ 10 * (n * periods.length)) := by
  have hzero : (timeInit k).ticks.toNat = 0 := rfl
  obtain ⟨k', hrun, ht, hlt⟩ | ⟨k', hrun, hle⟩ :=
    timers_run (k := timeInit k) periods.flatten (by rw [hzero]; decide)
  · rw [hzero, Nat.zero_add, length_periods h] at ht hlt
    refine Or.inl ⟨k', hrun, ?_, hlt⟩
    rw [timeMsec, BitVec.toNat_mul, ht, Nat.mul_comm]
    exact Nat.mod_eq_of_lt hlt
  · rw [hzero, Nat.zero_add, length_periods h] at hle
    exact Or.inr ⟨k', hrun, hle⟩

end Tick

/-- **The clock is right exactly if there is one CPU.**  Then it never shows a time that has
wrapped around; with `n` CPUs it runs `n` times too fast. -/
theorem clockRight_iff (n : ℕ) (k : Kernel) : ClockRight n k ↔ n = 1 := by
  constructor
  · intro h
    -- one period is enough
    have hone : ∀ p ∈ [List.range n], p.Perm (List.range n) := by
      intro p hp
      rw [List.mem_singleton.1 hp]
    have hright := h [List.range n] hone
    obtain ⟨k', hrun, ht, -⟩ | ⟨k', hrun, -⟩ := clock_run (k := k) hone
    · rw [hrun, RightAfter, ht, List.length_singleton] at hright
      omega
    · rw [hrun, RightAfter, List.length_singleton] at hright
      omega
  · rintro rfl periods hp
    obtain ⟨k', hrun, ht, -⟩ | ⟨k', hrun, hle⟩ := clock_run (k := k) hp
    · rw [hrun, RightAfter, ht, Nat.one_mul]
    · rw [hrun, RightAfter]
      rwa [Nat.one_mul] at hle

/-- Two CPUs that wait for interrupts. -/
def twoCpus : Kernel where
  pm := ⟨⟨32768, 160, 0x1E0000, 384⟩, fun _ => ⟨none, 0#16⟩, none, fun _ _ => 0#32, 0#32⟩
  envs := fun _ => Env.zero
  envFreeList := none
  cpus := fun _ => ⟨.halted, none⟩
  ticks := 0#32

/-- After one period of 10 ms the clock shows 20. -/
theorem twoCpus_fast : timers [0, 1] (timeInit twoCpus) = .ok () { twoCpus with ticks := 2#32 } ∧
    timeMsec { twoCpus with ticks := 2#32 } = 20#32 ∧ ¬ ClockRight 2 twoCpus := by
  have hfirst : timeTick (timeInit twoCpus) = .ok () { twoCpus with ticks := 1#32 } :=
    timeTick_ok (by decide)
  have hsecond : timeTick { twoCpus with ticks := 1#32 } = .ok () { twoCpus with ticks := 2#32 } :=
    timeTick_ok (by decide)
  have hrun : timers [0, 1] (timeInit twoCpus) = .ok () { twoCpus with ticks := 2#32 } :=
    (run_bind_ok hfirst).trans (run_bind_ok hsecond)
  refine ⟨hrun, rfl, fun h => ?_⟩
  have hright : RightAfter 1 (timers [0, 1] (timeInit twoCpus)) :=
    h [[0, 1]] (by simp [List.range_succ])
  rw [hrun] at hright
  have hten : (20#32).toNat = 10 * 1 := hright
  exact absurd hten (by decide)

end Jos
