import Jos.Kern.Boot

/-!
# The order in which the scheduler looks

What `sched_yield` is meant to do is a search through the table in circular
order, from the slot after the one this CPU ran last (`circular`,
`roundRobin`).  Its loop looks at `schedOrder`, and the two agree but for one
slot: the index it starts with is `ENVX(id) + 1`, not reduced modulo `NENV`.

* `schedScan_eq_find` and `schedReads_eq` — the loop is a search through
  `schedOrder`, and what it reads is what a search looks at.
* `schedOrder_eq` — the order, from any slot of the table.
* `sched_yield_round_robin_iff` — the scheduler is round robin exactly if the
  last slot is not the one it starts from (and the id of the current
  environment names its slot, as ids do).
* `schedScan_last` — from the last slot it never looks at slot 0.
-/

namespace Jos

/-! ## Searching a list -/

section Search

variable {α β : Type} (p : α → Bool)

/-- The part of a list that a search for `p` looks at. -/
def searched : List α → List α
  | [] => []
  | a :: l => a :: if p a then [] else searched l

theorem searched_map (f : β → α) (l : List β) :
    searched p (l.map f) = (searched (fun b => p (f b)) l).map f := by
  induction l with
  | nil => rfl
  | cons b l ih =>
    rw [List.map_cons, searched, searched]
    by_cases hb : p (f b) = true
    · simp [hb]
    · simp [hb, ih]

end Search

/-! ## Round robin -/

/-- The slots in circular order, from the one after the current environment's. -/
def circular : Option EnvIdx → List EnvIdx
  | none => List.finRange 1024
  | some c => (List.finRange 1024).map fun j => c + 1 + j

/-- Every slot comes up in this order … -/
theorem mem_circular (c : Option EnvIdx) (e : EnvIdx) : e ∈ circular c := by
  cases c with
  | none => exact List.mem_finRange e
  | some c => exact List.mem_map.2 ⟨e - (c + 1), List.mem_finRange _, add_sub_cancel ..⟩

/-- … and once. -/
theorem nodup_circular (c : Option EnvIdx) : (circular c).Nodup := by
  cases c with
  | none => exact List.nodup_finRange 1024
  | some c => exact (List.nodup_finRange 1024).map (add_right_injective (c + 1))

/-- A runnable environment. -/
def Kernel.isRunnable (k : Kernel) (e : EnvIdx) : Bool := (k.envs e).envStatus = .runnable

/-- **Round-robin scheduling**: the first runnable environment in circular
order; without one, the current environment if it is still running. -/
def roundRobin (cpu : ℕ) : KernelM Unit := fun k =>
  match (circular (k.curenv cpu)).find? k.isRunnable with
  | some e => envRun cpu e (k.setCpunum e cpu)
  | none =>
    match k.curenv cpu with
    | none => schedHalt cpu k
    | some idle =>
      if (k.envs idle).envStatus = .running then envRun cpu idle (k.setCpunum idle cpu)
      else schedHalt cpu k

/-! ## The loop of `sched_yield` -/

/-- The indexes the loop runs through, if it finds nothing. -/
def schedOrder : ℕ → ℕ → List ℕ
  | 0, _ => []
  | n + 1, i => i :: schedOrder n ((i + 1) % 1024)

/-- The indexes at which the loop reads a status. -/
def schedReads (k : Kernel) : ℕ → ℕ → List ℕ
  | 0, _ => []
  | n + 1, i =>
    i :: if statusAt k i = EnvStatus.runnable.code then [] else schedReads k n ((i + 1) % 1024)

/-- What the loop looks for. -/
def Kernel.runnableAt (k : Kernel) (i : ℕ) : Bool := statusAt k i = EnvStatus.runnable.code

section Loop

variable {k : Kernel}

theorem schedScan_eq_find (n i : ℕ) : schedScan k n i = (schedOrder n i).find? k.runnableAt := by
  induction n generalizing i with
  | zero => rfl
  | succ n ih =>
    rw [schedScan, schedOrder, List.find?_cons, ih]
    by_cases h : statusAt k i = EnvStatus.runnable.code
    · simp [Kernel.runnableAt, h]
    · simp [Kernel.runnableAt, h]

theorem schedReads_eq (n i : ℕ) : schedReads k n i = searched k.runnableAt (schedOrder n i) := by
  induction n generalizing i with
  | zero => rfl
  | succ n ih =>
    rw [schedReads, schedOrder, searched, ih]
    by_cases h : statusAt k i = EnvStatus.runnable.code
    · simp [Kernel.runnableAt, h]
    · simp [Kernel.runnableAt, h]

/-- From an index of the table, the loop goes round. -/
theorem schedOrder_eq (n : ℕ) {i : ℕ} (hi : i < 1024) :
    schedOrder n i = (List.range n).map fun j => (i + j) % 1024 := by
  induction n generalizing i with
  | zero => rfl
  | succ n ih =>
    rw [schedOrder, ih (Nat.mod_lt _ (by decide)), List.range_succ_eq_map, List.map_cons,
      List.map_map]
    refine List.cons_eq_cons.2 ⟨by omega, List.map_congr_left fun j _ => ?_⟩
    rw [Nat.mod_add_mod, Function.comp_apply]
    congr 1
    omega

theorem runnableAt_val (e : EnvIdx) : k.runnableAt e.val = k.isRunnable e := by
  rw [Kernel.runnableAt, Kernel.isRunnable, statusAt, dif_pos e.isLt]
  by_cases h : (k.envs e).envStatus = .runnable
  · simp [h]
  · have hcode : (k.envs e).envStatus.code ≠ EnvStatus.runnable.code := fun hc =>
      h (EnvStatus.code_inj hc)
    simp [h, hcode]

/-- Without a current environment the loop looks at the table from its start. -/
theorem schedOrder_none : schedOrder 1024 0 = (circular none).map Fin.val := by
  rw [schedOrder_eq 1024 (by decide), circular, List.map_coe_finRange_eq_range]
  refine (List.map_congr_left fun j hj => ?_).trans (List.map_id _)
  rw [Nat.zero_add, Nat.mod_eq_of_lt (List.mem_range.1 hj), id]

/-- After any slot but the last, it goes round as it should. -/
theorem schedOrder_some {c : EnvIdx} (hc : c.val ≠ 1023) :
    schedOrder 1024 (c.val + 1) = (circular (some c)).map Fin.val := by
  have hlt : c.val + 1 < 1024 := by omega
  have hval : ∀ j : EnvIdx, (c + 1 + j).val = (c.val + 1 + j.val) % 1024 := fun j => by
    rw [Fin.val_add, Fin.val_add, Nat.mod_add_mod]
    rfl
  rw [schedOrder_eq 1024 hlt, circular, List.map_map, ← List.map_coe_finRange_eq_range,
    List.map_map]
  exact List.map_congr_left fun j _ => (hval j).symm

/-- After the last slot it looks past the table first, and never at slot 0. -/
theorem mem_schedOrder_last {i : ℕ} (h : i ∈ schedOrder 1024 1024) :
    i = 1024 ∨ 0 < i ∧ i < 1024 := by
  rw [schedOrder, schedOrder_eq 1023 (by decide), List.mem_cons, List.mem_map] at h
  rcases h with rfl | ⟨j, hj, rfl⟩
  · exact Or.inl rfl
  · rw [List.mem_range] at hj
    exact Or.inr (by omega)

/-- So an environment in slot 0 is not found, however long it has waited. -/
theorem schedScan_last (hpast : pastStatus k ≠ EnvStatus.runnable.code)
    (honly : ∀ e : EnvIdx, e.val ≠ 0 → (k.envs e).envStatus ≠ .runnable) :
    schedScan k 1024 1024 = none := by
  rw [schedScan_eq_find, List.find?_eq_none]
  intro i hi
  rcases mem_schedOrder_last hi with rfl | ⟨hpos, hlt⟩
  · simpa [Kernel.runnableAt, statusAt] using hpast
  · have hnot := honly ⟨i, hlt⟩ (Nat.ne_of_gt hpos)
    rw [runnableAt_val ⟨i, hlt⟩, Kernel.isRunnable]
    simpa using hnot

/-- The order decides what the loop reads … -/
theorem schedReads_of_order {start : ℕ} {o : Option EnvIdx}
    (h : schedOrder 1024 start = (circular o).map Fin.val) :
    schedReads k 1024 start = (searched k.isRunnable (circular o)).map Fin.val := by
  rw [schedReads_eq, h, searched_map]
  congr 1
  exact congrArg (fun p => searched p (circular o)) (funext runnableAt_val)

/-- … and what it finds. -/
theorem schedScan_of_order {start : ℕ} {o : Option EnvIdx}
    (h : schedOrder 1024 start = (circular o).map Fin.val) :
    schedScan k 1024 start = ((circular o).find? k.isRunnable).map Fin.val := by
  rw [schedScan_eq_find, h, List.find?_map]
  congr 2
  exact funext runnableAt_val

end Loop

/-! ## `sched_yield` -/

/-- `sched_yield` on `cpu` is round robin: it reads the table in circular order
up to the first runnable environment, does what round robin does, and does not
give up while there is a runnable environment. -/
structure IsRoundRobin (k : Kernel) (cpu : ℕ) : Prop where
  reads : schedReads k 1024 (schedStart k cpu)
    = (searched k.isRunnable (circular (k.curenv cpu))).map Fin.val
  runs : schedYield cpu k = roundRobin cpu k
  halts : ∀ ex k', schedYield cpu k = .error ex k' → ex = .halt ∨ ex = .monitor →
    ∀ e, (k.envs e).envStatus ≠ .runnable

variable {k : Kernel} {cpu : ℕ}

/-- Where the loop starts, when ids name slots and it is not at the end. -/
theorem schedOrder_start
    (h : ∀ c, k.curenv cpu = some c → envx (k.envs c).envId = c ∧ c.val ≠ 1023) :
    schedOrder 1024 (schedStart k cpu) = (circular (k.curenv cpu)).map Fin.val := by
  rw [schedStart]
  cases hc : k.curenv cpu with
  | none => exact schedOrder_none
  | some c =>
    obtain ⟨hx, hne⟩ := h c hc
    simp only [hx]
    exact schedOrder_some hne

theorem schedYield_of_order
    (h : schedOrder 1024 (schedStart k cpu) = (circular (k.curenv cpu)).map Fin.val) :
    schedYield cpu k = roundRobin cpu k := by
  rw [schedYield, run_get_bind, schedScan_of_order h, roundRobin]
  cases hfind : (circular (k.curenv cpu)).find? k.isRunnable with
  | some e =>
    simp only [Option.map_some, dif_pos e.isLt, run_modify_bind]
    rfl
  | none =>
    cases hc : k.curenv cpu with
    | none => rfl
    | some idle =>
      simp only [Option.map_none]
      by_cases hr : (k.envs idle).envStatus = .running
      · rw [if_pos hr, if_pos hr, run_modify_bind]
        rfl
      · rw [if_neg hr, if_neg hr]

theorem envRun_exit {k' : Kernel} {e : EnvIdx} {ex : Exit} (h : envRun cpu e k = .error ex k') :
    ¬ (ex = .halt ∨ ex = .monitor) := by
  cases hr : k.roots e with
  | none =>
    obtain ⟨k₁, h₁⟩ := @envRun_none k cpu e hr
    rw [h₁] at h
    cases h
    simp
  | some r =>
    rw [envRun_some hr] at h
    cases h
    simp

/-- Round robin gives up only if no environment is runnable. -/
theorem roundRobin_halts {k' : Kernel} {ex : Exit} (h : roundRobin cpu k = .error ex k')
    (hex : ex = .halt ∨ ex = .monitor) (e : EnvIdx) : (k.envs e).envStatus ≠ .runnable := by
  rw [roundRobin] at h
  cases hfind : (circular (k.curenv cpu)).find? k.isRunnable with
  | some e' =>
    simp only [hfind] at h
    exact absurd hex (envRun_exit h)
  | none =>
    have hnot := List.find?_eq_none.1 hfind e (mem_circular _ e)
    simpa [Kernel.isRunnable] using hnot

/-- **When the scheduler is round robin**: exactly if the CPU runs nothing, or
an environment whose id names its slot and whose slot is not the last. -/
theorem sched_yield_round_robin_iff (k : Kernel) (cpu : ℕ) :
    IsRoundRobin k cpu ↔
      ∀ c, k.curenv cpu = some c → envx (k.envs c).envId = c ∧ c.val ≠ 1023 := by
  constructor
  · intro h c hc
    -- the first index is read whatever the table holds
    obtain ⟨t, ht⟩ : ∃ t, circular (some c) = (c + 1) :: t :=
      ⟨_, by rw [circular, List.finRange_succ, List.map_cons, add_zero]⟩
    have hreads := h.reads
    rw [hc, ht, searched, List.map_cons, schedReads, schedStart] at hreads
    have hfirst := (List.cons.inj hreads).1
    simp only [hc, Fin.val_add, Fin.val_one] at hfirst
    refine ⟨Fin.ext ?_, ?_⟩ <;> omega
  · intro h
    have horder := schedOrder_start h
    refine ⟨schedReads_of_order horder, schedYield_of_order horder, fun ex k' hrun hex e => ?_⟩
    rw [schedYield_of_order horder] at hrun
    exact roundRobin_halts hrun hex e

/-- CPU 0 runs the environment in the last slot; the one in slot 0 is runnable. -/
def lastSlotKernel : Kernel where
  pm :=
    { boot := ⟨32768, 160, 0x1E0000, 384⟩
      pages := fun _ => ⟨none, 0#16⟩
      pageFreeList := none
      mem := fun _ _ => 0#32
      userMemCheckAddr := 0#32 }
  envs := fun e =>
    if e.val = 0 then
      { Env.zero with envId := 0x1000#32, envStatus := .runnable, envPgdir := some 500 }
    else if e.val = 1023 then
      { Env.zero with envId := 0x13ff#32, envStatus := .running, envPgdir := some 501 }
    else Env.zero
  envFreeList := none
  cpus := fun _ => ⟨.started, some (Fin.last 1023)⟩
  ticks := 0#32

/-- It looks past the table, and goes on with the last slot. -/
theorem sched_yield_skips_first :
    (lastSlotKernel.envs 0).envStatus = .runnable ∧
    lastSlotKernel.curenv 0 = some (Fin.last 1023) ∧
    envx (lastSlotKernel.envs (Fin.last 1023)).envId = Fin.last 1023 ∧
    1024 ∈ schedReads lastSlotKernel 1024 (schedStart lastSlotKernel 0) ∧
    schedYield 0 lastSlotKernel
      = envRun 0 (Fin.last 1023) (lastSlotKernel.setCpunum (Fin.last 1023) 0) ∧
    ¬ IsRoundRobin lastSlotKernel 0 := by
  have hstart : schedStart lastSlotKernel 0 = 1024 := by decide
  have hmem : 1024 ∈ schedReads lastSlotKernel 1024 (schedStart lastSlotKernel 0) := by
    rw [hstart, schedReads]
    exact List.mem_cons_self
  have hscan : schedScan lastSlotKernel 1024 1024 = none := by
    refine schedScan_last (by decide) fun e he => ?_
    have henv : lastSlotKernel.envs e = if e.val = 1023 then
        { Env.zero with envId := 0x13ff#32, envStatus := .running, envPgdir := some 501 }
      else Env.zero := if_neg he
    rw [henv]
    split <;> decide
  refine ⟨by decide, rfl, by decide, hmem, ?_, fun h => ?_⟩
  · rw [schedYield, run_get_bind, hstart, hscan]
    rfl
  · rw [h.reads] at hmem
    obtain ⟨e, -, he⟩ := List.mem_map.1 hmem
    exact absurd e.isLt (by omega)

end Jos
