import Jos.Kern.Env

/-!
# The scheduler

`kern/sched.c`, and `env_destroy` of `kern/env.c`, which calls it.

`sched_yield` looks for a runnable environment in circular fashion, starting
just after the one this CPU ran last.  The index it starts with is not reduced
modulo `NENV`: after the last environment the first look is at `envs[NENV]`,
one past the end of the table.  The table fills its pages exactly, so that
record lies at the start of the first page after the kernel's own
data, and its `env_status` is word 21 of that page (`pastStatus`).
-/

namespace Jos

/-- `envs[NENV].env_status`: a word of the page that follows `envs[]`. -/
def pastStatus (k : Kernel) : Word := k.pm.mem k.pm.boot.kernelEndPage 21

/-- The status `sched_yield` reads at index `i`. -/
def statusAt (k : Kernel) (i : ℕ) : Word :=
  if h : i < 1024 then (k.envs ⟨i, h⟩).envStatus.code else pastStatus k

/-- The loop of `sched_yield`: the first of `n` indexes from `i` on with a
runnable environment. -/
def schedScan (k : Kernel) : ℕ → ℕ → Option ℕ
  | 0, _ => none
  | n + 1, i =>
    if statusAt k i = EnvStatus.runnable.code then some i else schedScan k n ((i + 1) % 1024)

/-- Where `sched_yield` starts to look. -/
def schedStart (k : Kernel) (cpu : ℕ) : ℕ :=
  match k.curenv cpu with
  | none => 0
  | some c => (envx (k.envs c).envId).val + 1

/-- `sched_halt`. -/
def schedHalt (cpu : ℕ) : KernelM Unit := do
  let k ← get
  if ∃ e, (k.envs e).envStatus = .runnable ∨ (k.envs e).envStatus = .running ∨
      (k.envs e).envStatus = .dying then
    modify fun k => k.setCurenv cpu none
    modify fun k => k.setCpuStatus cpu .halted
    throw .halt
  else
    throw .monitor

/-- `sched_yield`. -/
def schedYield (cpu : ℕ) : KernelM Unit := do
  let k ← get
  match schedScan k 1024 (schedStart k cpu) with
  | some i =>
    if h : i < 1024 then
      modify fun k => k.modifyEnv ⟨i, h⟩ fun env => { env with envCpunum := cpu }
      envRun cpu ⟨i, h⟩
    else
      -- `env_run` on a record outside the table
      throw .wild
  | none =>
    match k.curenv cpu with
    | none => schedHalt cpu
    | some idle =>
      if (k.envs idle).envStatus = .running then
        modify fun k => k.modifyEnv idle fun env => { env with envCpunum := cpu }
        envRun cpu idle
      else
        schedHalt cpu

/-! ## What the scheduler can do -/

/-- Record on which CPU an environment runs. -/
def Kernel.setCpunum (k : Kernel) (e : EnvIdx) (cpu : ℕ) : Kernel :=
  k.modifyEnv e fun env => { env with envCpunum := cpu }

theorem EnvStatus.code_inj {s s' : EnvStatus} (h : s.code = s'.code) : s = s' := by
  cases s <;> cases s' <;> first | rfl | exact absurd h (by decide)

variable {k k' : Kernel} {cpu : ℕ} {u : Unit}

/-- What the loop finds is runnable. -/
theorem schedScan_status {i : ℕ} : ∀ (n j : ℕ), schedScan k n j = some i →
    statusAt k i = EnvStatus.runnable.code := by
  intro n
  induction n with
  | zero => intro j h; cases h
  | succ n ih =>
    intro j h
    rw [schedScan] at h
    split at h
    · next hj =>
        cases h
        exact hj
    · exact ih _ h

/-- **`sched_yield`** runs a runnable environment, or the one that is running
already, or halts; or it runs off the end of the table. -/
theorem schedYield_cases (k : Kernel) (cpu : ℕ) :
    (∃ e, (k.envs e).envStatus = .runnable ∧
      schedYield cpu k = envRun cpu e (k.setCpunum e cpu)) ∨
    (∃ e, k.curenv cpu = some e ∧ (k.envs e).envStatus = .running ∧
      schedYield cpu k = envRun cpu e (k.setCpunum e cpu)) ∨
    schedYield cpu k = schedHalt cpu k ∨ schedYield cpu k = .error .wild k := by
  rw [schedYield, run_get_bind]
  cases hscan : schedScan k 1024 (schedStart k cpu) with
  | some i =>
    by_cases hi : i < 1024
    · have hst := schedScan_status _ _ hscan
      rw [statusAt, dif_pos hi] at hst
      refine Or.inl ⟨⟨i, hi⟩, EnvStatus.code_inj hst, ?_⟩
      simp only [dif_pos hi, run_modify_bind]
      rfl
    · refine Or.inr (Or.inr (Or.inr ?_))
      simp only [dif_neg hi, run_throw]
  | none =>
    cases hc : k.curenv cpu with
    | none => exact Or.inr (Or.inr (Or.inl rfl))
    | some c =>
      by_cases hr : (k.envs c).envStatus = .running
      · refine Or.inr (Or.inl ⟨c, rfl, hr, ?_⟩)
        simp only [if_pos hr, run_modify_bind]
        rfl
      · refine Or.inr (Or.inr (Or.inl ?_))
        simp only [if_neg hr]

theorem envRun_ne_ok {e : EnvIdx} : envRun cpu e k ≠ .ok u k' := by
  cases hr : k.roots e with
  | none =>
    obtain ⟨k₁, h⟩ : ∃ k₁, envRun cpu e k = .error (.panic .paddr) k₁ := envRun_none hr
    simp [h]
  | some r => simp [envRun_some hr]

theorem schedHalt_ne_ok : schedHalt cpu k ≠ .ok u k' := by
  rw [schedHalt, run_get_bind]
  split <;> simp

/-- The scheduler does not return. -/
theorem schedYield_ne_ok : schedYield cpu k ≠ .ok u k' := by
  rcases schedYield_cases k cpu with ⟨e, -, h⟩ | ⟨e, -, -, h⟩ | h | h <;> rw [h]
  · exact envRun_ne_ok
  · exact envRun_ne_ok
  · exact schedHalt_ne_ok
  · simp

/-! ## Destroying an environment -/

/-- `env_destroy`.  An environment that runs on another CPU is only marked; it
is freed the next time it enters the kernel. -/
def envDestroy (cpu : ℕ) (e : EnvIdx) : KernelM Unit := do
  let k ← get
  if (k.envs e).envStatus = .running ∧ k.curenv cpu ≠ some e then
    modify fun k => k.modifyEnv e fun env => { env with envStatus := .dying }
  else
    envFree cpu e
    if k.curenv cpu = some e then
      modify fun k => k.setCurenv cpu none
      schedYield cpu
    else
      pure ()

end Jos
