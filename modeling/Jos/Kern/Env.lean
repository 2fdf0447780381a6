import Jos.Inc.Env
import Jos.Kern.Pmap

/-!
# Environments: creating, finding and freeing them

`kern/env.c` and `kern/cpu.h`.  The state of the kernel is `Kernel`: physical
memory, the table `envs[]` with its free list, and for each CPU what it is
doing.  `curenv` is a field of the CPU that runs the code, so functions that
use it take the CPU's number.

Some functions of the kernel never return: they drop into user mode, halt the
CPU, or panic.  A `KernelM` returns with a new state or leaves through an
`Exit`.

Two things the hardware does are part of the model because the code runs into
them.  `env_free` on an environment without a page directory follows a null
pointer: with `kern_pgdir` loaded this is a page fault in the kernel, and
otherwise it reads whatever the current environment has mapped at address 0
(`Exit.wild`).
-/

namespace Jos

/-! ## The state of the kernel -/

/-- `cpu_status`. -/
inductive CpuStatus
  | unused
  | started
  | halted
  deriving DecidableEq

/-- `struct CpuInfo`. -/
structure CpuInfo where
  cpuStatus : CpuStatus
  /-- `curenv` of this CPU. -/
  cpuEnv : Option EnvIdx
  deriving DecidableEq

/-- The state of the kernel. -/
structure Kernel where
  pm : PhysMem
  /-- All environments. -/
  envs : EnvIdx → Env
  /-- Free environment list. -/
  envFreeList : Option EnvIdx
  cpus : ℕ → CpuInfo
  /-- `ticks` of `kern/time.c`. -/
  ticks : Word

/-- How the kernel leaves a piece of code that does not return. -/
inductive Exit
  /-- Into user mode, as the CPU's `curenv`. -/
  | user
  /-- The CPU waits for an interrupt. -/
  | halt
  | panic (p : Panic)
  /-- The kernel monitor, for good. -/
  | monitor
  /-- The code goes on with data that is not the kernel's. -/
  | wild
  deriving DecidableEq

/-- Kernel code. -/
abbrev KernelM := EStateM Exit Kernel

/-- Code of `kern/pmap.c`, as kernel code. -/
def onPm {α : Type} (x : PhysM α) : KernelM α := fun k =>
  match x k.pm with
  | .ok a pm => .ok a { k with pm := pm }
  | .error p pm => .error (.panic p) { k with pm := pm }

variable {α : Type}

variable {x : PhysM α}

theorem onPm_ok {k : Kernel} {a : α} {pm : PhysMem} (h : x k.pm = .ok a pm) :
    onPm x k = .ok a { k with pm := pm } := by
  simp only [onPm, h]

theorem onPm_error {k : Kernel} {p : Panic} {pm : PhysMem} (h : x k.pm = .error p pm) :
    onPm x k = .error (.panic p) { k with pm := pm } := by
  simp only [onPm, h]

/-- Code of `kern/pmap.c` changes physical memory only. -/
theorem onPm_inv {k k' : Kernel} {a : α} (h : onPm x k = .ok a k') :
    ∃ pm, x k.pm = .ok a pm ∧ k' = { k with pm := pm } := by
  cases hx : x k.pm with
  | ok b pm =>
    rw [onPm_ok hx] at h
    cases h
    exact ⟨pm, rfl, rfl⟩
  | error p pm =>
    rw [onPm_error hx] at h
    cases h

theorem onPm_bind_inv {β : Type} {f : α → KernelM β} {k k' : Kernel} {b : β}
    (h : (onPm x >>= f) k = .ok b k') :
    ∃ a pm, x k.pm = .ok a pm ∧ f a { k with pm := pm } = .ok b k' := by
  obtain ⟨a, k₁, hx, hf⟩ := run_bind_inv h
  obtain ⟨pm, hpm, rfl⟩ := onPm_inv hx
  exact ⟨a, pm, hpm, hf⟩

namespace Kernel

/-- Change the record of one environment. -/
def modifyEnv (k : Kernel) (e : EnvIdx) (f : Env → Env) : Kernel :=
  { k with envs := Function.update k.envs e (f (k.envs e)) }

/-- The environment a CPU runs. -/
def curenv (k : Kernel) (cpu : ℕ) : Option EnvIdx := (k.cpus cpu).cpuEnv

/-- Set `curenv` of a CPU. -/
def setCurenv (k : Kernel) (cpu : ℕ) (e : Option EnvIdx) : Kernel :=
  { k with cpus := Function.update k.cpus cpu { k.cpus cpu with cpuEnv := e } }

@[simp] theorem curenv_setCurenv (k : Kernel) (cpu : ℕ) (o : Option EnvIdx) :
    (k.setCurenv cpu o).curenv cpu = o := by
  simp [curenv, setCurenv]

theorem curenv_setCurenv_of_ne {k : Kernel} {cpu q : ℕ} {o : Option EnvIdx} (h : q ≠ cpu) :
    (k.setCurenv cpu o).curenv q = k.curenv q := by
  simp [curenv, setCurenv, h]

/-- Set `cpu_status` of a CPU. -/
def setCpuStatus (k : Kernel) (cpu : ℕ) (s : CpuStatus) : Kernel :=
  { k with cpus := Function.update k.cpus cpu { k.cpus cpu with cpuStatus := s } }

@[simp] theorem curenv_setCpuStatus (k : Kernel) (cpu : ℕ) (s : CpuStatus) :
    (k.setCpuStatus cpu s).curenv = k.curenv := by
  funext q
  by_cases hq : q = cpu
  · subst hq
    simp [curenv, setCpuStatus]
  · simp [curenv, setCpuStatus, hq]

/-- The page directories of the live environments. -/
def roots (k : Kernel) (e : EnvIdx) : Option ℕ := (k.envs e).envPgdir

end Kernel

/-! ## Finding an environment -/

/-- `envid2env`.  Id 0 is the current environment, and is not checked. -/
def envid2env (cpu : ℕ) (envid : Word) (checkperm : Bool) (k : Kernel) :
    Except Errno (Option EnvIdx) :=
  if envid = 0#32 then .ok (k.curenv cpu)
  else
    let e := envx envid
    if (k.envs e).envStatus = .free ∨ (k.envs e).envId ≠ envid then .error .badEnv
    else if checkperm ∧ k.curenv cpu ≠ some e ∧
        (k.curenv cpu).map (fun c => (k.envs c).envId) ≠ some (k.envs e).envParentId then
      .error .badEnv
    else .ok (some e)

/-! ## Creating an environment -/

/-- The page directory `env_setup_vm` fills in: nothing below `UTOP`, the
kernel's entries above, and the directory itself at `UVPT`. -/
def freshPgdir (kern : Idx → Word) (p : ℕ) : Idx → Word := fun i =>
  if i = uvptDx then page2pa p ||| PTE_P ||| PTE_U
  else if i < utopDx then 0#32
  else kern i

/-- `env_setup_vm`. -/
def envSetupVm (e : EnvIdx) : KernelM (Except Errno Unit) := do
  match ← onPm (pageAlloc true) with
  | none => pure (.error .noMem)
  | some p =>
    let kva ← onPm (page2kva p)
    modify fun k => k.modifyEnv e fun env => { env with envPgdir := some kva }
    onPm (incref p)
    onPm (modify fun pm => pm.setPage kva (freshPgdir (pm.mem pm.boot.kernPgdir) kva))
    pure (.ok ())

/-- The id of the next environment in a slot whose last one had id `old`. -/
def nextEnvId (old : Word) (e : EnvIdx) : Word :=
  let generation := (old + 0x1000#32) &&& ~~~0x3ff#32
  (if generation.sle 0#32 then 0x1000#32 else generation) ||| BitVec.ofNat 32 e.val

/-- The trap frame of a new environment. -/
def freshTf : Trapframe :=
  { Trapframe.zero with
    tfDs := GD_UD ||| 3#16
    tfEs := GD_UD ||| 3#16
    tfSs := GD_UD ||| 3#16
    tfEsp := USTACKTOP
    tfCs := GD_UT ||| 3#16
    tfEflags := FL_IF }

/-- `env_alloc`. -/
def envAlloc (parentId : Word) : KernelM (Except Errno EnvIdx) := do
  let k ← get
  match k.envFreeList with
  | none => pure (.error .noFreeEnv)
  | some e =>
    match ← envSetupVm e with
    | .error r => pure (.error r)
    | .ok () =>
      modify fun k => k.modifyEnv e fun env =>
        { env with
          envId := nextEnvId env.envId e
          envParentId := parentId
          envType := .user
          envStatus := .runnable
          envRuns := 0#32
          envTf := freshTf
          envPgfaultUpcall := 0#32
          envIpcRecving := false }
      modify fun k => { k with envFreeList := (k.envs e).envLink }
      pure (.ok e)

/-! ## Freeing an environment -/

/-- The inner loop of `env_free`: unmap all pages of one page table. -/
def unmapTable (pgdir : ℕ) (pdeno : Idx) (pt : ℕ) : PhysM Unit :=
  (List.finRange 1024).forM fun pteno => do
    let pm ← get
    if present (pm.mem pt pteno) then pageRemove pgdir (pgaddr pdeno pteno 0#32) else pure ()

/-- The body of the outer loop of `env_free`: flush one page table and free it. -/
def freeTable (pgdir : ℕ) (pdeno : Idx) : PhysM Unit := do
  let pm ← get
  if ¬ present (pm.mem pgdir pdeno) then pure ()
  else
    let pa := pteAddr (pm.mem pgdir pdeno)
    let pt ← kaddr pa
    unmapTable pgdir pdeno pt
    modify fun pm => pm.write ⟨pgdir, pdeno⟩ 0#32
    let pp ← pa2page pa
    pageDecref pp

/-- The directory entries of the user part of an address space. -/
def userPdes : List Idx := (List.finRange 1024).filter fun d => d < utopDx

/-- The outer loop of `env_free`: flush all mapped pages in the user part of the
address space. -/
def freeTables (pgdir : ℕ) : PhysM Unit := userPdes.forM (freeTable pgdir)

/-- `env_free`. -/
def envFree (cpu : ℕ) (e : EnvIdx) : KernelM Unit := do
  let k ← get
  match (k.envs e).envPgdir with
  | none => throw (if k.curenv cpu = some e then .panic .kernelFault else .wild)
  | some pgdir =>
    onPm (freeTables pgdir)
    modify fun k => k.modifyEnv e fun env => { env with envPgdir := none }
    let pp ← onPm (pa2page (page2pa pgdir))
    onPm (pageDecref pp)
    modify fun k => k.modifyEnv e fun env =>
      { env with envStatus := .free, envLink := k.envFreeList }
    modify fun k => { k with envFreeList := some e }

/-! ## Running an environment -/

namespace Kernel

/-- The environment a CPU leaves is runnable again, if it was running. -/
def park (k : Kernel) (cpu : ℕ) : Kernel :=
  match k.curenv cpu with
  | none => k
  | some c =>
    if (k.envs c).envStatus = .running then
      k.modifyEnv c fun env => { env with envStatus := .runnable }
    else k

end Kernel

/-- `env_run`: switch from the current environment, if any, to `e`. -/
def envRun (cpu : ℕ) (e : EnvIdx) : KernelM Unit := do
  modify fun k => k.park cpu
  modify fun k => k.setCurenv cpu (some e)
  modify fun k => k.modifyEnv e fun env =>
    { env with envStatus := .running, envRuns := env.envRuns + 1#32 }
  let k ← get
  -- `lcr3(PADDR(e->env_pgdir))`
  match (k.envs e).envPgdir with
  | none => throw (.panic .paddr)
  | some _ =>
    modify fun k => k.modifyEnv e fun env => { env with envCpunum := cpu }
    throw .user

namespace Kernel

/-- The state in which `env_run` drops into user mode. -/
def switched (k : Kernel) (cpu : ℕ) (e : EnvIdx) : Kernel :=
  ((k.park cpu).setCurenv cpu (some e)).modifyEnv e fun env =>
    { env with envStatus := .running, envRuns := env.envRuns + 1#32, envCpunum := cpu }

/-- Only the status of the environment changes. -/
theorem park_envs (k : Kernel) (cpu : ℕ) (e : EnvIdx) :
    (k.park cpu).envs e = k.envs e ∨
      (k.envs e).envStatus = .running ∧ k.curenv cpu = some e ∧
        (k.park cpu).envs e = { k.envs e with envStatus := .runnable } := by
  unfold park
  cases hc : k.curenv cpu with
  | none => exact Or.inl rfl
  | some c =>
    by_cases hr : (k.envs c).envStatus = .running
    · by_cases he : e = c
      · subst he
        refine Or.inr ⟨hr, rfl, ?_⟩
        simp [hr, modifyEnv]
      · refine Or.inl ?_
        simp [hr, modifyEnv, he]
    · simp [hr]

@[simp] theorem park_pm (k : Kernel) (cpu : ℕ) : (k.park cpu).pm = k.pm := by
  unfold park; split <;> [rfl; (split <;> rfl)]

@[simp] theorem park_cpus (k : Kernel) (cpu : ℕ) : (k.park cpu).cpus = k.cpus := by
  unfold park; split <;> [rfl; (split <;> rfl)]

@[simp] theorem park_curenv (k : Kernel) (cpu q : ℕ) : (k.park cpu).curenv q = k.curenv q := by
  rw [curenv, park_cpus, curenv]

@[simp] theorem park_envFreeList (k : Kernel) (cpu : ℕ) :
    (k.park cpu).envFreeList = k.envFreeList := by
  unfold park; split <;> [rfl; (split <;> rfl)]

end Kernel

theorem envRun_some {k : Kernel} {cpu r : ℕ} {e : EnvIdx} (h : k.roots e = some r) :
    envRun cpu e k = .error .user (k.switched cpu e) := by
  have hp : ((k.park cpu).envs e).envPgdir = some r := by
    rcases k.park_envs cpu e with he | ⟨-, -, he⟩ <;> rw [he] <;> exact h
  simp only [envRun, run_modify_bind, run_get_bind, Kernel.modifyEnv, Function.update_self,
    Kernel.setCurenv, hp, run_throw, Kernel.switched, Function.update_idem]

theorem envRun_none {k : Kernel} {cpu : ℕ} {e : EnvIdx} (h : k.roots e = none) :
    ∃ k', envRun cpu e k = .error (.panic .paddr) k' := by
  have hp : ((k.park cpu).envs e).envPgdir = none := by
    rcases k.park_envs cpu e with he | ⟨-, -, he⟩ <;> rw [he] <;> exact h
  simp only [envRun, run_modify_bind, run_get_bind, Kernel.modifyEnv, Function.update_self,
    Kernel.setCurenv, hp, run_throw]
  exact ⟨_, rfl⟩

/-! ## What a switch leaves alone -/

section Switched

variable (k : Kernel) (cpu : ℕ) (e : EnvIdx)

theorem pm_switched : (k.switched cpu e).pm = k.pm := k.park_pm cpu

theorem roots_switched : (k.switched cpu e).roots = k.roots := by
  have hpark : (k.park cpu).roots = k.roots := by
    funext e'
    rw [Kernel.roots, Kernel.roots]
    rcases k.park_envs cpu e' with hp | ⟨-, -, hp⟩ <;> rw [hp]
  rw [← hpark]
  funext e'
  by_cases he : e' = e
  · subst he
    simp [Kernel.roots, Kernel.switched, Kernel.modifyEnv, Kernel.setCurenv]
  · simp [Kernel.roots, Kernel.switched, Kernel.modifyEnv, Kernel.setCurenv, he]

/-- The saved registers stay as they are. -/
theorem tf_switched (e' : EnvIdx) : ((k.switched cpu e).envs e').envTf = (k.envs e').envTf := by
  have hpark : ((k.park cpu).envs e').envTf = (k.envs e').envTf := by
    rcases k.park_envs cpu e' with hp | ⟨-, -, hp⟩ <;> rw [hp]
  rw [← hpark]
  by_cases he : e' = e
  · subst he
    simp [Kernel.switched, Kernel.modifyEnv, Kernel.setCurenv]
  · simp [Kernel.switched, Kernel.modifyEnv, Kernel.setCurenv, he]

theorem curenv_switched (q : ℕ) :
    (k.switched cpu e).curenv q = if q = cpu then some e else k.curenv q := by
  have hcur : (k.switched cpu e).curenv q = ((k.park cpu).setCurenv cpu (some e)).curenv q := rfl
  rw [hcur]
  split
  · next hq => rw [hq, Kernel.curenv_setCurenv]
  · next hq => rw [Kernel.curenv_setCurenv_of_ne hq, Kernel.park_curenv]

theorem cpuStatus_switched :
    ((k.switched cpu e).cpus cpu).cpuStatus = (k.cpus cpu).cpuStatus := by
  simp [Kernel.switched, Kernel.modifyEnv, Kernel.setCurenv]

end Switched

end Jos
