import Jos.Kern.Sched

/-!
# System calls

`kern/syscall.c`: the system calls and their dispatch.

What a call reads from outside the kernel's own data is an argument, `Input`:
the character the console has ready, the trap frame in user memory that
`sys_env_set_trapframe` copies, and how long the string is that `sys_cputs`
prints.  Whether the kernel may read there at all is not left open: it reads
through the page tables of the environment that runs on this CPU
(`kernelReads`), and where nothing is mapped it takes a page fault and panics.
-/

namespace Jos

/-- What a system call takes from outside the kernel's data. -/
structure Input where
  /-- The next character of the console, 0 if there is none. -/
  consChar : Word
  /-- The trap frame found in user memory. -/
  frame : Trapframe
  /-- The number of characters before the first NUL of the string to print. -/
  strLen : ℕ
  /-- The faulting address of a page fault. -/
  cr2 : Word

/-! ## Access to user memory -/

/-- Does the page directory map `va` at all? -/
def mapped (pm : PhysMem) (pgdir : ℕ) (va : Word) : Bool :=
  present (pm.mem pgdir (pdx va)) &&
    present (pm.mem (pgnum (pm.mem pgdir (pdx va))) (ptx va))

/-- Can the kernel read `n` bytes at `va` in the address space that is loaded? -/
def kernelReads (k : Kernel) (cpu : ℕ) (va : Word) (n : ℕ) : Prop :=
  ∀ c, k.curenv cpu = some c → ∀ r, (k.envs c).envPgdir = some r →
    ∀ i < n, mapped k.pm r (va + BitVec.ofNat 32 i) = true

instance (k : Kernel) (cpu : ℕ) (va : Word) (n : ℕ) : Decidable (kernelReads k cpu va n) :=
  match hc : k.curenv cpu with
  | none => isTrue fun c h => by rw [hc] at h; cases h
  | some c =>
    match hr : (k.envs c).envPgdir with
    | none => isTrue fun c' h r h' => by
        rw [hc] at h; cases h; rw [hr] at h'; cases h'
    | some r =>
      decidable_of_iff (∀ i < n, mapped k.pm r (va + BitVec.ofNat 32 i) = true)
        ⟨fun h c' hc' r' hr' => by
          rw [hc] at hc'; cases hc'; rw [hr] at hr'; cases hr'; exact h,
         fun h => h c hc r hr⟩

/-- Code on the page directory of an environment; a null pointer faults. -/
def withPgdir {α : Type} (e : EnvIdx) (f : ℕ → KernelM α) : KernelM α := do
  let k ← get
  match (k.envs e).envPgdir with
  | none => throw .wild
  | some pgdir => f pgdir

theorem withPgdir_inv {α : Type} {e : EnvIdx} {f : ℕ → PhysM α} {k k' : Kernel} {a : α}
    (h : withPgdir e (fun r => onPm (f r)) k = .ok a k') :
    ∃ r pm, (k.envs e).envPgdir = some r ∧ f r k.pm = .ok a pm ∧ k' = { k with pm := pm } := by
  rw [withPgdir, run_get_bind] at h
  cases hr : (k.envs e).envPgdir with
  | none => simp only [hr] at h; cases h
  | some r =>
    simp only [hr] at h
    obtain ⟨pm, hpm, rfl⟩ := onPm_inv h
    exact ⟨r, pm, rfl, hpm, rfl⟩

/-- `user_mem_assert`: destroy `e` if it may not access the range. -/
def userMemAssert (cpu : ℕ) (e : EnvIdx) (va len perm : Word) : KernelM Unit := do
  match ← withPgdir e fun pgdir => onPm (userMemCheck pgdir va len (perm ||| PTE_U)) with
  | .ok () => pure ()
  | .error _ => envDestroy cpu e

/-- The checks shared by the calls that name an environment: a bad id is the
result of the call. -/
def withEnv (cpu : ℕ) (envid : Word) (checkperm : Bool) (f : EnvIdx → KernelM Word) :
    KernelM Word := do
  let k ← get
  match envid2env cpu envid checkperm k with
  | .error r => pure r.ret
  | .ok none => throw .wild
  | .ok (some e) => f e

/-- Is `va` an address at which a user page can be mapped? -/
def userVa (va : Word) : Bool := va < UTOP && pgoff va == 0#32

theorem userVa_lt {va : Word} (h : userVa va = true) : va < UTOP := by
  rw [userVa, Bool.and_eq_true, decide_eq_true_eq] at h
  exact h.1

/-- Are these permissions a user may ask for? -/
def permOk (perm : Word) : Bool :=
  perm &&& (PTE_U ||| PTE_P) == PTE_U ||| PTE_P && perm &&& ~~~PTE_SYSCALL == 0#32

theorem permOk_flagsOnly {perm : Word} (h : permOk perm = true) : FlagsOnly perm := by
  rw [permOk, Bool.and_eq_true, beq_iff_eq, beq_iff_eq] at h
  exact flagsOnly_of_syscall h.2

/-! ## The calls -/

/-- `sys_cputs`.  The loop that prints the string looks at one character more
than it prints. -/
def sysCputs (cpu : ℕ) (inp : Input) (s len : Word) : KernelM Word := do
  let k ← get
  match k.curenv cpu with
  | none => throw .wild
  | some c =>
    userMemAssert cpu c s len 0#32
    let k ← get
    let n := if len.toInt < 0 then inp.strLen else min inp.strLen len.toNat
    if s ≠ 0#32 ∧ ¬ kernelReads k cpu s (n + 1) then throw (.panic .kernelFault)
    else pure 0#32

/-- `sys_getenvid`. -/
def sysGetenvid (cpu : ℕ) : KernelM Word := do
  let k ← get
  match k.curenv cpu with
  | none => throw .wild
  | some c => pure (k.envs c).envId

/-- `sys_env_destroy`. -/
def sysEnvDestroy (cpu : ℕ) (envid : Word) : KernelM Word :=
  withEnv cpu envid true fun e => do
    envDestroy cpu e
    pure 0#32

/-- `sys_yield`. -/
def sysYield (cpu : ℕ) : KernelM Word := do
  schedYield cpu
  pure 0#32

/-- `sys_exofork`. -/
def sysExofork (cpu : ℕ) : KernelM Word := do
  let k ← get
  match k.curenv cpu with
  | none => throw .wild
  | some c =>
    match ← envAlloc (k.envs c).envId with
    | .error r => pure r.ret
    | .ok e =>
      modify fun k => k.modifyEnv e fun env =>
        { env with
          envStatus := .notRunnable
          envTf := (k.envs c).envTf.setEax 0#32 }
      let k ← get
      pure (k.envs e).envId

/-- `sys_env_set_status`. -/
def sysEnvSetStatus (cpu : ℕ) (envid status : Word) : KernelM Word :=
  withEnv cpu envid true fun e =>
    if status = EnvStatus.runnable.code then do
      modify fun k => k.modifyEnv e fun env => { env with envStatus := .runnable }
      pure 0#32
    else if status = EnvStatus.notRunnable.code then do
      modify fun k => k.modifyEnv e fun env => { env with envStatus := .notRunnable }
      pure 0#32
    else
      pure Errno.inval.ret

/-- `sys_env_set_trapframe`.  The check is on `e`'s address space, the copy is
made from the one that is loaded. -/
def sysEnvSetTrapframe (cpu : ℕ) (inp : Input) (envid tf : Word) : KernelM Word :=
  withEnv cpu envid true fun e => do
    userMemAssert cpu e tf 68#32 PTE_U
    let k ← get
    if ¬ kernelReads k cpu tf 68 then throw (.panic .kernelFault)
    else
      modify fun k => k.modifyEnv e fun env =>
        { env with
          envTf :=
            { inp.frame with
              tfCs := inp.frame.tfCs ||| 3#16
              tfEflags := inp.frame.tfEflags &&& ~~~FL_IOPL_MASK ||| FL_IF } }
      pure 0#32

/-- `sys_env_set_pgfault_upcall`. -/
def sysEnvSetPgfaultUpcall (cpu : ℕ) (envid func : Word) : KernelM Word :=
  withEnv cpu envid true fun e => do
    modify fun k => k.modifyEnv e fun env => { env with envPgfaultUpcall := func }
    pure 0#32

/-- `sys_page_alloc`. -/
def sysPageAlloc (cpu : ℕ) (envid va perm : Word) : KernelM Word :=
  withEnv cpu envid true fun e =>
    if userVa va = false then pure Errno.inval.ret
    else if permOk perm = false then pure Errno.inval.ret
    else do
      match ← onPm (pageAlloc true) with
      | none => pure Errno.noMem.ret
      | some pg =>
        match ← withPgdir e fun pgdir => onPm (pageInsert pgdir pg va perm) with
        | .ok () => pure 0#32
        | .error _ =>
          onPm (pageFree pg)
          pure Errno.noMem.ret

/-- `sys_page_map`. -/
def sysPageMap (cpu : ℕ) (srcenvid srcva dstenvid dstva perm : Word) : KernelM Word :=
  withEnv cpu srcenvid true fun se =>
    withEnv cpu dstenvid true fun de =>
      if userVa srcva = false ∨ userVa dstva = false then pure Errno.inval.ret
      else if permOk perm = false then pure Errno.inval.ret
      else do
        match ← withPgdir se fun pgdir => onPm (pageLookup pgdir srcva) with
        | none => pure Errno.inval.ret
        | some (pg, entry) =>
          let k ← get
          if writable perm ∧ ¬ writable (k.pm.read entry) then pure Errno.inval.ret
          else
            match ← withPgdir de fun pgdir => onPm (pageInsert pgdir pg dstva perm) with
            | .ok () => pure 0#32
            | .error _ => pure Errno.noMem.ret

/-- `sys_page_unmap`. -/
def sysPageUnmap (cpu : ℕ) (envid va : Word) : KernelM Word :=
  withEnv cpu envid true fun e =>
    if userVa va = false then pure Errno.inval.ret
    else do
      withPgdir e fun pgdir => onPm (pageRemove pgdir va)
      pure 0#32

/-- The end of `sys_ipc_try_send`: the receiver gets the message and is
runnable again. -/
def ipcDeliver (c dste : EnvIdx) (value : Word) : KernelM Word := do
  modify fun k => k.modifyEnv dste fun env =>
    { env with
      envIpcFrom := (k.envs c).envId
      envIpcRecving := false
      envIpcValue := value
      envStatus := .runnable
      envTf := env.envTf.setEax 0#32 }
  pure 0#32

/-- `sys_ipc_try_send`.  A page is transferred if the receiver's `dstva` is not
null. -/
def sysIpcTrySend (cpu : ℕ) (envid value srcva perm : Word) : KernelM Word :=
  withEnv cpu envid false fun dste => do
    let k ← get
    match k.curenv cpu with
    | none => throw .wild
    | some c =>
      if (k.envs dste).envIpcRecving = false ∨ (k.envs dste).envIpcFrom ≠ 0#32 then
        pure Errno.ipcNotRecv.ret
      else if srcva < UTOP then
        if pgoff srcva ≠ 0#32 ∨ permOk perm = false then pure Errno.inval.ret
        else do
          match ← withPgdir c fun pgdir => onPm (pageLookup pgdir srcva) with
          | none => pure Errno.inval.ret
          | some (pg, pte) =>
            let k ← get
            if writable perm ∧ ¬ writable (k.pm.read pte) then pure Errno.inval.ret
            else if (k.envs dste).envIpcDstva ≠ 0#32 then
              match ← withPgdir dste fun pgdir =>
                  onPm (pageInsert pgdir pg (k.envs dste).envIpcDstva perm) with
              | .error r => pure r.ret
              | .ok () =>
                modify fun k => k.modifyEnv dste fun env => { env with envIpcPerm := perm }
                ipcDeliver c dste value
            else ipcDeliver c dste value
      else ipcDeliver c dste value

/-- `sys_ipc_recv`. -/
def sysIpcRecv (cpu : ℕ) (dstva : Word) : KernelM Word := do
  let k ← get
  match k.curenv cpu with
  | none => throw .wild
  | some c =>
    if dstva < UTOP ∧ pgoff dstva ≠ 0#32 then pure Errno.inval.ret
    else
      modify fun k => k.modifyEnv c fun env =>
        { env with
          envIpcRecving := true
          envIpcDstva := dstva
          envStatus := .notRunnable
          envIpcFrom := 0#32 }
      schedYield cpu
      pure 0#32

/-- `sys_time_msec`. -/
def sysTimeMsec : KernelM Word := do
  let k ← get
  pure (k.ticks * 10#32)

/-! ## Dispatch -/

/-- The system call numbers of `inc/syscall.h`. -/
inductive Sysno
  | cputs | cgetc | getenvid | envDestroy | pageAlloc | pageMap | pageUnmap | exofork
  | envSetStatus | envSetTrapframe | envSetPgfaultUpcall | yield | ipcTrySend | ipcRecv | timeMsec
  deriving DecidableEq

/-- The system call a number stands for. -/
def Sysno.ofWord (n : Word) : Option Sysno :=
  match n.toNat with
  | 0 => some .cputs
  | 1 => some .cgetc
  | 2 => some .getenvid
  | 3 => some .envDestroy
  | 4 => some .pageAlloc
  | 5 => some .pageMap
  | 6 => some .pageUnmap
  | 7 => some .exofork
  | 8 => some .envSetStatus
  | 9 => some .envSetTrapframe
  | 10 => some .envSetPgfaultUpcall
  | 11 => some .yield
  | 12 => some .ipcTrySend
  | 13 => some .ipcRecv
  | 14 => some .timeMsec
  | _ => none

/-- `syscall`. -/
def syscall (cpu : ℕ) (inp : Input) (syscallno a1 a2 a3 a4 a5 : Word) : KernelM Word :=
  match Sysno.ofWord syscallno with
  | some .cputs => sysCputs cpu inp a1 a2
  | some .cgetc => pure inp.consChar
  | some .getenvid => sysGetenvid cpu
  | some .envDestroy => sysEnvDestroy cpu a1
  | some .yield => sysYield cpu
  | some .exofork => sysExofork cpu
  | some .envSetStatus => sysEnvSetStatus cpu a1 a2
  | some .pageAlloc => sysPageAlloc cpu a1 a2 a3
  | some .pageMap => sysPageMap cpu a1 a2 a3 a4 a5
  | some .pageUnmap => sysPageUnmap cpu a1 a2
  | some .envSetPgfaultUpcall => sysEnvSetPgfaultUpcall cpu a1 a2
  | some .ipcTrySend => sysIpcTrySend cpu a1 a2 a3 a4
  | some .ipcRecv => sysIpcRecv cpu a1
  | some .envSetTrapframe => sysEnvSetTrapframe cpu inp a1 a2
  | some .timeMsec => sysTimeMsec
  | none => pure Errno.inval.ret

end Jos
