import Jos.Kern.Syscall

/-!
# Traps

`kern/trap.c`: what happens between the moment a CPU enters the kernel and the
moment it leaves it again.  `trap` never returns: it ends in `env_run` or in
`sched_yield`.

Three things are worth knowing before reading the code.

* An environment that was destroyed while it ran elsewhere is only marked
  `ENV_DYING`; `trap` frees it when it next enters the kernel.
* The saved registers live in `env_tf` of the environment, and `trap_dispatch`
  writes the result of a system call there, through the pointer it was given,
  whatever has become of the environment meanwhile.
* No command of the kernel monitor makes it return, so a breakpoint stops the
  machine.

`page_fault_handler` pushes a frame on the user exception stack.  Stores to
user memory are made byte by byte (`storeByte`), through the page tables, since
the stack pointer need not be aligned.
-/

namespace Jos

/-! ## Stores through the page tables -/

/-- Replace byte `i` of a word. -/
def setByte (w : Word) (i : ℕ) (b : BitVec 8) : Word :=
  (w &&& ~~~(0xff#32 <<< (8 * i))) ||| (b.setWidth 32 <<< (8 * i))

/-- The word of physical memory that holds the byte at `va`. -/
def wordAt (pm : PhysMem) (pgdir : ℕ) (va : Word) : PtePtr where
  page := pgnum (pm.mem (pgnum (pm.mem pgdir (pdx va))) (ptx va))
  idx := ⟨va.toNat / 4 % 1024, Nat.mod_lt _ (by norm_num)⟩

/-- Store a byte at `va`. -/
def storeByte (pm : PhysMem) (pgdir : ℕ) (va : Word) (b : BitVec 8) : PhysMem :=
  let p := wordAt pm pgdir va
  pm.write p (setByte (pm.read p) (va.toNat % 4) b)

/-- Store bytes from `va` on. -/
def storeBytes (pgdir : ℕ) : Word → List (BitVec 8) → PhysMem → PhysMem
  | _, [], pm => pm
  | va, b :: bs, pm => storeBytes pgdir (va + 1#32) bs (storeByte pm pgdir va b)

/-- Do both levels of the page table grant `perm` at `va`? -/
def translates (pm : PhysMem) (pgdir : ℕ) (va perm : Word) : Bool :=
  grants (pm.mem pgdir (pdx va)) perm &&
    grants (pm.mem (pgnum (pm.mem pgdir (pdx va))) (ptx va)) perm

/-- A store of the kernel to user memory.  Where nothing is mapped it faults,
and it honours read-only mappings (`CR0_WP`). -/
def storeUser (pgdir : ℕ) (va : Word) (bs : List (BitVec 8)) : PhysM Unit := do
  let pm ← get
  if (List.range bs.length).all fun i =>
      translates pm pgdir (va + BitVec.ofNat 32 i) (PTE_P ||| PTE_W) then
    modify (storeBytes pgdir va bs)
  else
    throw .kernelFault

/-- The bytes of a word, in the order they have in memory. -/
def wordBytes (w : Word) : List (BitVec 8) :=
  [w.extractLsb' 0 8, w.extractLsb' 8 8, w.extractLsb' 16 8, w.extractLsb' 24 8]

/-! ## Page faults -/

def T_BRKPT : Word := 3#32
def T_PGFLT : Word := 14#32
def T_SYSCALL : Word := 48#32
def IRQ_TIMER : Word := 32#32
def IRQ_KBD : Word := 33#32
def IRQ_SERIAL : Word := 36#32
def IRQ_SPURIOUS : Word := 39#32
def GD_KT : BitVec 16 := 0x8#16

/-- The words of the `struct UTrapframe` that `page_fault_handler` pushes.
`utf_err` is set to `tf_err` and then overwritten with `tf_trapno`. -/
def utfWords (faultVa : Word) (tf : Trapframe) : List Word :=
  [faultVa, tf.tfTrapno, tf.tfRegs.regEdi, tf.tfRegs.regEsi, tf.tfRegs.regEbp, tf.tfRegs.regOesp,
    tf.tfRegs.regEbx, tf.tfRegs.regEdx, tf.tfRegs.regEcx, tf.tfRegs.regEax, tf.tfEip, tf.tfEflags,
    tf.tfEsp]

/-- Where the frame goes: below the current frame if the fault happened on the
exception stack, with a word of scratch space between, else at its top. -/
def utfAddr (esp : Word) : Word :=
  if esp ≥ UXSTACKTOP - BitVec.ofNat 32 PGSIZE ∧ esp < UXSTACKTOP then esp - 52#32 - 4#32
  else UXSTACKTOP - 52#32

/-- The stores of `page_fault_handler` to the exception stack. -/
def pushUtf (e : EnvIdx) (utf : Word) (ws : List Word) : KernelM Unit :=
  withPgdir e fun pgdir => onPm (storeUser pgdir utf (ws.flatMap wordBytes))

/-- `page_fault_handler`. -/
def pageFaultHandler (cpu : ℕ) (inp : Input) (tf : Trapframe) : KernelM Unit :=
  if tf.tfCs &&& 3#16 = 0#16 then throw (.panic .kernelFault)
  else do
    let k ← get
    match k.curenv cpu with
    | none => throw .wild
    | some c =>
      if (k.envs c).envPgfaultUpcall ≠ 0#32 then
        let utf := utfAddr tf.tfEsp
        userMemAssert cpu c utf 52#32 (PTE_P ||| PTE_W ||| PTE_U)
        pushUtf c utf (utfWords inp.cr2 tf)
        modify fun k => k.modifyEnv c fun env =>
          { env with envTf := { env.envTf with tfEip := env.envPgfaultUpcall, tfEsp := utf } }
        envRun cpu c
      else
        envDestroy cpu c

/-! ## Dispatch -/

/-- `time_tick`. -/
def timeTick : KernelM Unit := do
  modify fun k => { k with ticks := k.ticks + 1#32 }
  let k ← get
  if k.ticks * 10#32 < k.ticks then throw (.panic .timeOverflow) else pure ()

/-- `trap_dispatch`.  `own` is the environment whose `env_tf` the frame is, if
the trap came from user mode. -/
def trapDispatch (cpu : ℕ) (inp : Input) (tf : Trapframe) (own : Option EnvIdx) :
    KernelM Unit := do
  if tf.tfTrapno = T_PGFLT then pageFaultHandler cpu inp tf
  else if tf.tfTrapno = T_BRKPT then throw .monitor
  else if tf.tfTrapno = T_SYSCALL then
    let r ← syscall cpu inp tf.tfRegs.regEax tf.tfRegs.regEdx tf.tfRegs.regEcx tf.tfRegs.regEbx
      tf.tfRegs.regEdi tf.tfRegs.regEsi
    match own with
    | none => pure ()
    | some c => modify fun k => k.modifyEnv c fun env => { env with envTf := env.envTf.setEax r }
  else if tf.tfTrapno = IRQ_SPURIOUS then pure ()
  else if tf.tfTrapno = IRQ_TIMER then
    timeTick
    schedYield cpu
  else if tf.tfTrapno = IRQ_KBD then pure ()
  else if tf.tfTrapno = IRQ_SERIAL then pure ()
  else if tf.tfCs = GD_KT then throw (.panic .unhandledTrap)
  else
    let k ← get
    match k.curenv cpu with
    | none => throw .wild
    | some c => envDestroy cpu c

/-- The end of `trap`: back to the current environment, if doing so makes sense. -/
def trapReturn (cpu : ℕ) : KernelM Unit := do
  let k ← get
  match k.curenv cpu with
  | none => schedYield cpu
  | some c => if (k.envs c).envStatus = .running then envRun cpu c else schedYield cpu

/-- `trap` in user mode, as environment `c`.  `sched_yield` does not return. -/
def trapUser (cpu : ℕ) (inp : Input) (tf : Trapframe) (c : EnvIdx) : KernelM Unit := do
  let k ← get
  if (k.envs c).envStatus = .dying then
    envFree cpu c
    modify fun k => k.setCurenv cpu none
    schedYield cpu
  else
    modify fun k => k.modifyEnv c fun env => { env with envTf := tf }
    trapDispatch cpu inp tf (some c)
    trapReturn cpu

/-- `trap`. -/
def trap (cpu : ℕ) (inp : Input) (tf : Trapframe) : KernelM Unit := do
  modify fun k => k.setCpuStatus cpu .started
  if tf.tfCs &&& 3#16 = 3#16 then
    let k ← get
    match k.curenv cpu with
    | none => throw (.panic .assertion)
    | some c => trapUser cpu inp tf c
  else
    trapDispatch cpu inp tf none
    trapReturn cpu

end Jos
