import Jos.Kern.Trap

/-!
# The machine

The kernel is a state machine driven by the hardware.  Between two steps every
CPU is in user mode, waits for an interrupt, or has not come up yet.  A step is

* a trap: a CPU enters the kernel, from user mode with any registers and any
  trap number, or from `hlt` with an interrupt;
* a CPU that has come up entering the scheduler (the end of `mp_main`, and of
  `i386_init` for the boot CPU);
* a store that user code makes and the hardware allows.

A store is translated by the page tables as they are.  The hardware may also use
a stale entry of a TLB, and `tlb_invalidate` drops the entries of its own CPU
only: what another CPU could still store through such an entry is not in these
runs (`Jos.Kern.Tlb` is about the entries of one CPU).

Kernel entries are atomic: the big kernel lock is held from the entry to the
exit.  A step of the machine is an entry that ends with the CPU in user mode or
halted.  After a panic, in the kernel monitor, or after the code has run off
its own data (`Exit.wild`) there is no next step.
-/

namespace Jos

/-- What happens next. -/
inductive Event
  | trap (cpu : ℕ) (inp : Input) (tf : Trapframe)
  | start (cpu : ℕ)
  | store (cpu : ℕ) (va : Word) (b : BitVec 8)

namespace Event

/-- The CPU an event happens on. -/
def cpu : Event → ℕ
  | trap cpu _ _ => cpu
  | start cpu => cpu
  | store cpu _ _ => cpu

end Event

namespace Kernel

/-- The CPU runs user code, as environment `c`. -/
def InUser (k : Kernel) (cpu : ℕ) (c : EnvIdx) : Prop :=
  (k.cpus cpu).cpuStatus = .started ∧ k.curenv cpu = some c

/-- The CPU waits for an interrupt. -/
def Halted (k : Kernel) (cpu : ℕ) : Prop :=
  (k.cpus cpu).cpuStatus = .halted ∧ k.curenv cpu = none

/-- The CPU has come up, and not been in the scheduler yet. -/
def Idle (k : Kernel) (cpu : ℕ) : Prop :=
  (k.cpus cpu).cpuStatus = .started ∧ k.curenv cpu = none

end Kernel

/-- A piece of kernel code ends with the CPU in user mode or halted. -/
def Leaves (x : KernelM Unit) (k k' : Kernel) : Prop :=
  x k = .error .user k' ∨ x k = .error .halt k'

/-- The interrupts of the hardware. -/
def isIrq (trapno : Word) : Prop := 32#32 ≤ trapno ∧ trapno < 48#32

/-- One step of the machine. -/
inductive Step (k : Kernel) : Event → Kernel → Prop
  | user {cpu : ℕ} {inp : Input} {tf : Trapframe} {c : EnvIdx} {k' : Kernel} :
      k.InUser cpu c → tf.tfCs &&& 3#16 = 3#16 → Leaves (trap cpu inp tf) k k' →
      Step k (.trap cpu inp tf) k'
  | irq {cpu : ℕ} {inp : Input} {tf : Trapframe} {k' : Kernel} :
      k.Halted cpu → tf.tfCs = GD_KT → isIrq tf.tfTrapno → Leaves (trap cpu inp tf) k k' →
      Step k (.trap cpu inp tf) k'
  | start {cpu : ℕ} {k' : Kernel} :
      k.Idle cpu → Leaves (schedYield cpu) k k' → Step k (.start cpu) k'
  | store {cpu : ℕ} {va : Word} {b : BitVec 8} {c : EnvIdx} {r : ℕ} :
      k.InUser cpu c → k.roots c = some r →
      translates k.pm r va (PTE_P ||| PTE_W ||| PTE_U) = true →
      Step k (.store cpu va b) { k with pm := storeByte k.pm r va b }

/-- The runs of the machine in which every step meets `C`, a condition on the
state before the step and on the event. -/
inductive Runs (C : Kernel → Event → Prop) (k : Kernel) : Kernel → Prop
  | nil : Runs C k k
  | step {k₁ k₂ : Kernel} {ev : Event} : Runs C k k₁ → C k₁ ev → Step k₁ ev k₂ → Runs C k k₂

/-- What holds at the start and is kept by every step holds in every state. -/
theorem Runs.inv {C : Kernel → Event → Prop} {I : Kernel → Prop} {k k' : Kernel} (h0 : I k)
    (hstep : ∀ k₁ ev k₂, I k₁ → C k₁ ev → Step k₁ ev k₂ → I k₂) (h : Runs C k k') : I k' := by
  induction h with
  | nil => exact h0
  | step _ hc hs ih => exact hstep _ _ _ ih hc hs

end Jos
