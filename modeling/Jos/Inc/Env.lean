import Jos.Inc.Mmu

/-!
# Environments

`inc/env.h` and `inc/trap.h`: the saved registers and the record the kernel
keeps for each environment.

Two fields hold pointers in the source and something plainer here.
`env_pgdir` is the number of the page that holds the page directory, and `none`
for a null pointer; `env_link` is the index in `envs[]` of the next free
environment.
-/

namespace Jos

/-! ## Saved registers -/

/-- `struct PushRegs`: the registers as pushed by `pusha`. -/
structure PushRegs where
  regEdi : Word
  regEsi : Word
  regEbp : Word
  regOesp : Word
  regEbx : Word
  regEdx : Word
  regEcx : Word
  regEax : Word
  deriving DecidableEq

/-- `struct Trapframe`. -/
structure Trapframe where
  tfRegs : PushRegs
  tfEs : BitVec 16
  tfPadding1 : BitVec 16
  tfDs : BitVec 16
  tfPadding2 : BitVec 16
  tfTrapno : Word
  tfErr : Word
  tfEip : Word
  tfCs : BitVec 16
  tfPadding3 : BitVec 16
  tfEflags : Word
  tfEsp : Word
  tfSs : BitVec 16
  tfPadding4 : BitVec 16
  deriving DecidableEq

/-- A register file of zeroes. -/
def PushRegs.zero : PushRegs := ⟨0#32, 0#32, 0#32, 0#32, 0#32, 0#32, 0#32, 0#32⟩

/-- What `memset` leaves of a trap frame. -/
def Trapframe.zero : Trapframe where
  tfRegs := .zero
  tfEs := 0#16
  tfPadding1 := 0#16
  tfDs := 0#16
  tfPadding2 := 0#16
  tfTrapno := 0#32
  tfErr := 0#32
  tfEip := 0#32
  tfCs := 0#16
  tfPadding3 := 0#16
  tfEflags := 0#32
  tfEsp := 0#32
  tfSs := 0#16
  tfPadding4 := 0#16

/-- Set the saved `eax`, the register a system call returns its result in. -/
def Trapframe.setEax (tf : Trapframe) (w : Word) : Trapframe :=
  { tf with tfRegs := { tf.tfRegs with regEax := w } }

/-! ## Selectors and flags -/

def GD_UT : BitVec 16 := 0x18#16
def GD_UD : BitVec 16 := 0x20#16
def FL_IF : Word := 0x200#32
def FL_IOPL_MASK : Word := 0x3000#32

/-! ## The record of an environment -/

/-- An index into `envs[]`; `NENV` is 1024. -/
abbrev EnvIdx := Fin 1024

/-- `ENVX`: the index part of an environment id. -/
def envx (envid : Word) : EnvIdx := ⟨envid.toNat % 1024, Nat.mod_lt _ (by norm_num)⟩

/-- The values of `env_status`. -/
inductive EnvStatus
  | free
  | dying
  | runnable
  | running
  | notRunnable
  deriving DecidableEq

/-- The number that stands for a status in memory. -/
def EnvStatus.code : EnvStatus → Word
  | .free => 0#32
  | .dying => 1#32
  | .runnable => 2#32
  | .running => 3#32
  | .notRunnable => 4#32

/-- `enum EnvType`. -/
inductive EnvType
  | user
  | fs
  | ns
  deriving DecidableEq

/-- `struct Env`. -/
structure Env where
  envTf : Trapframe
  envLink : Option EnvIdx
  envId : Word
  envParentId : Word
  envType : EnvType
  envStatus : EnvStatus
  envRuns : Word
  envCpunum : ℕ
  envPgdir : Option ℕ
  envPgfaultUpcall : Word
  envIpcRecving : Bool
  envIpcDstva : Word
  envIpcValue : Word
  envIpcFrom : Word
  envIpcPerm : Word
  deriving DecidableEq

end Jos
