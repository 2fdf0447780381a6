import Jos.Lib.Memory
import Jos.Kern.SetTrapframe
import Jos.User.Fd

/-!
# The calls `spawn` makes, and the page of the child's stack

`lib/spawn.c`: an environment makes another one from a program file.  It builds
the child's pages one by one at `UTEMP` and maps them over.  Here are the state,
the calls to the kernel and the page of the child's stack.

* An address space is a partial map from page numbers to pages.  All pages are
  `PTE_P | PTE_U`; `Perm` has what else can be asked for.  A page that is mapped
  over is not seen at `UTEMP` any more, so the child's pages are values.
* `memory` says of each request to the kernel whether memory is found for it.
-/

namespace Jos.Spawn

open Jos.User Function

/-! ## The state -/

/-- Permissions besides `PTE_P | PTE_U`. -/
structure Perm where
  writable : Bool
  /-- `PTE_SHARE`. -/
  share : Bool
  /-- `PTE_COW`. -/
  cow : Bool
  /-- `PTE_CONTINUED`. -/
  continued : Bool
  deriving DecidableEq

/-- `PTE_P | PTE_U | PTE_W`, or without `PTE_W`. -/
def Perm.ofWritable (w : Bool) : Perm := ⟨w, false, false, false⟩

structure UPage where
  bytes : Memory
  perm : Perm

/-- The pages of an environment, by number. -/
abbrev Space := ℕ → Option UPage

/-- The byte at `a`. -/
def Space.byte (m : Space) (a : ℕ) : Option (BitVec 8) :=
  (m (a / PGSIZE)).map fun p => p.bytes (a % PGSIZE)

structure Sys where
  parent : Space
  child : Space
  /-- Whether there is memory, for this request and those to come. -/
  memory : ℕ → Bool

/-- Why `spawn` does not return. -/
inductive Stop where
  | panic
  /-- A page fault in the parent. -/
  | fault
  /-- An argument has been overwritten.  What is copied then is not modelled. -/
  | overwritten
  deriving DecidableEq

abbrev M := EStateM Stop Sys

def UTEMP : Word := 0x00400000#32

/-! ## System calls -/

/-- Does the kernel find memory? -/
def ask : M Bool := do
  let s ← get
  modify fun s => { s with memory := fun n => s.memory (n + 1) }
  pure (s.memory 0)

def Sys.setParent (s : Sys) (n : ℕ) (p : Option UPage) : Sys :=
  { s with parent := update s.parent n p }

def Sys.setChild (s : Sys) (n : ℕ) (p : Option UPage) : Sys :=
  { s with child := update s.child n p }

/-- `sys_page_alloc`, where `set` maps the page. -/
def pageAllocAt (va : Word) (set : Sys → ℕ → Option UPage → Sys) (perm : Perm) :
    M (Except Errno Unit) := do
  if userVa va = false then
    pure (.error .inval)
  else if ← ask then
    modify fun s => set s (pgnum va) (some ⟨fun _ => 0#8, perm⟩)
    pure (.ok ())
  else
    pure (.error .noMem)

/-- `sys_page_alloc(0, va, perm)`. -/
def sysPageAlloc (va : Word) (perm : Perm) : M (Except Errno Unit) :=
  pageAllocAt va Sys.setParent perm

/-- `sys_page_map(0, srcva, child, dstva, perm)`. -/
def sysPageMap (srcva dstva : Word) (perm : Perm) : M (Except Errno Unit) := do
  let s ← get
  if userVa srcva = false ∨ userVa dstva = false then
    pure (.error .inval)
  else
    match s.parent (pgnum srcva) with
    | none => pure (.error .inval)
    | some p =>
      if perm.writable ∧ ¬ p.perm.writable then
        pure (.error .inval)
      else if ← ask then
        modify fun s => s.setChild (pgnum dstva) (some ⟨p.bytes, perm⟩)
        pure (.ok ())
      else
        pure (.error .noMem)

/-- `sys_page_unmap(0, va)`. -/
def sysPageUnmap (va : Word) : M (Except Errno Unit) :=
  if userVa va = false then
    pure (.error .inval)
  else do
    modify fun s => s.setParent (pgnum va) none
    pure (.ok ())

/-! ## `init_stack` -/

/-- Arguments: strings without their terminating zero. -/
abbrev Args := List (List (BitVec 8))

/-- `string_size`. -/
def stringSize (argv : Args) : ℕ := (argv.map fun a => a.length + 1).sum

/-- `argv_store`, as an offset into the page.  Strings of more than `UTEMP` bytes,
for which the addresses would wrap around, are left out. -/
def argvStore (argv : Args) : ℕ :=
  (PGSIZE - stringSize argv) / 4 * 4 - 4 * (argv.length + 1)

/-- `argv`, the strings and the two words below them fit into a page. -/
def ArgsFit (argv : Args) : Prop :=
  stringSize argv ≤ PGSIZE ∧ 4 * (argv.length + 1) + 8 ≤ (PGSIZE - stringSize argv) / 4 * 4

instance (argv : Args) : Decidable (ArgsFit argv) := inferInstanceAs (Decidable (_ ∧ _))

/-- `UTEMP2USTACK`, for an offset into the page. -/
def ustackAddr (o : ℕ) : Word := USTACKTOP - BitVec.ofNat 32 PGSIZE + BitVec.ofNat 32 o

/-- The loop that stores the strings and the pointers to them. -/
def storeArgs (m : Memory) (slot string : ℕ) : Args → Memory
  | [] => m
  | a :: argv =>
    storeArgs ((m.setWord slot (ustackAddr string)).put string (a ++ [0#8])) (slot + 4)
      (string + a.length + 1) argv

/-- The stack page of the child. -/
def stackBytes (argv : Args) : Memory :=
  (((storeArgs (fun _ => 0#8) (argvStore argv) (PGSIZE - stringSize argv) argv).setWord
    (argvStore argv + 4 * argv.length) 0#32).setWord
    (argvStore argv - 4) (ustackAddr (argvStore argv))).setWord
    (argvStore argv - 8) (BitVec.ofNat 32 argv.length)

theorem sysPageUnmap_utemp {s : Sys} :
    sysPageUnmap UTEMP s = .ok (.ok ()) (s.setParent 0x400 none) := rfl

end Jos.Spawn
