import Jos.Kern.Trap

/-!
# Boot

`i386_init` and what it calls: `mem_init` of `kern/pmap.c`, `env_init` and
`env_create` of `kern/env.c`.  The result is the state in which the CPUs enter
the scheduler for the first time.

What the code takes from outside is a `BootConfig`: the amount of memory, where
the linker put the kernel, the devices that ask for a memory-mapped region, the
CPUs, the programs, and what memory holds at power-on.

The self-tests of `mem_init` (`check_page_alloc` and its like) take pages,
use them, assert that all went well and give them back.  They are modelled by
what they leave behind (`SelfTested`): the same pages are free, in another
order and with other contents.  The part of `check_page` that tests
`mmio_map_region` leaves a page table in `kern_pgdir`, and is modelled as code
(`checkMmio`).
-/

namespace Jos

/-! ## `boot_alloc` -/

/-- Round up to a multiple of `PGSIZE`. -/
def pageRound (a : ℕ) : ℕ := (a + PGSIZE - 1) / PGSIZE * PGSIZE

/-- `boot_alloc`: take `n` bytes at physical address `nextfree`.  The result is
the new `nextfree`. -/
def bootAlloc (npages nextfree n : ℕ) : Except Panic ℕ :=
  if n = 0 then .ok nextfree
  else if pageRound (nextfree + n) > npages * PGSIZE then .error .bootAlloc
  else .ok (pageRound (nextfree + n))

/-- `sizeof(struct PageInfo)`. -/
def sizeofPageInfo : ℕ := 8

/-- `sizeof(struct Env)`. -/
def sizeofEnv : ℕ := 124

/-! ## `page_init` -/

/-- The body of the loop of `page_init`. -/
def initPage (i : ℕ) : PhysM Unit := do
  let pm ← get
  if (pm.boot.npagesBasemem ≤ i ∧ i < pm.boot.kernelEndPage) ∨ i = MPENTRY_PADDR / PGSIZE then
    modify fun pm => (pm.setRef i 1#16).setLink i none
  else
    modify fun pm => ((pm.setRef i 0#16).setLink i pm.pageFreeList).setFreeList (some i)

/-- `page_init`. -/
def pageInit : PhysM Unit := do
  modify fun pm => (pm.setRef 0 1#16).setLink 0 none
  let pm ← get
  (List.range' 1 (pm.boot.npages - 1)).forM initPage

/-! ## Self-tests -/

/-- What the self-tests leave behind. -/
structure SelfTested (pm pm' : PhysMem) : Prop where
  boot : pm'.boot = pm.boot
  ref : ∀ p, (pm'.pages p).ppRef = (pm.pages p).ppRef
  free : ∀ l, Chain (fun p => (pm.pages p).ppLink) pm.pageFreeList l →
    ∃ l', l'.Perm l ∧ Chain (fun p => (pm'.pages p).ppLink) pm'.pageFreeList l' ∧
      ∀ p, p ∉ l → (pm'.pages p).ppLink = (pm.pages p).ppLink ∧ pm'.mem p = pm.mem p

/-- A self-test, with the assumption made on it. -/
structure SelfTest where
  run : PhysMem → PhysMem
  spec : ∀ pm, SelfTested pm (run pm)

/-! ## Memory-mapped I/O -/

/-- `mmio_map_region`, with the next free address of the region.  The result is
the new one. -/
def mmioMapRegion (kernPgdir : ℕ) (base pa size : Word) : PhysM Word := do
  let size := roundUp size
  if base + size ≥ MMIOLIM ∨ base + size < base then throw .mmioMapRegion
  else
    bootMapRegion kernPgdir base size pa (PTE_W ||| PTE_PCD ||| PTE_PWT)
    pure (base + size)

/-- `*pgdir_walk(kern_pgdir, va, 0) = 0`. -/
def clearKernPte (kernPgdir : ℕ) (va : Word) : PhysM Unit := do
  match ← pgdirWalk kernPgdir va false with
  | none => throw .kernelFault
  | some pte => modify fun pm => pm.write pte 0#32

/-- The test of `mmio_map_region` in `check_page`. -/
def checkMmio (kernPgdir : ℕ) : PhysM Word := do
  let mm2 ← mmioMapRegion kernPgdir MMIOBASE 0#32 4097#32
  let base ← mmioMapRegion kernPgdir mm2 0#32 4096#32
  clearKernPte kernPgdir MMIOBASE
  clearKernPte kernPgdir (MMIOBASE + BitVec.ofNat 32 PGSIZE)
  clearKernPte kernPgdir mm2
  pure base

/-- Map the regions of all devices: the local APIC of each CPU, and the network
card. -/
def mapDevices (kernPgdir : ℕ) : Word → List (Word × Word) → PhysM Unit
  | _, [] => pure ()
  | base, (pa, size) :: devices => do
      let base' ← mmioMapRegion kernPgdir base pa size
      mapDevices kernPgdir base' devices

/-! ## Programs -/

def ELF_MAGIC : Word := 0x464C457F#32
def ELF_PROG_LOAD : Word := 1#32

/-- `struct Proghdr`. -/
structure Proghdr where
  pType : Word
  pOffset : Word
  pVa : Word
  pFilesz : Word
  pMemsz : Word

/-- A program: the part of the ELF header that is used, the program headers,
and the bytes of the file.  Programs are linked to run below `UTOP`. -/
structure Elf where
  eMagic : Word
  eEntry : Word
  ph : List Proghdr
  bytes : ℕ → BitVec 8
  below : ∀ h ∈ ph, h.pType = ELF_PROG_LOAD → h.pVa.toNat + h.pMemsz.toNat ≤ UTOP.toNat

/-- The loop of `region_alloc`.  The result of `page_insert` is ignored. -/
def regionAllocLoop (pgdir : ℕ) : ℕ → Word → Word → PhysM Unit
  | 0, _, _ => pure ()
  | n + 1, start, stop =>
    if start < stop then do
      match ← pageAlloc false with
      | none => throw .regionAlloc
      | some pg =>
        let _ ← pageInsert pgdir pg start (PTE_W ||| PTE_U)
        regionAllocLoop pgdir n (start + BitVec.ofNat 32 PGSIZE) stop
    else
      pure ()

/-- `region_alloc`. -/
def regionAlloc (pgdir : ℕ) (va len : Word) : PhysM Unit :=
  regionAllocLoop pgdir (2 ^ 20) (roundDown va) (roundUp (va + len))

/-- The body of the loop of `load_icode`. -/
def loadSegment (pgdir : ℕ) (bytes : ℕ → BitVec 8) (ph : Proghdr) : PhysM Unit :=
  if ph.pType = ELF_PROG_LOAD then
    if ph.pMemsz < ph.pFilesz then throw .loadIcode
    else do
      regionAlloc pgdir ph.pVa ph.pMemsz
      storeUser pgdir ph.pVa (List.replicate ph.pMemsz.toNat 0#8)
      storeUser pgdir ph.pVa
        ((List.range ph.pFilesz.toNat).map fun i => bytes (ph.pOffset.toNat + i))
  else
    pure ()

/-- The pages `load_icode` maps: those of the program, and one for its stack. -/
def loadPages (pgdir : ℕ) (binary : Elf) : PhysM Unit := do
  binary.ph.forM (loadSegment pgdir binary.bytes)
  regionAlloc pgdir (USTACKTOP - BitVec.ofNat 32 PGSIZE) (BitVec.ofNat 32 PGSIZE)

/-- `load_icode`. -/
def loadIcode (e : EnvIdx) (binary : Elf) : KernelM Unit :=
  if binary.eMagic ≠ ELF_MAGIC then throw (.panic .loadIcode)
  else if binary.eEntry = 0#32 then throw (.panic .loadIcode)
  else do
    modify fun k => k.modifyEnv e fun env =>
      { env with envTf := { env.envTf with tfEip := binary.eEntry } }
    withPgdir e fun pgdir => onPm (loadPages pgdir binary)

/-- `env_create`. -/
def envCreate (binary : Elf) (type : EnvType) : KernelM Unit := do
  match ← envAlloc 0#32 with
  | .error _ => throw (.panic .envCreate)
  | .ok e =>
    loadIcode e binary
    modify fun k => k.modifyEnv e fun env =>
      { env with
        envType := type
        envTf :=
          if type = .fs then { env.envTf with tfEflags := env.envTf.tfEflags ||| FL_IOPL_MASK }
          else env.envTf }

/-! ## The whole of it -/

/-- What boot depends on. -/
structure BootConfig where
  /-- `npages` and `npages_basemem`, as `i386_detect_memory` finds them. -/
  npages : ℕ
  npagesBasemem : ℕ
  /-- The physical address of the end of the kernel's image. -/
  kernEnd : ℕ
  /-- The physical addresses of the kernel stacks. -/
  bootstack : Word
  percpuKstacks : Word
  /-- The regions of the devices: physical address and size. -/
  devices : List (Word × Word)
  bootcpu : ℕ
  /-- The other CPUs. -/
  aps : List ℕ
  /-- The code at `MPENTRY_PADDR`. -/
  mpentry : Idx → Word
  /-- Memory at power-on. -/
  ram : ℕ → Idx → Word
  fs : Elf
  ns : Elf
  user : Elf
  /-- `check_page_free_list`, `check_page_alloc` and `check_page`. -/
  tests : SelfTest
  /-- `check_page_free_list` and `check_page_installed_pgdir`. -/
  installedTests : SelfTest
  /-- Base memory ends at 640 KB … -/
  basemem_le : npagesBasemem ≤ 160
  /-- … and the kernel is loaded above 1 MB. -/
  kernEnd_ge : 0x100000 ≤ kernEnd
  /-- Stacks and devices start at a page. -/
  bootstack_aligned : pgoff bootstack = 0#32
  percpuKstacks_aligned : pgoff percpuKstacks = 0#32
  devices_aligned : ∀ d ∈ devices, pgoff d.1 = 0#32

namespace BootConfig

/-- Physical address of `kern_pgdir`. -/
def kernPgdirPa (cfg : BootConfig) : ℕ := pageRound cfg.kernEnd

/-- Physical address of `pages`. -/
def pagesPa (cfg : BootConfig) : ℕ := cfg.kernPgdirPa + PGSIZE

/-- Physical address of `envs`. -/
def envsPa (cfg : BootConfig) : ℕ := pageRound (cfg.pagesPa + sizeofPageInfo * cfg.npages)

/-- The boot-time data of `mem_init`: `kern_pgdir`, `pages` and `envs`. -/
def bootInfo (cfg : BootConfig) : Except Panic BootInfo := do
  let pages ← bootAlloc cfg.npages cfg.kernPgdirPa PGSIZE
  let envs ← bootAlloc cfg.npages pages (sizeofPageInfo * cfg.npages)
  let nextfree ← bootAlloc cfg.npages envs (sizeofEnv * 1024)
  pure
    { npages := cfg.npages
      npagesBasemem := cfg.npagesBasemem
      nextfree := nextfree
      kernPgdir := cfg.kernPgdirPa / PGSIZE }

end BootConfig

/-- `NCPU`. -/
def NCPU : ℕ := 8

/-- `mem_init_mp`: map the kernel stack of each CPU. -/
def memInitMp (cfg : BootConfig) (kernPgdir : ℕ) : PhysM Unit :=
  (List.range NCPU).forM fun i =>
    let kstacktop := KSTACKTOP - BitVec.ofNat 32 (i * (KSTKSIZE + KSTKSIZE))
    bootMapRegion kernPgdir (kstacktop - BitVec.ofNat 32 KSTKSIZE) (BitVec.ofNat 32 KSTKSIZE)
      (cfg.percpuKstacks + BitVec.ofNat 32 (i * KSTKSIZE)) PTE_W

/-- `check_kern_pgdir` looks at the mappings just made.  Its assertions hold,
except that the window at `KERNBASE` has room for 65536 pages only. -/
def checkKernPgdir : PhysM Unit := do
  let pm ← get
  if pm.boot.npages > 65536 then throw .assertion else pure ()

/-- `mem_init`, after `boot_alloc`.  The result is the next free address for
memory-mapped I/O. -/
def memInit (cfg : BootConfig) : PhysM Word := do
  let pm ← get
  let dir := pm.boot.kernPgdir
  modify fun pm => pm.setPage dir fun _ => 0#32
  modify fun pm => pm.write ⟨dir, uvptDx⟩ (page2pa dir ||| PTE_U ||| PTE_P)
  pageInit
  modify cfg.tests.run
  let base ← checkMmio dir
  bootMapRegion dir UPAGES (BitVec.ofNat 32 PTSIZE) (BitVec.ofNat 32 cfg.pagesPa) PTE_U
  bootMapRegion dir UENVS (BitVec.ofNat 32 PTSIZE) (BitVec.ofNat 32 cfg.envsPa) PTE_U
  bootMapRegion dir (KSTACKTOP - BitVec.ofNat 32 KSTKSIZE) (BitVec.ofNat 32 KSTKSIZE)
    cfg.bootstack PTE_W
  bootMapRegion dir KERNBASE (0xffffffff#32 - KERNBASE) 0#32 PTE_W
  memInitMp cfg dir
  checkKernPgdir
  modify cfg.installedTests.run
  pure base

/-- `env_init`: the list starts with `envs[0]`. -/
def envInit : KernelM Unit := do
  modify fun k => { k with envFreeList := none }
  (List.finRange 1024).reverse.forM fun e => do
    modify fun k => k.modifyEnv e fun env =>
      { env with envId := 0#32, envStatus := .free, envLink := k.envFreeList }
    modify fun k => { k with envFreeList := some e }

/-- `boot_aps`: the other CPUs come up. -/
def bootAps (cfg : BootConfig) : KernelM Unit := do
  let code ← onPm (kaddr (BitVec.ofNat 32 MPENTRY_PADDR))
  onPm (modify fun pm => pm.setPage code cfg.mpentry)
  cfg.aps.forM fun cpu => modify fun k => k.setCpuStatus cpu .started

/-- `i386_init`, up to the scheduler. -/
def i386Init (cfg : BootConfig) : KernelM Unit := do
  let base ← onPm (memInit cfg)
  envInit
  modify fun k => k.setCpuStatus cfg.bootcpu .started
  let k ← get
  onPm (mapDevices k.pm.boot.kernPgdir base cfg.devices)
  bootAps cfg
  envCreate cfg.fs .fs
  envCreate cfg.ns .ns
  envCreate cfg.user .user

/-- The record of an environment in cleared memory. -/
def Env.zero : Env where
  envTf := .zero
  envLink := none
  envId := 0#32
  envParentId := 0#32
  envType := .user
  envStatus := .free
  envRuns := 0#32
  envCpunum := 0
  envPgdir := none
  envPgfaultUpcall := 0#32
  envIpcRecving := false
  envIpcDstva := 0#32
  envIpcValue := 0#32
  envIpcFrom := 0#32
  envIpcPerm := 0#32

/-- The state once `boot_alloc` has made room for the kernel's data, and it has
been cleared. -/
def BootConfig.reset (cfg : BootConfig) (b : BootInfo) : Kernel where
  pm :=
    { boot := b
      pages := fun _ => ⟨none, 0#16⟩
      pageFreeList := none
      mem := cfg.ram
      userMemCheckAddr := 0#32 }
  envs := fun _ => Env.zero
  envFreeList := none
  cpus := fun _ => ⟨.unused, none⟩
  ticks := 0#32

/-- **A freshly booted kernel.**  That the self-tests of `cfg` leave behind no more than
`SelfTested` allows is an assumption on them, in their `spec`; it is not derived from their
code. -/
def Booted (cfg : BootConfig) (k : Kernel) : Prop :=
  ∃ b, cfg.bootInfo = .ok b ∧ i386Init cfg (cfg.reset b) = .ok () k

end Jos
