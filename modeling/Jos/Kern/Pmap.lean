import Jos.Inc.Error
import Jos.Lib.Wp
import Jos.Lib.RefCount

/-!
# Physical pages and page tables

`kern/pmap.c` and `kern/pmap.h`: the array `pages[]`, the free list threaded
through it, and the functions that walk and edit two-level page tables.

The state is `PhysMem`.  Physical memory is an array of pages of 1024 words,
and page directories and page tables live *in* it, exactly as the kernel keeps
them: a page directory is the number of the page that holds it, and a pointer
to a page table entry is a page and an index (`PtePtr`).  The kernel's pointers
into physical memory all come from `KADDR`, which panics on an address outside
it; so do the functions here.

A function that may panic is a `PhysM`: it returns with a new state, or exits
with the panic.
-/

namespace Jos

/-! ## The state -/

/-- `struct PageInfo`. -/
structure PageInfo where
  /-- Next page on the free list. -/
  ppLink : Option ℕ
  /-- The count of pointers to this page: a `uint16_t`. -/
  ppRef : BitVec 16
  deriving DecidableEq

/-- What boot fixes once and for all. -/
structure BootInfo where
  /-- Amount of physical memory, in pages. -/
  npages : ℕ
  /-- Amount of base memory, in pages. -/
  npagesBasemem : ℕ
  /-- `boot_alloc`'s physical address of the next free byte. -/
  nextfree : ℕ
  /-- The page that holds `kern_pgdir`. -/
  kernPgdir : ℕ
  deriving DecidableEq

namespace BootInfo

/-- The first page after the kernel and its boot-time data. -/
def kernelEndPage (b : BootInfo) : ℕ := b.nextfree / PGSIZE

/-- The pages `page_init` marks as in use. -/
def Reserved (b : BootInfo) (i : ℕ) : Prop :=
  i = 0 ∨ (b.npagesBasemem ≤ i ∧ i < b.kernelEndPage) ∨ i = MPENTRY_PADDR / PGSIZE

instance (b : BootInfo) : DecidablePred b.Reserved := fun i =>
  inferInstanceAs (Decidable (i = 0 ∨ (b.npagesBasemem ≤ i ∧ i < b.kernelEndPage) ∨
    i = MPENTRY_PADDR / PGSIZE))

/-- The pages the page allocator manages. -/
def Avail (b : BootInfo) (i : ℕ) : Prop := i < b.npages ∧ ¬ b.Reserved i

instance (b : BootInfo) : DecidablePred b.Avail := fun i =>
  inferInstanceAs (Decidable (i < b.npages ∧ ¬ b.Reserved i))

end BootInfo

/-- Physical memory and the structures that track it. -/
structure PhysMem where
  boot : BootInfo
  /-- Physical page state array. -/
  pages : ℕ → PageInfo
  /-- Free list of physical pages. -/
  pageFreeList : Option ℕ
  /-- The contents of each page, word by word. -/
  mem : ℕ → Idx → Word
  /-- `user_mem_check`'s first erroneous address. -/
  userMemCheckAddr : Word

/-- Why the kernel panics. -/
inductive Panic
  /-- `KADDR called with invalid pa`. -/
  | kaddr (pa : Word)
  /-- `pa2page called with invalid pa`. -/
  | pa2page (pa : Word)
  /-- `PADDR called with invalid kva`. -/
  | paddr
  /-- `pp->pp_link is not NULL or pp->pp_ref is not zero`. -/
  | pageFree (pp : ℕ)
  /-- `no enough memory to allocate for page!`. -/
  | bootMapRegion
  /-- `mmio_map_region failed: size is too big!`. -/
  | mmioMapRegion
  /-- `Out of memory!` of `boot_alloc`. -/
  | bootAlloc
  /-- `page allocation failed!` of `region_alloc`. -/
  | regionAlloc
  /-- `load_icode failed`: not an ELF binary, no entry point, or
  `p_memsz<p_filesz`. -/
  | loadIcode
  /-- `env_create failed: env_alloc failed.`. -/
  | envCreate
  /-- `page_falut in kernel mode`. -/
  | kernelFault
  /-- `unhandled trap in kernel`. -/
  | unhandledTrap
  /-- `time_tick: time overflowed`. -/
  | timeOverflow
  /-- A failed `assert`. -/
  | assertion
  deriving DecidableEq

/-- Code that works on physical memory and may panic. -/
abbrev PhysM := EStateM Panic PhysMem

/-- A pointer to a page table entry. -/
structure PtePtr where
  page : ℕ
  idx : Idx
  deriving DecidableEq

namespace PhysMem

/-- Store a word. -/
def write (pm : PhysMem) (p : PtePtr) (w : Word) : PhysMem :=
  { pm with mem := Function.update pm.mem p.page (Function.update (pm.mem p.page) p.idx w) }

/-- Load a word. -/
def read (pm : PhysMem) (p : PtePtr) : Word := pm.mem p.page p.idx

/-- Replace the contents of a page. -/
def setPage (pm : PhysMem) (p : ℕ) (f : Idx → Word) : PhysMem :=
  { pm with mem := Function.update pm.mem p f }

/-- Set `pages[p].pp_ref`. -/
def setRef (pm : PhysMem) (p : ℕ) (r : BitVec 16) : PhysMem :=
  { pm with pages := Function.update pm.pages p { pm.pages p with ppRef := r } }

/-- Set `pages[p].pp_link`. -/
def setLink (pm : PhysMem) (p : ℕ) (l : Option ℕ) : PhysMem :=
  { pm with pages := Function.update pm.pages p { pm.pages p with ppLink := l } }

/-- Set `page_free_list`. -/
def setFreeList (pm : PhysMem) (l : Option ℕ) : PhysMem := { pm with pageFreeList := l }

end PhysMem

/-! ## Addresses -/

/-- `KADDR`: the page a physical address lies in, if there is memory there. -/
def kaddr (pa : Word) : PhysM ℕ := do
  let pm ← get
  if pgnum pa ≥ pm.boot.npages then throw (.kaddr pa) else pure (pgnum pa)

/-- `pa2page`. -/
def pa2page (pa : Word) : PhysM ℕ := do
  let pm ← get
  if pgnum pa ≥ pm.boot.npages then throw (.pa2page pa) else pure (pgnum pa)

/-- `page2kva`. -/
def page2kva (pp : ℕ) : PhysM ℕ := kaddr (page2pa pp)

/-! ## The page allocator -/

/-- `page_alloc`: take a page off the free list, clearing it if asked to. -/
def pageAlloc (allocZero : Bool) : PhysM (Option ℕ) := do
  let pm ← get
  match pm.pageFreeList with
  | none => pure none
  | some res =>
    modify fun pm => (pm.setFreeList (pm.pages res).ppLink).setLink res none
    if allocZero then
      let kva ← page2kva res
      modify fun pm => pm.setPage kva fun _ => 0#32
      pure (some res)
    else
      pure (some res)

/-- `page_free`: return a page to the free list. -/
def pageFree (pp : ℕ) : PhysM Unit := do
  let pm ← get
  if (pm.pages pp).ppLink ≠ none ∨ (pm.pages pp).ppRef ≠ 0#16 then throw (.pageFree pp)
  else modify fun pm => (pm.setLink pp pm.pageFreeList).setFreeList (some pp)

/-- `page_decref`: drop a reference, freeing the page if it was the last. -/
def pageDecref (pp : ℕ) : PhysM Unit := do
  modify fun pm => pm.setRef pp ((pm.pages pp).ppRef - 1#16)
  let pm ← get
  if (pm.pages pp).ppRef = 0#16 then pageFree pp else pure ()

/-- `pp->pp_ref++`. -/
def incref (pp : ℕ) : PhysM Unit :=
  modify fun pm => pm.setRef pp ((pm.pages pp).ppRef + 1#16)

/-! ## Page tables -/

/-- `pgdir_walk`: a pointer to the page table entry for `va`, if there is a
page table for it or `create` allows one to be made. -/
def pgdirWalk (pgdir : ℕ) (va : Word) (create : Bool) : PhysM (Option PtePtr) := do
  let pm ← get
  if present (pm.mem pgdir (pdx va)) then
    let kva ← kaddr (pteAddr (pm.mem pgdir (pdx va)))
    pure (some ⟨kva, ptx va⟩)
  else if ¬ create then
    pure none
  else
    match ← pageAlloc true with
    | none => pure none
    | some pp =>
      incref pp
      let pde := page2pa pp ||| PTE_U ||| PTE_P ||| PTE_W
      modify fun pm => pm.write ⟨pgdir, pdx va⟩ pde
      let kva ← kaddr (pteAddr pde)
      pure (some ⟨kva, ptx va⟩)

/-- `page_lookup`: the page mapped at `va`, and the pointer to its entry. -/
def pageLookup (pgdir : ℕ) (va : Word) : PhysM (Option (ℕ × PtePtr)) := do
  match ← pgdirWalk pgdir va false with
  | none => pure none
  | some pte =>
    let pm ← get
    if ¬ present (pm.read pte) then pure none
    else
      let pp ← pa2page (pteAddr (pm.read pte))
      pure (some (pp, pte))

/-- `page_remove`: unmap the page at `va`; nothing happens if there is none. -/
def pageRemove (pgdir : ℕ) (va : Word) : PhysM Unit := do
  match ← pageLookup pgdir va with
  | none => pure ()
  | some (pp, pte) =>
    pageDecref pp
    modify fun pm => pm.write pte 0#32

/-- `page_insert`: map page `pp` at `va`. -/
def pageInsert (pgdir pp : ℕ) (va perm : Word) : PhysM (Except Errno Unit) := do
  match ← pgdirWalk pgdir va true with
  | none => pure (.error .noMem)
  | some pte =>
    let pm ← get
    if present (pm.read pte) ∧ pteAddr (pm.read pte) = page2pa pp then
      modify fun pm => pm.write pte (page2pa pp ||| perm ||| PTE_P)
      pure (.ok ())
    else
      (if present (pm.read pte) then pageRemove pgdir va else pure ())
      incref pp
      modify fun pm => pm.write pte (page2pa pp ||| PTE_P ||| perm)
      modify fun pm => pm.write ⟨pgdir, pdx va⟩ (pm.mem pgdir (pdx va) ||| perm)
      pure (.ok ())

/-! ## Checking user pointers -/

/-- The test `user_mem_check` applies to the entry of one page: present, and
granting `perm`. -/
def pteAllows (pm : PhysMem) (perm : Word) : Option PtePtr → Bool
  | none => false
  | some pte => present (pm.read pte) && grants (pm.read pte) perm

/-- The loop of `user_mem_check`, page by page from `start` to `stop`.  The
first argument bounds the number of pages; an address space has `2 ^ 20`. -/
def userMemCheckLoop (pgdir : ℕ) (va perm : Word) : ℕ → Word → Word → PhysM (Except Errno Unit)
  | 0, _, _ => pure (.ok ())
  | n + 1, start, stop =>
    if start < stop then do
      let pte ← pgdirWalk pgdir start false
      let pm ← get
      if start ≥ ULIM ∨ pteAllows pm perm pte = false then
        modify fun pm => { pm with userMemCheckAddr := if start > va then start else va }
        pure (.error .fault)
      else
        userMemCheckLoop pgdir va perm n (start + BitVec.ofNat 32 PGSIZE) stop
    else
      pure (.ok ())

/-- `ROUNDDOWN(a, PGSIZE)`. -/
def roundDown (a : Word) : Word := a - a % BitVec.ofNat 32 PGSIZE

/-- `ROUNDUP(a, PGSIZE)`. -/
def roundUp (a : Word) : Word := roundDown (a + BitVec.ofNat 32 PGSIZE - 1#32)

theorem roundDown_toNat (a : Word) : (roundDown a).toNat = a.toNat / 4096 * 4096 := by
  have ha := a.isLt
  have hmod : (a % BitVec.ofNat 32 PGSIZE).toNat = a.toNat % 4096 := by
    rw [BitVec.toNat_umod]
    rfl
  rw [roundDown, BitVec.toNat_sub, hmod]
  omega

theorem roundUp_toNat (a : Word) :
    (roundUp a).toNat = (a.toNat + 4095) % 2 ^ 32 / 4096 * 4096 := by
  have hsum : (a + BitVec.ofNat 32 PGSIZE - 1#32).toNat = (a.toNat + 4095) % 2 ^ 32 := by
    have hone : (1#32).toNat = 1 := by decide
    have hpage : (BitVec.ofNat 32 PGSIZE).toNat = 4096 := by decide
    rw [BitVec.toNat_sub, BitVec.toNat_add, hpage, hone]
    omega
  rw [roundUp, roundDown_toNat, hsum]

/-- `user_mem_check`: may the owner of `pgdir` access `[va, va + len)` with
`perm | PTE_P`?  If not, `user_mem_check_addr` is set to the first erroneous
address. -/
def userMemCheck (pgdir : ℕ) (va len perm : Word) : PhysM (Except Errno Unit) :=
  userMemCheckLoop pgdir va perm (2 ^ 20) (roundDown va) (roundUp (va + len))

/-! ## Mappings of the kernel -/

/-- The loop of `boot_map_region`: map `n` pages from `va` to those from `pa`. -/
def bootMapLoop (pgdir : ℕ) (perm : Word) : ℕ → Word → Word → PhysM Unit
  | 0, _, _ => pure ()
  | n + 1, va, pa => do
      match ← pgdirWalk pgdir va true with
      | none => throw .bootMapRegion
      | some pte =>
        modify fun pm => pm.write pte (pa ||| perm ||| PTE_P)
        bootMapLoop pgdir perm n (va + BitVec.ofNat 32 PGSIZE) (pa + BitVec.ofNat 32 PGSIZE)

/-- `boot_map_region`. -/
def bootMapRegion (pgdir : ℕ) (va size pa perm : Word) : PhysM Unit :=
  let pgs := size.toNat / PGSIZE
  bootMapLoop pgdir perm (if size.toNat % PGSIZE ≠ 0 then pgs + 1 else pgs) va pa

end Jos
