import Jos.Kern.Windows

/-!
# How much memory there is, and which of it the kernel can reach

`i386_detect_memory` reads the size of physical memory from the registers of
the real-time clock, `page_init` puts what is not in use on the free list, and
the kernel reaches a free page at `page2kva`, through the part of `kern_pgdir`
that maps physical memory at `KERNBASE`.

The free list is what the comments of `page_init` say
(`pageInit_lists`), and no page of it lies in the hole below the kernel or in
the kernel itself.  The map at `KERNBASE` ends with the address space, after
65536 pages; the registers can say more than that, and no one compares the two
(`listed_addressable_iff`).
-/

namespace Jos

/-! ## The registers of the clock -/

/-- The NVRAM of the real-time clock, register by register. -/
abbrev Nvram := ℕ → BitVec 8

/-- Start of NVRAM. -/
def MC_NVRAM_START : ℕ := 0xe

/-- Base memory size. -/
def NVRAM_BASELO : ℕ := MC_NVRAM_START + 7

/-- Extended memory size, between 1MB and 16MB. -/
def NVRAM_EXTLO : ℕ := MC_NVRAM_START + 9

/-- Extended memory size, between 16MB and 4G. -/
def NVRAM_EXT16LO : ℕ := MC_NVRAM_START + 38

/-- `nvram_read`. -/
def nvramRead (cmos : Nvram) (r : ℕ) : ℕ := (cmos r).toNat ||| (cmos (r + 1)).toNat <<< 8

/-- `totalmem` of `i386_detect_memory`, in kilobytes. -/
def totalmem (cmos : Nvram) : ℕ :=
  if nvramRead cmos NVRAM_EXT16LO * 64 ≠ 0 then
    16 * 1024 + nvramRead cmos NVRAM_EXT16LO * 64
  else if nvramRead cmos NVRAM_EXTLO ≠ 0 then
    1 * 1024 + nvramRead cmos NVRAM_EXTLO
  else
    nvramRead cmos NVRAM_BASELO

/-- Where `boot_alloc` stands when `page_init` asks it: behind the image, which
is linked at `KERNBASE + EXTPHYSMEM`, and behind `kern_pgdir`. -/
structure KernelEnd where
  /-- The virtual address that `boot_alloc(0)` returns. -/
  addr : Word
  /-- The page of `kern_pgdir`. -/
  pgdir : ℕ
  addr_ge : KERNBASE.toNat ≤ addr.toNat
  pgdir_ge : 0x100000 / PGSIZE ≤ pgdir
  pgdir_lt : pgdir < (addr - KERNBASE).toNat / PGSIZE

/-- `i386_detect_memory`, together with where the kernel ends. -/
def i386DetectMemory (cmos : Nvram) (e : KernelEnd) : BootInfo where
  npages := totalmem cmos / (PGSIZE / 1024)
  npagesBasemem := nvramRead cmos NVRAM_BASELO / (PGSIZE / 1024)
  nextfree := (e.addr - KERNBASE).toNat
  kernPgdir := e.pgdir

variable {i : ℕ} {pm : PhysMem}

section Detect

variable {cmos : Nvram} {e : KernelEnd}

theorem nvramRead_lt (r : ℕ) : nvramRead cmos r < 2 ^ 16 := by
  refine Nat.or_lt_two_pow (lt_trans (cmos r).isLt (by decide)) ?_
  have h := (cmos (r + 1)).isLt
  rw [Nat.shiftLeft_eq]
  omega

theorem i386DetectMemory_npages : (i386DetectMemory cmos e).npages = totalmem cmos / 4 := rfl

theorem i386DetectMemory_basemem :
    (i386DetectMemory cmos e).npagesBasemem = nvramRead cmos NVRAM_BASELO / 4 := rfl

theorem i386DetectMemory_kernelEndPage :
    (i386DetectMemory cmos e).kernelEndPage = (e.addr - KERNBASE).toNat / PGSIZE := rfl

/-- Only the register for memory above 16MB can report more than 256MB. -/
theorem npages_le_iff (hbase : nvramRead cmos NVRAM_BASELO ≤ 640) :
    (i386DetectMemory cmos e).npages ≤ 65536 ↔ nvramRead cmos NVRAM_EXT16LO ≤ 3840 := by
  have hext : nvramRead cmos NVRAM_EXTLO < 2 ^ 16 := nvramRead_lt _
  rw [i386DetectMemory_npages, totalmem]
  split_ifs <;> omega

/-- The kernel ends within the 256MB behind `KERNBASE`. -/
theorem kernelEndPage_lt : (i386DetectMemory cmos e).kernelEndPage < 65536 := by
  have haddr := e.addr.isLt
  have hge := e.addr_ge
  have hbase : KERNBASE.toNat = 0xF0000000 := by decide
  rw [i386DetectMemory_kernelEndPage, BitVec.toNat_sub_of_le hge, hbase, PGSIZE]
  omega

theorem pgdir_not_avail (hbase : nvramRead cmos NVRAM_BASELO ≤ 640) :
    ¬ (i386DetectMemory cmos e).Avail e.pgdir := by
  have hge := e.pgdir_ge
  have hlt := e.pgdir_lt
  rw [PGSIZE] at hge
  refine fun hav => hav.2 (Or.inr (Or.inl ⟨?_, hlt⟩))
  rw [i386DetectMemory_basemem]
  omega

/-- The last page of a memory beyond the window is available. -/
theorem avail_last (hn : 65536 < (i386DetectMemory cmos e).npages) :
    (i386DetectMemory cmos e).Avail ((i386DetectMemory cmos e).npages - 1) := by
  have hend : (i386DetectMemory cmos e).kernelEndPage < 65536 := kernelEndPage_lt
  have hmp : MPENTRY_PADDR / PGSIZE < 65536 := by decide
  refine ⟨by omega, ?_⟩
  rintro (h | h | h) <;> omega

/-- Available pages lie in base memory or behind the kernel. -/
theorem avail_outside (hbase : nvramRead cmos NVRAM_BASELO ≤ 640)
    (h : (i386DetectMemory cmos e).Avail i) :
    i < 0xA0000 / PGSIZE ∨ (i386DetectMemory cmos e).kernelEndPage ≤ i := by
  have hb : (i386DetectMemory cmos e).npagesBasemem ≤ 0xA0000 / PGSIZE := by
    rw [i386DetectMemory_basemem, PGSIZE]
    omega
  have hres := h.2
  rw [BootInfo.Reserved] at hres
  omega

end Detect

/-! ## The map at `KERNBASE` -/

/-- What is mapped above `KERNBASE` stays as it is. -/
def KeepsKernbase (m m' : PageMap) : Prop := ∀ a, KERNBASE.toNat ≤ a.toNat → m' a = m a

instance : IsPreorder PageMap KeepsKernbase where
  refl _ _ _ := rfl
  trans _ _ _ h h' a ha := (h' a ha).trans (h a ha)

/-- The stacks of the processors end at `KERNBASE`. -/
theorem lays_memInitMp_below {b : BootInfo} (cfg : BootConfig) :
    Lays b (memInitMp cfg b.kernPgdir) fun _ => KeepsKernbase := by
  refine lays_kstacks cfg fun i va pa m m' hi hva hpa h a ha => ?_
  have hbase : KERNBASE.toNat = 0xF0000000 := by decide
  rw [h a, if_neg]
  rw [pgnum_eq, pgnum_eq, hva]
  omega

/-- **Physical memory at `KERNBASE`.**  `mem_init` maps every page up to the end
of the address space. -/
theorem memInit_kernbase {cfg : BootConfig} {pm' : PhysMem} {base : Word}
    (hk : ¬ pm.boot.Avail pm.boot.kernPgdir) (hf : pm.pageFreeList = none)
    (hrun : memInit cfg pm = .ok base pm') (hi : i < 65536) :
    kernMap pm' (page2pa i + KERNBASE) = page2pa i ||| PTE_W ||| PTE_P := by
  obtain ⟨mm, pm₁, ht₁, -, hrest⟩ := memInit_lower hk hf hrun
  obtain ⟨⟨⟩, pm₂, h₂, hrest⟩ := run_bind_inv hrest
  obtain ⟨ht₂, -⟩ := (lays_bootstack cfg).lays ht₁ h₂
  obtain ⟨⟨⟩, pm₃, h₃, hrest⟩ := run_bind_inv hrest
  obtain ⟨ht₃, hr⟩ := lays_kernbase.lays ht₂ h₃
  have hafter : Lays pm.boot (do
      memInitMp cfg pm.boot.kernPgdir
      checkKernPgdir
      modify cfg.installedTests.run
      pure mm) fun _ => KeepsKernbase := by
    refine lays_bind (lays_memInitMp_below cfg) fun _ => ?_
    refine lays_bind lays_checkKernPgdir fun _ => ?_
    exact lays_bind (lays_selfTest cfg.installedTests) fun _ => lays_pure
  obtain ⟨-, hkeep⟩ := hafter.lays ht₃ hrest
  -- the address is `KERNBASE` and `i` pages more, without a carry
  have hpa : (page2pa i).toNat = i * 4096 := by
    rw [page2pa, BitVec.toNat_shiftLeft, BitVec.toNat_ofNat, Nat.shiftLeft_eq]
    omega
  have hbase : KERNBASE.toNat = 0xF0000000 := by decide
  have hkva : (page2pa i + KERNBASE).toNat = 0xF0000000 + i * 4096 := by
    rw [BitVec.toNat_add, hpa, hbase]
    omega
  have hcount : pageCount (0xffffffff#32 - KERNBASE) = 65536 := by decide
  have hoff : pgnum (page2pa i + KERNBASE) - pgnum KERNBASE = i := by
    rw [pgnum_eq, pgnum_eq, hkva, hbase]
    omega
  have hsum : 0#32 + BitVec.ofNat 32 (i * PGSIZE) = page2pa i := by
    refine BitVec.eq_of_toNat_eq ?_
    rw [BitVec.zero_add, BitVec.toNat_ofNat, hpa, PGSIZE]
    omega
  rw [hkeep _ (by rw [hkva, hbase]; omega), hr, if_pos, hoff, hsum]
  rw [hcount, pgnum_eq, pgnum_eq, hkva, hbase]
  omega

/-! ## The free list -/

/-- What the kernel asks of a page before it touches it through `page2kva`. -/
structure Addressable (pm : PhysMem) (i : ℕ) : Prop where
  /-- The sum in `page2kva` is a 32-bit address. -/
  noWrap : i * PGSIZE + KERNBASE.toNat < 2 ^ 32
  /-- `KADDR` does not panic. -/
  valid : pgnum (page2pa i) < pm.boot.npages
  /-- Once `mem_init` is through, `kern_pgdir` maps the address to the page. -/
  window : ∀ cfg base pm', memInit cfg pm = .ok base pm' →
    kernMap pm' (page2pa i + KERNBASE) = page2pa i ||| PTE_W ||| PTE_P

theorem addressable_of_lt (hk : ¬ pm.boot.Avail pm.boot.kernPgdir) (hf : pm.pageFreeList = none)
    (hi : i < pm.boot.npages) (hn : pm.boot.npages ≤ 65536) : Addressable pm i where
  noWrap := by
    have hbase : KERNBASE.toNat = 0xF0000000 := by decide
    rw [hbase, PGSIZE]
    omega
  valid := by rwa [pgnum_page2pa (by omega)]
  window _ _ _ hrun := memInit_kernbase hk hf hrun (by omega)

/-- The pages that `page_init` leaves on the free list. -/
structure Lists (b : BootInfo) (pm : PhysMem) (l : List ℕ) : Prop where
  chain : Chain pm.alloc.link pm.alloc.head l
  nodup : l.Nodup
  mem_iff : ∀ i, i ∈ l ↔ 0 < i ∧ i < b.npages ∧ i ≠ MPENTRY_PADDR / PGSIZE ∧
    ¬ (b.npagesBasemem ≤ i ∧ i < b.kernelEndPage)

theorem avail_iff_listed {b : BootInfo} :
    b.Avail i ↔ 0 < i ∧ i < b.npages ∧ i ≠ MPENTRY_PADDR / PGSIZE ∧
      ¬ (b.npagesBasemem ≤ i ∧ i < b.kernelEndPage) := by
  rw [BootInfo.Avail, BootInfo.Reserved]
  omega

theorem pageInit_lists (hf : pm.pageFreeList = none) :
    ∃ pm₁ l, pageInit pm = .ok () pm₁ ∧ Lists pm.boot pm₁ l := by
  obtain ⟨pm₁, hrun, -, -, ⟨l, hc, hnd, hmem⟩, -⟩ := pageInit_spec hf
  exact ⟨pm₁, l, hrun, hc, hnd, fun i => (hmem i).trans avail_iff_listed⟩

/-- **Free pages and the window at `KERNBASE`.**  Whatever the clock says,
`page_init` lists the pages its comments promise, outside the hole and the
kernel; the kernel can address them all iff there are at most 240MB above the first
16MB, 3840 units of 64K, so that memory is not larger than the window. -/
theorem listed_addressable_iff (cmos : Nvram) (e : KernelEnd) (pm : PhysMem)
    (hbase : nvramRead cmos NVRAM_BASELO ≤ 640) (hboot : pm.boot = i386DetectMemory cmos e)
    (hf : pm.pageFreeList = none) :
    ∃ pm₁ l, pageInit pm = .ok () pm₁ ∧ Lists (i386DetectMemory cmos e) pm₁ l ∧
      (∀ i ∈ l, i < 0xA0000 / PGSIZE ∨ (i386DetectMemory cmos e).kernelEndPage ≤ i) ∧
      ((∀ i ∈ l, Addressable pm i) ↔ nvramRead cmos NVRAM_EXT16LO ≤ 3840) := by
  obtain ⟨pm₁, l, hrun, hl⟩ := pageInit_lists hf
  rw [hboot] at hl
  have hmem : ∀ i, i ∈ l ↔ (i386DetectMemory cmos e).Avail i := fun i =>
    (hl.mem_iff i).trans avail_iff_listed.symm
  refine ⟨pm₁, l, hrun, hl, fun i hi => avail_outside hbase ((hmem i).1 hi), ?_⟩
  rw [← npages_le_iff (e := e) hbase]
  constructor
  · -- the last page is listed, and its address wraps around
    intro hall
    by_contra hbig
    have hlast := (hall _ ((hmem _).2 (avail_last (Nat.lt_of_not_le hbig)))).noWrap
    have hkern : KERNBASE.toNat = 0xF0000000 := by decide
    rw [hkern, PGSIZE] at hlast
    omega
  · intro hsmall i hi
    refine addressable_of_lt ?_ hf ?_ (hboot ▸ hsmall)
    · rw [hboot]
      exact pgdir_not_avail hbase
    · rw [hboot]
      exact ((hmem i).1 hi).1

/-- A clock that reports 640K of base memory and `n` units of 64K above 16MB,
`n` being a multiple of 256. -/
def clockOf (n : BitVec 8) : Nvram := fun r =>
  if r = 0x15 then 0x80#8 else if r = 0x16 then 0x02#8 else if r = 0x35 then n else 0#8

/-- Where the kernel of `plainConfig` ends. -/
def plainEnd : KernelEnd where
  addr := 0xF01E0000#32
  pgdir := 384
  addr_ge := by decide
  pgdir_ge := by decide
  pgdir_lt := by decide

theorem plainEnd_boot : i386DetectMemory (clockOf 7#8) plainEnd = ⟨32768, 160, 0x1E0000, 384⟩ := by
  decide

/-- With 128MB all is well, and `mem_init` does return. -/
theorem listed_addressable_plainConfig :
    (∃ pm₁ l, pageInit (plainConfig.reset ⟨32768, 160, 0x1E0000, 384⟩).pm = .ok () pm₁ ∧
      Lists ⟨32768, 160, 0x1E0000, 384⟩ pm₁ l ∧
      ∀ i ∈ l, Addressable (plainConfig.reset ⟨32768, 160, 0x1E0000, 384⟩).pm i) ∧
    ∃ base pm', memInit plainConfig (plainConfig.reset ⟨32768, 160, 0x1E0000, 384⟩).pm
      = .ok base pm' := by
  obtain ⟨pm₁, l, hrun, hl, -, hiff⟩ := listed_addressable_iff (clockOf 7#8) plainEnd
    (plainConfig.reset ⟨32768, 160, 0x1E0000, 384⟩).pm (by decide) plainEnd_boot.symm rfl
  rw [plainEnd_boot] at hl
  exact ⟨⟨pm₁, l, hrun, hl, hiff.2 (by decide)⟩,
    memInit_returns plainConfig_bootInfo (by decide) (le_trans (by decide) plainConfig_avail)⟩

/-- With 512MB the free list has page 131071, and its kernel address wraps
around to one of user memory. -/
theorem listed_page_wraps :
    ∃ pm₁ l, pageInit (plainConfig.reset (i386DetectMemory (clockOf 31#8) plainEnd)).pm
        = .ok () pm₁ ∧
      Chain pm₁.alloc.link pm₁.alloc.head l ∧ 131071 ∈ l ∧
      page2pa 131071 + KERNBASE = 0x0FFFF000#32 ∧
      ¬ Addressable (plainConfig.reset (i386DetectMemory (clockOf 31#8) plainEnd)).pm 131071 := by
  obtain ⟨pm₁, l, hrun, hl⟩ :=
    @pageInit_lists (plainConfig.reset (i386DetectMemory (clockOf 31#8) plainEnd)).pm rfl
  refine ⟨pm₁, l, hrun, hl.chain, (hl.mem_iff _).2 ?_, by decide, fun h => ?_⟩
  · show 0 < 131071 ∧ 131071 < (i386DetectMemory (clockOf 31#8) plainEnd).npages ∧ _
    decide
  · exact absurd h.noWrap (by decide)

end Jos
