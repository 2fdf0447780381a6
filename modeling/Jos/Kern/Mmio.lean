import Jos.Kern.Windows

/-!
# Device memory

`mmio_map_region` hands out addresses from `MMIOBASE` on, one region after the
other, and maps them to the memory of a device.  Where the next region starts
is kept in a static variable, so what holds of the regions is a property of the
whole sequence of calls.

* `mmioMapRegions` — a sequence of calls; `Laid` — the regions are disjoint,
  inside the window, and mapped as asked, with nothing else changed.
* `laid_mmioMapRegions` — the invariant, by induction on the calls: the next
  region starts behind everything handed out so far.
* `mmioMapRegions_laid_iff` — a sequence that returns is laid out properly if and
  only if no size is so large that rounding it up to a page wraps.
-/

namespace Jos

/-! ## Sequences of calls -/

/-- A region that `mmio_map_region` returned, with the request it was returned for. -/
structure MmioRegion where
  start : Word
  pa : Word
  size : Word
  deriving DecidableEq, Repr

/-- `mmio_map_region(pa, size)` for one request after the other.  The first
argument is the static variable `base`; a call returns its value from before. -/
def mmioMapRegions (kernPgdir : ℕ) : Word → List (Word × Word) → PhysM (List MmioRegion)
  | _, [] => pure []
  | base, (pa, size) :: calls => do
      let base' ← mmioMapRegion kernPgdir base pa size
      let rest ← mmioMapRegions kernPgdir base' calls
      pure (⟨base, pa, size⟩ :: rest)

/-- The bytes of a region. -/
def MmioRegion.Has (r : MmioRegion) (a : ℕ) : Prop :=
  r.start.toNat ≤ a ∧ a < r.start.toNat + r.size.toNat

/-- Some byte of the region is on the page of `va`. -/
def MmioRegion.OnPage (r : MmioRegion) (va : Word) : Prop :=
  ∃ a, r.Has a ∧ a / PGSIZE = pgnum va

/-- Address `va` is mapped to the device's address `pa`: writable, not cached,
not for user code. -/
structure DeviceMapped (m : PageMap) (va pa : Word) : Prop where
  address : pgnum (m va) * PGSIZE + va.toNat % PGSIZE = pa.toNat
  device : grants (m va) (PTE_P ||| PTE_W ||| PTE_PCD ||| PTE_PWT) = true
  kernel : grants (m va) PTE_U = false

/-- The regions `rs` answer `calls`, from address `lo` on, and the view of
`kern_pgdir` went from `m` to `m'` for them. -/
structure Laid (lo : Word) (calls : List (Word × Word)) (rs : List MmioRegion)
    (m m' : PageMap) : Prop where
  answers : rs.map (fun r => (r.pa, r.size)) = calls
  aligned : ∀ r ∈ rs, pgoff r.start = 0#32
  inside : ∀ r ∈ rs, lo.toNat ≤ r.start.toNat ∧ r.start.toNat + r.size.toNat ≤ MMIOLIM.toNat
  disjoint : rs.Pairwise fun r s => ∀ a, ¬ (r.Has a ∧ s.Has a)
  mapped : ∀ r ∈ rs, ∀ k < r.size.toNat,
    DeviceMapped m' (r.start + BitVec.ofNat 32 k) (r.pa + BitVec.ofNat 32 k)
  others : ∀ va, (∀ r ∈ rs, ¬ r.OnPage va) → m' va = m va

theorem MMIOLIM_toNat : MMIOLIM.toNat = 0xEFC00000 := by decide

/-! ## One call -/

/-- Page-aligned addresses, as numbers. -/
theorem toNat_mod_of_pgoff {a : Word} (h : pgoff a = 0#32) : a.toNat % 4096 = 0 := by
  have h' := congrArg BitVec.toNat h
  rwa [pgoff_toNat] at h'

theorem pgoff_of_toNat_mod {a : Word} (h : a.toNat % 4096 = 0) : pgoff a = 0#32 :=
  BitVec.eq_of_toNat_eq (by rw [pgoff_toNat, h]; rfl)

/-- Rounding up, as long as it does not wrap. -/
theorem roundUp_toNat_of_le {size : Word} (h : size.toNat ≤ 0xFFFFF000) :
    (roundUp size).toNat = (size.toNat + 4095) / 4096 * 4096 := by
  rw [roundUp_toNat]
  omega

theorem pageCount_roundUp (size : Word) :
    pageCount (roundUp size) * 4096 = (roundUp size).toNat := by
  have hsize := roundUp_toNat size
  rw [pageCount, PGSIZE, hsize]
  split <;> omega

section Call

variable {b : BootInfo} {base pa size : Word} {m m' : PageMap} {n : ℕ}

/-- What the entries of a region of device memory are. -/
abbrev DeviceRegion (va pa : Word) (n : ℕ) (m m' : PageMap) : Prop :=
  Region va pa (PTE_W ||| PTE_PCD ||| PTE_PWT) n m m'

/-- A call that returns: the region fits below `MMIOLIM`, and it is mapped. -/
theorem lays_mmioMapRegion_region (hpa : pgoff pa = 0#32) (hlo : MMIOBASE.toNat ≤ base.toNat) :
    Lays b (mmioMapRegion b.kernPgdir base pa size) fun base' m m' =>
      base'.toNat = base.toNat + (roundUp size).toNat ∧ base'.toNat < MMIOLIM.toNat ∧
        DeviceRegion base pa (pageCount (roundUp size)) m m' := by
  have hulim : ULIM.toNat ≤ base.toNat := le_trans (by decide) hlo
  refine (lays_deviceRegion hpa hulim).mono fun base' m m' h => ?_
  obtain ⟨rfl, hno, hr⟩ := h
  -- the second test of the code says that the sum did not wrap
  rw [not_or, ge_iff_le, BitVec.not_le, BitVec.not_lt, BitVec.lt_def, BitVec.le_def,
    BitVec.toNat_add] at hno
  rw [BitVec.toNat_add]
  exact ⟨by omega, hno.1, hr⟩

/-- The entry of byte `k` of a region. -/
theorem Region.entry {perm : Word} {k : ℕ} (hr : Region base pa perm n m m')
    (hbase : pgoff base = 0#32) (hfit : base.toNat + n * 4096 ≤ 2 ^ 32) (hk : k < n * 4096) :
    m' (base + BitVec.ofNat 32 k)
      = pa + BitVec.ofNat 32 (k / 4096 * PGSIZE) ||| perm ||| PTE_P := by
  have hmod := toNat_mod_of_pgoff hbase
  have hnum : pgnum (base + BitVec.ofNat 32 k) = pgnum base + k / 4096 := by
    rw [pgnum_eq, pgnum_eq, BitVec.toNat_add, BitVec.toNat_ofNat]
    omega
  rw [hr, hnum, if_pos ⟨by omega, by omega⟩, Nat.add_sub_cancel_left]

/-- Every byte of a region of device memory is mapped. -/
theorem Region.deviceMapped {k : ℕ} (hr : DeviceRegion base pa n m m') (hbase : pgoff base = 0#32)
    (hpa : pgoff pa = 0#32) (hfit : base.toNat + n * 4096 ≤ 2 ^ 32) (hk : k < n * 4096) :
    DeviceMapped m' (base + BitVec.ofNat 32 k) (pa + BitVec.ofNat 32 k) := by
  have hentry := hr.entry hbase hfit hk
  have hoff := pgoff_add_pages hpa (k / 4096)
  refine ⟨?_, ?_, ?_⟩
  · have hflags : FlagsOnly (PTE_W ||| PTE_PCD ||| PTE_PWT) := by decide
    have hb := toNat_mod_of_pgoff hbase
    have hp := toNat_mod_of_pgoff hpa
    rw [hentry, pgnum_or_flags flagsOnly_PTE_P, pgnum_or_flags hflags, pgnum_eq, PGSIZE]
    simp only [BitVec.toNat_add, BitVec.toNat_ofNat]
    omega
  · rw [hentry, grants_aligned hoff (by decide)]
    decide
  · rw [hentry, grants_aligned hoff (by decide)]
    decide

end Call

/-! ## All calls -/

section Calls

variable {b : BootInfo} {base base' pa size : Word} {m m₁ m' : PageMap}
  {calls : List (Word × Word)} {rs : List MmioRegion}

theorem Laid.nil (lo : Word) (m : PageMap) : Laid lo [] [] m m where
  answers := rfl
  aligned := by simp
  inside := by simp
  disjoint := .nil
  mapped := by simp
  others _ _ := rfl

/-- A bound further down. -/
theorem Laid.mono {lo lo' : Word} (hle : lo'.toNat ≤ lo.toNat) (h : Laid lo calls rs m m') :
    Laid lo' calls rs m m' :=
  { h with inside := fun r hr => ⟨le_trans hle (h.inside r hr).1, (h.inside r hr).2⟩ }

/-- Regions from an aligned address on have no byte on a page below it. -/
theorem Laid.not_onPage {va : Word} (h : Laid base' calls rs m₁ m') (hbase : pgoff base' = 0#32)
    (hva : va.toNat < base'.toNat) : ∀ r ∈ rs, ¬ r.OnPage va := by
  rintro r hr ⟨a, ha, hpage⟩
  have hlo := (h.inside r hr).1
  have hmod := toNat_mod_of_pgoff hbase
  rw [pgnum_eq, PGSIZE] at hpage
  have hge := ha.1
  omega

/-- One more region, in front of the others. -/
theorem Laid.cons (h : Laid base' calls rs m₁ m')
    (hr : DeviceRegion base pa (pageCount (roundUp size)) m m₁)
    (hbase : pgoff base = 0#32) (hpa : pgoff pa = 0#32) (hsize : size.toNat ≤ 0xFFFFF000)
    (hnext : base'.toNat = base.toNat + (roundUp size).toNat) (hlim : base'.toNat < MMIOLIM.toNat) :
    Laid base ((pa, size) :: calls) (⟨base, pa, size⟩ :: rs) m m' := by
  have hcount := pageCount_roundUp size
  have hround := roundUp_toNat_of_le hsize
  have hmod := toNat_mod_of_pgoff hbase
  have hmod' : pgoff base' = 0#32 := pgoff_of_toNat_mod (by omega)
  have hfit : base.toNat + pageCount (roundUp size) * 4096 ≤ 2 ^ 32 := by
    rw [MMIOLIM_toNat] at hlim
    omega
  refine ⟨by simp [h.answers], ?_, ?_, ?_, ?_, ?_⟩
  · exact List.forall_mem_cons.2 ⟨hbase, h.aligned⟩
  · refine List.forall_mem_cons.2 ⟨⟨le_refl _, ?_⟩, fun r hmem => ?_⟩
    · show base.toNat + size.toNat ≤ MMIOLIM.toNat
      omega
    · have hin := h.inside r hmem
      exact ⟨by omega, hin.2⟩
  · refine List.pairwise_cons.2 ⟨fun r hmem a hboth => ?_, h.disjoint⟩
    have hin := (h.inside r hmem).1
    have hfst : a < base.toNat + size.toNat := hboth.1.2
    have hsnd := hboth.2.1
    omega
  · refine List.forall_mem_cons.2 ⟨fun k hk => ?_, h.mapped⟩
    have hk' : k < size.toNat := hk
    have hva : (base + BitVec.ofNat 32 k).toNat < base'.toNat := by
      rw [BitVec.toNat_add, BitVec.toNat_ofNat]
      omega
    -- the later calls leave the pages below `base'` as this one mapped them
    have hsame := h.others _ (h.not_onPage hmod' hva)
    have hmapped := hr.deviceMapped (k := k) hbase hpa hfit (by omega)
    exact ⟨by rw [hsame]; exact hmapped.address, by rw [hsame]; exact hmapped.device,
      by rw [hsame]; exact hmapped.kernel⟩
  · intro va hout
    obtain ⟨hfirst, hrest⟩ := List.forall_mem_cons.1 hout
    rw [h.others va hrest, hr va, if_neg]
    rintro ⟨hge, hlt⟩
    -- a page of the region has its first byte in the region
    refine hfirst ⟨pgnum va * 4096, ⟨?_, ?_⟩, by rw [PGSIZE]; omega⟩
    · show base.toNat ≤ pgnum va * 4096
      rw [pgnum_eq base] at hge
      omega
    · show pgnum va * 4096 < base.toNat + size.toNat
      rw [pgnum_eq base] at hlt
      omega

/-- Calls with sizes that can be rounded up lay out their regions from `base` on. -/
theorem laid_mmioMapRegions : ∀ (calls : List (Word × Word)) (base : Word),
    pgoff base = 0#32 → MMIOBASE.toNat ≤ base.toNat → (∀ c ∈ calls, pgoff c.1 = 0#32) →
    (∀ c ∈ calls, c.2.toNat ≤ 0xFFFFF000) →
    Lays b (mmioMapRegions b.kernPgdir base calls) fun rs => Laid base calls rs := by
  intro calls
  induction calls with
  | nil =>
    intro base _ _ _ _
    refine ⟨fun {pm a pm'} h hrun => ?_⟩
    cases hrun
    exact ⟨h, Laid.nil base _⟩
  | cons c calls ih =>
    obtain ⟨pa, size⟩ := c
    intro base hbase hlo halign hsize
    obtain ⟨hpa, halign⟩ := List.forall_mem_cons.1 halign
    obtain ⟨hle, hsize⟩ := List.forall_mem_cons.1 hsize
    refine ⟨fun {pm a pm'} h hrun => ?_⟩
    obtain ⟨base', pm₁, hcall, hrun⟩ := run_bind_inv hrun
    obtain ⟨rest, pm₂, hrest, hret⟩ := run_bind_inv hrun
    cases hret
    obtain ⟨hk₁, hnext, hlim, hr⟩ := (lays_mmioMapRegion_region hpa hlo).lays h hcall
    have hbase' : pgoff base' = 0#32 := by
      have hmod := toNat_mod_of_pgoff hbase
      have hround := roundUp_toNat size
      exact pgoff_of_toNat_mod (by omega)
    obtain ⟨hk₂, hlaid⟩ := (ih base' hbase' (by omega) halign hsize).lays hk₁ hrest
    exact ⟨hk₂, hlaid.cons hr hbase hpa hle hnext hlim⟩

/-- A region inside the window is far smaller than the sizes that wrap. -/
theorem Laid.size_le {lo : Word} (h : Laid lo calls rs m m') :
    ∀ c ∈ calls, c.2.toNat ≤ 0xFFFFF000 := by
  intro c hc
  rw [← h.answers] at hc
  obtain ⟨r, hr, rfl⟩ := List.mem_map.1 hc
  have hin := (h.inside r hr).2
  rw [MMIOLIM_toNat] at hin
  show r.size.toNat ≤ 0xFFFFF000
  omega

end Calls

/-! ## After `mem_init` -/

theorem mmioMapRegions_nil (kernPgdir : ℕ) (base : Word) (pm : PhysMem) :
    mmioMapRegions kernPgdir base [] pm = .ok [] pm := rfl

variable {pm : PhysMem} {b : BootInfo}

theorem mmioMapRegions_cons {kernPgdir : ℕ} {base base' pa size : Word} {calls : List (Word × Word)}
    {rs : List MmioRegion} {pm₁ pm' : PhysMem}
    (hcall : mmioMapRegion kernPgdir base pa size pm = .ok base' pm₁)
    (hrest : mmioMapRegions kernPgdir base' calls pm₁ = .ok rs pm') :
    mmioMapRegions kernPgdir base ((pa, size) :: calls) pm
      = .ok (⟨base, pa, size⟩ :: rs) pm' := by
  rw [mmioMapRegions, run_bind_ok hcall, run_bind_ok hrest]
  rfl

/-- Code that fits returns, as long as there is memory for page tables. -/
theorem Maps.returns {fits : Prop} {α : Type} {x : PhysM α} {Q : α → PhysMem → Prop} {n : ℕ}
    (hx : Maps fits b x Q) (hf : fits) (hk : KernMem b pm) (hrich : Rich n pm) :
    ∃ a pm', x pm = .ok a pm' ∧ KernMem b pm' ∧ Rich n pm' ∧ Q a pm' := by
  have hspec := hx.spec pm hk
  cases hrun : x pm with
  | error e pm' => exact absurd hrich ((wp_of_error hrun).1 hspec hf n)
  | ok a pm' =>
    obtain ⟨hk', hgrows, hq⟩ := (wp_of_ok hrun).1 hspec
    exact ⟨a, pm', rfl, hk', hgrows.rich n hrich, hq⟩

theorem mmioMapRegion_returns (base pa size : Word) (hk : KernMem b pm) (hrich : Rich 0 pm)
    (hpa : pgoff pa = 0#32) (hbase : ULIM.toNat ≤ base.toNat)
    (hfits : ¬ (base + roundUp size ≥ MMIOLIM ∨ base + roundUp size < base)) :
    ∃ pm', mmioMapRegion b.kernPgdir base pa size pm = .ok (base + roundUp size) pm' ∧
      KernMem b pm' ∧ Rich 0 pm' := by
  have hmaps : Maps True b (mmioMapRegion b.kernPgdir base pa size) _ :=
    maps_mmioMapRegion hpa hbase fun _ => hfits
  obtain ⟨base', pm', hrun, hk', hrich', rfl, -⟩ := hmaps.returns trivial hk hrich
  exact ⟨pm', hrun, hk', hrich'⟩

/-- The state in which the devices are mapped. -/
theorem memInit_tables {cfg : BootConfig} (hb : cfg.bootInfo = .ok b) (hn : b.npages ≤ 65536)
    (hcard : 1024 ≤ b.availSet.card) :
    ∃ pm, memInit cfg (cfg.reset b).pm = .ok mmioStart pm ∧ KernTables b pm ∧ Rich 0 pm := by
  have hk := kernPgdir_not_avail hb
  obtain ⟨base, pm, hrun⟩ := memInit_returns hb hn hcard
  have hspec : wp (memInit cfg) _ _ (cfg.reset b).pm := memInit_spec cfg hn hk rfl
  obtain ⟨-, rfl, hrich⟩ := (wp_of_ok hrun).1 hspec
  exact ⟨pm, hrun, (memInit_windows hk rfl hrun).1, hrich 0 hcard⟩

/-- What the machine of `plainConfig` boots with. -/
def plainBoot : BootInfo := ⟨32768, 160, 0x1E0000, 384⟩

theorem plainConfig_memInit :
    ∃ pm, memInit plainConfig (plainConfig.reset plainBoot).pm = .ok mmioStart pm ∧
      KernTables plainBoot pm ∧ Rich 0 pm :=
  memInit_tables plainConfig_bootInfo (by decide) (le_trans (by decide) plainConfig_avail)

/-- The regions of a sequence of calls that returns are aligned, disjoint, inside
`[MMIOBASE, MMIOLIM)` and mapped as asked, with all other mappings unchanged, if
and only if no size wraps when it is rounded up to a page. -/
theorem mmioMapRegions_laid_iff {b : BootInfo} {base : Word} {calls : List (Word × Word)}
    {rs : List MmioRegion} {pm pm' : PhysMem} (hk : KernTables b pm)
    (hbase : pgoff base = 0#32) (hlo : MMIOBASE.toNat ≤ base.toNat)
    (halign : ∀ c ∈ calls, pgoff c.1 = 0#32)
    (hrun : mmioMapRegions b.kernPgdir base calls pm = .ok rs pm') :
    Laid MMIOBASE calls rs (kernMap pm) (kernMap pm') ↔ ∀ c ∈ calls, c.2.toNat ≤ 0xFFFFF000 := by
  constructor
  · exact fun h => h.size_le
  · intro hsize
    exact ((laid_mmioMapRegions calls base hbase hlo halign hsize).lays hk hrun).2.mono hlo

/-- The local APIC, mapped after `mem_init`. -/
theorem mmioMapRegions_lapic :
    ∃ pm pm', memInit plainConfig (plainConfig.reset plainBoot).pm = .ok mmioStart pm ∧
      mmioMapRegions plainBoot.kernPgdir mmioStart [(0xFEE00000#32, 4096#32)] pm
        = .ok [⟨mmioStart, 0xFEE00000#32, 4096#32⟩] pm' ∧
      Laid MMIOBASE [(0xFEE00000#32, 4096#32)] [⟨mmioStart, 0xFEE00000#32, 4096#32⟩]
        (kernMap pm) (kernMap pm') := by
  obtain ⟨pm, hinit, hk, hrich⟩ := plainConfig_memInit
  obtain ⟨pm', hcall, -, -⟩ := mmioMapRegion_returns mmioStart 0xFEE00000#32 4096#32
    hk.toKernMem hrich (by decide) (by decide) (by decide)
  have hrun := mmioMapRegions_cons hcall (mmioMapRegions_nil _ _ _)
  exact ⟨pm, pm', hinit, hrun,
    (mmioMapRegions_laid_iff hk (by decide) (by decide) (List.forall_mem_singleton.2 (by decide))
      hrun).2 (List.forall_mem_singleton.2 (by decide))⟩

/-- A request for nearly all of the address space is rounded up to nothing: it
returns, nothing is mapped, and the next request gets the same address. -/
theorem mmioMapRegions_overlap :
    ∃ pm pm', memInit plainConfig (plainConfig.reset plainBoot).pm = .ok mmioStart pm ∧
      mmioMapRegions plainBoot.kernPgdir mmioStart
          [(0xFEE00000#32, 0xFFFFF001#32), (0xFEC00000#32, 4096#32)] pm
        = .ok [⟨mmioStart, 0xFEE00000#32, 0xFFFFF001#32⟩, ⟨mmioStart, 0xFEC00000#32, 4096#32⟩]
          pm' ∧
      ¬ Laid MMIOBASE [(0xFEE00000#32, 0xFFFFF001#32), (0xFEC00000#32, 4096#32)]
        [⟨mmioStart, 0xFEE00000#32, 0xFFFFF001#32⟩, ⟨mmioStart, 0xFEC00000#32, 4096#32⟩]
        (kernMap pm) (kernMap pm') := by
  obtain ⟨pm, hinit, hk, hrich⟩ := plainConfig_memInit
  have hzero : mmioStart + roundUp 0xFFFFF001#32 = mmioStart := by decide
  obtain ⟨pm₁, hfirst, hk₁, hrich₁⟩ := mmioMapRegion_returns mmioStart 0xFEE00000#32
    0xFFFFF001#32 hk.toKernMem hrich (by decide) (by decide) (by decide)
  rw [hzero] at hfirst
  obtain ⟨pm', hsecond, -, -⟩ := mmioMapRegion_returns mmioStart 0xFEC00000#32 4096#32
    hk₁ hrich₁ (by decide) (by decide) (by decide)
  have hrun := mmioMapRegions_cons hfirst
    (mmioMapRegions_cons hsecond (mmioMapRegions_nil _ _ _))
  exact ⟨pm, pm', hinit, hrun, fun h => absurd (h.size_le _ List.mem_cons_self) (by decide)⟩

end Jos
